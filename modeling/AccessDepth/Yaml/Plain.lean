import AccessDepth.Yaml.Cursor

/-!
# AccessDepth.Yaml.Plain

Texts without quotes.

* `Plain.starts` — whether such a text can start here.
* `Plain.read` — a text and what follows it. It ends before a colon that ends a key, a comment, a
  line that is not indented, and between brackets before a comma or a bracket; it may go on in
  further lines.
* `Plain.canWrite` — whether a text may be written without quotes.
-/

namespace AccessDepth
namespace Yaml
namespace Plain

/-- The characters that a plain text cannot start with. -/
def indicators : List Char :=
  [',', '[', ']', '\x7b', '\x7d', '#', '&', '*', '!', '|', '>', '\'', '"', '%', '@', '\x60']

/-- The characters that a plain text can start with if something stands behind them. -/
def softIndicators : List Char := ['-', '?', ':']

/-- The characters that end a plain text between brackets. -/
def flowIndicators : List Char := [',', '[', ']', '\x7b', '\x7d']

/-- Whether a plain text can start like this. A dash, question mark or colon must have something
behind it; between brackets only the dash may start a text. -/
def starts (inFlow : Bool) : List Char → Bool
  | [] => false
  | c :: cs =>
    if c = '-' then !(cs.head?.any isBlank)
    else if c = '?' ∨ c = ':' then !inFlow && !endsWord cs
    else !endsWord (c :: cs) && !indicators.contains c

/-- The characters up to the next blank, line break or end of the text; refused if a colon stands
right before a bracket or comma between brackets. -/
def word (inFlow : Bool) : List Char → Option (List Char)
  | [] => some []
  | c :: cs =>
    if isBlank c || isBreak c then some []
    else if inFlow && c = ':' && cs.head?.any (fun x => x = '?' || flowIndicators.contains x) then
      none
    else if (c = ':' && endsWord cs) || (inFlow && flowIndicators.contains c) then some []
    else (word inFlow cs).map (c :: ·)

/-- What is read: the text, whether line breaks follow it, and where the next token starts. -/
structure Reading where
  text : String
  endsLine : Bool
  after : Cursor

/-- The text from here on, after the characters that were read before, the last one first, and a
gap; `fuel` bounds the steps. -/
def readFrom (inFlow : Bool) (margin : Nat) :
    Nat → List Char → Gap → Cursor → Option Reading
  | 0, _, _, _ => none
  | fuel + 1, before, gap, c =>
    let stop (before : List Char) (isBroken : Bool) (c : Cursor) : Option Reading :=
      some ⟨String.ofList before.reverse, isBroken, c⟩
    if c.atMarker || c.sees '#' then stop before gap.isBroken c
    else
      (word inFlow c.rest).bind fun run =>
        let isBroken := run.isEmpty && gap.isBroken
        let before := if run.isEmpty then before else run.reverse ++ gap.text.reverse ++ before
        let c := c.skip run.length
        if !c.rest.isEmpty && c.atWordEnd then
          (Gap.read margin fuel c).bind fun (gap, c) =>
            if !inFlow && c.column < margin then stop before gap.isBroken c
            else readFrom inFlow margin fuel before gap c
        else stop before isBroken c

/-- The text here, if lines that go on with it are indented by `margin` at least. -/
def read (inFlow : Bool) (margin fuel : Nat) (c : Cursor) : Option Reading :=
  readFrom inFlow margin fuel [] ⟨[], [], false⟩ c

/-! ## Writing -/

/-- Whether the rest of a text holds no colon before a blank and no hash after one. -/
def isTail (afterBlank : Bool) : List Char → Bool
  | [] => true
  | c :: cs => !(c = ':' && endsWord cs) && !(c = '#' && afterBlank) && isTail (c = ' ') cs

/-- Whether a text of printable characters may be written without quotes. -/
def canWrite (cs : List Char) : Bool :=
  match cs with
  | [] => false
  | c :: rest =>
    !endsWord cs && !indicators.contains c && !(softIndicators.contains c && endsWord rest) &&
      isTail false cs && cs.getLast? != some ' ' && !cs.any isBreak &&
      !"---".toList.isPrefixOf cs && !"...".toList.isPrefixOf cs

end Plain
end Yaml
end AccessDepth
