import AccessDepth.Yaml.Cursor

/-!
# AccessDepth.Yaml.Quoted

Texts between quotes.

* `Quoted.read` — a text and what follows its closing quote. Inside single quotes a quote is written
  twice; inside double quotes a backslash starts an escape and may hide a line break. A document
  cannot end inside quotes.
* `Quoted.single`, `Quoted.double` — a text between quotes.
-/

namespace AccessDepth
namespace Yaml
namespace Quoted

/-! ## Reading -/

/-- The character that a letter after a backslash stands for. -/
def unescape : Char → Option Char
  | '0' => some '\x00'
  | 'a' => some '\x07'
  | 'b' => some '\x08'
  | 't' => some '\t'
  | '\t' => some '\t'
  | 'n' => some '\n'
  | 'v' => some '\x0b'
  | 'f' => some '\x0c'
  | 'r' => some '\r'
  | 'e' => some '\x1b'
  | ' ' => some ' '
  | '"' => some '"'
  | '/' => some '/'
  | '\\' => some '\\'
  | 'N' => some '\x85'
  | '_' => some '\xa0'
  | 'L' => some '\u2028'
  | 'P' => some '\u2029'
  | _ => none

/-- The number of hexadecimal digits that a letter after a backslash calls for. -/
def codeWidth (c : Char) : Nat :=
  if c = 'x' then 2 else if c = 'u' then 4 else if c = 'U' then 8 else 0

/-- The character whose number is written by the first digits of a text. -/
def codePoint (width : Nat) (cs : List Char) : Option Char := do
  let digits := cs.take width
  let n ← digitsIn 16 digits
  if digits.length = width ∧ n.isValidChar then some (Char.ofNat n) else none

/-- The character of an escape, and how much of the text after the backslash writes it. -/
def readEscape (letter : Char) (cs : List Char) : Option (Char × Nat) :=
  match codeWidth letter with
  | 0 => (unescape letter).map (·, 1)
  | width => (codePoint width cs).map (·, width + 1)

/-- The text from here to the closing quote, after the characters that were read before, the last
one first; `fuel` bounds the steps. -/
def readFrom (isSingle : Bool) : Nat → List Char → Cursor → Option (String × Cursor)
  | 0, _, _ => none
  | fuel + 1, before, c =>
    if c.atMarker then none
    else
      let goOn (gap : Option (Gap × Cursor)) :=
        gap.bind fun (g, c) => readFrom isSingle fuel (g.text.reverse ++ before) c
      match c.rest with
      | [] => none
      | x :: cs =>
        if isBlank x || isBreak x then goOn (Gap.read 0 fuel c)
        else if isSingle && x = '\'' && cs.head? == some '\'' then
          readFrom isSingle fuel ('\'' :: before) (c.skip 2)
        else if x = (if isSingle then '\'' else '"') then
          some (String.ofList before.reverse, c.next)
        else if !isSingle && x = '\\' then
          match cs with
          | [] => none
          | letter :: cs =>
            if isBreak letter then goOn (Gap.readJoined fuel c.next.next)
            else
              (readEscape letter cs).bind fun (y, width) =>
                readFrom isSingle fuel (y :: before) (c.skip (width + 1))
        else readFrom isSingle fuel (x :: before) c.next

/-- The text that the quote here opens. -/
def read (isSingle : Bool) (fuel : Nat) (c : Cursor) : Option (String × Cursor) :=
  readFrom isSingle fuel [] c.next

/-! ## Writing -/

/-- A hexadecimal number of a given width in capital letters. -/
def hexDigits (width n : Nat) : List Char :=
  let ds := (Nat.toDigits 16 n).map Char.toUpper
  List.replicate (width - ds.length) '0' ++ ds

/-- The letter that stands for a character after a backslash. -/
def escapeLetter (c : Char) : Option Char :=
  if c = '"' ∨ c = '\\' then some c
  else if c = '\x00' then some '0'
  else if c = '\x07' then some 'a'
  else if c = '\x08' then some 'b'
  else if c = '\t' then some 't'
  else if c = '\n' then some 'n'
  else if c = '\x0b' then some 'v'
  else if c = '\x0c' then some 'f'
  else if c = '\r' then some 'r'
  else if c = '\x1b' then some 'e'
  else if c = '\x85' then some 'N'
  else if c = '\u2028' then some 'L'
  else if c = '\u2029' then some 'P'
  else none

/-- A character inside double quotes. -/
def escape (c : Char) : List Char :=
  match escapeLetter c with
  | some letter => ['\\', letter]
  | none =>
    if isPrintable c then [c]
    else if c.toNat < 0x100 then '\\' :: 'x' :: hexDigits 2 c.toNat
    else if c.toNat < 0x10000 then '\\' :: 'u' :: hexDigits 4 c.toNat
    else '\\' :: 'U' :: hexDigits 8 c.toNat

/-- A text between double quotes. -/
def double (cs : List Char) : List Char := '"' :: (cs.flatMap escape ++ ['"'])

/-- A text between single quotes: a quote inside is written twice, and what follows a line break is
indented by `indent`. -/
def singleFrom (indent : List Char) (afterBreak : Bool) : List Char → List Char
  | [] => if afterBreak then indent ++ ['\''] else ['\'']
  | c :: cs =>
    if isBreak c then c :: singleFrom indent true cs
    else
      (if afterBreak then indent else []) ++
        ((if c = '\'' then ['\'', '\''] else [c]) ++ singleFrom indent false cs)

/-- A text without line feeds between single quotes. -/
def single (indent cs : List Char) : List Char := '\'' :: singleFrom indent false cs

end Quoted
end Yaml
end AccessDepth
