import AccessDepth.Yaml.Character

/-!
# AccessDepth.Yaml.Cursor

A place in a YAML text.

* `Cursor` — what is left of the text, with the line and the column of its first character.
* `Cursor.next`, `Cursor.skip`, `Cursor.span` — how a reader moves on.
* `Cursor.atMarker` — whether a line starts or ends a document here.
* `Gap` — what stands between two words of a scalar, and the text that it leaves in the scalar.
-/

namespace AccessDepth
namespace Yaml

structure Cursor where
  rest : List Char
  line : Nat
  column : Nat
  deriving Inhabited

namespace Cursor

def start (cs : List Char) : Cursor := ⟨cs, 0, 0⟩

/-- Past one character. -/
def next (c : Cursor) : Cursor :=
  match c.rest with
  | [] => c
  | x :: cs => if isBreak x then ⟨cs, c.line + 1, 0⟩ else ⟨cs, c.line, c.column + 1⟩

/-- Past some characters of one line. -/
def skip (c : Cursor) (n : Nat) : Cursor := ⟨c.rest.drop n, c.line, c.column + n⟩

/-- The longest run of such characters in the line, and what follows it. -/
def span (p : Char → Bool) (c : Cursor) : List Char × Cursor :=
  let run := c.rest.takeWhile fun x => p x && !isBreak x
  (run, c.skip run.length)

def skipBlanks (c : Cursor) : Cursor := (c.span isBlank).2

/-- Past the rest of the line. -/
def skipLine (c : Cursor) : Cursor := (c.span fun _ => true).2

def sees (c : Cursor) (x : Char) : Bool := c.rest.head? == some x

/-- Past a comment, if one starts here. -/
def skipComment (c : Cursor) : Cursor := if c.sees '#' then c.skipLine else c

def atBreak (c : Cursor) : Bool := c.rest.head?.any isBreak

/-- Whether the line or the text ends here. -/
def atLineEnd (c : Cursor) : Bool := c.rest.head?.all isBreak

def atWordEnd (c : Cursor) : Bool := endsWord c.rest

/-- Past the end of a line on which nothing but a comment is left. -/
def finishLine (c : Cursor) : Option Cursor :=
  let c := c.skipBlanks.skipComment
  if c.atLineEnd then some c.next else none

/-- Whether a line starts like this, and a blank or nothing follows. -/
def atMark (c : Cursor) (mark : String) : Bool :=
  c.column = 0 && mark.toList.isPrefixOf c.rest && endsWord (c.rest.drop mark.length)

/-- Whether a line starts or ends a document here. -/
def atMarker (c : Cursor) : Bool := c.atMark "---" || c.atMark "..."

end Cursor

/-- What stands between two words of a scalar. -/
structure Gap where
  /-- The blanks before the first line break. -/
  blanks : List Char
  breaks : List Char
  /-- Whether the first line break was escaped. -/
  isJoined : Bool

namespace Gap

/-- Whether the next word is on another line. -/
def isBroken (g : Gap) : Bool := g.isJoined || !g.breaks.isEmpty

/-- The text between the words. Without a line break the blanks stay; one line feed becomes a
blank, and more than one lose the first. An escaped line break counts for nothing. -/
def text (g : Gap) : List Char :=
  if g.isJoined then g.breaks
  else
    match g.breaks with
    | [] => g.blanks
    | ['\n'] => [' ']
    | '\n' :: more => more
    | breaks => breaks

/-- The line breaks from here on, with the blanks around them skipped; refused if a tab stands in
the first `margin` columns of a line. -/
def readBreaks (margin : Nat) : Nat → Cursor → Option (List Char × Cursor)
  | 0, c => some ([], c)
  | fuel + 1, c =>
    match c.rest with
    | [] => some ([], c)
    | x :: _ =>
      if isBreak x then
        let (blanks, c) := c.next.span isBlank
        if (blanks.take margin).contains '\t' then none
        else (readBreaks margin fuel c).map fun (more, c) => (x :: more, c)
      else some ([], c)

/-- The gap that starts here. -/
def read (margin fuel : Nat) (c : Cursor) : Option (Gap × Cursor) :=
  let (blanks, c) := c.span isBlank
  (readBreaks margin fuel c).map fun (breaks, c) => (⟨blanks, breaks, false⟩, c)

/-- The gap after an escaped line break. -/
def readJoined (fuel : Nat) (c : Cursor) : Option (Gap × Cursor) :=
  (readBreaks 0 fuel c.skipBlanks).map fun (breaks, c) => (⟨[], breaks, true⟩, c)

end Gap

end Yaml
end AccessDepth
