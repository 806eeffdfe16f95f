import AccessDepth.Yaml.Cursor

/-!
# AccessDepth.Yaml.Block

Texts in indented lines of their own.

* `Block.read` — a text and what follows it. Its header says how the line breaks at its end count
  and how deep its lines are indented; without a number the first line that is not blank decides.
* `Block.literal` — a text in lines of its own that reads back as the same text.
-/

namespace AccessDepth
namespace Yaml
namespace Block

/-- What becomes of the line breaks at the end of a text. -/
inductive Chomping where
  /-- One is kept, if there is one. -/
  | clip
  | strip
  | keep
  deriving DecidableEq

/-- The header of a block: how it ends, and how many columns it is indented more than the block
around it. -/
structure Header where
  chomping : Chomping
  indent : Option Nat

def chompingOf (c : Char) : Option Chomping :=
  if c = '+' then some .keep else if c = '-' then some .strip else none

def indentOf (c : Char) : Option Nat :=
  if '1' ≤ c ∧ c ≤ '9' then some (c.toNat - '0'.toNat) else none

/-- The header at the front of a text, with its length; its two parts may come in either order. -/
def readHeader (cs : List Char) : Header × Nat :=
  let first := cs.head?
  let second := cs.tail.head?
  match first.bind chompingOf, first.bind indentOf with
  | some chomping, _ =>
    match second.bind indentOf with
    | some n => (⟨chomping, some n⟩, 2)
    | none => (⟨chomping, none⟩, 1)
  | none, some n =>
    match second.bind chompingOf with
    | some chomping => (⟨chomping, some n⟩, 2)
    | none => (⟨.clip, some n⟩, 1)
  | none, none => (⟨.clip, none⟩, 0)

/-- Blank lines: their breaks, the deepest column that their blanks reach, and the first line that
is not blank. -/
structure BlankLines where
  breaks : List Char
  deepest : Nat
  after : Cursor

/-- The blank lines from here on, with the indentation of the line behind them. No more than
`indent` columns are taken off if the indentation is known, and no tab may stand in its place. -/
def readBlank (indent : Option Nat) : Nat → Cursor → Option BlankLines
  | 0, _ => none
  | fuel + 1, c =>
    let room := indent.map (· - c.column)
    let blanks := (c.rest.takeWhile (· = ' ')).length
    let c := c.skip ((room.map (min blanks)).getD blanks)
    if indent.all (c.column < ·) && c.sees '\t' then none
    else
      match c.rest with
      | [] => some ⟨[], c.column, c⟩
      | x :: _ =>
        if isBreak x then
          (readBlank indent fuel c.next).map fun b =>
            ⟨x :: b.breaks, max c.column b.deepest, b.after⟩
        else some ⟨[], c.column, c⟩

/-- What stands between the last line and the next one. -/
structure Join where
  /-- The break of the last line, if there was one. -/
  lineBreak : List Char
  /-- The breaks of the blank lines behind it. -/
  blankLines : List Char
  /-- Whether the last line starts with a blank. -/
  afterIndented : Bool

/-- The text between two lines. In a folded text a line feed between two lines that start with no
blank counts as a blank, or for nothing if blank lines follow. -/
def Join.text (j : Join) (isFolded beforeIndented : Bool) : List Char :=
  if isFolded && j.lineBreak == ['\n'] && !j.afterIndented && !beforeIndented then
    if j.blankLines.isEmpty then [' '] else j.blankLines
  else j.lineBreak ++ j.blankLines

/-- The end of a text. -/
def Join.tail (j : Join) : Chomping → List Char
  | .strip => []
  | .clip => j.lineBreak
  | .keep => j.lineBreak ++ j.blankLines

/-- The lines from here on that are indented by `indent`, after the characters that were read
before, the last one first; `fuel` bounds the lines. -/
def readLines (isFolded : Bool) (chomping : Chomping) (indent size : Nat) :
    Nat → List Char → Join → Cursor → Option (String × Cursor)
  | 0, _, _, _ => none
  | fuel + 1, before, j, c =>
    if c.column = indent && !c.rest.isEmpty then
      let isIndented := c.rest.head?.any isBlank
      let (run, c) := c.span fun _ => true
      let before := run.reverse ++ (j.text isFolded isIndented).reverse ++ before
      let lineBreak := if c.atBreak then c.rest.take 1 else []
      (readBlank (some indent) size c.next).bind fun b =>
        let join : Join := ⟨lineBreak, b.breaks, isIndented⟩
        readLines isFolded chomping indent size fuel before join b.after
    else some (String.ofList ((j.tail chomping).reverse ++ before).reverse, c)

/-- The text of a block from behind its first mark; `margin` is the least column at which something
inside the block around it can start. -/
def read (isFolded : Bool) (margin size : Nat) (c : Cursor) : Option (String × Cursor) := do
  let (header, width) := readHeader c.rest
  let c ← (c.skip width).finishLine
  let b ← readBlank (header.indent.map (margin - 1 + ·)) size c
  let indent := (header.indent.map (margin - 1 + ·)).getD (max b.deepest (max margin 1))
  readLines isFolded header.chomping indent size size [] ⟨[], b.breaks, false⟩ b.after

/-! ## Writing -/

/-- The lines of a text, each of them indented; its last line gets a break if it has none. -/
def indented (indent : List Char) (atStart : Bool) : List Char → List Char
  | [] => if atStart then [] else ['\n']
  | c :: cs =>
    if isBreak c then c :: indented indent true cs
    else (if atStart then indent else []) ++ c :: indented indent false cs

/-- The header that makes a text read back: a number if the text starts with a blank or a break, and
a sign unless it ends with exactly one break. -/
def headerOf (indent : Nat) (cs : List Char) : List Char :=
  let number := if cs.head?.any (fun c => c = ' ' || isBreak c) then Nat.toDigits 10 indent else []
  let sign := match cs.reverse with
    | [] => ['-']
    | [c] => if isBreak c then ['+'] else ['-']
    | c :: d :: _ => if !isBreak c then ['-'] else if isBreak d then ['+'] else []
  number ++ sign

/-- A text as a block of lines that are indented by `indent`. -/
def literal (indent : Nat) (cs : List Char) : List Char :=
  '|' :: (headerOf indent cs ++ '\n' :: indented (List.replicate indent ' ') true cs)

/-- Whether a text of printable characters may be written as a block: no blank stands at its end or
before a break. -/
def canWrite : List Char → Bool
  | [] => false
  | [c] => c != ' '
  | c :: d :: cs => !(c = ' ' && isBreak d) && canWrite (d :: cs)

end Block
end Yaml
end AccessDepth
