import AccessDepth.Yaml.Cursor

/-!
# AccessDepth.Yaml.Tag

The names that may stand before a value: anchors and tags, and the directives that abbreviate tags.

* `Tag` — a tag as it is written: a handle and what follows it.
* `Tag.read`, `Directive.read`, `readAnchor` — what is read, and what follows it.
* `Tag.expand` — the tag that a handle abbreviates.

Only tags of ASCII characters mean something here, so that an escaped octet over 127 counts as a
character of its own.
-/

namespace AccessDepth
namespace Yaml

/-- A tag as it is written; the handle of a tag that is written in full is empty. -/
structure Tag where
  handle : String
  suffix : String
  deriving DecidableEq, Repr, Inhabited

inductive Directive where
  | version (major minor : Nat)
  /-- What a handle stands for. -/
  | tag (handle expansion : String)
  deriving DecidableEq, Repr, Inhabited

/-- The name of an anchor after its mark. -/
def readAnchor (c : Cursor) : Option (String × Cursor) :=
  let (name, c) := c.next.span isNameChar
  let isEnded := c.rest.head?.any fun x => "?:,]\x7d%@\x60".toList.contains x
  if name.isEmpty || !(c.atWordEnd || isEnded) then none else some (String.ofList name, c)

namespace Tag

/-- The characters of a tag that are neither letters nor digits. -/
def marks : List Char :=
  [';', '/', '?', ':', '@', '&', '=', '+', '$', '.', '!', '~', '*', '\'', '(', ')']

/-- The characters that only a tag in full may hold. -/
def flowMarks : List Char := [',', '[', ']']

/-- How many octets follow the first octet of a character. -/
def octetsAfter (octet : Nat) : Option Nat :=
  if octet < 0x80 then some 0
  else if 0xC0 ≤ octet ∧ octet < 0xE0 then some 1
  else if 0xE0 ≤ octet ∧ octet < 0xF0 then some 2
  else if 0xF0 ≤ octet ∧ octet < 0xF8 then some 3
  else none

/-- The characters of a tag and their number in the text, where octets may be written as two digits
after a percent sign; `more` octets are still missing from the last character. -/
def readMarks (isFull : Bool) (more : Nat) : List Char → Option (List Char × Nat)
  | '%' :: a :: b :: cs => do
    let octet ← digitsIn 16 [a, b]
    let more ← match more with
      | 0 => octetsAfter octet
      | more + 1 => if 0x80 ≤ octet ∧ octet < 0xC0 then some more else none
    let (tag, width) ← readMarks isFull more cs
    some (Char.ofNat octet :: tag, width + 3)
  | c :: cs =>
    if more != 0 || c = '%' then none
    else if isNameChar c || marks.contains c || (isFull && flowMarks.contains c) then
      (readMarks isFull 0 cs).map fun (tag, width) => (c :: tag, width + 1)
    else some ([], 0)
  | [] => if more = 0 then some ([], 0) else none

/-- The characters of a tag from here on. -/
def readSuffix (isFull : Bool) (c : Cursor) : Option (List Char × Cursor) :=
  (readMarks isFull 0 c.rest).map fun (tag, width) => (tag, c.skip width)

/-- At least one character of a tag. -/
def readSome (isFull : Bool) (c : Cursor) : Option (String × Cursor) := do
  let (tag, c) ← readSuffix isFull c
  if tag.isEmpty then none else some (String.ofList tag, c)

/-- An exclamation mark, a name and perhaps another exclamation mark. -/
def readHandle (c : Cursor) : List Char × Cursor :=
  let (name, c) := c.next.span isNameChar
  if c.sees '!' then ('!' :: (name ++ ['!']), c.next) else ('!' :: name, c)

/-- Whether a handle ends with an exclamation mark of its own. -/
def isClosed (handle : List Char) : Bool := 1 < handle.length && handle.getLast? == some '!'

/-- The tag whose mark is here: in full between angle brackets, or a handle and a suffix. A lone
exclamation mark is a tag in full. -/
def readAt (c : Cursor) : Option (Tag × Cursor) :=
  if c.next.sees '<' then do
    let (suffix, c) ← readSome true (c.skip 2)
    if c.sees '>' then some (⟨"", suffix⟩, c.next) else none
  else
    let (handle, after) := readHandle c
    if isClosed handle then
      (readSome false after).map fun (suffix, c) => (⟨String.ofList handle, suffix⟩, c)
    else
      (readSuffix false after).map fun (suffix, after) =>
        let suffix := handle.tail ++ suffix
        if suffix.isEmpty then (⟨"", "!"⟩, after) else (⟨"!", String.ofList suffix⟩, after)

/-- The tag whose mark is here; a blank must follow it, or a comma between brackets. -/
def read (inFlow : Bool) (c : Cursor) : Option (Tag × Cursor) :=
  (readAt c).filter fun (_, c) => c.atWordEnd || (inFlow && c.sees ',')

/-- The handles that need no directive. -/
def defaultHandles : List (String × String) := [("!", "!"), ("!!", "tag:yaml.org,2002:")]

/-- The tag that is meant, or none if its handle has no meaning. -/
def expand (handles : List (String × String)) (t : Tag) : Option String :=
  if t.handle = "" then some t.suffix
  else (handles.lookup t.handle).map (· ++ t.suffix)

end Tag

namespace Directive

/-- A number of at most nine digits. -/
def readNumber (c : Cursor) : Option (Nat × Cursor) :=
  let (digits, c) := c.span Char.isDigit
  if 9 < digits.length then none else (digitsIn 10 digits).map (·, c)

def readVersion (c : Cursor) : Option (Directive × Cursor) := do
  let (major, c) ← readNumber c.skipBlanks
  if c.sees '.' then
    let (minor, c) ← readNumber c.next
    some (.version major minor, c)
  else none

def readTag (c : Cursor) : Option (Directive × Cursor) :=
  let c := c.skipBlanks
  if c.sees '!' then do
    let (handle, c) := Tag.readHandle c
    if (handle != ['!'] && !Tag.isClosed handle) || !(c.rest.head?.any isBlank) then none
    else
      let (expansion, c) ← Tag.readSome true c.skipBlanks
      if c.atWordEnd then some (.tag (String.ofList handle) expansion, c) else none
  else none

/-- The directive whose mark is here, up to the end of its line; there are two kinds. -/
def read (c : Cursor) : Option (Directive × Cursor) := do
  let (name, c) := c.next.span isNameChar
  let (directive, c) ←
    if !c.atWordEnd then none
    else if name = "YAML".toList then readVersion c
    else if name = "TAG".toList then readTag c
    else none
  some (directive, ← c.finishLine)

end Directive

end Yaml
end AccessDepth
