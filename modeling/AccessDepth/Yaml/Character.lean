import AccessDepth.Json.Reader

/-!
# AccessDepth.Yaml.Character

The characters of a YAML text, as its reader and its writer see them.

* `Yaml.characters` — the characters of a text with every line break but two written as a line
  feed; none if a character is not allowed.
* `Yaml.isBlank`, `Yaml.isBreak`, `Yaml.endsWord` — what stands between words.
* `Yaml.isPrintable` — what may be written without an escape.
-/

namespace AccessDepth
namespace Yaml

def isBlank (c : Char) : Bool := c = ' ' || c = '\t'

/-- A line feed, a line separator or a paragraph separator; all other breaks are read as a line
feed. -/
def isBreak (c : Char) : Bool := c = '\n' || c = '\u2028' || c = '\u2029'

/-- Whether a blank, a line break or nothing follows. -/
def endsWord : List Char → Bool
  | [] => true
  | c :: _ => isBlank c || isBreak c

/-- The characters of names: anchors, directives and tag handles. -/
def isNameChar (c : Char) : Bool := c.isAlphanum || c = '_' || c = '-'

/-- The byte order mark, which may start a line. -/
def byteOrderMark : Char := '\ufeff'

/-- Whether a character may be written without an escape. -/
def isPrintable (c : Char) : Bool :=
  c = '\n' || (' ' ≤ c && c ≤ '~') ||
    ('\xa0' ≤ c && c != byteOrderMark && c != '\ufffe' && c != '\uffff')

/-- Whether a character may stand in a text. -/
def isAllowed (c : Char) : Bool :=
  isPrintable c || c = '\t' || c = '\r' || c = '\x85' || c = byteOrderMark

/-- A carriage return, with or without a line feed after it, and a next-line character are line
breaks that are read as a line feed. -/
def joinBreaks : List Char → List Char
  | [] => []
  | '\r' :: '\n' :: cs => '\n' :: joinBreaks cs
  | c :: cs => (if c = '\r' ∨ c = '\x85' then '\n' else c) :: joinBreaks cs

def characters (text : String) : Option (List Char) :=
  let cs := text.toList
  if cs.all isAllowed then some (joinBreaks cs) else none

/-- The number that digits of a base write, if there is at least one digit. -/
def digitsIn (base : Nat) (cs : List Char) : Option Nat :=
  if cs.isEmpty then none
  else cs.foldlM (fun n c => (Json.hexValue c).bind fun d =>
    if d < base then some (n * base + d) else none) 0

end Yaml
end AccessDepth
