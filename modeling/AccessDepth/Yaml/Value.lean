import AccessDepth.Yaml.Document
import AccessDepth.Yaml.Number

/-!
# AccessDepth.Yaml.Value

What the value of a key stands for: `Value.text?` reads it as a text, `Value.number?` as a number,
and `Value.isUnset` says whether it stands for nothing.
-/

namespace AccessDepth
namespace Yaml

/-- The words for no value. -/
def nullWords : List String := ["null", "Null", "NULL", "~"]

def truthWords : List String := ["true", "True", "TRUE", "false", "False", "FALSE"]

def nullTag : String := "tag:yaml.org,2002:null"

def integerTag : String := "tag:yaml.org,2002:int"

namespace Value

/-- The text of a scalar, whatever else it may stand for. -/
def text? : Value → Option String
  | .scalar s => some s.text
  | .collection => none

/-- An unsigned number of 64 bits. It must be plain, or a block that is tagged as an integer. -/
def number? : Value → Option Nat
  | .scalar s =>
    if s.style = .plain ∨ (s.style = .literal ∧ s.tag = some integerTag) then
      (Number.natural? s.text.toList).filter (· < UInt64.size)
    else none
  | .collection => none

/-- Whether a value stands for nothing; refused if its tag says so and its text does not. -/
def isUnset : Value → Option Bool
  | .scalar ⟨text, .plain, none⟩ => some (text = "" || nullWords.contains text)
  | .scalar ⟨text, .plain, some tag⟩ =>
    if tag != nullTag then some false else if nullWords.contains text then some true else none
  | _ => some false

end Value

end Yaml
end AccessDepth
