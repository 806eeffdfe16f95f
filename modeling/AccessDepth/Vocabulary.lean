import AccessDepth.Json.Decode

/-!
# AccessDepth.Vocabulary

Closed vocabularies: finite types whose values are stored and exchanged as words.

* `Vocabulary.text` — the word that is stored, shown and accepted on the command line.
* `Vocabulary.name` — the word used in exported units; it differs from the text for one value only.
* `Vocabulary.parse?` and `Vocabulary.named?` — the value of a word.
-/

namespace AccessDepth

class Vocabulary (α : Type) where
  /-- Every value, in the order of declaration. -/
  all : List α
  text : α → String
  name : α → String := text

namespace Vocabulary

variable {α : Type} [Vocabulary α]

/-- The value with a given text. -/
def parse? (s : String) : Option α := (all : List α).find? fun x => text x == s

/-- The value with a given name. -/
def named? (s : String) : Option α := (all : List α).find? fun x => name x == s

def toJson (x : α) : Json := .str (name x)

/-- A value by its name, which may also stand as the only member of an object, over null. -/
def ofJson? (v : Json) : Option α :=
  match v.variant? with
  | some (s, none) | some (s, some .null) => named? s
  | _ => none

/-- As `ofJson?`; inside a structure that is told by its `kind`, an empty object may stand in place
of the null. -/
def ofTaggedJson? (v : Json) : Option α :=
  match v.variant? with
  | some (s, some (.obj [])) => named? s
  | _ => ofJson? v

end Vocabulary

end AccessDepth
