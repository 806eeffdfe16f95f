import AccessDepth.Json

/-!
# AccessDepth.Json.Decode

Reading records and variants from JSON values.

* A record is an object or an array. `Json.slots` finds the value of each of its members: in an
  object by name, in an array by place. Members of other names are ignored; a member given twice is
  refused, and so is an array that is too long.
* A member may be left out of an object unless it is `required`, and out of the end of an array
  only if it is `defaulted`.
* A variant is its bare name, or an object with its name as the only member. The members of a form,
  which are the variant's own, may be written as an array only in a text.
-/

namespace AccessDepth
namespace Json

/-- When a member of a record may be left out. -/
inductive Presence where
  | required
  /-- May be left out of an object, and may be null. -/
  | nullable
  /-- May be left out of an object and of the end of an array. -/
  | defaulted
  deriving DecidableEq, Repr

/-- One member of a record. -/
structure Slot where
  name : String
  presence : Presence

namespace Slot

def req (name : String) : Slot := ⟨name, .required⟩
def nullable (name : String) : Slot := ⟨name, .nullable⟩
def opt (name : String) : Slot := ⟨name, .defaulted⟩

/-- What the members of an object say about a slot: refused if it is given twice, or required and
missing. -/
def given (members : List (String × Json)) (slot : Slot) : Option (Option Json) :=
  match members.filter (fun m => m.1 == slot.name) with
  | [] => if slot.presence = .required then none else some none
  | [m] => some (some m.2)
  | _ => none

/-- The slots of a record that is written as an array. -/
def inOrder : List Slot → List Json → Option (List (Option Json))
  | [], [] => some []
  | [], _ :: _ => none
  | slot :: slots, [] =>
    if slot.presence = .defaulted then (inOrder slots []).map (none :: ·) else none
  | _ :: slots, v :: vs => (inOrder slots vs).map (some v :: ·)

end Slot

/-- The values of a record's members, in the order of the slots. -/
def slots (slots : List Slot) : Json → Option (List (Option Json))
  | .obj members => slots.mapM (Slot.given members)
  | .arr items => Slot.inOrder slots items
  | _ => none

/-- Where a value comes from. -/
inductive Origin where
  /-- It is being read from a text. -/
  | text
  /-- It is at hand as a value. -/
  | value
  deriving DecidableEq, Repr

/-- The values of a form's own members. -/
def formSlots (origin : Origin) (ss : List Slot) (v : Json) : Option (List (Option Json)) :=
  match origin, v with
  | .value, .arr _ => none
  | _, v => v.slots ss

/-- A member that must be there. -/
def required {α : Type} (read : Json → Option α) : Option Json → Option α
  | some v => read v
  | none => none

/-- A member that may be missing or null. -/
def optional {α : Type} (read : Json → Option α) : Option Json → Option (Option α)
  | none => some none
  | some .null => some none
  | some v => (read v).map some

/-- A member that has a value when it is missing. -/
def orElse {α : Type} (missing : α) (read : Json → Option α) : Option Json → Option α
  | none => some missing
  | some v => read v

/-- A variant: its name and, unless it is written bare, its content. -/
def variant? : Json → Option (String × Option Json)
  | .str name => some (name, none)
  | .obj [(name, content)] => some (name, some content)
  | _ => none

/-- Whether the value is the form of this name without content. -/
def isBare (name : String) (v : Json) : Bool :=
  match v.variant? with
  | some (s, none) | some (s, some .null) => s == name
  | _ => false

def string? : Json → Option String
  | .str s => some s
  | _ => none

def bool? : Json → Option Bool
  | .bool b => some b
  | _ => none

/-- An integer between two bounds, the upper one excluded. -/
def intIn? (low high : Int) : Json → Option Int
  | .int n => if low ≤ n ∧ n < high then some n else none
  | _ => none

/-- An unsigned integer of 32 bits. -/
def uint32? (v : Json) : Option UInt32 :=
  (intIn? 0 UInt32.size v).map fun n => UInt32.ofNat n.toNat

/-- A signed integer of 64 bits. -/
def int64? (v : Json) : Option Int64 :=
  (intIn? Int64.minValue.toInt (Int64.maxValue.toInt + 1) v).map Int64.ofInt

def list? {α : Type} (read : Json → Option α) : Json → Option (List α)
  | .arr vs => vs.mapM read
  | _ => none

/-- Null for an absent value. -/
def ofOption {α : Type} (write : α → Json) : Option α → Json
  | none => .null
  | some x => write x

def ofList {α : Type} (write : α → Json) (xs : List α) : Json := .arr (xs.map write)

def ofUInt32 (n : UInt32) : Json := .int n.toNat

def ofInt64 (n : Int64) : Json := .int n.toInt

end Json
end AccessDepth
