/-!
# AccessDepth.Json

JSON values as the tool exchanges them:

* `Json` — a value; an object keeps its members in the order in which they were written.
* `Json.member?` — the last value written under a name.
* `Json.lastWins` — the value in which a repeated member name keeps its last value only.
* `Json.depth` — how many containers nest in a value.
* `Json.isUsable` — whether everything in a value can be used.

Numbers that are integers of 64 bits, signed or not, are kept as integers. Every other number is
kept by its text, because no member of the exchange format holds one.
-/

namespace AccessDepth

inductive Json where
  | null
  | bool (value : Bool)
  | int (value : Int)
  /-- A number that is not an integer of 64 bits, as written. -/
  | real (text : String)
  | str (value : String)
  | arr (items : List Json)
  | obj (members : List (String × Json))
  /-- Something well-formed that can only be passed over: it nests too deep, holds half of a
  surrogate pair, or is a number that is too large. -/
  | unusable
  deriving Inhabited

namespace Json

/-- The last value written under a name, if this is an object that has one. -/
def member? (name : String) : Json → Option Json
  | .obj members => (members.reverse.find? fun m => m.1 == name).map (·.2)
  | _ => none

/-- Whether a later member of the list has the name. -/
def shadowed (name : String) (later : List (String × Json)) : Bool :=
  later.any fun m => m.1 == name

mutual

/-- Of several members of one name only the last one counts. -/
def lastWins : Json → Json
  | .arr items => .arr (lastWinsItems items)
  | .obj members => .obj (lastWinsMembers members)
  | .null => .null
  | .bool b => .bool b
  | .int n => .int n
  | .real t => .real t
  | .str s => .str s
  | .unusable => .unusable
termination_by structural v => v

def lastWinsItems : List Json → List Json
  | [] => []
  | v :: vs => lastWins v :: lastWinsItems vs
termination_by structural vs => vs

def lastWinsMembers : List (String × Json) → List (String × Json)
  | [] => []
  | (name, v) :: ms =>
    if shadowed name ms then lastWinsMembers ms else (name, lastWins v) :: lastWinsMembers ms
termination_by structural ms => ms

end

mutual

/-- How many arrays and objects nest in a value, itself included. -/
def depth : Json → Nat
  | .arr items => itemsDepth items + 1
  | .obj members => membersDepth members + 1
  | .null => 0
  | .bool _ => 0
  | .int _ => 0
  | .real _ => 0
  | .str _ => 0
  | .unusable => 0
termination_by structural v => v

def itemsDepth : List Json → Nat
  | [] => 0
  | v :: vs => max (depth v) (itemsDepth vs)
termination_by structural vs => vs

def membersDepth : List (String × Json) → Nat
  | [] => 0
  | (_, v) :: ms => max (depth v) (membersDepth ms)
termination_by structural ms => ms

end

mutual

/-- Whether everything in a value can be used. -/
def isUsable : Json → Bool
  | .arr items => itemsUsable items
  | .obj members => membersUsable members
  | .null => true
  | .bool _ => true
  | .int _ => true
  | .real _ => true
  | .str _ => true
  | .unusable => false
termination_by structural v => v

def itemsUsable : List Json → Bool
  | [] => true
  | v :: vs => isUsable v && itemsUsable vs
termination_by structural vs => vs

def membersUsable : List (String × Json) → Bool
  | [] => true
  | (_, v) :: ms => isUsable v && membersUsable ms
termination_by structural ms => ms

end

end Json

end AccessDepth
