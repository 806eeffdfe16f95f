import AccessDepth.Store.Record

/-!
# AccessDepth.Chain

How many indirections lie between an expression and the variable at its root.

* `Chain` — depth, uncertainty and root of an access. A chain starts at a variable, at a
  variable of another package, or at a call.
* `Step` — from an operand to the expression around it.
* `Step.effect` — the kind of access that a step makes, and what it adds to depth and uncertainty.

| Step | Kind | Depth | Uncertainty |
|---|---|---|---|
| `*a` | deref | +1 | |
| `&a` | ref | -1 | |
| `(a)` | paren | | |
| `s.f`, structure | field_access | | |
| `p.f`, pointer | indirect_field_access | +1 | |
| `a.f`, unknown | unknown_field_access | | +1 |
| `sl[i]` | slice_index | +1 | |
| `arr[i]` | array_index | | |
| `m[k]` | map_index | +1 | |
| `a[i]`, unknown | unknown_index | | +1 |
| `sl[i:j]` | slice_of_slice | | |
| `arr[i:j]` | slice_of_array | -1 | |
| `a[i:j]`, unknown | unknown_slice | | +1 |

A selection, an index or a slice of anything else is no access.
-/

namespace AccessDepth

structure Chain where
  /-- Indirections from the root; taking an address removes one. -/
  depth : Int
  /-- Indirections that could not be classified. -/
  uncertainty : Int
  /-- The name at the root; a call has none. -/
  baseName : Option String
  /-- The variable at the root, if it was recorded. -/
  baseVariable : Option VariableId
  deriving DecidableEq

/-- From an operand to the expression around it; the operand's shape is missing where its type is
not known. -/
inductive Step where
  | deref
  | ref
  | paren
  | select (shape : Option OperandShape)
  | index (shape : Option OperandShape)
  | slice (shape : Option OperandShape)
  deriving DecidableEq

/-- What a step makes of an access. -/
structure StepEffect where
  kind : AccessKind
  depth : Int
  uncertainty : Int
  deriving DecidableEq

namespace Step

/-- The effect of a step; none if the result is no access. -/
def effect : Step → Option StepEffect
  | .deref => some ⟨.deref, 1, 0⟩
  | .ref => some ⟨.ref, -1, 0⟩
  | .paren => some ⟨.paren, 0, 0⟩
  | .select none => some ⟨.unknownFieldAccess, 0, 1⟩
  | .select (some .struct) => some ⟨.fieldAccess, 0, 0⟩
  | .select (some .pointer) => some ⟨.indirectFieldAccess, 1, 0⟩
  | .select (some _) => none
  | .index none => some ⟨.unknownIndex, 0, 1⟩
  | .index (some .slice) => some ⟨.sliceIndex, 1, 0⟩
  | .index (some .array) => some ⟨.arrayIndex, 0, 0⟩
  | .index (some .map) => some ⟨.mapIndex, 1, 0⟩
  | .index (some _) => none
  | .slice none => some ⟨.unknownSlice, 0, 1⟩
  | .slice (some .slice) => some ⟨.sliceOfSlice, 0, 0⟩
  | .slice (some .array) => some ⟨.sliceOfArray, -1, 0⟩
  | .slice (some _) => none

end Step

namespace Chain

/-- A variable used by its name. -/
def root (name : String) (base : Option VariableId) : Chain :=
  ⟨0, 0, some name, base⟩

/-- A variable of another package. -/
def otherPackage (name : String) (base : Option VariableId) : Chain :=
  { root name base with depth := 1 }

/-- What a call returns: a new value without a root. -/
def call : Chain := ⟨0, 0, none, none⟩

/-- The chain after a step, with the kind of the access; none if the result is no access. -/
def extend (c : Chain) (step : Step) : Option (AccessKind × Chain) :=
  step.effect.map fun e =>
    (e.kind, { c with depth := c.depth + e.depth, uncertainty := c.uncertainty + e.uncertainty })

/-- The access to record for a chain. -/
def access (c : Chain) (kind : AccessKind) (inner : Option ExprId) : NewAccess :=
  { kind := kind, inner := inner, baseName := c.baseName, baseVariable := c.baseVariable,
    depth := c.depth, uncertainty := c.uncertainty }

end Chain

end AccessDepth
