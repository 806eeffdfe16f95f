import AccessDepth.Store.Row

/-!
# AccessDepth.Store

The relational store: the rows of every table, in the order in which they were added.

* `Store.insert` — adds a row unless it breaks a rule of the schema. The row's own conditions are
  looked at first, then the key, then the references; a row may refer to itself.
* `Transaction` — writes that all take place or not at all.
* `Transaction.create` — adds a row under the number after the largest one of its table.
* `Transaction.ensure` — the row of a key, or a new row with its children.
* `Store.truncate` — empties every table and restores the rows for an unknown file and variable.
-/

namespace AccessDepth

structure Store where
  files : List FileRow := []
  types : List TypeRow := []
  typeInts : List TypeIntRow := []
  typeArrays : List TypeArrayRow := []
  typeElems : List TypeElemRow := []
  typeMaps : List TypeMapRow := []
  typeChans : List TypeChanRow := []
  typeMembers : List TypeMemberRow := []
  typeNamed : List TypeNamedRow := []
  typeFuncs : List TypeFuncRow := []
  typeFuncSigs : List TypeFuncSigRow := []
  typeUnions : List TypeUnionRow := []
  functions : List FunctionRow := []
  functionSigs : List FunctionSigRow := []
  vars : List VariableRow := []
  localVariables : List LocalVariableRow := []
  statements : List StmtRow := []
  assignOperands : List AssignOperandRow := []
  returnResults : List ReturnResultRow := []
  defers : List DeferRow := []
  typeSwitches : List TypeSwitchRow := []
  typeSwitchCases : List TypeSwitchCaseRow := []
  expressions : List ExprRow := []
  identDetails : List IdentRow := []
  selectorDetails : List SelectorRow := []
  typeAssertDetails : List TypeAssertRow := []
  callDetails : List CallRow := []
  accesses : List AccessRow := []
  makeSites : List MakeSiteRow := []
  sizedAllocSites : List SizedAllocRow := []
  deriving DecidableEq

namespace Store

/-- The rows of a table. -/
def rows (s : Store) : (t : Table) → List (Row t)
  | .files => s.files
  | .types => s.types
  | .typeInts => s.typeInts
  | .typeArrays => s.typeArrays
  | .typeElems => s.typeElems
  | .typeMaps => s.typeMaps
  | .typeChans => s.typeChans
  | .typeMembers => s.typeMembers
  | .typeNamed => s.typeNamed
  | .typeFuncs => s.typeFuncs
  | .typeFuncSigs => s.typeFuncSigs
  | .typeUnions => s.typeUnions
  | .functions => s.functions
  | .functionSigs => s.functionSigs
  | .variables => s.vars
  | .localVariables => s.localVariables
  | .statements => s.statements
  | .assignOperands => s.assignOperands
  | .returnResults => s.returnResults
  | .defers => s.defers
  | .typeSwitches => s.typeSwitches
  | .typeSwitchCases => s.typeSwitchCases
  | .expressions => s.expressions
  | .identDetails => s.identDetails
  | .selectorDetails => s.selectorDetails
  | .typeAssertDetails => s.typeAssertDetails
  | .callDetails => s.callDetails
  | .accesses => s.accesses
  | .makeSites => s.makeSites
  | .sizedAllocSites => s.sizedAllocSites

/-- The store with other rows in one table. -/
def withRows (s : Store) : (t : Table) → List (Row t) → Store
  | .files, rs => { s with files := rs }
  | .types, rs => { s with types := rs }
  | .typeInts, rs => { s with typeInts := rs }
  | .typeArrays, rs => { s with typeArrays := rs }
  | .typeElems, rs => { s with typeElems := rs }
  | .typeMaps, rs => { s with typeMaps := rs }
  | .typeChans, rs => { s with typeChans := rs }
  | .typeMembers, rs => { s with typeMembers := rs }
  | .typeNamed, rs => { s with typeNamed := rs }
  | .typeFuncs, rs => { s with typeFuncs := rs }
  | .typeFuncSigs, rs => { s with typeFuncSigs := rs }
  | .typeUnions, rs => { s with typeUnions := rs }
  | .functions, rs => { s with functions := rs }
  | .functionSigs, rs => { s with functionSigs := rs }
  | .variables, rs => { s with vars := rs }
  | .localVariables, rs => { s with localVariables := rs }
  | .statements, rs => { s with statements := rs }
  | .assignOperands, rs => { s with assignOperands := rs }
  | .returnResults, rs => { s with returnResults := rs }
  | .defers, rs => { s with defers := rs }
  | .typeSwitches, rs => { s with typeSwitches := rs }
  | .typeSwitchCases, rs => { s with typeSwitchCases := rs }
  | .expressions, rs => { s with expressions := rs }
  | .identDetails, rs => { s with identDetails := rs }
  | .selectorDetails, rs => { s with selectorDetails := rs }
  | .typeAssertDetails, rs => { s with typeAssertDetails := rs }
  | .callDetails, rs => { s with callDetails := rs }
  | .accesses, rs => { s with accesses := rs }
  | .makeSites, rs => { s with makeSites := rs }
  | .sizedAllocSites, rs => { s with sizedAllocSites := rs }

/-- The store with a row added at the end of its table. -/
def push (s : Store) (t : Table) (r : Row t) : Store := s.withRows t (s.rows t ++ [r])

/-- Whether a table has a row of a number. -/
def has (s : Store) (ref : Reference) : Bool :=
  (s.rows ref.table).any fun r => Row.number ref.table r == ref.number

/-- Whether the key of a row is taken in its table. -/
def keyTaken (s : Store) (t : Table) (r : Row t) : Bool :=
  let key := Row.key t r
  (s.rows t).any fun r' => Row.key t r' == key

/-- The number after the largest one of a table. -/
def nextNumber (s : Store) (t : Table) : Int :=
  (s.rows t).foldl (fun n r => max n (Row.number t r)) 0 + 1

/-- Adds a row unless it breaks a rule of the schema. -/
def insert (s : Store) (t : Table) (r : Row t) : Except Violation Store :=
  match Row.failedCondition? t r with
  | some condition => .error (.check condition)
  | none =>
    if s.keyTaken t r then .error (.unique t)
    else
      let s' := s.push t r
      if (Row.references t r).all s'.has then .ok s' else .error .foreignKey

/-! ## The empty store -/

def unknownFile : FileRow := ⟨.unknown, "<unknown>"⟩

def unknownVariable : VariableRow :=
  { id := .unknown, name := "<unknown>", file := .unknown, position := ⟨0, 0⟩, type := none,
    isGlobal := true, isConst := false, function := none }

/-- A new store: it holds the unknown file and the unknown variable. -/
def initial : Store := { files := [unknownFile], vars := [unknownVariable] }

/-- Whether a row of some table refers to a table. -/
def refersTo (s : Store) (target : Table) : Bool :=
  (Vocabulary.all : List Table).any fun t =>
    (s.rows t).any fun r => (Row.references t r).any fun ref => ref.table == target

/-- Removes every row of a table, unless a row that is left refers to one of them. -/
def clear (s : Store) (t : Table) : Except Violation Store :=
  let s' := s.withRows t []
  if s'.refersTo t then .error .foreignKey else .ok s'

/-- Adds a row unless its number or its key is taken. -/
def restore (s : Store) (t : Table) (r : Row t) : Except Violation Store :=
  if s.has ⟨t, Row.number t r⟩ || s.keyTaken t r then .ok s else s.insert t r

/-- Empties the tables, those that refer to others first, and restores the unknown rows. -/
def truncate (s : Store) : Except Violation Store := do
  let s ← Table.dependentsFirst.foldlM clear s
  let s ← s.restore .files unknownFile
  s.restore .variables unknownVariable

end Store

/-- Writes that all take place or not at all. -/
abbrev Transaction := StateT Store (Except Violation)

namespace Transaction

/-- Adds a row. -/
def insert (t : Table) (r : Row t) : Transaction Unit := do
  set (← (← get).insert t r)

/-- Adds a row under a new number and tells the number. -/
def create (t : Table) (draft : RowId t → Row t) : Transaction (RowId t) := do
  let id : RowId t := ⟨(← get).nextNumber t⟩
  insert t (draft id)
  pure id

/-- Adds rows one after the other. -/
def insertAll : List AnyRow → Transaction Unit
  | [] => pure ()
  | ⟨t, r⟩ :: rs => do
    insert t r
    insertAll rs

/-- The row that `find` finds, or else a new row with its children. Tells the number and whether the
row is new. -/
def ensure (t : Table) (find : Store → Option (RowId t)) (draft : RowId t → Row t)
    (children : RowId t → List AnyRow) : Transaction (RowId t × Bool) := do
  match find (← get) with
  | some id => pure (id, false)
  | none =>
    let id ← create t draft
    insertAll (children id)
    pure (id, true)

/-- Adds a row under a new number, unless its key is taken or one of its own conditions fails. Tells
whether the row was added. -/
def createOrIgnore (t : Table) (draft : RowId t → Row t) : Transaction Bool := do
  let s ← get
  match s.insert t (draft ⟨s.nextNumber t⟩) with
  | .ok s' =>
    set s'
    pure true
  | .error .foreignKey => throw .foreignKey
  | .error _ => pure false

end Transaction

end AccessDepth
