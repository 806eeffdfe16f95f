import AccessDepth.Kind
import AccessDepth.Position
import AccessDepth.Package.Types
import AccessDepth.Store.Table

/-!
# AccessDepth.Store.Row

The rows of the tables.

* `RowId t` — the number of a row of table `t`.
* `Row t` — a row of table `t`; one structure per table.
* `Row.cells` — the values of a row, in the order of the table's columns. Words stand for the values
  of vocabularies, 0 and 1 for truth values.
* `Row.key` and `Row.references` — what the columns make of the cells.
-/

namespace AccessDepth

/-- The number of a row of a table. -/
structure RowId (t : Table) where
  value : Int
  deriving DecidableEq, Repr

abbrev FileId := RowId .files
abbrev TypeId := RowId .types
abbrev FunctionId := RowId .functions
abbrev VariableId := RowId .variables
abbrev StmtId := RowId .statements
abbrev ExprId := RowId .expressions
/-- An access has the number of its expression. -/
abbrev AccessId := RowId .accesses

/-- The file or variable that stands for an unknown one. -/
def RowId.unknown {t : Table} : RowId t := ⟨1⟩

/-- The functions around a node. -/
structure Enclosing where
  outermost : Option FunctionId
  innermost : Option FunctionId
  deriving DecidableEq

structure FileRow where
  id : FileId
  path : String
  deriving DecidableEq

structure TypeRow where
  id : TypeId
  kind : TypeKind
  name : String
  /-- Width in bytes of a basic type, length of an array. -/
  length : Option Int64
  deriving DecidableEq

structure TypeIntRow where
  type : TypeId
  signed : Bool
  deriving DecidableEq

structure TypeArrayRow where
  type : TypeId
  base : TypeId
  size : Int64
  deriving DecidableEq

structure TypeElemRow where
  type : TypeId
  base : TypeId
  deriving DecidableEq

structure TypeMapRow where
  type : TypeId
  key : TypeId
  value : TypeId
  deriving DecidableEq

structure TypeChanRow where
  type : TypeId
  direction : ChanDir
  base : TypeId
  deriving DecidableEq

structure TypeMemberRow where
  type : TypeId
  position : Int
  embedded : Bool
  name : Option String
  member : TypeId
  deriving DecidableEq

structure TypeNamedRow where
  type : TypeId
  package : Option String
  name : String
  underlying : TypeId
  deriving DecidableEq

structure TypeFuncRow where
  type : TypeId
  variadic : Bool
  generic : Bool
  deriving DecidableEq

structure TypeFuncSigRow where
  type : TypeId
  role : SignatureRole
  position : Int
  member : TypeId
  name : Option String
  deriving DecidableEq

structure TypeUnionRow where
  type : TypeId
  position : Int
  term : TypeId
  tilde : Bool
  deriving DecidableEq

structure FunctionRow where
  id : FunctionId
  /-- Function literals have no name. -/
  name : Option String
  file : FileId
  /-- Of the name or, for a literal, of its first character. -/
  position : Position
  variadic : Bool
  generic : Bool
  literal : Bool
  parent : Option FunctionId
  type : Option TypeId
  deriving DecidableEq

structure FunctionSigRow where
  function : FunctionId
  role : SignatureRole
  position : Int
  type : Option TypeId
  name : Option String
  deriving DecidableEq

structure VariableRow where
  id : VariableId
  name : String
  file : FileId
  position : Position
  type : Option TypeId
  isGlobal : Bool
  isConst : Bool
  function : Option FunctionId
  deriving DecidableEq

structure LocalVariableRow where
  id : VariableId
  role : VariableRole
  deriving DecidableEq

structure StmtRow where
  id : StmtId
  kind : StmtKind
  file : FileId
  span : Span
  enclosing : Enclosing
  deriving DecidableEq

structure AssignOperandRow where
  stmt : StmtId
  side : OperandSide
  position : Int
  expr : ExprId
  deriving DecidableEq

structure ReturnResultRow where
  stmt : StmtId
  position : Int
  expr : ExprId
  deriving DecidableEq

structure DeferRow where
  stmt : StmtId
  call : ExprId
  deriving DecidableEq

structure TypeSwitchRow where
  stmt : StmtId
  /-- The name that `x := y.(type)` binds. -/
  bound : Option String
  assertion : ExprId
  deriving DecidableEq

structure TypeSwitchCaseRow where
  stmt : StmtId
  clause : Int
  position : Int
  place : Position
  type : Option TypeId
  deriving DecidableEq

structure ExprRow where
  id : ExprId
  kind : ExprKind
  type : Option TypeId
  file : FileId
  span : Span
  enclosing : Enclosing
  deriving DecidableEq

structure IdentRow where
  expr : ExprId
  name : String
  /-- Where the name is defined, if that is in the corpus. -/
  definition : Option (FileId × Position)
  deriving DecidableEq

structure SelectorRow where
  expr : ExprId
  base : ExprId
  field : String
  deriving DecidableEq

structure TypeAssertRow where
  expr : ExprId
  base : ExprId
  type : Option TypeId
  deriving DecidableEq

structure CallRow where
  expr : ExprId
  position : Int
  function : ExprId
  /-- Missing in the one row of a call without arguments. -/
  argument : Option ExprId
  deriving DecidableEq

structure AccessRow where
  expr : ExprId
  kind : AccessKind
  /-- The access of the operand that this one goes through. -/
  inner : Option AccessId
  baseName : Option String
  baseVariable : Option VariableId
  depth : Int
  uncertainty : Int
  deriving DecidableEq

structure MakeSiteRow where
  id : RowId .makeSites
  file : FileId
  position : Position
  container : ContainerKind
  capacity : Int
  deriving DecidableEq

structure SizedAllocRow where
  id : RowId .sizedAllocSites
  file : FileId
  position : Position
  builtin : String
  typeName : String
  size : Int
  deriving DecidableEq

/-- A row of a table. -/
@[reducible] def Row : Table → Type
  | .files => FileRow
  | .types => TypeRow
  | .typeInts => TypeIntRow
  | .typeArrays => TypeArrayRow
  | .typeElems => TypeElemRow
  | .typeMaps => TypeMapRow
  | .typeChans => TypeChanRow
  | .typeMembers => TypeMemberRow
  | .typeNamed => TypeNamedRow
  | .typeFuncs => TypeFuncRow
  | .typeFuncSigs => TypeFuncSigRow
  | .typeUnions => TypeUnionRow
  | .functions => FunctionRow
  | .functionSigs => FunctionSigRow
  | .variables => VariableRow
  | .localVariables => LocalVariableRow
  | .statements => StmtRow
  | .assignOperands => AssignOperandRow
  | .returnResults => ReturnResultRow
  | .defers => DeferRow
  | .typeSwitches => TypeSwitchRow
  | .typeSwitchCases => TypeSwitchCaseRow
  | .expressions => ExprRow
  | .identDetails => IdentRow
  | .selectorDetails => SelectorRow
  | .typeAssertDetails => TypeAssertRow
  | .callDetails => CallRow
  | .accesses => AccessRow
  | .makeSites => MakeSiteRow
  | .sizedAllocSites => SizedAllocRow

/-- A row with its table. -/
structure AnyRow where
  table : Table
  row : Row table

/-- The value of a column in a row. -/
inductive Cell where
  | null
  | int (value : Int)
  | text (value : String)
  deriving DecidableEq, Repr, Inhabited

namespace Cell

def ofBool (b : Bool) : Cell := .int (if b then 1 else 0)

def ofWord (n : UInt32) : Cell := .int n.toNat

def ofTerm {α : Type} [Vocabulary α] (x : α) : Cell := .text (Vocabulary.text x)

def ofId {t : Table} (id : RowId t) : Cell := .int id.value

def ofOption {α : Type} (cell : α → Cell) : Option α → Cell
  | none => .null
  | some x => cell x

def ofPosition (p : Position) : List Cell := [ofWord p.line, ofWord p.column]

def ofSpan (s : Span) : List Cell :=
  [ofWord s.startLine, ofWord s.startColumn, ofWord s.endLine, ofWord s.endColumn]

def ofEnclosing (e : Enclosing) : List Cell :=
  [ofOption ofId e.outermost, ofOption ofId e.innermost]

end Cell

/-- A row of another table by its number. -/
structure Reference where
  table : Table
  number : Int
  deriving DecidableEq

namespace Row

open Cell in
/-- The values of a row, in the order of its table's columns. -/
def cells : (t : Table) → Row t → List Cell
  | .files, r => [ofId r.id, .text r.path]
  | .types, r =>
    [ofId r.id, ofTerm r.kind, .text r.name, ofOption (fun n : Int64 => .int n.toInt) r.length]
  | .typeInts, r => [ofId r.type, ofBool r.signed]
  | .typeArrays, r => [ofId r.type, ofId r.base, .int r.size.toInt]
  | .typeElems, r => [ofId r.type, ofId r.base]
  | .typeMaps, r => [ofId r.type, ofId r.key, ofId r.value]
  | .typeChans, r => [ofId r.type, ofTerm r.direction, ofId r.base]
  | .typeMembers, r =>
    [ofId r.type, .int r.position, ofBool r.embedded, ofOption .text r.name, ofId r.member]
  | .typeNamed, r => [ofId r.type, ofOption .text r.package, .text r.name, ofId r.underlying]
  | .typeFuncs, r => [ofId r.type, ofBool r.variadic, ofBool r.generic]
  | .typeFuncSigs, r =>
    [ofId r.type, ofTerm r.role, .int r.position, ofId r.member, ofOption .text r.name]
  | .typeUnions, r => [ofId r.type, .int r.position, ofId r.term, ofBool r.tilde]
  | .functions, r =>
    [ofId r.id, ofOption .text r.name, ofId r.file] ++ ofPosition r.position ++
      [ofBool r.variadic, ofBool r.generic, ofBool r.literal, ofOption ofId r.parent,
        ofOption ofId r.type]
  | .functionSigs, r =>
    [ofId r.function, ofTerm r.role, .int r.position, ofOption ofId r.type, ofOption .text r.name]
  | .variables, r =>
    [ofId r.id, .text r.name, ofId r.file] ++ ofPosition r.position ++
      [ofOption ofId r.type, ofBool r.isGlobal, ofBool r.isConst, ofOption ofId r.function]
  | .localVariables, r =>
    [ofId r.id, ofBool (r.role = .param), ofBool (r.role = .result),
      ofBool (r.role = .receiver)]
  | .statements, r =>
    [ofId r.id, ofTerm r.kind, ofId r.file] ++ ofSpan r.span ++ ofEnclosing r.enclosing
  | .assignOperands, r => [ofId r.stmt, ofTerm r.side, .int r.position, ofId r.expr]
  | .returnResults, r => [ofId r.stmt, .int r.position, ofId r.expr]
  | .defers, r => [ofId r.stmt, ofId r.call]
  | .typeSwitches, r => [ofId r.stmt, ofOption .text r.bound, ofId r.assertion]
  | .typeSwitchCases, r =>
    [ofId r.stmt, .int r.clause, .int r.position] ++ ofPosition r.place ++ [ofOption ofId r.type]
  | .expressions, r =>
    [ofId r.id, ofTerm r.kind, ofOption ofId r.type, ofId r.file] ++ ofSpan r.span ++
      ofEnclosing r.enclosing
  | .identDetails, r =>
    [ofId r.expr, .text r.name, ofOption (fun d : FileId × Position => ofId d.1) r.definition,
      ofOption (fun d : FileId × Position => ofWord d.2.line) r.definition,
      ofOption (fun d : FileId × Position => ofWord d.2.column) r.definition]
  | .selectorDetails, r => [ofId r.expr, ofId r.base, .text r.field]
  | .typeAssertDetails, r => [ofId r.expr, ofId r.base, ofOption ofId r.type]
  | .callDetails, r =>
    [ofId r.expr, .int r.position, ofId r.function, ofOption ofId r.argument]
  | .accesses, r =>
    [ofId r.expr, ofTerm r.kind, ofOption ofId r.inner, ofOption .text r.baseName,
      ofOption ofId r.baseVariable, .int r.depth, .int r.uncertainty]
  | .makeSites, r =>
    [ofId r.id, ofId r.file] ++ ofPosition r.position ++ [ofTerm r.container, .int r.capacity]
  | .sizedAllocSites, r =>
    [ofId r.id, ofId r.file] ++ ofPosition r.position ++
      [.text r.builtin, .text r.typeName, .int r.size]

/-- The number of a row: the value of its first column. -/
def number : (t : Table) → Row t → Int
  | .files, r => r.id.value
  | .types, r => r.id.value
  | .typeInts, r => r.type.value
  | .typeArrays, r => r.type.value
  | .typeElems, r => r.type.value
  | .typeMaps, r => r.type.value
  | .typeChans, r => r.type.value
  | .typeMembers, r => r.type.value
  | .typeNamed, r => r.type.value
  | .typeFuncs, r => r.type.value
  | .typeFuncSigs, r => r.type.value
  | .typeUnions, r => r.type.value
  | .functions, r => r.id.value
  | .functionSigs, r => r.function.value
  | .variables, r => r.id.value
  | .localVariables, r => r.id.value
  | .statements, r => r.id.value
  | .assignOperands, r => r.stmt.value
  | .returnResults, r => r.stmt.value
  | .defers, r => r.stmt.value
  | .typeSwitches, r => r.stmt.value
  | .typeSwitchCases, r => r.stmt.value
  | .expressions, r => r.id.value
  | .identDetails, r => r.expr.value
  | .selectorDetails, r => r.expr.value
  | .typeAssertDetails, r => r.expr.value
  | .callDetails, r => r.expr.value
  | .accesses, r => r.expr.value
  | .makeSites, r => r.id.value
  | .sizedAllocSites, r => r.id.value

open Cell in
/-- The values of the key's columns. -/
def key : (t : Table) → Row t → List Cell
  | .files, r => [.text r.path]
  | .types, r => [.text r.name]
  | .typeInts, r => [ofId r.type]
  | .typeArrays, r => [ofId r.type]
  | .typeElems, r => [ofId r.type]
  | .typeMaps, r => [ofId r.type]
  | .typeChans, r => [ofId r.type]
  | .typeMembers, r => [ofId r.type, .int r.position]
  | .typeNamed, r => [ofId r.type]
  | .typeFuncs, r => [ofId r.type]
  | .typeFuncSigs, r => [ofId r.type, ofTerm r.role, .int r.position]
  | .typeUnions, r => [ofId r.type, .int r.position]
  | .functions, r => ofId r.file :: ofPosition r.position
  | .functionSigs, r => [ofId r.function, ofTerm r.role, .int r.position]
  | .variables, r => ofId r.file :: ofPosition r.position
  | .localVariables, r => [ofId r.id]
  | .statements, r => ofId r.file :: ofSpan r.span
  | .assignOperands, r => [ofId r.stmt, ofTerm r.side, .int r.position]
  | .returnResults, r => [ofId r.stmt, .int r.position]
  | .defers, r => [ofId r.stmt]
  | .typeSwitches, r => [ofId r.stmt]
  | .typeSwitchCases, r => [ofId r.stmt, .int r.clause, .int r.position]
  | .expressions, r => ofId r.file :: ofSpan r.span
  | .identDetails, r => [ofId r.expr]
  | .selectorDetails, r => [ofId r.expr]
  | .typeAssertDetails, r => [ofId r.expr]
  | .callDetails, r => [ofId r.expr, .int r.position]
  | .accesses, r => [ofId r.expr]
  | .makeSites, r => ofId r.file :: ofPosition r.position
  | .sizedAllocSites, r => ofId r.file :: ofPosition r.position

/-- The key is read off the columns. -/
theorem key_eq (t : Table) (r : Row t) :
    key t r = ((t.columns.zip (cells t r)).filter fun c => c.1.inKey).map (·.2) := by
  cases t <;> rfl

/-- The rows that a row refers to; an empty column refers to none. -/
def references (t : Table) (r : Row t) : List Reference :=
  (t.columns.zip (cells t r)).filterMap fun c =>
    match c.1.target, c.2 with
    | some table, .int n => some ⟨table, n⟩
    | _, _ => none

/-- The condition that a row fails, if it fails one: an access has no negative uncertainty, and has
a base variable exactly when it is certain; an allocation calls `make` or `new`. -/
def failedCondition? : (t : Table) → Row t → Option String
  | .accesses, r =>
    if r.uncertainty < 0 then some "uncertainty >= 0"
    else if r.baseVariable.isNone ≠ decide (0 < r.uncertainty) then
      some "(base_variable_id IS NULL) = (uncertainty > 0)"
    else none
  | .sizedAllocSites, r =>
    if r.builtin = "make" ∨ r.builtin = "new" then none else some "builtin IN ('make', 'new')"
  | _, _ => none

end Row

end AccessDepth
