import AccessDepth.Path
import AccessDepth.Store

/-!
# AccessDepth.Store.Record

What the passes write. Every kind of row is found by where it stands in the sources, and written
only if it is not there yet; its child rows are written together with it.

* `Store.fileNamed?`, `Store.functionAt?`, … — look a row up.
* `recordFile`, `recordFunction`, `recordVariable`, `recordStmt`, `recordExpr` — the row that is
  there, or a new one with its children.
* `recordMakeSite`, `recordSizedAlloc` — add a row unless its place is taken.
-/

namespace AccessDepth

namespace Store

def fileNamed? (s : Store) (path : String) : Option FileId :=
  (s.files.find? fun r => r.path == path).map (·.id)

def typeNamed? (s : Store) (name : String) : Option TypeId :=
  (s.types.find? fun r => r.name == name).map (·.id)

def functionAt? (s : Store) (file : FileId) (position : Position) : Option FunctionId :=
  (s.functions.find? fun r => r.file == file && r.position == position).map (·.id)

def variableAt? (s : Store) (file : FileId) (position : Position) : Option VariableId :=
  (s.vars.find? fun r => r.file == file && r.position == position).map (·.id)

def stmtAt? (s : Store) (file : FileId) (span : Span) : Option StmtId :=
  (s.statements.find? fun r => r.file == file && r.span == span).map (·.id)

def exprAt? (s : Store) (file : FileId) (span : Span) : Option ExprId :=
  (s.expressions.find? fun r => r.file == file && r.span == span).map (·.id)

end Store

/-! ## Files -/

/-- The row of a file. The store keeps and compares the text of a path. -/
def recordFile (path : Path) : Transaction FileId := do
  let (id, _) ← Transaction.ensure .files (·.fileNamed? path.text)
    (fun id => { id := id, path := path.text }) (fun _ => [])
  pure id

/-! ## Functions -/

structure NewFunction where
  name : Option String
  file : FileId
  position : Position
  type : Option TypeId
  variadic : Bool
  generic : Bool
  literal : Bool
  parent : Option FunctionId
  deriving DecidableEq

/-- A place in a list as a column holds it: a signed word, so that places from 2^63 on are held as
negative numbers. -/
def ordinal (index : UInt64) : Int := index.toInt64.toInt

/-- A receiver, parameter, result or type parameter of a function. -/
structure SignatureItem where
  role : SignatureRole
  /-- Its place among the entries of its role, as the column holds it. -/
  position : Int
  type : Option TypeId
  name : Option String
  deriving DecidableEq

def NewFunction.row (f : NewFunction) (id : FunctionId) : FunctionRow :=
  { id := id, name := f.name, file := f.file, position := f.position, variadic := f.variadic,
    generic := f.generic, literal := f.literal, parent := f.parent, type := f.type }

def SignatureItem.row (e : SignatureItem) (function : FunctionId) : FunctionSigRow :=
  { function := function, role := e.role, position := e.position, type := e.type, name := e.name }

def recordFunction (f : NewFunction) (signature : List SignatureItem) :
    Transaction (FunctionId × Bool) :=
  .ensure .functions (·.functionAt? f.file f.position) f.row
    (fun id => signature.map fun e => ⟨.functionSigs, e.row id⟩)

/-! ## Variables -/

structure NewVariable where
  name : String
  file : FileId
  position : Position
  type : Option TypeId
  isConst : Bool
  /-- Variables of a package have no function. -/
  function : Option FunctionId
  role : VariableRole
  deriving DecidableEq

def NewVariable.isGlobal (v : NewVariable) : Bool := v.function.isNone

def NewVariable.row (v : NewVariable) (id : VariableId) : VariableRow :=
  { id := id, name := v.name, file := v.file, position := v.position, type := v.type,
    isGlobal := v.isGlobal, isConst := v.isConst, function := v.function }

/-- A local variable has a row that tells how it is bound. -/
def NewVariable.children (v : NewVariable) (id : VariableId) : List AnyRow :=
  if v.isGlobal then [] else [⟨.localVariables, { id := id, role := v.role }⟩]

def recordVariable (v : NewVariable) : Transaction (VariableId × Bool) :=
  .ensure .variables (·.variableAt? v.file v.position) v.row v.children

/-! ## Statements -/

structure NewStmt where
  kind : StmtKind
  file : FileId
  span : Span
  enclosing : Enclosing
  deriving DecidableEq

/-- A type that a clause of a type switch lists. -/
structure SwitchCase where
  /-- The place of the clause in the switch, as the column holds it. -/
  clause : Int
  /-- The place of the type in the clause, as the column holds it. -/
  position : Int
  place : Position
  type : Option TypeId
  deriving DecidableEq

/-- What is recorded of a statement beside its row. -/
inductive StmtDetail where
  | none
  | assign (lhs rhs : List ExprId)
  | return (results : List ExprId)
  | defer (call : ExprId)
  | typeSwitch (bound : Option String) (assertion : ExprId) (cases : List SwitchCase)
  deriving DecidableEq

def NewStmt.row (n : NewStmt) (id : StmtId) : StmtRow :=
  { id := id, kind := n.kind, file := n.file, span := n.span, enclosing := n.enclosing }

/-- Each element with its place, from a first one on. -/
def numbered {α : Type} (first : Int) : List α → List (Int × α)
  | [] => []
  | x :: xs => (first, x) :: numbered (first + 1) xs

namespace StmtDetail

def operands (stmt : StmtId) (side : OperandSide) (exprs : List ExprId) : List AnyRow :=
  (numbered 0 exprs).map fun (position, expr) =>
    ⟨.assignOperands, { stmt := stmt, side := side, position := position, expr := expr }⟩

/-- The child rows of a statement, in the order in which they are added. -/
def children (d : StmtDetail) (stmt : StmtId) : List AnyRow :=
  match d with
  | .none => []
  | .assign lhs rhs => operands stmt .left lhs ++ operands stmt .right rhs
  | .return results =>
    (numbered 0 results).map fun (position, expr) =>
      ⟨.returnResults, { stmt := stmt, position := position, expr := expr }⟩
  | .defer call => [⟨.defers, { stmt := stmt, call := call }⟩]
  | .typeSwitch bound assertion cases =>
    ⟨.typeSwitches, { stmt := stmt, bound := bound, assertion := assertion }⟩ ::
      cases.map fun c =>
        ⟨.typeSwitchCases,
          { stmt := stmt, clause := c.clause, position := c.position, place := c.place,
            type := c.type }⟩

end StmtDetail

def recordStmt (n : NewStmt) (detail : StmtDetail) : Transaction (StmtId × Bool) :=
  .ensure .statements (·.stmtAt? n.file n.span) n.row detail.children

/-! ## Expressions -/

structure NewExpr where
  kind : ExprKind
  type : Option TypeId
  file : FileId
  span : Span
  enclosing : Enclosing
  deriving DecidableEq

/-- What is recorded of an expression beside its row. -/
inductive ExprDetail where
  | none
  | ident (name : String) (definition : Option (FileId × Position))
  | selector (base : ExprId) (field : String)
  | typeAssert (base : ExprId) (type : Option TypeId)
  | call (function : ExprId) (args : List ExprId)
  deriving DecidableEq

/-- An access about to be recorded. -/
structure NewAccess where
  kind : AccessKind
  /-- The operand whose access this one goes through. -/
  inner : Option ExprId
  baseName : Option String
  baseVariable : Option VariableId
  depth : Int
  uncertainty : Int
  deriving DecidableEq

def NewExpr.row (n : NewExpr) (id : ExprId) : ExprRow :=
  { id := id, kind := n.kind, type := n.type, file := n.file, span := n.span,
    enclosing := n.enclosing }

namespace NewAccess

/-- The base variable that is stored: none for an uncertain access, and the unknown variable for a
certain one without a base. -/
def storedBase (a : NewAccess) : Option VariableId :=
  if 0 < a.uncertainty then none else some (a.baseVariable.getD .unknown)

def row (a : NewAccess) (id : ExprId) : AccessRow :=
  { expr := id, kind := a.kind, inner := a.inner.map fun e => ⟨e.value⟩, baseName := a.baseName,
    baseVariable := a.storedBase, depth := a.depth, uncertainty := a.uncertainty }

end NewAccess

namespace ExprDetail

/-- The arguments of a call; a call without arguments has one row that names none. -/
def callRows (expr function : ExprId) (args : List ExprId) : List CallRow :=
  match args with
  | [] => [{ expr := expr, position := 0, function := function, argument := .none }]
  | args => (numbered 0 args).map fun (position, arg) =>
    { expr := expr, position := position, function := function, argument := some arg }

/-- The child rows of an expression, in the order in which they are added. -/
def children (d : ExprDetail) (expr : ExprId) : List AnyRow :=
  match d with
  | .none => []
  | .ident name definition =>
    [⟨.identDetails, { expr := expr, name := name, definition := definition }⟩]
  | .selector base field => [⟨.selectorDetails, { expr := expr, base := base, field := field }⟩]
  | .typeAssert base type => [⟨.typeAssertDetails, { expr := expr, base := base, type := type }⟩]
  | .call function args => (callRows expr function args).map fun r => ⟨.callDetails, r⟩

end ExprDetail

/-- The row of an expression with its detail and its access. -/
def recordExpr (n : NewExpr) (detail : ExprDetail) (access : Option NewAccess) :
    Transaction (ExprId × Bool) :=
  .ensure .expressions (·.exprAt? n.file n.span) n.row fun id =>
    detail.children id ++ access.toList.map fun a => ⟨.accesses, a.row id⟩

/-! ## Allocation sites -/

/-- A call that builds a slice, a map or a channel. -/
structure NewMakeSite where
  file : FileId
  position : Position
  container : ContainerKind
  /-- The capacity, if it is a literal, and otherwise -1. -/
  capacity : Int
  deriving DecidableEq

def recordMakeSite (n : NewMakeSite) : Transaction Bool :=
  .createOrIgnore .makeSites fun id =>
    { id := id, file := n.file, position := n.position, container := n.container,
      capacity := n.capacity }

/-- A call that allocates, with its size. -/
structure NewSizedAlloc where
  file : FileId
  position : Position
  builtin : String
  typeName : String
  /-- Bytes, if they are known, and otherwise -1. -/
  size : Int
  deriving DecidableEq

def recordSizedAlloc (n : NewSizedAlloc) : Transaction Bool :=
  .createOrIgnore .sizedAllocSites fun id =>
    { id := id, file := n.file, position := n.position, builtin := n.builtin,
      typeName := n.typeName, size := n.size }

end AccessDepth
