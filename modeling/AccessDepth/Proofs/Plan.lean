import AccessDepth.Analysis.Scope
import AccessDepth.Proofs.Interning

/-!
# AccessDepth.Proofs.Plan

What a pass does to the store, as straight-line code.

* `Plan.Op` — one transaction: a file row, a type, or an item with its children.
* `Plan.Item` — what is recorded at a place. An item names files by their paths, nodes by their
  spans, functions and variables by where they stand; it holds no row numbers.
* `Item.write?` — the rows of an item, once everything that it names is looked up in a store.
* `Plan.run` — runs code on a store. The rows of the types that were looked up last are kept beside
  it, for the item that comes next.
-/

namespace AccessDepth
namespace Plan

/-- A place in a file: the path of the file, and where the functions around the place stand, from
the outermost one on. -/
structure Around where
  path : Path
  functions : List Position

namespace Around

def top (path : Path) : Around := ⟨path, []⟩

def enter (a : Around) (function : Position) : Around :=
  { a with functions := a.functions ++ [function] }

/-- The functions around a place that have rows. -/
def recorded (a : Around) (s : Store) (file : FileId) : List FunctionId :=
  a.functions.filterMap (s.functionAt? file)

def enclosing (a : Around) (s : Store) (file : FileId) : Enclosing :=
  ⟨(a.recorded s file).head?, (a.recorded s file).getLast?⟩

end Around

/-! ## Items -/

/-- An access: the span of the operand that it goes through, and where its variable is declared, if
that is in the corpus. -/
structure AccessNote where
  kind : AccessKind
  inner : Option Span
  depth : Int
  uncertainty : Int
  baseName : Option String
  base : Option SourceSite
  deriving DecidableEq

/-- The detail of an expression; operands are named by their spans. The type of an assertion is the
first type that was looked up. -/
inductive ExprNote where
  | none
  | ident (name : String) (definition : Option SourceSite)
  | selector (base : Span) (field : String)
  | typeAssert (base : Span)
  | call (function : Span) (args : List Span)
  deriving DecidableEq

/-- The detail of a statement; operands are named by their spans. The cases of a type switch get the
types that were looked up, in order. -/
inductive StmtNote where
  | none
  | assign (lhs rhs : List Span)
  | return (results : List Span)
  | defer (call : Span)
  | typeSwitch (bound : Option String) (assertion : Span) (cases : List SwitchCase)
  deriving DecidableEq

/-- What is recorded at a place. -/
inductive Item where
  /-- A function has the type that was looked up first; the others are those of its signature. -/
  | function (name : Option String) (position : Position) (variadic generic literal : Bool)
      (signature : List SignatureItem)
  | var (name : String) (position : Position) (isConst : Bool) (role : VariableRole)
  | stmt (kind : StmtKind) (span : Span) (detail : StmtNote)
  /-- An expression has the type that was looked up last. -/
  | expr (kind : ExprKind) (span : Span) (detail : ExprNote) (access : Option AccessNote)
  | makeSite (position : Position) (container : ContainerKind) (capacity : Int)
  | sizedAlloc (position : Position) (builtin typeName : String) (size : Int)

inductive Write where
  | function (f : NewFunction) (signature : List SignatureItem)
  | var (v : NewVariable)
  | stmt (n : NewStmt) (detail : StmtDetail)
  | expr (n : NewExpr) (detail : ExprDetail) (access : Option NewAccess)
  | makeSite (n : NewMakeSite)
  | sizedAlloc (n : NewSizedAlloc)

def Write.record : Write → Transaction Unit
  | .function f signature => discard (recordFunction f signature)
  | .var v => discard (recordVariable v)
  | .stmt n detail => discard (recordStmt n detail)
  | .expr n detail access => discard (recordExpr n detail access)
  | .makeSite n => discard (recordMakeSite n)
  | .sizedAlloc n => discard (recordSizedAlloc n)

end Plan

def Store.variableOf? (s : Store) (site : SourceSite) : Option VariableId :=
  (s.fileNamed? site.file.text).bind (s.variableAt? · site.position)

/-- The expressions at some spans of a file, if all of them are recorded. -/
def Store.exprsAt? (s : Store) (file : FileId) (spans : List Span) : Option (List ExprId) :=
  spans.mapM (s.exprAt? file)

namespace Plan

variable (s : Store) (file : FileId) (types : List (Option TypeId))

def AccessNote.access? (a : AccessNote) : Option NewAccess := do
  let inner ← a.inner.mapM (s.exprAt? file)
  some { kind := a.kind, inner := inner, baseName := a.baseName,
         baseVariable := a.base.bind s.variableOf?, depth := a.depth, uncertainty := a.uncertainty }

def ExprNote.detail? : ExprNote → Option ExprDetail
  | .none => some .none
  | .ident name Option.none => some (.ident name Option.none)
  | .ident name (some site) => do
    let target ← s.fileNamed? site.file.text
    some (.ident name (some (target, site.position)))
  | .selector base field => do
    let base ← s.exprAt? file base
    some (.selector base field)
  | .typeAssert base => do
    let base ← s.exprAt? file base
    some (.typeAssert base types.head?.join)
  | .call function args => do
    let function ← s.exprAt? file function
    let args ← s.exprsAt? file args
    some (.call function args)

def StmtNote.detail? : StmtNote → Option StmtDetail
  | .none => some .none
  | .assign lhs rhs => do
    let lhs ← s.exprsAt? file lhs
    let rhs ← s.exprsAt? file rhs
    some (.assign lhs rhs)
  | .return results => do
    let results ← s.exprsAt? file results
    some (.return results)
  | .defer call => do
    let call ← s.exprAt? file call
    some (.defer call)
  | .typeSwitch bound assertion cases => do
    let assertion ← s.exprAt? file assertion
    some (.typeSwitch bound assertion (cases.zipWith (fun c t => { c with type := t }) types))

/-- The rows of an item, if everything that it goes by is recorded. -/
def Item.write? (around : Around) : Item → Option Write
  | .function name position variadic generic literal signature =>
    some (.function
      { name := name, file := file, position := position, type := types.head?.join,
        variadic := variadic, generic := generic, literal := literal,
        parent := if literal then (around.enclosing s file).innermost else none }
      (signature.zipWith (fun e t => { e with type := t }) types.tail))
  | .var name position isConst role =>
    some (.var
      { name := name, file := file, position := position, type := types.head?.join,
        isConst := isConst, function := (around.enclosing s file).innermost, role := role })
  | .stmt kind span detail => do
    let detail ← detail.detail? s file types
    some (.stmt
      { kind := kind, file := file, span := span, enclosing := around.enclosing s file } detail)
  | .expr kind span detail access => do
    let detail ← detail.detail? s file types
    let access ← access.mapM (·.access? s file)
    some (.expr
      { kind := kind, type := types.getLast?.join, file := file, span := span,
        enclosing := around.enclosing s file } detail access)
  | .makeSite position container capacity =>
    some (.makeSite
      { file := file, position := position, container := container, capacity := capacity })
  | .sizedAlloc position builtin typeName size =>
    some (.sizedAlloc
      { file := file, position := position, builtin := builtin, typeName := typeName,
        size := size })

/-! ## Code -/

inductive Op where
  /-- A row for a file. -/
  | file (path : Path)
  /-- The row of a type of some table. -/
  | type (table : TypeTable) (ref : Option TypeRef)
  | record (around : Around) (item : Item)

end Plan

/-- The row of a type, recorded if it is not there; nothing for one that does not resolve. -/
def Uncached.typeId (table : TypeTable) (ref : Option TypeRef) : Uncached (Option TypeId) := fun s =>
  match ref with
  | none => .ok (none, s)
  | some r =>
    match intern table (table.size + 1) r s with
    | .ok (id, s') => .ok (some id, s')
    | .error .nilType => .ok (none, s)
    | .error f => .error f

namespace Plan

/-- A store, and the types that were looked up since the last item. -/
structure Machine where
  store : Store
  types : List (Option TypeId)

/-- Records an item. One that goes by what is not recorded breaks a reference. -/
def Item.record (around : Around) (types : List (Option TypeId)) (item : Item) :
    Transaction Unit := fun s =>
  match s.fileNamed? around.path.text with
  | none => .error .foreignKey
  | some file =>
    match item.write? s file types around with
    | none => .error .foreignKey
    | some w => w.record s

def Op.step : Op → Machine → Except Failure Machine
  | .file path, m =>
    match recordFile path m.store with
    | .ok (_, s) => .ok { m with store := s }
    | .error v => .error (.store (.violation v))
  | .type table ref, m =>
    match Uncached.typeId table ref m.store with
    | .ok (id, s) => .ok ⟨s, m.types ++ [id]⟩
    | .error f => .error f
  | .record around item, m =>
    match item.record around m.types m.store with
    | .ok (_, s) => .ok ⟨s, []⟩
    | .error v => .error (.store (.violation v))

/-- Runs code from its first operation to its last, or to one that fails. -/
def run : List Op → Machine → Except Failure Machine
  | [], m => .ok m
  | o :: os, m =>
    match o.step m with
    | .ok m' => run os m'
    | .error f => .error f

variable {m m' m'' : Machine} {os os' : List Op} {f : Failure}

theorem run_append (os os' : List Op) (m : Machine) :
    run (os ++ os') m = (run os m).bind (run os') := by
  induction os generalizing m with
  | nil => rfl
  | cons o os ih =>
    simp only [List.cons_append, run]
    cases o.step m with
    | error f => rfl
    | ok m' => exact ih m'

theorem run_append_of_ok (h : run os m = .ok m') : run (os ++ os') m = run os' m' := by
  rw [run_append, h]
  rfl

theorem run_append_of_error (h : run os m = .error f) : run (os ++ os') m = .error f := by
  rw [run_append, h]
  rfl

theorem run_append_ok (h : run (os ++ os') m = .ok m'') :
    ∃ m', run os m = .ok m' ∧ run os' m' = .ok m'' := by
  cases hr : run os m with
  | error f =>
    rw [run_append_of_error hr] at h
    cases h
  | ok m' =>
    rw [run_append_of_ok hr] at h
    exact ⟨m', rfl, h⟩

theorem run_cons_ok {o : Op} (h : run (o :: os) m = .ok m'') :
    ∃ m', o.step m = .ok m' ∧ run os m' = .ok m'' := by
  unfold run at h
  cases hs : o.step m with
  | error f =>
    rw [hs] at h
    cases h
  | ok m' =>
    rw [hs] at h
    exact ⟨m', rfl, h⟩

theorem run_cons_of_ok {o : Op} (h : o.step m = .ok m') : run (o :: os) m = run os m' := by
  rw [run, h]

theorem run_singleton (o : Op) (m : Machine) : run [o] m = o.step m := by
  unfold run
  cases o.step m <;> rfl

end Plan
end AccessDepth
