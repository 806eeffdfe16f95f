import AccessDepth.Path
import AccessDepth.Store

/-!
# AccessDepth.Store.Report

Questions to the store.

* `Store.stats` — how many rows there are, the unknown file and variable aside.
* `Store.accessRecords` — the accesses with their places, of all files or of one, in the order of
  path and place. An access whose span ends before it starts makes the answer a failure.
* `Store.typeInfo?` — a type by its canonical name.
-/

namespace AccessDepth

/-- Row counts. -/
structure StoreStats where
  files : Nat
  types : Nat
  functions : Nat
  vars : Nat
  statements : Nat
  expressions : Nat
  accesses : Nat
  makeSites : Nat
  sizedAllocSites : Nat
  deriving DecidableEq

/-- An access with the place of its expression. -/
structure AccessRecord where
  expr : ExprId
  file : Path
  span : Span
  kind : AccessKind
  depth : Int
  uncertainty : Int
  baseName : Option String
  baseVariable : Option VariableId
  inner : Option AccessId
  deriving DecidableEq

namespace AccessRecord

/-- The order by path text, start and end. -/
def notAfter (a b : AccessRecord) : Bool :=
  ((compare a.file.text b.file.text).then
    ((compare a.span.startLine b.span.startLine).then
      ((compare a.span.startColumn b.span.startColumn).then
        ((compare a.span.endLine b.span.endLine).then
          (compare a.span.endColumn b.span.endColumn))))).isLE

end AccessRecord

namespace Store

def stats (s : Store) : StoreStats :=
  { files := (s.files.filter fun r => r.id != .unknown).length
    types := s.types.length
    functions := s.functions.length
    vars := (s.vars.filter fun r => r.id != .unknown).length
    statements := s.statements.length
    expressions := s.expressions.length
    accesses := s.accesses.length
    makeSites := s.makeSites.length
    sizedAllocSites := s.sizedAllocSites.length }

/-- An access joined with its expression and file. -/
def accessRecord? (s : Store) (a : AccessRow) : Option AccessRecord := do
  let e ← s.expressions.find? fun e => e.id == a.expr
  let f ← s.files.find? fun f => f.id == e.file
  some {
    expr := a.expr, file := ⟨f.path⟩, span := e.span, kind := a.kind, depth := a.depth,
    uncertainty := a.uncertainty, baseName := a.baseName, baseVariable := a.baseVariable,
    inner := a.inner }

/-- The accesses of all files or of one, in order; or the first span that ends before it starts. -/
def accessRecords (s : Store) (file : Option Path) : Except Span (List AccessRecord) :=
  let joined := s.accesses.filterMap s.accessRecord?
  let chosen := joined.filter fun r => file.all fun p => p.text == r.file.text
  let sorted := chosen.mergeSort AccessRecord.notAfter
  match sorted.find? fun r => !r.span.isOrdered with
  | some r => .error r.span
  | none => .ok sorted

/-- A type by its canonical name. -/
def typeInfo? (s : Store) (name : String) : Option TypeRow :=
  s.types.find? fun r => r.name == name

end Store

end AccessDepth
