import AccessDepth.Chain
import AccessDepth.Proofs.Plan.Follows

/-!
# AccessDepth.Proofs.Access

What the accesses of a package are, read off the syntax.

* `AccessNote.after` — the access that one step makes of another one.
* `Expr.access?` — the access that an expression is, if it is one: a recursion over the expression
  that knows neither stores nor rows.
* `AccessNote.chain` — the chain of an access, with the variable that a store has for its root.
-/

namespace AccessDepth

open Plan (AccessNote)

def Package.declaration? (p : Package) (root : Path) (object : Option ObjectRef) :
    Option SourceSite :=
  ((p.objects.get? object).bind (·.decl)).bind (·.within root)

def Package.isPackageName (p : Package) (x : Expr) : Bool :=
  match x.node with
  | .ident _ object => (p.objects.get? object).any fun o => o.kind = .pkgName
  | _ => false

namespace Plan.AccessNote

/-- The access of an expression that goes through an operand with an access. -/
def via (a : AccessNote) (operand : Span) (kind : AccessKind) (depth uncertainty : Int) :
    AccessNote :=
  { a with
    kind := kind
    inner := some operand
    depth := a.depth + depth
    uncertainty := a.uncertainty + uncertainty }

/-- The access after a step; none if the result is no access. -/
def after (a : AccessNote) (operand : Span) : Step → Option AccessNote
  | .deref => some (a.via operand .deref 1 0)
  | .ref => some (a.via operand .ref (-1) 0)
  | .paren => some (a.via operand .paren 0 0)
  | .select none => some (a.via operand .unknownFieldAccess 0 1)
  | .select (some .struct) => some (a.via operand .fieldAccess 0 0)
  | .select (some .pointer) => some (a.via operand .indirectFieldAccess 1 0)
  | .select (some _) => none
  | .index none => some (a.via operand .unknownIndex 0 1)
  | .index (some .slice) => some (a.via operand .sliceIndex 1 0)
  | .index (some .array) => some (a.via operand .arrayIndex 0 0)
  | .index (some .map) => some (a.via operand .mapIndex 1 0)
  | .index (some _) => none
  | .slice none => some (a.via operand .unknownSlice 0 1)
  | .slice (some .slice) => some (a.via operand .sliceOfSlice 0 0)
  | .slice (some .array) => some (a.via operand .sliceOfArray (-1) 0)
  | .slice (some _) => none

def root (name : String) (base : Option SourceSite) : AccessNote :=
  { kind := .ident, inner := none, depth := 0, uncertainty := 0, baseName := some name,
    base := base }

def member (name : String) (base : Option SourceSite) : AccessNote :=
  { kind := .ident, inner := none, depth := 1, uncertainty := 0, baseName := some name,
    base := base }

def call : AccessNote :=
  { kind := .functionCall, inner := none, depth := 0, uncertainty := 0, baseName := none,
    base := none }

end Plan.AccessNote

section

variable (p : Package) (root path : Path)

def Package.memberAccess? (x : Expr) (sel : Ident) : Option AccessNote :=
  match p.objects.get? sel.object with
  | some o =>
    if o.kind = .var && p.isPackageName x then
      some (.member sel.name (p.declaration? root sel.object))
    else none
  | none => none

mutual

/-- The access that an expression of a file is, if it is one. -/
def Expr.access? : Expr → Option AccessNote
  | ⟨span, _, node⟩ => node.access? span
termination_by structural e => e

def ExprNode.access? (span : Span) : ExprNode → Option AccessNote
  | .ident name object =>
    match p.objects.get? object with
    | some o =>
      if o.kind = .var && !o.declaredAt path span.start then
        some (.root name (p.declaration? root object))
      else none
    | none => none
  | .call .. => some .call
  | .paren x => x.access?.bind (·.after x.span .paren)
  | .star x => x.access?.bind (·.after x.span .deref)
  | .unary .addr x => x.access?.bind (·.after x.span .ref)
  | .unary .deref x => x.access?.bind (·.after x.span .deref)
  | .selector x sel =>
    match p.objects.get? sel.object with
    | some o =>
      if o.kind = .var || o.kind = .field then
        match x.access? with
        | some a =>
          if x.unparen.node.kind = .call then p.memberAccess? root x sel
          else a.after x.span (.select (p.types.shape x.type))
        | none => p.memberAccess? root x sel
      else none
    | none => none
  | .index x _ => x.access?.bind (·.after x.span (.index (p.types.shape x.type)))
  | .slice x _ _ _ => x.access?.bind (·.after x.span (.slice (p.types.shape x.type)))
  | _ => none
termination_by structural n => n

end

end

namespace Plan.AccessNote

variable {s t : Store} {a n : AccessNote}

/-- The chain of an access. -/
def chain (s : Store) (a : AccessNote) : Chain :=
  { depth := a.depth, uncertainty := a.uncertainty, baseName := a.baseName,
    baseVariable := a.base.bind s.variableOf? }

/-- A step extends the chain of an access as it extends the access. -/
theorem extend_chain (s : Store) (a : AccessNote) (operand : Span) (step : Step) :
    (a.chain s).extend step = (a.after operand step).map fun n => (n.kind, n.chain s) := by
  cases step with
  | deref | ref | paren => rfl
  | select shape =>
    cases shape with
    | none => rfl
    | some shape => cases shape <;> rfl
  | index shape =>
    cases shape with
    | none => rfl
    | some shape => cases shape <;> rfl
  | slice shape =>
    cases shape with
    | none => rfl
    | some shape => cases shape <;> rfl

theorem of_after {operand : Span} {step : Step} (h : a.after operand step = some n) :
    n.inner = some operand ∧ n.base = a.base := by
  cases step with
  | deref | ref | paren =>
    cases h
    exact ⟨rfl, rfl⟩
  | select shape | index shape | slice shape =>
    cases shape with
    | none =>
      cases h
      exact ⟨rfl, rfl⟩
    | some shape => cases shape <;> cases h <;> exact ⟨rfl, rfl⟩

end Plan.AccessNote
end AccessDepth
