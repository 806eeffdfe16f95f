import AccessDepth.Proofs.Access.Rooted
import AccessDepth.Proofs.Depth.Logic
import AccessDepth.Proofs.Plan.Rows
import AccessDepth.Proofs.Steps

/-!
# AccessDepth.Proofs.Depth.Trail

What the depth pass does to a session, node by node.

* `Mark.item`, `Mark.lookups` — what is recorded of a node, and the types that are looked up for it.
* `Mark.Writes` — the rows of a node, where what it goes by stands in a store. Which of the rows of a
  file it refers to is left open.
* `Visits`, `Stops` — a node is recorded, or the pass ends there.
* `Trail` — nodes are recorded one after the other.
-/

namespace AccessDepth

open Plan (Around ExprNote StmtNote AccessNote Item Write)

/-! ## Notes and rows -/

namespace Plan

/-- A variable that was found for the root of an access is recorded there. -/
def AccessNote.Finds (n : AccessNote) (s : Store) (v : Option VariableId) : Prop :=
  ∀ id, v = some id → ∃ site, n.base = some site ∧ s.IsVariable id site

/-- The access of a note in a store. -/
structure AccessNote.Fits (s : Store) (file : FileId) (n : AccessNote) (b : NewAccess) : Prop where
  kind : b.kind = n.kind
  inner : n.inner.mapM (s.exprAt? file) = some b.inner
  baseName : b.baseName = n.baseName
  base : n.Finds s b.baseVariable
  depth : b.depth = n.depth
  uncertainty : b.uncertainty = n.uncertainty

structure AccessNote.Chains (s : Store) (n : AccessNote) (c : Chain) : Prop where
  depth : c.depth = n.depth
  uncertainty : c.uncertainty = n.uncertainty
  baseName : c.baseName = n.baseName
  base : n.Finds s c.baseVariable

/-- The detail of a note in a store. A name is located in one of the rows of its file. -/
def ExprNote.Fits (s : Store) (file : FileId) (types : List (Option TypeId)) (note : ExprNote)
    (detail : ExprDetail) : Prop :=
  match note with
  | .ident name (some site) =>
    ∃ target, s.IsFile target site.file ∧ detail = .ident name (some (target, site.position))
  | note => note.detail? s file types = some detail

variable {s t : Store} {file : FileId}

theorem AccessNote.Finds.of_le {n : AccessNote} {v : Option VariableId} (h : n.Finds s v)
    (hle : s ≤ t) : n.Finds t v := by
  intro id hid
  obtain ⟨site, hs, hv⟩ := h id hid
  exact ⟨site, hs, hv.of_le hle⟩

theorem AccessNote.Fits.of_le {n : AccessNote} {b : NewAccess} (h : n.Fits s file b) (hle : s ≤ t) :
    n.Fits t file b :=
  { h with
    inner := mapM_of_le (fun _ => Store.exprAt?_of_le hle) h.inner
    base := h.base.of_le hle }

theorem AccessNote.Chains.of_le {n : AccessNote} {c : Chain} (h : n.Chains s c) (hle : s ≤ t) :
    n.Chains t c :=
  { h with base := h.base.of_le hle }

theorem ExprNote.Fits.of_le {note : ExprNote} {types : List (Option TypeId)} {detail : ExprDetail}
    (h : note.Fits s file types detail) (hle : s ≤ t) : note.Fits t file types detail := by
  unfold Fits at h ⊢
  split at h
  · obtain ⟨target, hf, hd⟩ := h
    exact ⟨target, hf.of_le hle, hd⟩
  · exact ExprNote.detail?_of_le hle h

end Plan

namespace Depth

section

variable (p : Package) (root : Path)

/-- What is recorded of a node. -/
def Mark.item : Mark → Item
  | .expr a e => .expr e.node.kind e.span (exprNote p root e).2.1 (e.access? p root a.path)
  | .name _ i => .expr .ident i.span (.ident i.name (p.declaration? root i.object)) none
  | .literal _ l => .expr .basicLit l.span .none none
  | .signature _ span _ => .expr .funcType span .none none
  | .block _ span => .stmt .block span .none
  | .stmt _ s => .stmt (stmtNote s).1 s.span (stmtNote s).2.1

/-- The types that are looked up for a node. That of an expression itself comes last. -/
def Mark.lookups : Mark → List (Option TypeRef)
  | .expr _ e => (exprNote p root e).2.2 ++ [(exprNote p root e).1]
  | .name _ i => [p.typeOfName i]
  | .literal .. => [none]
  | .signature _ _ type => [type]
  | .block .. => []
  | .stmt _ s => (stmtNote s).2.2

/-- The rows of a node of a file, where what it goes by stands in a store. -/
inductive Mark.Writes (s : Store) (file : FileId) (m : Mark) : Write → Prop
  | expr {kind : ExprKind} {span : Span} {note : ExprNote} {access : Option AccessNote}
      {types : List (Option TypeId)} {detail : ExprDetail} {found : Option NewAccess} :
      m.item p root = .expr kind span note access →
      List.Forall₂ (s.FitsType p.types) (m.lookups p root) types →
      note.Fits s file types detail → Option.Rel (·.Fits s file) access found →
        Writes s file m (.expr
          { kind := kind, type := types.getLast?.join, file := file, span := span,
            enclosing := m.around.enclosing s file } detail found)
  | stmt {kind : StmtKind} {span : Span} {note : StmtNote} {types : List (Option TypeId)}
      {detail : StmtDetail} :
      m.item p root = .stmt kind span note →
      List.Forall₂ (s.FitsType p.types) (m.lookups p root) types →
      note.detail? s file types = some detail →
        Writes s file m (.stmt
          { kind := kind, file := file, span := span, enclosing := m.around.enclosing s file }
          detail)

end

section

variable (p : Package) (root : Path) (file : FileId)

open Session (LeadsTo Halts)

/-- A node is recorded: first what it refers to by name, then its rows. -/
inductive Visits (m : Mark) (s s' : Session) : Prop
  | mk {s₁ : Session} {w : Write} : LeadsTo Supply s s₁ → s₁.store.IsFile file m.around.path →
      m.Writes p root s₁.store file w → w.record s₁.store = .ok ((), s'.store) →
      LeadsTo (·.owner = w.table) s₁ s' → Visits m s s'

/-- The pass ends at a node: what it refers to cannot be had, or its rows are refused. -/
inductive Stops (m : Mark) (s : Session) : Failure → Session → Prop
  | halts {s₁ s' : Session} {f : Failure} : LeadsTo Supply s s₁ → s₁.Halts f →
      LeadsTo Supply s₁ s' → Stops m s f s'
  | refused {s' : Session} {w : Write} {v : Violation} : LeadsTo Supply s s' →
      m.Writes p root s'.store file w → w.record s'.store = .error v →
      Stops m s (.store (.violation v)) s'

/-- Nodes are recorded one after the other. -/
inductive Trail : List Mark → Session → Session → Prop
  | nil {s : Session} : Trail [] s s
  | cons {m : Mark} {marks : List Mark} {s s₁ s₂ : Session} : Visits p root file m s s₁ →
      Trail marks s₁ s₂ → Trail (m :: marks) s s₂

/-- The pass ends at one of some nodes, after those before it are recorded. -/
def StopsWithin (marks : List Mark) (s : Session) (f : Failure) (s' : Session) : Prop :=
  ∃ done m rest s₁, marks = done ++ m :: rest ∧ Trail p root file done s s₁ ∧
    Stops p root file m s₁ f s'

end

section

variable {p : Package} {root : Path} {file : FileId} {m : Mark} {marks marks' : List Mark}
  {s s' s'' : Session} {f : Failure}

open Session (LeadsTo)

theorem Visits.leadsTo (h : Visits p root file m s s') : LeadsTo Adds s s' := by
  obtain ⟨supplied, -, hw, -, recorded⟩ := h
  refine (supplied.mono fun _ => .inl).trans (recorded.mono fun u hu => ?_)
  cases hw with
  | expr => exact .inr (.inr hu)
  | stmt => exact .inr (.inl hu)

theorem Trail.single (h : Visits p root file m s s') : Trail p root file [m] s s' := .cons h .nil

theorem Trail.append (h : Trail p root file marks s s') (h' : Trail p root file marks' s' s'') :
    Trail p root file (marks ++ marks') s s'' := by
  induction h with
  | nil => exact h'
  | cons first _ ih => exact .cons first (ih h')

theorem Trail.leadsTo (hs : s.Ready) (h : Trail p root file marks s s') : LeadsTo Adds s s' := by
  induction h with
  | nil => exact .refl hs
  | cons first _ ih =>
    have step := first.leadsTo
    exact step.trans (ih step.ready)

theorem Stops.leadsTo (h : Stops p root file m s f s') : LeadsTo Supply s s' := by
  cases h with
  | halts before _ after => exact before.trans after
  | refused before => exact before

theorem StopsWithin.leadsTo (hs : s.Ready) (h : StopsWithin p root file marks s f s') :
    LeadsTo Adds s s' := by
  obtain ⟨done, m, rest, s₁, -, trail, stops⟩ := h
  exact (trail.leadsTo hs).trans (stops.leadsTo.mono fun _ => .inl)

theorem StopsWithin.single (h : Stops p root file m s f s') : StopsWithin p root file [m] s f s' :=
  ⟨[], m, [], s, rfl, .nil, h⟩

theorem StopsWithin.append (h : StopsWithin p root file marks s f s') :
    StopsWithin p root file (marks ++ marks') s f s' := by
  obtain ⟨done, m, rest, s₁, rfl, ht, hs⟩ := h
  exact ⟨done, m, rest ++ marks', s₁, by simp, ht, hs⟩

theorem StopsWithin.after (h : Trail p root file marks s s')
    (hs : StopsWithin p root file marks' s' f s'') :
    StopsWithin p root file (marks ++ marks') s f s'' := by
  obtain ⟨done, m, rest, s₁, rfl, ht, hs⟩ := hs
  exact ⟨marks ++ done, m, rest, s₁, by simp, h.append ht, hs⟩

end

end Depth
end AccessDepth
