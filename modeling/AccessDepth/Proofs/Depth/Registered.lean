import AccessDepth.Proofs.AccessRows
import AccessDepth.Proofs.Depth.Sites
import AccessDepth.Proofs.Plan.Completion

/-!
# AccessDepth.Proofs.Depth.Registered

How the depth pass records one node after the other, told by the accesses at the spans of a file.

* `Store.accessAt?` — the access of the expression that stands at a span of a file.
* `AccessNote.Lands` — the row of an access, told by the accesses that were there before and by the
  variable that was found for its root.
* `Registers`, `Registered` — a node is recorded; nodes are recorded one after the other.
* `Room` — the places of nodes are free and distinct. Nodes leave those of the nodes after them free.
-/

namespace AccessDepth

open Plan (AccessNote)

/-- The access of the expression that stands at a span of a file. -/
def Store.accessAt? (s : Store) (file : FileId) (span : Span) : Option AccessRow :=
  (s.exprAt? file span).bind fun id => (s.accessesOf id).head?

/-- The row of an access in a store: it goes through the access that its operand has there, or from the
variable that was found for its root. -/
structure Plan.AccessNote.Lands (s : Store) (file : FileId) (v : Option VariableId) (n : AccessNote)
    (r : AccessRow) : Prop where
  kind : r.kind = n.kind
  depth : r.depth = n.depth
  uncertainty : r.uncertainty = n.uncertainty
  baseName : r.baseName = n.baseName
  root : n.inner = none → r.inner = none ∧
    r.baseVariable = if 0 < n.uncertainty then none else some (v.getD .unknown)
  through : ∀ operand, n.inner = some operand → ∃ r', s.accessAt? file operand = some r' ∧
    r.inner = some ⟨r'.expr.value⟩ ∧
    r.baseVariable = if 0 < n.uncertainty then none else r'.baseVariable

namespace Depth

open Session (LeadsTo)

/-- The pass has gone on: rows were added, and none of them is an access of an expression that was
there. -/
structure GoesOn (s s' : Session) : Prop where
  leadsTo : LeadsTo Adds s s'
  accesses : ∀ id : ExprId, s.store.has (.to id) = true →
    s'.store.accessesOf id = s.store.accessesOf id

section

variable {s s' s'' : Session} {file : FileId} {span : Span}

theorem GoesOn.trans (h : GoesOn s s') (h' : GoesOn s' s'') : GoesOn s s'' where
  leadsTo := h.leadsTo.trans h'.leadsTo
  accesses id hid :=
    (h'.accesses id (Store.has_of_le h.leadsTo.inserts.le hid)).trans (h.accesses id hid)

theorem exprAt?_of_quiet (h : LeadsTo Quiet s s') (file : FileId) (span : Span) :
    s'.store.exprAt? file span = s.store.exprAt? file span := by
  have same : s'.store.expressions = s.store.expressions :=
    h.inserts.rows_eq (v := .expressions) fun hq => hq rfl
  simp only [Store.exprAt?, same]

theorem accessesOf_of_quiet (h : LeadsTo Quiet s s') (id : ExprId) :
    s'.store.accessesOf id = s.store.accessesOf id := by
  have same : s'.store.accesses = s.store.accesses :=
    h.inserts.rows_eq (v := .accesses) fun hq => hq rfl
  simp only [Store.accessesOf, same]

theorem accessAt?_of_quiet (h : LeadsTo Quiet s s') (file : FileId) (span : Span) :
    s'.store.accessAt? file span = s.store.accessAt? file span := by
  have same (id : ExprId) := accessesOf_of_quiet h id
  simp only [Store.accessAt?, exprAt?_of_quiet h, same]

theorem quiet_of_supply (h : LeadsTo Supply s s') : LeadsTo Quiet s s' :=
  h.mono fun u hu => by rcases hu with hu | hu <;> simp [Quiet, hu]

/-- An expression that was there keeps its access. -/
theorem GoesOn.accessAt? (h : GoesOn s s') {id : ExprId} (hid : s.store.exprAt? file span = some id) :
    s'.store.accessAt? file span = s.store.accessAt? file span := by
  have later := Store.exprAt?_of_le h.leadsTo.inserts.le hid
  simp only [Store.accessAt?, hid, later, Option.bind_some,
    h.accesses id (Store.has_exprAt? hid)]

end

/-! ## Nodes -/

section

variable (p : Package) (root : Path) (file : FileId)

/-- A node is recorded. Its access goes by what was there before and by what was found for it. -/
structure Registers (m : Mark) (s s' : Session) : Prop where
  goesOn : GoesOn s s'
  others : ∀ span, m.exprSpan? ≠ some span →
    s'.store.exprAt? file span = s.store.exprAt? file span
  own : ∃ v s₁, m.seek p root s = .ok v s₁ ∧ s₁.SameSites s' ∧ ∀ span, m.exprSpan? = some span →
    (s'.store.exprAt? file span).isSome = true ∧
      Option.Rel (·.Lands s.store file v) (m.access? p root) (s'.store.accessAt? file span)

/-- Nodes are recorded one after the other. -/
inductive Registered : List Mark → Session → Session → Prop
  | nil {s : Session} : Registered [] s s
  | cons {m : Mark} {marks : List Mark} {s s₁ s₂ : Session} : Registers p root file m s s₁ →
      Registered marks s₁ s₂ → Registered (m :: marks) s s₂

/-- The places of nodes among the expressions are free and distinct. -/
structure Room (marks : List Mark) (s : Store) : Prop where
  distinct : (marks.filterMap Mark.exprSpan?).Nodup
  free : ∀ span ∈ marks.filterMap Mark.exprSpan?, s.exprAt? file span = none

end

section

variable {p : Package} {root : Path} {file : FileId} {m : Mark} {marks marks' : List Mark}
  {s s' s'' : Session} {span : Span}

/-- Another place keeps its access. -/
theorem Registers.accessAt? (h : Registers p root file m s s') (hm : m.exprSpan? ≠ some span) :
    s'.store.accessAt? file span = s.store.accessAt? file span := by
  cases hid : s.store.exprAt? file span with
  | some id => exact h.goesOn.accessAt? hid
  | none =>
    have later := (h.others span hm).trans hid
    simp only [Store.accessAt?, hid, later, Option.bind_none]

theorem Registered.single (h : Registers p root file m s s') : Registered p root file [m] s s' :=
  .cons h .nil

theorem Registered.append (h : Registered p root file marks s s')
    (h' : Registered p root file marks' s' s'') :
    Registered p root file (marks ++ marks') s s'' := by
  induction h with
  | nil => exact h'
  | cons first _ ih => exact .cons first (ih h')

theorem Registered.split (h : Registered p root file (marks ++ marks') s s'') :
    ∃ s', Registered p root file marks s s' ∧ Registered p root file marks' s' s'' := by
  induction marks generalizing s with
  | nil => exact ⟨s, .nil, h⟩
  | cons m marks ih =>
    cases h with
    | cons first rest =>
      obtain ⟨s', before, after⟩ := ih rest
      exact ⟨s', .cons first before, after⟩

theorem Registered.goesOn (hs : s.Ready) (h : Registered p root file marks s s') :
    GoesOn s s' := by
  induction h with
  | nil => exact ⟨.refl hs, fun _ _ => rfl⟩
  | cons first _ ih => exact first.goesOn.trans (ih first.goesOn.leadsTo.ready)

theorem Registered.others (h : Registered p root file marks s s')
    (hm : span ∉ marks.filterMap Mark.exprSpan?) :
    s'.store.exprAt? file span = s.store.exprAt? file span := by
  induction h with
  | nil => rfl
  | @cons m marks s s₁ s₂ first _ ih =>
    have apart : m.exprSpan? ≠ some span := fun he =>
      hm (List.mem_filterMap.mpr ⟨m, List.mem_cons_self, he⟩)
    have rest : span ∉ marks.filterMap Mark.exprSpan? := by
      intro there
      obtain ⟨m', hm', he⟩ := List.mem_filterMap.mp there
      exact hm (List.mem_filterMap.mpr ⟨m', List.mem_cons_of_mem m hm', he⟩)
    exact (ih rest).trans (first.others span apart)

theorem Registered.recorded (hs : s.Ready) (h : Registered p root file marks s s')
    (hm : span ∈ marks.filterMap Mark.exprSpan?) : (s'.store.exprAt? file span).isSome = true := by
  induction h with
  | nil => cases hm
  | @cons m marks s s₁ s₂ first rest ih =>
    obtain ⟨m', hm', he⟩ := List.mem_filterMap.mp hm
    have ready := first.goesOn.leadsTo.ready
    obtain rfl | hm' := List.mem_cons.mp hm'
    · obtain ⟨v, _, -, -, own⟩ := first.own
      obtain ⟨id, hid⟩ := Option.isSome_iff_exists.mp (own span he).1
      have later := Store.exprAt?_of_le (rest.goesOn ready).leadsTo.inserts.le hid
      exact Option.isSome_of_eq_some later
    · exact ih ready (List.mem_filterMap.mpr ⟨m', hm', he⟩)

theorem Room.left {t : Store} (h : Room file (marks ++ marks') t) : Room file marks t := by
  obtain ⟨distinct, free⟩ := h
  rw [List.filterMap_append] at distinct free
  exact ⟨distinct.of_append_left, fun span hspan => free span (List.mem_append_left _ hspan)⟩

theorem Room.rest (h : Room file (marks ++ marks') s.store)
    (first : Registered p root file marks s s') : Room file marks' s'.store := by
  obtain ⟨distinct, free⟩ := h
  rw [List.filterMap_append] at distinct free
  refine ⟨distinct.of_append_right, fun span hspan => ?_⟩
  have apart := fun there => List.disjoint_of_nodup_append distinct there hspan
  rw [first.others apart]
  exact free span (List.mem_append_right _ hspan)

end

end Depth
end AccessDepth
