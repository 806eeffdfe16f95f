import AccessDepth.Proofs.Passes

/-!
# AccessDepth.Proofs.AccessRows

Which accesses are stored, whatever is analyzed and wherever it stops.

* `Mark.HasRow` — the row of an expression is that of a node, with the access that the node is.
* `Invariant.rows` — every row of an expression is that of a node that was given.
* `AccessRow.IsOf` — the row of an access is that of an expression. `Invariant.isOf_of_mem` — so every
  one is.
* `AccessRow.Exclusive` — an access has a base exactly if it is certain, and one that goes through no
  other one is a name or a call.
* `Contexts.accesses_exclusive` — so it is in every store that calls leave.
-/

namespace AccessDepth

open Plan (Around AccessNote Write)

namespace Plan.AccessNote.Fits

variable {s : Store} {file : FileId} {n : AccessNote} {b : NewAccess}

theorem inner_some (h : n.Fits s file b) {i : ExprId} (hi : b.inner = some i) :
    ∃ operand, n.inner = some operand ∧ s.exprAt? file operand = some i := by
  have inner := h.inner
  rw [hi] at inner
  cases hn : n.inner with
  | none =>
    rw [hn] at inner
    cases inner
  | some operand =>
    rw [hn] at inner
    obtain ⟨i', hi', he⟩ := Option.map_eq_some_iff.mp inner
    cases he
    exact ⟨operand, rfl, hi'⟩

theorem inner_none (h : n.Fits s file b) (hi : b.inner = none) : n.inner = none := by
  have inner := h.inner
  rw [hi] at inner
  cases hn : n.inner with
  | none => rfl
  | some operand =>
    rw [hn] at inner
    obtain ⟨i', -, he⟩ := Option.map_eq_some_iff.mp inner
    cases he

end Plan.AccessNote.Fits

namespace Depth

/-- The row of an expression is that of a node. It has the access that the node is and no other one,
and the operand that the access goes through has an earlier row. -/
structure Mark.HasRow (p : Package) (root : Path) (m : Mark) (s : Store) (e : ExprRow) : Prop where
  span : m.exprSpan? = some e.span
  isFile : s.IsFile e.file m.around.path
  number_pos : 0 < e.id.value
  access : ∃ found : Option NewAccess, Option.Rel (·.Fits s e.file) (m.access? p root) found ∧
    s.accessesOf e.id = found.toList.map (·.row e.id) ∧
      ∀ b ∈ found, ∀ i, b.inner = some i → i.value < e.id.value

variable {p : Package} {root : Path} {m : Mark} {s t : Store} {e : ExprRow}

theorem Mark.HasRow.later (h : m.HasRow p root s e) (hle : s ≤ t)
    (ha : t.accessesOf e.id = s.accessesOf e.id) : m.HasRow p root t e where
  span := h.span
  isFile := h.isFile.of_le hle
  number_pos := h.number_pos
  access := by
    obtain ⟨found, fits, row, inner⟩ := h.access
    exact ⟨found, rel_of_le (fun _ _ hf => hf.of_le hle) fits, ha.trans row, inner⟩

theorem Mark.of_item {kind : ExprKind} {span : Span} {note : Plan.ExprNote}
    {access : Option AccessNote} (h : m.item p root = .expr kind span note access) :
    m.exprSpan? = some span ∧ m.access? p root = access := by
  cases m with
  | expr | name | literal | signature =>
    cases h
    exact ⟨rfl, rfl⟩
  | block | stmt => cases h

/-- The row that is added for a node is that of the node. -/
theorem Mark.hasRow_of_recordExpr (hs : s.Sound) {file : FileId}
    (hf : s.IsFile file m.around.path) {x : NewExpr} {detail : ExprDetail}
    {access : Option NewAccess} (hw : m.Writes p root s file (.expr x detail access)) (hle : s ≤ t)
    (ha : t.accesses = s.accesses ++ access.toList.map (·.row ⟨s.nextNumber .expressions⟩)) :
    m.HasRow p root t (x.row ⟨s.nextNumber .expressions⟩) := by
  cases hw with
  | expr item _ _ fits =>
    obtain ⟨span, rfl⟩ := Mark.of_item item
    refine ⟨span, hf.of_le hle, s.nextNumber_pos _, access, ?_, Plan.accessesOf_nextNumber hs ha, ?_⟩
    · exact rel_of_le (fun _ _ h => h.of_le hle) fits
    · intro b hb i hi
      obtain rfl : access = some b := hb
      generalize hn : m.access? p root = note at fits
      cases fits with
      | some fits =>
        obtain ⟨operand, -, found⟩ := fits.inner_some hi
        obtain ⟨r, hr, rfl⟩ := Option.map_eq_some_iff.mp found
        exact Store.number_lt_nextNumber (u := .expressions) (List.mem_of_find?_eq_some hr)

end Depth

namespace Invariant

variable {given : Package → Path → Depth.Mark → Prop}

/-- Every row of an expression is that of a node that was given. -/
def rows (given : Package → Path → Depth.Mark → Prop) : Invariant given where
  Holds s := ∀ e ∈ s.expressions, ∃ p root m, given p root m ∧ m.HasRow p root s e
  quiet := by
    intro s s' _ h hi e he
    have expressions : s'.expressions = s.expressions :=
      h.rows_eq (v := .expressions) (by simp [Quiet, Table.owner])
    have accesses : s'.accesses = s.accesses :=
      h.rows_eq (v := .accesses) (by simp [Quiet, Table.owner])
    obtain ⟨p, root, m, hm, row⟩ := hi e (expressions ▸ he)
    exact ⟨p, root, m, hm, row.later h.le (by rw [Store.accessesOf, accesses, Store.accessesOf])⟩
  records := by
    intro p root m file x detail access s s' hm hs hf hw hrec hi e he
    have le := (Write.record_inserts hrec).le
    obtain rfl | ⟨expressions, accesses⟩ := Plan.recordExpr_eq hrec
    · exact hi e he
    · rw [expressions] at he
      obtain he | he := List.mem_append.mp he
      · obtain ⟨p', root', m', hm', row⟩ := hi e he
        have there : s.has ⟨.expressions, e.id.value⟩ = true := Store.has_iff.mpr ⟨e, he, rfl⟩
        exact ⟨p', root', m', hm', row.later le (Plan.accessesOf_of_has accesses there)⟩
      · obtain rfl := List.mem_singleton.mp he
        exact ⟨p, root, m, hm, Depth.Mark.hasRow_of_recordExpr hs hf hw le accesses⟩

end Invariant

/-! ## Accesses -/

/-- The row of an access is that of an expression of a file. -/
structure AccessRow.IsOf (s : Store) (p : Package) (root : Path) (a : Around) (x : Expr)
    (e : ExprRow) (r : AccessRow) : Prop where
  mem : e ∈ s.expressions
  id : e.id = r.expr
  span : e.span = x.span
  isFile : s.IsFile e.file a.path
  number_pos : 0 < e.id.value
  access : ∃ n b, x.access? p root a.path = some n ∧ n.Fits s e.file b ∧ r = b.row e.id ∧
    ∀ i, b.inner = some i → i.value < e.id.value

theorem Invariant.isOf_of_mem {given : Package → Path → Depth.Mark → Prop} {s : Store}
    (hs : s.Sound) (hi : (rows given).Holds s) {r : AccessRow} (hr : r ∈ s.accesses) :
    ∃ p root a x e, given p root (.expr a x) ∧ r.IsOf s p root a x e := by
  have refers : (⟨.expressions, r.expr.value⟩ : Reference) ∈ Row.references .accesses r := by
    simp [Row.references, Table.columns, Row.cells, Column.keyRef, Cell.ofId]
  obtain ⟨e, he, hn⟩ := Store.has_iff.mp (hs.references .accesses r hr _ refers)
  have id : e.id = r.expr := congrArg RowId.mk hn
  obtain ⟨p, root, m, hm, row⟩ := hi e he
  obtain ⟨found, fits, only, inner⟩ := row.access
  have here : r ∈ s.accessesOf e.id := List.mem_filter.mpr ⟨hr, by simp [id]⟩
  rw [only] at here
  cases found with
  | none => cases here
  | some b =>
    obtain rfl := List.mem_singleton.mp here
    cases m with
    | expr a x =>
      generalize ha : (Depth.Mark.expr a x).access? p root = note at fits
      cases fits with
      | @some n _ fits =>
        exact ⟨p, root, a, x, e, hm, he, id, (Option.some.inj row.span).symm, row.isFile,
          row.number_pos, n, b, ha, fits, rfl, inner b rfl⟩
    | name | literal | signature | block | stmt => cases fits

/-- An access has a base exactly if it is certain, and one that goes through no other one is a name or
a call. -/
structure AccessRow.Exclusive (r : AccessRow) : Prop where
  uncertainty : 0 ≤ r.uncertainty
  base : r.baseVariable = none ↔ 0 < r.uncertainty
  root : r.inner = none → (r.kind = .ident ∨ r.kind = .functionCall) ∧ r.uncertainty = 0 ∧
    (r.depth = 0 ∨ r.depth = 1)
  call : r.inner = none → r.kind = .functionCall →
    r.depth = 0 ∧ r.baseVariable = some .unknown ∧ r.baseName = none

/-- The base of an access is what stands at the root of its expression. -/
structure AccessRow.BasedOn (s : Store) (p : Package) (root : Path) (x : Expr) (r : AccessRow) :
    Prop where
  base : ∀ v, r.baseVariable = some v → v ≠ .unknown →
    ∃ name object site, x.chainRoot? p = some (.object name object) ∧
      p.declaration? root object = some site ∧ s.IsVariable v site
  name : r.baseName = none ↔ x.chainRoot? p = some .call

namespace AccessRow.IsOf

variable {s : Store} {p : Package} {root : Path} {a : Around} {x : Expr} {e : ExprRow}
  {r : AccessRow}

theorem exclusive (h : r.IsOf s p root a x e) : r.Exclusive := by
  obtain ⟨n, b, hn, fits, rfl, -⟩ := h.access
  have rooted := x.rooted_of_access hn
  have inner (hi : (b.row e.id).inner = none) : n.inner = none :=
    fits.inner_none (Option.map_eq_none_iff.mp hi)
  constructor
  · rw [NewAccess.row, fits.uncertainty]
    exact rooted.uncertainty_nonneg
  · simp [NewAccess.row, NewAccess.storedBase]
  · intro hi
    obtain ⟨certain, shape⟩ := rooted.of_inner (inner hi)
    refine ⟨?_, fits.uncertainty.trans certain, ?_⟩
    · obtain ⟨kind, -⟩ | rfl := shape
      · exact .inl (fits.kind.trans kind)
      · exact .inr fits.kind
    · simp only [NewAccess.row, fits.depth]
      obtain ⟨-, depth⟩ | rfl := shape
      · exact depth
      · exact .inl rfl
  · intro hi hk
    obtain ⟨certain, ⟨kind, -⟩ | rfl⟩ := rooted.of_inner (inner hi)
    · cases (fits.kind.trans kind).symm.trans hk
    · have base : b.baseVariable = none := by
        cases hv : b.baseVariable with
        | none => rfl
        | some v =>
          obtain ⟨site, hs, -⟩ := fits.base v hv
          cases hs
      have uncertainty : b.uncertainty = 0 := fits.uncertainty
      refine ⟨fits.depth, ?_, fits.baseName⟩
      simp [NewAccess.row, NewAccess.storedBase, base, uncertainty]

theorem basedOn (h : r.IsOf s p root a x e) : r.BasedOn s p root x := by
  obtain ⟨n, b, hn, fits, rfl, -⟩ := h.access
  obtain ⟨start, hr, starts⟩ := (x.rooted_of_access hn).chainRoot
  constructor
  · intro v hv unknown
    have found : b.baseVariable = some v := by
      simp only [NewAccess.row, NewAccess.storedBase] at hv
      split at hv
      · cases hv
      · cases hb : b.baseVariable with
        | none =>
          rw [hb] at hv
          exact absurd (Option.some.inj hv).symm unknown
        | some v' =>
          rw [hb] at hv
          exact hv
    obtain ⟨site, hs, located⟩ := fits.base v found
    cases start with
    | call => cases hs.symm.trans starts.2
    | object name object => exact ⟨name, object, site, hr, starts.2.symm.trans hs, located⟩
  · rw [hr, NewAccess.row, fits.baseName]
    cases start with
    | call => simp [starts.1]
    | object name object => simp [starts.1]

end AccessRow.IsOf

namespace Contexts

variable {ι : Type} [DecidableEq ι] {w : Contexts ι} {cs : List (Call ι)}

theorem calls_rows {all : List (Call ι)} (hn : ∀ i, (w.context i).IsNew) (hw : w.store = .initial)
    (hcs : cs ⊆ all) : Kept (Invariant.rows (w.Given all)) w (w.calls cs) := by
  refine calls_keep _ (hw ▸ Store.initial_sound) (coherent_of_new hn) ?_ fun e he => ?_
  · rintro p root m ⟨c, hc, given⟩
    exact ⟨c, hcs hc, given⟩
  · rw [hw] at he
    cases he

/-- From an empty store, whatever is analyzed and wherever an analysis stops, every stored access is
that of an expression that was given. Its base is what stands at the root of the expression, and it
has one exactly if it is certain. -/
theorem accesses_exclusive (hn : ∀ i, (w.context i).IsNew) (hw : w.store = .initial) :
    ∀ r ∈ (w.calls cs).store.accesses, r.Exclusive ∧
      ∃ p root a x e, w.Given cs p root (.expr a x) ∧ r.IsOf (w.calls cs).store p root a x e ∧
        r.BasedOn (w.calls cs).store p root x := by
  intro r hr
  have kept := calls_rows hn hw (List.Subset.refl cs)
  obtain ⟨p, root, a, x, e, given, row⟩ := Invariant.isOf_of_mem kept.sound kept.holds hr
  exact ⟨row.exclusive, p, root, a, x, e, given, row, row.basedOn⟩

/-- The small package, analyzed until some transactions are made and then again. -/
theorem accesses_sample_exclusive :
    let w : Contexts Unit := ⟨.initial, fun _ => ⟨⟨"corpus"⟩, .empty 4, .empty 1⟩⟩
    let cs : List (Call Unit) := [⟨(), .sample, .all, some 12⟩, ⟨(), .sample, .depth, none⟩]
    (w.calls cs).store.accesses.length = 2 ∧
      ∀ r ∈ (w.calls cs).store.accesses, r.Exclusive ∧
        ∃ p root a x e, w.Given cs p root (.expr a x) ∧ r.IsOf (w.calls cs).store p root a x e ∧
          r.BasedOn (w.calls cs).store p root x := by
  intro w cs
  have new (i : Unit) : (w.context i).IsNew := ⟨rfl, rfl⟩
  exact ⟨by decide +kernel, accesses_exclusive new rfl⟩

end Contexts
end AccessDepth
