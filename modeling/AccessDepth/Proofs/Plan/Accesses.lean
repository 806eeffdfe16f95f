import AccessDepth.Proofs.Plan.Rows

/-!
# AccessDepth.Proofs.Plan.Accesses

Which accesses code records.

* `Store.accessesOf` — the accesses of an expression.
* `accessesOf_run` — the accesses of an expression do not change once it is recorded.
* `accessesOf_of_run` — the first item at a place decides: its access is the only one of the
  expression, or there is none. If no variables are added meanwhile, the access has the variable at
  its root that the store has in the end.
-/

namespace AccessDepth

open Plan (Around ExprNote AccessNote Item Op Machine Write run)

/-- The accesses of an expression. -/
def Store.accessesOf (s : Store) (id : ExprId) : List AccessRow :=
  s.accesses.filter fun r => r.expr = id

def Plan.AccessNote.row? (a : AccessNote) (s : Store) (file : FileId) (id : ExprId) :
    Option AccessRow :=
  (a.access? s file).map (·.row id)

theorem Store.variableOf?_isSome {s : Store} {site : SourceSite} :
    (s.variableOf? site).isSome = true ↔
      s.Occupied .variables site.file.text (Cell.ofPosition site.position) := by
  unfold variableOf? Occupied
  cases hf : s.fileNamed? site.file.text with
  | none => simp
  | some file => simp [variableAt?_isSome]

/-- As long as no variables are added, a site has the same variable. -/
theorem Store.Sound.variableOf?_eq {s t : Store} (hs : s.Sound) (ht : t.Sound) (hle : s ≤ t)
    (hv : t.vars = s.vars) (site : SourceSite) : t.variableOf? site = s.variableOf? site := by
  unfold Store.variableOf?
  cases hf : s.fileNamed? site.file.text with
  | some file => simp only [Store.fileNamed?_of_le hle hf, Option.bind_some, Store.variableAt?, hv]
  | none =>
    cases hf' : t.fileNamed? site.file.text with
    | none => rfl
    | some file =>
      cases hx : t.variableAt? file site.position with
      | none => simp [hx]
      | some id =>
        obtain ⟨r, hr, hk⟩ := Store.variableAt?_isSome.mp (Option.isSome_of_eq_some hx)
        have old : r ∈ s.vars := hv ▸ (show r ∈ t.vars from hr)
        have there := hs.references .variables r old _
          (Plan.mem_references_of_key (by simp [Table.placed]) hk)
        have found := ht.fileNamed?_of_has hs hle hf' there
        rw [hf] at found
        cases found

namespace Plan

variable {s s' : Store} {m m' : Machine} {o : Op} {id : ExprId}

/-! ## Operations -/

theorem Write.accesses_expr (x : NewExpr) (detail : ExprDetail) (access : Option NewAccess)
    (n : Int) :
    ((Write.expr x detail access).rows n).filterMap (·.in? .accesses) =
      access.toList.map (·.row ⟨n⟩) := by
  have details : (detail.children ⟨n⟩).filterMap (·.in? .accesses) = [] :=
    filterMap_in?_of_ne fun _ => detail.children_ne_accesses
  have accesses : (access.toList.map fun a => (⟨.accesses, a.row ⟨n⟩⟩ : AnyRow)).filterMap
      (·.in? .accesses) = access.toList.map (·.row ⟨n⟩) := by
    cases access <;> simp [AnyRow.in?]
  have head : AnyRow.in? ⟨.expressions, x.row ⟨n⟩⟩ .accesses = none := by simp [AnyRow.in?]
  unfold Write.rows Write.children
  rw [List.filterMap_cons, List.filterMap_append, details, accesses]
  simp only [Write.table, Write.row, head, List.nil_append]

/-- Either an expression was there, or it is recorded under the next number with its access. -/
theorem recordExpr_eq {x : NewExpr} {detail : ExprDetail} {access : Option NewAccess}
    (h : (Write.expr x detail access).record s = .ok ((), s')) :
    s' = s ∨ s'.expressions = s.expressions ++ [x.row ⟨s.nextNumber .expressions⟩] ∧
      s'.accesses = s.accesses ++ access.toList.map (·.row ⟨s.nextNumber .expressions⟩) := by
  refine (Write.record_eq h).imp_right fun added => ?_
  obtain ⟨-, he⟩ := added
  have accesses := Store.rows_pushAll s
    ((Write.expr x detail access).rows (s.nextNumber .expressions)) .accesses
  have expressions := Store.rows_pushAll s
    ((Write.expr x detail access).rows (s.nextNumber .expressions)) .expressions
  rw [Write.accesses_expr] at accesses
  have below : ((Write.expr x detail access).children (s.nextNumber .expressions)).filterMap
      (·.in? .expressions) = [] := by
    refine filterMap_in?_of_ne fun r hr ht => ?_
    have numbered := ((Write.expr x detail access).children_children _ r hr).2
    rw [ht] at numbered
    cases numbered
  rw [Write.rows, List.filterMap_cons, below] at expressions
  exact he ▸ ⟨expressions, accesses⟩

theorem accessesOf_of_has {access : Option NewAccess}
    (ha : s'.accesses = s.accesses ++ access.toList.map (·.row ⟨s.nextNumber .expressions⟩))
    (hid : s.has ⟨.expressions, id.value⟩ = true) : s'.accessesOf id = s.accessesOf id := by
  unfold Store.accessesOf
  rw [ha, List.filter_append, List.append_right_eq_self, List.filter_eq_nil_iff]
  intro r hr
  obtain ⟨a, -, rfl⟩ := List.mem_map.mp hr
  rw [decide_eq_true_eq]
  rintro rfl
  rw [NewAccess.row, Store.has_nextNumber] at hid
  cases hid

/-- An access that is added under the next number is the only one of that number. -/
theorem accessesOf_nextNumber (hs : s.Sound) {access : Option NewAccess}
    (ha : s'.accesses = s.accesses ++ access.toList.map (·.row ⟨s.nextNumber .expressions⟩)) :
    s'.accessesOf ⟨s.nextNumber .expressions⟩ =
      access.toList.map (·.row ⟨s.nextNumber .expressions⟩) := by
  have none : s.accesses.filter (fun r => r.expr = ⟨s.nextNumber .expressions⟩) = [] := by
    refine List.filter_eq_nil_iff.mpr fun r hr => ?_
    rw [decide_eq_true_eq]
    intro he
    have refers : (⟨.expressions, r.expr.value⟩ : Reference) ∈ Row.references .accesses r := by
      simp [Row.references, Table.columns, Row.cells, Column.keyRef, Cell.ofId]
    rw [he] at refers
    exact hs.new_number (u := .expressions) (v := .accesses) hr refers
  have all : (access.toList.map (·.row ⟨s.nextNumber .expressions⟩)).filter
      (fun r => r.expr = ⟨s.nextNumber .expressions⟩) =
        access.toList.map (·.row ⟨s.nextNumber .expressions⟩) := by
    refine List.filter_eq_self.mpr fun r hr => ?_
    obtain ⟨y, -, rfl⟩ := List.mem_map.mp hr
    simp [NewAccess.row]
  rw [Store.accessesOf, ha, List.filter_append, none, all, List.nil_append]

/-- The accesses of an expression do not change once it is recorded. -/
theorem accessesOf_step (h : o.step m = .ok m')
    (hid : m.store.has ⟨.expressions, id.value⟩ = true) :
    m'.store.accessesOf id = m.store.accessesOf id := by
  by_cases ho : o.table = .expressions
  · cases o with
    | file | type => cases ho
    | record a item =>
      obtain ⟨hr, -⟩ := step_record_ok h
      obtain ⟨file, w, -, hw, hrec⟩ := Item.record_ok hr
      have ht : w.table = .expressions := (Item.table_of_write? hw).trans ho
      cases w with
      | function | var | stmt | makeSite | sizedAlloc => cases ht
      | expr x detail access =>
        obtain he | ⟨-, he⟩ := recordExpr_eq hrec
        · rw [he]
        · exact accessesOf_of_has he hid
  · have same : m'.store.rows .accesses = m.store.rows .accesses :=
      (step_inserts h).rows_eq fun he => ho he.symm
    have accesses : m'.store.accesses = m.store.accesses := same
    rw [Store.accessesOf, accesses, Store.accessesOf]

theorem accessesOf_run {os : List Op} (h : run os m = .ok m')
    (hid : m.store.has ⟨.expressions, id.value⟩ = true) :
    m'.store.accessesOf id = m.store.accessesOf id := by
  induction os generalizing m with
  | nil =>
    cases h
    rfl
  | cons o os ih =>
    obtain ⟨m₁, h₁, h₂⟩ := run_cons_ok h
    rw [ih h₂ (Store.has_of_le (step_inserts h₁).le hid), accessesOf_step h₁ hid]

/-- An expression whose place is free is recorded with its access and no other one. -/
theorem accessesOf_of_step {a : Around} {kind : ExprKind} {span : Span} {detail : ExprNote}
    {access : Option AccessNote} (hs : m.store.Sound)
    (h : (Op.record a (.expr kind span detail access)).step m = .ok m')
    (free : ¬ m.store.Occupied .expressions a.path.text (Cell.ofSpan span)) :
    ∃ file id x, m'.store.fileNamed? a.path.text = some file ∧
      m'.store.exprAt? file span = some id ∧
      access.mapM (·.access? m.store file) = some x ∧
      m'.store.accessesOf id = x.toList.map (·.row id) := by
  obtain ⟨hr, -⟩ := step_record_ok h
  obtain ⟨file, w, hf, hw, hrec⟩ := Item.record_ok hr
  obtain ⟨d, -, hw⟩ := Option.bind_eq_some_iff.mp hw
  obtain ⟨x, hx, hw⟩ := Option.bind_eq_some_iff.mp hw
  cases hw
  have le := (step_inserts h).le
  have vacant : m.store.exprAt? file span = none := by
    cases hn : m.store.exprAt? file span with
    | none => rfl
    | some id => exact absurd ⟨file, hf, Store.exprAt?_isSome.mp (by simp [hn])⟩ free
  obtain he | ⟨expressions, accesses⟩ := recordExpr_eq hrec
  · obtain ⟨r, hrec⟩ := discard_ok.mp hrec
    have found := exprAt?_of_recordExpr hrec
    rw [he, vacant] at found
    cases found
  · refine ⟨file, ⟨m.store.nextNumber .expressions⟩, x, Store.fileNamed?_of_le le hf, ?_, hx, ?_⟩
    · unfold Store.exprAt? at vacant ⊢
      rw [expressions]
      exact Store.find?_map_concat vacant (by simp [NewExpr.row])
    · exact accessesOf_nextNumber hs accesses

/-- The first item at a place decides. If no variables are added after it, its access has the
variable at its root that the store has in the end. -/
theorem accessesOf_of_run {before after : List Op} {a : Around} {kind : ExprKind} {span : Span}
    {detail : ExprNote} {access : Option AccessNote} (hs : m.store.Sound)
    (h : run (before ++ .record a (.expr kind span detail access) :: after) m = .ok m')
    (free : ¬ m.store.Occupied .expressions a.path.text (Cell.ofSpan span))
    (first : ∀ b item, .record b item ∈ before → item.table = .expressions →
      b.path.text = a.path.text → item.place ≠ Cell.ofSpan span)
    (hv : ∀ o ∈ after, o.table ≠ .variables) :
    ∃ file id, m'.store.fileNamed? a.path.text = some file ∧
      m'.store.exprAt? file span = some id ∧
      ∃ x, access.mapM (·.row? m'.store file id) = some x ∧
        m'.store.accessesOf id = x.toList := by
  obtain ⟨m₁, h₁, h⟩ := run_append_ok h
  obtain ⟨m₂, h₂, h₃⟩ := run_cons_ok h
  have inserts₁ : Inserts (fun _ => True) m.store m₁.store :=
    run_inserts (fun _ _ _ _ => trivial) h₁
  have sound₁ := inserts₁.sound hs
  have vacant : ¬ m₁.store.Occupied .expressions a.path.text (Cell.ofSpan span) := by
    intro ho
    obtain ho | ⟨b, item, hm, ht, hp, hplace⟩ := occupied_run hs h₁ (by simp [Table.placed]) ho
    · exact free ho
    · exact first b item hm ht hp hplace
  obtain ⟨file, id, x, hf, hid, hx, hacc⟩ := accessesOf_of_step sound₁ h₂ vacant
  have sound₂ := (step_inserts h₂).sound sound₁
  have inserts₃ : Inserts (fun _ => True) m₂.store m'.store :=
    run_inserts (fun _ _ _ _ => trivial) h₃
  have sound₃ := inserts₃.sound sound₂
  have le₂ := (step_inserts h₂).le
  have le₃ := inserts₃.le
  have there : m₂.store.has ⟨.expressions, id.value⟩ = true := by
    obtain ⟨r, hr, rfl⟩ := Option.map_eq_some_iff.mp hid
    exact Store.has_iff.mpr ⟨r, List.mem_of_find?_eq_some hr, rfl⟩
  have sameVars : m'.store.vars = m₁.store.vars := by
    have later : m'.store.rows .variables = m₂.store.rows .variables := run_rows_eq hv h₃
    have here : m₂.store.rows .variables = m₁.store.rows .variables :=
      (step_inserts h₂).rows_eq (by simp [Op.table, Item.table, Table.owner])
    exact later.trans here
  refine ⟨file, id, Store.fileNamed?_of_le le₃ hf, Store.exprAt?_of_le le₃ hid, ?_⟩
  refine ⟨x.map (·.row id), ?_, ?_⟩
  · cases access with
    | none =>
      cases hx
      rfl
    | some note =>
      obtain ⟨y, hy, rfl⟩ := Option.map_eq_some_iff.mp hx
      refine Option.map_eq_some_iff.mpr ⟨y.row id, ?_, rfl⟩
      have same : note.base.bind m'.store.variableOf? = y.baseVariable := by
        obtain ⟨inner, -, hy⟩ := Option.bind_eq_some_iff.mp hy
        cases hy
        exact Option.bind_congr fun site _ =>
          sound₁.variableOf?_eq sound₃ (le_trans le₂ le₃) sameVars site
      have later := AccessNote.access?_of_le (le_trans le₂ le₃) hy
      rw [same] at later
      exact Option.map_eq_some_iff.mpr ⟨y, later, rfl⟩
  · rw [accessesOf_run h₃ there, hacc]
    cases x <;> rfl

end Plan
end AccessDepth
