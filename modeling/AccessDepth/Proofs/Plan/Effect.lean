import AccessDepth.Proofs.Plan
import AccessDepth.Proofs.Store.Record

/-!
# AccessDepth.Proofs.Plan.Effect

What code does to a store, and what it does when it is run again.

* `Op.table` — an operation adds to the rows of one table and to those that belong to them.
* `run_le`, `run_rows_eq` — code only adds rows, and none to the other tables.
* `run_settled` — code that has run does nothing more, however the store has grown since. Only a
  reference that leads out of a type table could make a difference.
-/

namespace AccessDepth
namespace Plan

variable {s s' t : Store} {m m' : Machine}

/-! ## Where rows are added -/

def Write.table : Write → Table
  | .function .. => .functions
  | .var _ => .variables
  | .stmt .. => .statements
  | .expr .. => .expressions
  | .makeSite _ => .makeSites
  | .sizedAlloc _ => .sizedAllocSites

def Item.table : Item → Table
  | .function .. => .functions
  | .var .. => .variables
  | .stmt .. => .statements
  | .expr .. => .expressions
  | .makeSite .. => .makeSites
  | .sizedAlloc .. => .sizedAllocSites

def Op.table : Op → Table
  | .file _ => .files
  | .type .. => .types
  | .record _ item => item.table

theorem discard_ok {α : Type} {a : Transaction α} :
    (discard a : Transaction Unit) s = .ok ((), s') ↔ ∃ x, a s = .ok (x, s') := by
  simp only [discard, Functor.discard, Functor.mapConst, StateT.map, bind,
    Except.bind, Function.comp_def, Function.const]
  cases a s with
  | error v => simp
  | ok r =>
    obtain ⟨x, s₁⟩ := r
    simp [pure, Except.pure]

theorem Write.record_inserts {w : Write} (h : w.record s = .ok ((), s')) :
    Inserts (·.owner = w.table) s s' := by
  cases w with
  | function f signature =>
    obtain ⟨r, h⟩ := discard_ok.mp h
    exact recordFunction_inserts h
  | var v =>
    obtain ⟨r, h⟩ := discard_ok.mp h
    exact recordVariable_inserts h
  | stmt n detail =>
    obtain ⟨r, h⟩ := discard_ok.mp h
    exact recordStmt_inserts h
  | expr n detail access =>
    obtain ⟨r, h⟩ := discard_ok.mp h
    exact recordExpr_inserts h
  | makeSite n =>
    obtain ⟨r, h⟩ := discard_ok.mp h
    exact recordMakeSite_inserts h
  | sizedAlloc n =>
    obtain ⟨r, h⟩ := discard_ok.mp h
    exact recordSizedAlloc_inserts h

theorem Item.table_of_write? {item : Item} {file : FileId} {types : List (Option TypeId)}
    {around : Around} {w : Write} (h : item.write? s file types around = some w) :
    w.table = item.table := by
  cases item with
  | function | var | makeSite | sizedAlloc =>
    cases h
    rfl
  | stmt kind span detail =>
    obtain ⟨d, -, h⟩ := Option.bind_eq_some_iff.mp h
    cases h
    rfl
  | expr kind span detail access =>
    obtain ⟨d, -, h⟩ := Option.bind_eq_some_iff.mp h
    obtain ⟨a, -, h⟩ := Option.bind_eq_some_iff.mp h
    cases h
    rfl

theorem Item.record_ok {item : Item} {around : Around} {types : List (Option TypeId)} {u : Unit}
    (h : item.record around types s = .ok (u, s')) :
    ∃ file w, s.fileNamed? around.path.text = some file ∧
      item.write? s file types around = some w ∧ w.record s = .ok ((), s') := by
  unfold Item.record at h
  split at h
  · cases h
  · rename_i file hf
    split at h
    · cases h
    · rename_i w hw
      exact ⟨file, w, hf, hw, h⟩

theorem Item.record_of_write? {item : Item} {around : Around} {types : List (Option TypeId)}
    {file : FileId} {w : Write} (hf : s.fileNamed? around.path.text = some file)
    (hw : item.write? s file types around = some w) :
    item.record around types s = w.record s := by
  unfold Item.record
  simp only [hf, hw]

end Plan

theorem Uncached.typeId_inserts {table : TypeTable} {ref : Option TypeRef} {s s' : Store}
    {id : Option TypeId} (h : typeId table ref s = .ok (id, s')) :
    Inserts (·.owner = .types) s s' := by
  unfold typeId at h
  cases ref with
  | none =>
    cases h
    exact .refl _
  | some r =>
    simp only at h
    split at h
    · rename_i hi
      cases h
      exact intern_inserts hi
    · cases h
      exact .refl _
    · cases h

namespace Plan

variable {s s' t : Store} {m m' : Machine}

theorem step_file_ok {path : Path} (h : (Op.file path).step m = .ok m') :
    ∃ id, recordFile path m.store = .ok (id, m'.store) ∧ m'.types = m.types := by
  unfold Op.step at h
  simp only at h
  split at h
  · rename_i id s hr
    cases h
    exact ⟨id, hr, rfl⟩
  · cases h

theorem step_type_ok {table : TypeTable} {ref : Option TypeRef}
    (h : (Op.type table ref).step m = .ok m') :
    ∃ id, Uncached.typeId table ref m.store = .ok (id, m'.store) ∧
      m'.types = m.types ++ [id] := by
  unfold Op.step at h
  simp only at h
  split at h
  · rename_i id s hr
    cases h
    exact ⟨id, hr, rfl⟩
  · cases h

theorem step_record_ok {around : Around} {item : Item}
    (h : (Op.record around item).step m = .ok m') :
    item.record around m.types m.store = .ok ((), m'.store) ∧ m'.types = [] := by
  unfold Op.step at h
  simp only at h
  split at h
  · rename_i hr
    cases h
    exact ⟨hr, rfl⟩
  · cases h

/-- An operation adds rows of one table and rows that belong to them. -/
theorem step_inserts {o : Op} (h : o.step m = .ok m') :
    Inserts (·.owner = o.table) m.store m'.store := by
  cases o with
  | file path =>
    obtain ⟨id, h, -⟩ := step_file_ok h
    exact recordFile_inserts h
  | type table ref =>
    obtain ⟨id, h, -⟩ := step_type_ok h
    exact Uncached.typeId_inserts h
  | record around item =>
    obtain ⟨h, -⟩ := step_record_ok h
    obtain ⟨file, w, -, hw, h⟩ := Item.record_ok h
    have ht : w.table = (Op.record around item).table := Item.table_of_write? hw
    exact ht ▸ Write.record_inserts h

theorem run_inserts {os : List Op} {P : Table → Prop} (hP : ∀ o ∈ os, ∀ u, u.owner = o.table → P u)
    (h : run os m = .ok m') : Inserts P m.store m'.store := by
  induction os generalizing m with
  | nil =>
    cases h
    exact .refl _
  | cons o os ih =>
    obtain ⟨m₁, h₁, h₂⟩ := run_cons_ok h
    have first := (step_inserts h₁).mono (hP o List.mem_cons_self)
    exact first.trans (ih (fun o' ho => hP o' (List.mem_cons_of_mem o ho)) h₂)

theorem run_le {os : List Op} (h : run os m = .ok m') : m.store ≤ m'.store :=
  (run_inserts (P := fun _ => True) (fun _ _ _ _ => trivial) h).le

/-- Code leaves a table as it is if no operation adds to it. -/
theorem run_rows_eq {os : List Op} {u : Table} (hu : ∀ o ∈ os, o.table ≠ u.owner)
    (h : run os m = .ok m') : m'.store.rows u = m.store.rows u := by
  have inserted : Inserts (fun v => v.owner ≠ u.owner) m.store m'.store :=
    run_inserts (fun o ho v hv => hv ▸ hu o ho) h
  exact inserted.rows_eq fun hne => hne rfl

end Plan

/-! ## Running again -/

namespace Store

variable {s t : Store} {file : FileId}

theorem exprsAt?_cons {span : Span} {id : ExprId} {spans : List Span} {ids : List ExprId}
    (h : s.exprAt? file span = some id) (hs : s.exprsAt? file spans = some ids) :
    s.exprsAt? file (span :: spans) = some (id :: ids) := by
  unfold exprsAt? at hs ⊢
  rw [List.mapM_cons]
  exact Option.bind_eq_some_iff.mpr ⟨id, h, Option.bind_eq_some_iff.mpr ⟨ids, hs, rfl⟩⟩

theorem exprsAt?_cons_inv {span : Span} {spans : List Span} {ids : List ExprId}
    (h : s.exprsAt? file (span :: spans) = some ids) :
    ∃ id rest, ids = id :: rest ∧ s.exprAt? file span = some id ∧
      s.exprsAt? file spans = some rest := by
  unfold exprsAt? at h ⊢
  rw [List.mapM_cons] at h
  obtain ⟨id, hid, h⟩ := Option.bind_eq_some_iff.mp h
  obtain ⟨rest, hrest, h⟩ := Option.bind_eq_some_iff.mp h
  cases h
  exact ⟨id, rest, rfl, hid, hrest⟩

theorem exprsAt?_of_le (h : s ≤ t) {spans : List Span} {ids : List ExprId}
    (hs : s.exprsAt? file spans = some ids) : t.exprsAt? file spans = some ids := by
  induction spans generalizing ids with
  | nil => exact hs
  | cons span spans ih =>
    obtain ⟨id, rest, rfl, hid, hrest⟩ := exprsAt?_cons_inv hs
    exact exprsAt?_cons (exprAt?_of_le h hid) (ih hrest)

end Store

namespace Plan

variable {s s' t : Store} {file : FileId} {types : List (Option TypeId)}

theorem ExprNote.detail?_of_le (h : s ≤ t) {note : ExprNote} {d : ExprDetail}
    (hd : note.detail? s file types = some d) : note.detail? t file types = some d := by
  cases note with
  | none => exact hd
  | ident name definition =>
    cases definition with
    | none => exact hd
    | some site =>
      obtain ⟨target, ht, hd⟩ := Option.bind_eq_some_iff.mp hd
      exact Option.bind_eq_some_iff.mpr ⟨target, Store.fileNamed?_of_le h ht, hd⟩
  | selector base field | typeAssert base =>
    obtain ⟨id, hid, hd⟩ := Option.bind_eq_some_iff.mp hd
    exact Option.bind_eq_some_iff.mpr ⟨id, Store.exprAt?_of_le h hid, hd⟩
  | call function args =>
    obtain ⟨id, hid, hd⟩ := Option.bind_eq_some_iff.mp hd
    obtain ⟨ids, hids, hd⟩ := Option.bind_eq_some_iff.mp hd
    exact Option.bind_eq_some_iff.mpr ⟨id, Store.exprAt?_of_le h hid,
      Option.bind_eq_some_iff.mpr ⟨ids, Store.exprsAt?_of_le h hids, hd⟩⟩

theorem StmtNote.detail?_of_le (h : s ≤ t) {note : StmtNote} {d : StmtDetail}
    (hd : note.detail? s file types = some d) : note.detail? t file types = some d := by
  cases note with
  | none => exact hd
  | assign lhs rhs =>
    obtain ⟨ls, hl, hd⟩ := Option.bind_eq_some_iff.mp hd
    obtain ⟨rs, hr, hd⟩ := Option.bind_eq_some_iff.mp hd
    exact Option.bind_eq_some_iff.mpr ⟨ls, Store.exprsAt?_of_le h hl,
      Option.bind_eq_some_iff.mpr ⟨rs, Store.exprsAt?_of_le h hr, hd⟩⟩
  | «return» results =>
    obtain ⟨ids, hids, hd⟩ := Option.bind_eq_some_iff.mp hd
    exact Option.bind_eq_some_iff.mpr ⟨ids, Store.exprsAt?_of_le h hids, hd⟩
  | defer call | typeSwitch bound call cases =>
    obtain ⟨id, hid, hd⟩ := Option.bind_eq_some_iff.mp hd
    exact Option.bind_eq_some_iff.mpr ⟨id, Store.exprAt?_of_le h hid, hd⟩

theorem mapM_of_le {α β : Type} {f g : α → Option β} {x : Option α} {y : Option β}
    (hfg : ∀ a {b}, f a = some b → g a = some b) (h : x.mapM f = some y) : x.mapM g = some y := by
  cases x with
  | none => exact h
  | some a =>
    obtain ⟨b, hb, rfl⟩ := Option.map_eq_some_iff.mp h
    exact Option.map_eq_some_iff.mpr ⟨b, hfg a hb, rfl⟩

theorem AccessNote.access?_of_le (h : s ≤ t) {note : AccessNote} {a : NewAccess}
    (ha : note.access? s file = some a) :
    note.access? t file = some { a with baseVariable := note.base.bind t.variableOf? } := by
  obtain ⟨inner, hi, ha⟩ := Option.bind_eq_some_iff.mp ha
  cases ha
  exact Option.bind_eq_some_iff.mpr ⟨inner, mapM_of_le (fun _ => Store.exprAt?_of_le h) hi, rfl⟩

/-- An item that can be recorded can still be recorded later. -/
theorem Item.write?_of_le (h : s ≤ t) {item : Item} {around : Around} {w : Write}
    (hw : item.write? s file types around = some w) :
    ∃ w', item.write? t file types around = some w' := by
  cases item with
  | function | var | makeSite | sizedAlloc => exact ⟨_, rfl⟩
  | stmt kind span detail =>
    obtain ⟨d, hd, -⟩ := Option.bind_eq_some_iff.mp hw
    exact ⟨_, Option.bind_eq_some_iff.mpr ⟨d, StmtNote.detail?_of_le h hd, rfl⟩⟩
  | expr kind span detail access =>
    obtain ⟨d, hd, hw⟩ := Option.bind_eq_some_iff.mp hw
    obtain ⟨a, ha, -⟩ := Option.bind_eq_some_iff.mp hw
    have later : ∃ a', access.mapM (·.access? t file) = some a' := by
      cases access with
      | none => exact ⟨none, rfl⟩
      | some note =>
        obtain ⟨a, ha, -⟩ := Option.map_eq_some_iff.mp ha
        exact ⟨_, Option.map_eq_some_iff.mpr ⟨_, AccessNote.access?_of_le h ha, rfl⟩⟩
    obtain ⟨a', ha'⟩ := later
    exact ⟨_, Option.bind_eq_some_iff.mpr ⟨d, ExprNote.detail?_of_le h hd,
      Option.bind_eq_some_iff.mpr ⟨a', ha', rfl⟩⟩⟩

/-- Whether a store has the rows of an item: its key is taken, or its rows break a condition. -/
def Write.Settled (s : Store) : Write → Prop
  | .function f _ => (s.functionAt? f.file f.position).isSome = true
  | .var v => (s.variableAt? v.file v.position).isSome = true
  | .stmt n _ => (s.stmtAt? n.file n.span).isSome = true
  | .expr n _ _ => (s.exprAt? n.file n.span).isSome = true
  | .makeSite n =>
    ∃ r ∈ s.makeSites, Row.key .makeSites r = .ofId n.file :: Cell.ofPosition n.position
  | .sizedAlloc n =>
    (n.builtin ≠ "make" ∧ n.builtin ≠ "new") ∨
      ∃ r ∈ s.sizedAllocSites, Row.key .sizedAllocSites r =
        .ofId n.file :: Cell.ofPosition n.position

theorem createOrIgnore_settled {u : Table} {draft : RowId u → Row u} {isNew : Bool}
    (h : Transaction.createOrIgnore u draft s = .ok (isNew, s')) :
    (∃ id c, Row.failedCondition? u (draft id) = some c) ∨
      ∃ id, ∃ r ∈ s'.rows u, Row.key u r = Row.key u (draft id) := by
  obtain ⟨-, hi⟩ | ⟨-, rfl, v, hv, hi⟩ := Transaction.createOrIgnore_ok h
  · refine .inr ⟨⟨s.nextNumber u⟩, draft ⟨s.nextNumber u⟩, ?_, rfl⟩
    rw [Store.eq_push_of_insert hi]
    simp
  · unfold Store.insert at hi
    split at hi
    · rename_i c hc
      exact .inl ⟨_, c, hc⟩
    · simp only at hi
      split at hi
      · rename_i hk
        simp only [Store.keyTaken, List.any_eq_true, beq_iff_eq] at hk
        obtain ⟨r, hr, hk⟩ := hk
        exact .inr ⟨_, r, hr, hk⟩
      · split at hi
        · cases hi
        · cases hi
          exact absurd rfl hv

theorem createOrIgnore_of_settled {u : Table} {draft : RowId u → Row u}
    (h : Row.failedCondition? u (draft ⟨s.nextNumber u⟩) ≠ none ∨
      ∃ r ∈ s.rows u, Row.key u r = Row.key u (draft ⟨s.nextNumber u⟩)) :
    Transaction.createOrIgnore u draft s = .ok (false, s) := by
  have refused : s.insert u (draft ⟨s.nextNumber u⟩) = .error (.unique u) ∨
      ∃ c, s.insert u (draft ⟨s.nextNumber u⟩) = .error (.check c) := by
    unfold Store.insert
    cases hc : Row.failedCondition? u (draft ⟨s.nextNumber u⟩) with
    | some c => exact .inr ⟨c, rfl⟩
    | none =>
      obtain h | ⟨r, hr, hk⟩ := h
      · exact absurd hc h
      · have taken : s.keyTaken u (draft ⟨s.nextNumber u⟩) = true := by
          simp only [Store.keyTaken, List.any_eq_true, beq_iff_eq]
          exact ⟨r, hr, hk⟩
        simp [taken]
  obtain h | ⟨c, h⟩ := refused <;> rw [Transaction.createOrIgnore_apply, h] <;> rfl

theorem Write.settled_of_record {w : Write} (h : w.record s = .ok ((), s')) : w.Settled s' := by
  cases w with
  | function f signature =>
    obtain ⟨⟨id, isNew⟩, h⟩ := discard_ok.mp h
    exact Option.isSome_of_eq_some (functionAt?_of_recordFunction h)
  | var v =>
    obtain ⟨⟨id, isNew⟩, h⟩ := discard_ok.mp h
    exact Option.isSome_of_eq_some (variableAt?_of_recordVariable h)
  | stmt n detail =>
    obtain ⟨⟨id, isNew⟩, h⟩ := discard_ok.mp h
    exact Option.isSome_of_eq_some (stmtAt?_of_recordStmt h)
  | expr n detail access =>
    obtain ⟨⟨id, isNew⟩, h⟩ := discard_ok.mp h
    exact Option.isSome_of_eq_some (exprAt?_of_recordExpr h)
  | makeSite n =>
    obtain ⟨isNew, h⟩ := discard_ok.mp h
    obtain ⟨id, c, hc⟩ | ⟨id, r, hr, hk⟩ := createOrIgnore_settled h
    · cases hc
    · exact ⟨r, hr, hk⟩
  | sizedAlloc n =>
    obtain ⟨isNew, h⟩ := discard_ok.mp h
    obtain ⟨id, c, hc⟩ | ⟨id, r, hr, hk⟩ := createOrIgnore_settled h
    · refine .inl ?_
      simp only [Row.failedCondition?] at hc
      split at hc
      · cases hc
      · rename_i hb
        exact not_or.mp hb
    · exact .inr ⟨r, hr, hk⟩

theorem Write.record_of_settled {w : Write} (h : w.Settled s) : w.record s = .ok ((), s) := by
  cases w with
  | function f signature =>
    obtain ⟨id, h⟩ := Option.isSome_iff_exists.mp h
    exact discard_ok.mpr ⟨_, recordFunction_of_found h⟩
  | var v =>
    obtain ⟨id, h⟩ := Option.isSome_iff_exists.mp h
    exact discard_ok.mpr ⟨_, recordVariable_of_found h⟩
  | stmt n detail =>
    obtain ⟨id, h⟩ := Option.isSome_iff_exists.mp h
    exact discard_ok.mpr ⟨_, recordStmt_of_found h⟩
  | expr n detail access =>
    obtain ⟨id, h⟩ := Option.isSome_iff_exists.mp h
    exact discard_ok.mpr ⟨_, recordExpr_of_found h⟩
  | makeSite n =>
    obtain ⟨r, hr, hk⟩ := h
    exact discard_ok.mpr ⟨_, createOrIgnore_of_settled (.inr ⟨r, hr, hk⟩)⟩
  | sizedAlloc n =>
    obtain ⟨hm, hn⟩ | ⟨r, hr, hk⟩ := h
    · refine discard_ok.mpr ⟨_, createOrIgnore_of_settled (.inl ?_)⟩
      simp [Row.failedCondition?, hm, hn]
    · exact discard_ok.mpr ⟨_, createOrIgnore_of_settled (.inr ⟨r, hr, hk⟩)⟩

theorem Write.settled_of_le (h : s ≤ t) {w : Write} (hw : w.Settled s) : w.Settled t := by
  cases w with
  | function f signature =>
    obtain ⟨id, hw⟩ := Option.isSome_iff_exists.mp hw
    exact Option.isSome_of_eq_some (Store.functionAt?_of_le h hw)
  | var v =>
    obtain ⟨id, hw⟩ := Option.isSome_iff_exists.mp hw
    exact Option.isSome_of_eq_some (Store.variableAt?_of_le h hw)
  | stmt n detail =>
    obtain ⟨id, hw⟩ := Option.isSome_iff_exists.mp hw
    exact Option.isSome_of_eq_some (Store.stmtAt?_of_le h hw)
  | expr n detail access =>
    obtain ⟨id, hw⟩ := Option.isSome_iff_exists.mp hw
    exact Option.isSome_of_eq_some (Store.exprAt?_of_le h hw)
  | makeSite n =>
    obtain ⟨r, hr, hk⟩ := hw
    exact ⟨r, (h .makeSites).subset hr, hk⟩
  | sizedAlloc n =>
    obtain hb | ⟨r, hr, hk⟩ := hw
    · exact .inl hb
    · exact .inr ⟨r, (h .sizedAllocSites).subset hr, hk⟩

/-- Whether an item is settled does not depend on what else its rows hold. -/
theorem Item.settled_iff {item : Item} {around : Around} {w w' : Write} {types' : List (Option TypeId)}
    (hw : item.write? s file types around = some w)
    (hw' : item.write? s' file types' around = some w') : w.Settled t ↔ w'.Settled t := by
  cases item with
  | function | var | makeSite | sizedAlloc =>
    cases hw
    cases hw'
    rfl
  | stmt kind span detail =>
    obtain ⟨d, -, hw⟩ := Option.bind_eq_some_iff.mp hw
    obtain ⟨d', -, hw'⟩ := Option.bind_eq_some_iff.mp hw'
    cases hw
    cases hw'
    rfl
  | expr kind span detail access =>
    obtain ⟨d, -, hw⟩ := Option.bind_eq_some_iff.mp hw
    obtain ⟨d', -, hw'⟩ := Option.bind_eq_some_iff.mp hw'
    obtain ⟨a, -, hw⟩ := Option.bind_eq_some_iff.mp hw
    obtain ⟨a', -, hw'⟩ := Option.bind_eq_some_iff.mp hw'
    cases hw
    cases hw'
    rfl

/-- Whether the types that an operation looks up are in a closed table. -/
def Op.Closed : Op → Prop
  | .type table _ => table.Closed
  | _ => True

end Plan

/-- A type that was looked up is found again, with nothing added. -/
theorem Uncached.typeId_settled {table : TypeTable} {ref : Option TypeRef} {s s' t : Store}
    {id : Option TypeId} (hc : table.Closed) (h : typeId table ref s = .ok (id, s'))
    (hle : s' ≤ t) : typeId table ref t = .ok (id, t) := by
  unfold typeId at h ⊢
  cases ref with
  | none =>
    cases h
    rfl
  | some r =>
    simp only at h ⊢
    cases hi : intern table (table.size + 1) r s with
    | ok p =>
      rw [hi] at h
      cases h
      obtain ⟨e, he, hn⟩ := typeNamed?_of_intern hi
      rw [intern_of_stored he (Store.typeNamed?_of_le hle hn)]
    | error f =>
      rw [hi] at h
      cases he : table.get? r with
      | some e =>
        have hf : f ≠ .nilType := intern_error hc (Option.isSome_of_eq_some he) hi
        split at h
        · rename_i hx
          cases hx
        · rename_i hx
          cases hx
          exact absurd rfl hf
        · cases h
      | none =>
        have missing (u : Store) : intern table (table.size + 1) r u = .error .nilType := by
          simp only [intern, he]
          rfl
        rw [missing] at hi ⊢
        cases hi
        cases h
        rfl

namespace Plan

variable {t : Store} {m m' : Machine}

/-- An operation that was made is made again with nothing added. -/
theorem step_settled {o : Op} (hc : o.Closed) (h : o.step m = .ok m') (hle : m'.store ≤ t) :
    o.step ⟨t, m.types⟩ = .ok ⟨t, m'.types⟩ := by
  cases o with
  | file path =>
    obtain ⟨id, hr, ht⟩ := step_file_ok h
    have found := Store.fileNamed?_of_le hle (fileNamed?_of_recordFile hr)
    simp only [Op.step, recordFile_of_found found, ht]
  | type table ref =>
    obtain ⟨id, hr, ht⟩ := step_type_ok h
    simp only [Op.step, Uncached.typeId_settled hc hr hle, ht]
  | record around item =>
    have grows := le_trans (step_inserts h).le hle
    obtain ⟨hr, ht⟩ := step_record_ok h
    obtain ⟨file, w, hf, hw, hr⟩ := Item.record_ok hr
    obtain ⟨w', hw'⟩ := Item.write?_of_le grows hw
    have settled := Write.settled_of_le hle (Write.settled_of_record hr)
    have again := Write.record_of_settled ((Item.settled_iff hw hw').mp settled)
    have recorded := Item.record_of_write? (Store.fileNamed?_of_le grows hf) hw'
    simp only [Op.step, recorded, again, ht]

/-- Code that has run does nothing more, however the store has grown since. -/
theorem run_settled {os : List Op} (hc : ∀ o ∈ os, o.Closed) (h : run os m = .ok m')
    (hle : m'.store ≤ t) : run os ⟨t, m.types⟩ = .ok ⟨t, m'.types⟩ := by
  induction os generalizing m with
  | nil =>
    cases h
    rfl
  | cons o os ih =>
    obtain ⟨m₁, h₁, h₂⟩ := run_cons_ok h
    have first := step_settled (hc o List.mem_cons_self) h₁ (le_trans (run_le h₂) hle)
    rw [run_cons_of_ok first]
    exact ih (fun o' ho => hc o' (List.mem_cons_of_mem o ho)) h₂

end Plan
end AccessDepth
