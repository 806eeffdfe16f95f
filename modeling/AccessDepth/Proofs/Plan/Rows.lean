import AccessDepth.Proofs.Plan.Effect
import AccessDepth.Proofs.Store.Content

/-!
# AccessDepth.Proofs.Plan.Rows

Which rows an operation adds.

* `Write.rows` — the rows of a write under a number.
* `Write.record_eq` — a write that succeeds adds exactly these rows, or none if its place is taken.
* `Store.Occupied` — a row of a table stands at a place of a file.
* `occupied_step`, `occupied_run` — an operation takes the place of its item, and no other one.
* `step_adds`, `step_adds_file`, `record_adds` — what an operation adds: the rows of an item whose place
  was free, or a file that it names.
-/

namespace AccessDepth

/-! ## Places -/

theorem Cell.ofWord_inj {m n : UInt32} : ofWord m = ofWord n ↔ m = n := by
  rw [ofWord, ofWord, Cell.int.injEq, Int.natCast_inj, UInt32.toNat_inj]

theorem Cell.ofId_inj {u : Table} {a b : RowId u} : ofId a = ofId b ↔ a = b := by
  cases a
  cases b
  simp [ofId]

theorem Cell.ofPosition_inj {p q : Position} : ofPosition p = ofPosition q ↔ p = q := by
  cases p
  cases q
  simp [ofPosition, ofWord_inj]

theorem Cell.ofSpan_inj {p q : Span} : ofSpan p = ofSpan q ↔ p = q := by
  cases p
  cases q
  simp [ofSpan, ofWord_inj]

namespace Store

variable {s : Store} {file : FileId}

theorem functionAt?_isSome {position : Position} :
    (s.functionAt? file position).isSome = true ↔
      ∃ r ∈ s.rows .functions, Row.key .functions r = .ofId file :: Cell.ofPosition position := by
  simp [functionAt?, Row.key, Cell.ofId_inj, Cell.ofPosition_inj, rows]

theorem variableAt?_isSome {position : Position} :
    (s.variableAt? file position).isSome = true ↔
      ∃ r ∈ s.rows .variables, Row.key .variables r = .ofId file :: Cell.ofPosition position := by
  simp [variableAt?, Row.key, Cell.ofId_inj, Cell.ofPosition_inj, rows]

theorem stmtAt?_isSome {span : Span} :
    (s.stmtAt? file span).isSome = true ↔
      ∃ r ∈ s.rows .statements, Row.key .statements r = .ofId file :: Cell.ofSpan span := by
  simp [stmtAt?, Row.key, Cell.ofId_inj, Cell.ofSpan_inj, rows]

theorem exprAt?_isSome {span : Span} :
    (s.exprAt? file span).isSome = true ↔
      ∃ r ∈ s.rows .expressions, Row.key .expressions r = .ofId file :: Cell.ofSpan span := by
  simp [exprAt?, Row.key, Cell.ofId_inj, Cell.ofSpan_inj, rows]

theorem Sound.find?_eq (h : s.Sound) {u : Table} {r : Row u} (hr : r ∈ s.rows u) {p : Row u → Bool}
    (hp : p r = true) (same : ∀ r', p r' = true → Row.key u r' = Row.key u r) :
    (s.rows u).find? p = some r := by
  obtain ⟨r', hr'⟩ := Option.isSome_iff_exists.mp (List.find?_isSome.mpr ⟨r, hr, hp⟩)
  rw [hr', h.eq_of_key (List.mem_of_find?_eq_some hr') hr (same r' (List.find?_some hr'))]

theorem Sound.exprAt?_eq (h : s.Sound) {e : ExprRow} (he : e ∈ s.expressions) :
    s.exprAt? e.file e.span = some e.id := by
  have found : s.expressions.find? (fun r => r.file == e.file && r.span == e.span) = some e :=
    h.find?_eq (u := .expressions) he (by simp) (by simp +contextual [Row.key])
  rw [exprAt?, found, Option.map_some]

theorem Sound.variableAt?_eq (h : s.Sound) {r : VariableRow} (hr : r ∈ s.vars) :
    s.variableAt? r.file r.position = some r.id := by
  have found : s.vars.find? (fun x => x.file == r.file && x.position == r.position) = some r :=
    h.find?_eq (u := .variables) hr (by simp) (by simp +contextual [Row.key])
  rw [variableAt?, found, Option.map_some]

theorem Sound.stmtAt?_eq (h : s.Sound) {r : StmtRow} (hr : r ∈ s.statements) :
    s.stmtAt? r.file r.span = some r.id := by
  have found : s.statements.find? (fun x => x.file == r.file && x.span == r.span) = some r :=
    h.find?_eq (u := .statements) hr (by simp) (by simp +contextual [Row.key])
  rw [stmtAt?, found, Option.map_some]

end Store

theorem ExprDetail.children_ne_accesses (d : ExprDetail) {id : ExprId} {r : AnyRow}
    (h : r ∈ d.children id) : r.table ≠ .accesses := by
  cases d with
  | none => cases h
  | ident | selector | typeAssert =>
    obtain rfl := List.mem_singleton.mp h
    simp
  | call function args =>
    obtain ⟨c, -, rfl⟩ := List.mem_map.mp h
    simp

namespace Plan

def Item.place : Item → List Cell
  | .function _ position .. | .var _ position .. | .makeSite position ..
  | .sizedAlloc position .. => Cell.ofPosition position
  | .stmt _ span _ | .expr _ span .. => Cell.ofSpan span

namespace Write

def file : Write → FileId
  | .function f _ => f.file
  | .var v => v.file
  | .stmt n _ => n.file
  | .expr n _ _ => n.file
  | .makeSite n => n.file
  | .sizedAlloc n => n.file

def place : Write → List Cell
  | .function f _ => Cell.ofPosition f.position
  | .var v => Cell.ofPosition v.position
  | .stmt n _ => Cell.ofSpan n.span
  | .expr n _ _ => Cell.ofSpan n.span
  | .makeSite n => Cell.ofPosition n.position
  | .sizedAlloc n => Cell.ofPosition n.position

def row (n : Int) : (w : Write) → Row w.table
  | .function f _ => f.row ⟨n⟩
  | .var v => v.row ⟨n⟩
  | .stmt x _ => x.row ⟨n⟩
  | .expr x _ _ => x.row ⟨n⟩
  | .makeSite x =>
    ({ id := ⟨n⟩, file := x.file, position := x.position, container := x.container,
       capacity := x.capacity } : MakeSiteRow)
  | .sizedAlloc x =>
    ({ id := ⟨n⟩, file := x.file, position := x.position, builtin := x.builtin,
       typeName := x.typeName, size := x.size } : SizedAllocRow)

def children (n : Int) : Write → List AnyRow
  | .function _ signature => signature.map fun e => ⟨.functionSigs, e.row ⟨n⟩⟩
  | .var v => v.children ⟨n⟩
  | .stmt _ detail => detail.children ⟨n⟩
  | .expr _ detail access =>
    detail.children ⟨n⟩ ++ access.toList.map fun a => ⟨.accesses, a.row ⟨n⟩⟩
  | .makeSite _ | .sizedAlloc _ => []

/-- The rows of a write under a number. -/
def rows (w : Write) (n : Int) : List AnyRow := ⟨w.table, w.row n⟩ :: w.children n

theorem key_row (w : Write) (n : Int) : Row.key w.table (w.row n) = .ofId w.file :: w.place := by
  cases w <;> rfl

theorem number_row (w : Write) (n : Int) : Row.number w.table (w.row n) = n := by
  cases w <;> rfl

theorem children_children (w : Write) (n : Int) :
    Transaction.Children (·.owner = w.table) (w.children n) := by
  cases w with
  | function f signature => exact signature_inserted signature ⟨n⟩
  | var v => exact v.children_inserted ⟨n⟩
  | stmt x detail => exact detail.children_inserted ⟨n⟩
  | expr x detail access => exact exprRows_inserted detail access ⟨n⟩
  | makeSite | sizedAlloc => exact Transaction.children_nil _

/-- The rows below a row have its number. -/
theorem number_children {w : Write} {n : Int} {r : AnyRow} (h : r ∈ w.children n) :
    Row.number r.table r.row = n := by
  cases w with
  | function f signature =>
    obtain ⟨e, -, rfl⟩ := List.mem_map.mp h
    rfl
  | var v =>
    have h : r ∈ v.children ⟨n⟩ := h
    unfold NewVariable.children at h
    split at h
    · cases h
    · obtain rfl := List.mem_singleton.mp h
      rfl
  | stmt x detail =>
    cases detail with
    | none => cases h
    | assign lhs rhs =>
      obtain h | h := List.mem_append.mp h
      all_goals
        obtain ⟨operand, -, rfl⟩ := List.mem_map.mp h
        rfl
    | «return» results =>
      obtain ⟨result, -, rfl⟩ := List.mem_map.mp h
      rfl
    | defer call =>
      obtain rfl := List.mem_singleton.mp h
      rfl
    | typeSwitch bound assertion cases =>
      obtain rfl | h := List.mem_cons.mp h
      · rfl
      · obtain ⟨c, -, rfl⟩ := List.mem_map.mp h
        rfl
  | expr x detail access =>
    obtain h | h := List.mem_append.mp h
    · cases detail with
      | none => cases h
      | ident | selector | typeAssert =>
        obtain rfl := List.mem_singleton.mp h
        rfl
      | call function args =>
        obtain ⟨c, hc, rfl⟩ := List.mem_map.mp h
        cases args with
        | nil =>
          obtain rfl := List.mem_singleton.mp hc
          rfl
        | cons arg args =>
          obtain ⟨x, -, rfl⟩ := List.mem_map.mp hc
          rfl
    · obtain ⟨a, -, rfl⟩ := List.mem_map.mp h
      rfl
  | makeSite | sizedAlloc => cases h

def Taken (s : Store) (w : Write) : Prop :=
  ∃ r ∈ s.rows w.table, Row.key w.table r = .ofId w.file :: w.place

variable {s s' : Store}

theorem taken_of_settled {w : Write} (hw : w.Settled s) : w.Taken s ∨ ∃ n, w = .sizedAlloc n := by
  cases w with
  | function => exact .inl (Store.functionAt?_isSome.mp hw)
  | var => exact .inl (Store.variableAt?_isSome.mp hw)
  | stmt => exact .inl (Store.stmtAt?_isSome.mp hw)
  | expr => exact .inl (Store.exprAt?_isSome.mp hw)
  | makeSite => exact .inl hw
  | sizedAlloc n => exact .inr ⟨n, rfl⟩

theorem ensure_eq {u : Table} {find : Store → Option (RowId u)} {draft : RowId u → Row u}
    {below : RowId u → List AnyRow} {r : RowId u × Bool}
    (h : Transaction.ensure u find draft below s = .ok (r, s')) :
    s' = s ∨ find s = none ∧ s' = s.pushAll
      (⟨u, draft ⟨s.nextNumber u⟩⟩ :: below ⟨s.nextNumber u⟩) := by
  obtain ⟨id, isNew⟩ := r
  obtain ⟨-, -, rfl⟩ | ⟨hn, -, rfl, s₁, h₁, h₂⟩ := Transaction.ensure_ok h
  · exact .inl rfl
  · refine .inr ⟨hn, ?_⟩
    rw [Transaction.insertAll_ok h₂, Store.eq_push_of_insert h₁]
    rfl

theorem createOrIgnore_eq {u : Table} {draft : RowId u → Row u} {isNew : Bool}
    (h : Transaction.createOrIgnore u draft s = .ok (isNew, s')) :
    s' = s ∨ (s.keyTaken u (draft ⟨s.nextNumber u⟩) = false ∧
      s' = s.pushAll [⟨u, draft ⟨s.nextNumber u⟩⟩]) := by
  obtain ⟨-, hi⟩ | ⟨-, rfl, -⟩ := Transaction.createOrIgnore_ok h
  · obtain ⟨-, hk, -, rfl⟩ := Store.insert_eq_ok.mp hi
    exact .inr ⟨hk, rfl⟩
  · exact .inl rfl

/-- A write that succeeds adds exactly its rows, under the next number, or none. In the second case
its place was taken before or is taken by nothing. -/
theorem record_eq {w : Write} (h : w.record s = .ok ((), s')) :
    s' = s ∨ ¬ w.Taken s ∧ s' = s.pushAll (w.rows (s.nextNumber w.table)) := by
  cases w with
  | function f signature =>
    obtain ⟨r, h⟩ := discard_ok.mp h
    refine (ensure_eq h).imp_right fun ⟨hn, he⟩ => ⟨fun ht => ?_, he⟩
    obtain ⟨id, hid⟩ := Option.isSome_iff_exists.mp (Store.functionAt?_isSome.mpr ht)
    cases hn.symm.trans hid
  | var v =>
    obtain ⟨r, h⟩ := discard_ok.mp h
    refine (ensure_eq h).imp_right fun ⟨hn, he⟩ => ⟨fun ht => ?_, he⟩
    obtain ⟨id, hid⟩ := Option.isSome_iff_exists.mp (Store.variableAt?_isSome.mpr ht)
    cases hn.symm.trans hid
  | stmt n detail =>
    obtain ⟨r, h⟩ := discard_ok.mp h
    refine (ensure_eq h).imp_right fun ⟨hn, he⟩ => ⟨fun ht => ?_, he⟩
    obtain ⟨id, hid⟩ := Option.isSome_iff_exists.mp (Store.stmtAt?_isSome.mpr ht)
    cases hn.symm.trans hid
  | expr n detail access =>
    obtain ⟨r, h⟩ := discard_ok.mp h
    refine (ensure_eq h).imp_right fun ⟨hn, he⟩ => ⟨fun ht => ?_, he⟩
    obtain ⟨id, hid⟩ := Option.isSome_iff_exists.mp (Store.exprAt?_isSome.mpr ht)
    cases hn.symm.trans hid
  | makeSite n =>
    obtain ⟨isNew, h⟩ := discard_ok.mp h
    refine (createOrIgnore_eq h).imp_right fun ⟨hk, he⟩ => ⟨fun ht => ?_, he⟩
    exact Bool.eq_false_iff.mp hk (Store.keyTaken_iff.mpr ht)
  | sizedAlloc n =>
    obtain ⟨isNew, h⟩ := discard_ok.mp h
    refine (createOrIgnore_eq h).imp_right fun ⟨hk, he⟩ => ⟨fun ht => ?_, he⟩
    exact Bool.eq_false_iff.mp hk (Store.keyTaken_iff.mpr ht)

end Write

theorem Item.of_write? {s : Store} {item : Item} {file : FileId} {types : List (Option TypeId)}
    {around : Around} {w : Write} (h : item.write? s file types around = some w) :
    w.file = file ∧ w.place = item.place := by
  cases item with
  | function | var | makeSite | sizedAlloc =>
    cases h
    exact ⟨rfl, rfl⟩
  | stmt kind span detail =>
    obtain ⟨d, -, h⟩ := Option.bind_eq_some_iff.mp h
    cases h
    exact ⟨rfl, rfl⟩
  | expr kind span detail access =>
    obtain ⟨d, -, h⟩ := Option.bind_eq_some_iff.mp h
    obtain ⟨a, -, h⟩ := Option.bind_eq_some_iff.mp h
    cases h
    exact ⟨rfl, rfl⟩

end Plan

/-! ## Which places are taken -/

def Table.placed : List Table :=
  [.functions, .variables, .statements, .expressions, .makeSites, .sizedAllocSites]

theorem Table.owner_cases (u : Table) :
    u = .files ∨ u.owner = .types ∨ u.owner ∈ Table.placed := by
  cases u <;> decide

/-- Whether a row of a table stands at a place of a file. -/
def Store.Occupied (s : Store) (u : Table) (path : String) (place : List Cell) : Prop :=
  ∃ file, s.fileNamed? path = some file ∧ ∃ r ∈ s.rows u, Row.key u r = .ofId file :: place

theorem Store.Occupied.of_le {s t : Store} {u : Table} {path : String} {place : List Cell}
    (h : s.Occupied u path place) (hle : s ≤ t) : t.Occupied u path place := by
  obtain ⟨file, hf, r, hr, hk⟩ := h
  exact ⟨file, Store.fileNamed?_of_le hle hf, r, (hle u).subset hr, hk⟩

theorem Store.occupied_iff {s : Store} {u : Table} {path : String} {place : List Cell} {file : FileId}
    (hf : s.fileNamed? path = some file) :
    s.Occupied u path place ↔ ∃ r ∈ s.rows u, Row.key u r = .ofId file :: place := by
  refine ⟨fun ⟨f, hf', hr⟩ => ?_, fun hr => ⟨file, hf, hr⟩⟩
  obtain rfl := Option.some.inj (hf.symm.trans hf')
  exact hr

theorem AnyRow.mem_of_in? {u : Table} {r : Row u} {rs : List AnyRow}
    (h : r ∈ rs.filterMap (·.in? u)) : (⟨u, r⟩ : AnyRow) ∈ rs := by
  obtain ⟨⟨v, x⟩, hx, he⟩ := List.mem_filterMap.mp h
  unfold AnyRow.in? at he
  split at he
  · rename_i hv
    cases hv
    cases he
    exact hx
  · cases he

theorem Store.mem_pushAll {s : Store} {rs : List AnyRow} {r : AnyRow} (hr : r ∈ rs) :
    r.row ∈ (s.pushAll rs).rows r.table := by
  rw [rows_pushAll]
  refine List.mem_append_right _ (List.mem_filterMap.mpr ⟨r, hr, ?_⟩)
  simp [AnyRow.in?]

namespace Plan

theorem filterMap_in?_of_ne {u : Table} {rs : List AnyRow} (h : ∀ r ∈ rs, r.table ≠ u) :
    rs.filterMap (·.in? u) = [] := by
  refine List.filterMap_eq_nil_iff.mpr fun r hr => ?_
  simp only [AnyRow.in?, h r hr, dif_neg, not_false_iff]

variable {s s' : Store} {m m' : Machine} {u : Table} {path : String} {place : List Cell}

theorem owner_of_placed (h : u ∈ Table.placed) : u.isNumbered = true ∧ u.owner = u := by
  simp only [Table.placed, List.mem_cons, List.not_mem_nil, or_false] at h
  obtain rfl | rfl | rfl | rfl | rfl | rfl := h <;> decide

theorem Item.table_placed (item : Item) : item.table ∈ Table.placed := by
  cases item <;> simp [table, Table.placed]

theorem mem_references_of_key (hu : u ∈ Table.placed) {r : Row u} {file : FileId}
    (hk : Row.key u r = .ofId file :: place) : ⟨.files, file.value⟩ ∈ Row.references u r := by
  simp only [Table.placed, List.mem_cons, List.not_mem_nil, or_false] at hu
  obtain rfl | rfl | rfl | rfl | rfl | rfl := hu
  all_goals
    obtain rfl := Cell.ofId_inj.mp (List.cons.inj hk).1
    simp [Row.references, Table.columns, Row.cells, Column.keyRef, Column.plain, Cell.ofId]

theorem Write.mem_rows {w : Write} (h : w.record s = .ok ((), s')) (hu : u ∈ Table.placed)
    {r : Row u} (hr : r ∈ s'.rows u) :
    r ∈ s.rows u ∨ ∃ n, (⟨u, r⟩ : AnyRow) = ⟨w.table, w.row n⟩ := by
  obtain rfl | ⟨-, rfl⟩ := w.record_eq h
  · exact .inl hr
  · rw [Store.rows_pushAll] at hr
    obtain hr | hr := List.mem_append.mp hr
    · exact .inl hr
    · obtain he | hr := List.mem_cons.mp (AnyRow.mem_of_in? hr)
      · exact .inr ⟨_, he⟩
      · have numbered := (owner_of_placed hu).1
        rw [(w.children_children _ _ hr).2] at numbered
        cases numbered

/-- A new row of a placed table is that of the item of the operation. -/
theorem step_added {o : Op} (h : o.step m = .ok m') (hu : u ∈ Table.placed) {r : Row u}
    (hr : r ∈ m'.store.rows u) :
    r ∈ m.store.rows u ∨ ∃ a item file w n, o = .record a item ∧
      m.store.fileNamed? a.path.text = some file ∧
      item.write? m.store file m.types a = some w ∧ (⟨u, r⟩ : AnyRow) = ⟨w.table, w.row n⟩ := by
  have unplaced (ho : o.table ∉ Table.placed) : r ∈ m.store.rows u := by
    have same : m'.store.rows u = m.store.rows u := by
      refine (step_inserts h).rows_eq fun he => ho ?_
      rw [← he, (owner_of_placed hu).2]
      exact hu
    exact same ▸ hr
  cases o with
  | file p => exact .inl (unplaced (by simp [Op.table, Table.placed]))
  | type table ref => exact .inl (unplaced (by simp [Op.table, Table.placed]))
  | record a item =>
    obtain ⟨hr', -⟩ := step_record_ok h
    obtain ⟨file, w, hf, hw, hrec⟩ := Item.record_ok hr'
    refine (Write.mem_rows hrec hu hr).imp_right fun ⟨n, he⟩ => ?_
    exact ⟨a, item, file, w, n, rfl, hf, hw, he⟩

theorem occupied_of_row {t : Store} (hs : s.Sound) (ht : t.Sound) (hle : s ≤ t)
    (hu : u ∈ Table.placed) {r : Row u} (hr : r ∈ s.rows u) {file : FileId}
    (hf : t.fileNamed? path = some file) (hk : Row.key u r = .ofId file :: place) :
    s.Occupied u path place := by
  have there := hs.references u r hr _ (mem_references_of_key hu hk)
  exact ⟨file, ht.fileNamed?_of_has hs hle hf there, r, hr, hk⟩

/-- An operation takes the place of its item, and no other one. -/
theorem occupied_step {o : Op} (hs : m.store.Sound) (h : o.step m = .ok m')
    (hu : u ∈ Table.placed) (ho : m'.store.Occupied u path place) :
    m.store.Occupied u path place ∨
      ∃ a item, o = .record a item ∧ item.table = u ∧ a.path.text = path ∧ item.place = place := by
  have inserts := step_inserts h
  have hs' := inserts.sound hs
  obtain ⟨file, hf, r, hr, hk⟩ := ho
  obtain old | ⟨a, item, f, w, n, rfl, hf', hw, he⟩ := step_added h hu hr
  · exact .inl (occupied_of_row hs hs' inserts.le hu old hf hk)
  · cases he
    obtain ⟨rfl, hp⟩ := Item.of_write? hw
    obtain ⟨hfile, hplace⟩ := List.cons.inj (hk.symm.trans (w.key_row n))
    obtain rfl := Cell.ofId_inj.mp hfile
    have same := hs'.fileNamed?_inj (Store.fileNamed?_of_le inserts.le hf') hf
    exact .inr ⟨a, item, rfl, (Item.table_of_write? hw).symm, same, hp.symm.trans hplace.symm⟩

theorem occupied_run {os : List Op} (hs : m.store.Sound) (h : run os m = .ok m')
    (hu : u ∈ Table.placed) (ho : m'.store.Occupied u path place) :
    m.store.Occupied u path place ∨
      ∃ a item, .record a item ∈ os ∧ item.table = u ∧ a.path.text = path ∧ item.place = place := by
  induction os generalizing m with
  | nil =>
    cases h
    exact .inl ho
  | cons o os ih =>
    obtain ⟨m₁, h₁, h₂⟩ := run_cons_ok h
    obtain ho | ⟨a, item, hm, hi⟩ := ih ((step_inserts h₁).sound hs) h₂
    · obtain ho | ⟨a, item, rfl, hi⟩ := occupied_step hs h₁ hu ho
      · exact .inl ho
      · exact .inr ⟨a, item, List.mem_cons_self, hi⟩
    · exact .inr ⟨a, item, List.mem_cons_of_mem o hm, hi⟩

theorem occupied_of_record {a : Around} {item : Item} (h : (Op.record a item).step m = .ok m')
    (hi : item.table ≠ .sizedAllocSites) :
    m'.store.Occupied item.table a.path.text item.place := by
  obtain ⟨hr, -⟩ := step_record_ok h
  obtain ⟨file, w, hf, hw, hrec⟩ := Item.record_ok hr
  obtain ⟨rfl, hp⟩ := Item.of_write? hw
  have ht := Item.table_of_write? hw
  obtain taken | ⟨n, rfl⟩ := Write.taken_of_settled (Write.settled_of_record hrec)
  · obtain ⟨r, hr, hk⟩ := taken
    rw [← ht, ← hp]
    exact ⟨w.file, Store.fileNamed?_of_le (step_inserts h).le hf, r, hr, hk⟩
  · exact absurd ht.symm hi

/-- A new row of a placed table, or one that belongs to such a row, is one of the rows of an item whose
place was free. -/
theorem step_adds {o : Op} (h : o.step m = .ok m') (hu : u.owner ∈ Table.placed) {r : Row u}
    (hr : r ∈ m'.store.rows u) (hn : r ∉ m.store.rows u) :
    ∃ a item file w, o = .record a item ∧ m.store.fileNamed? a.path.text = some file ∧
      item.write? m.store file m.types a = some w ∧
      ¬ m.store.Occupied item.table a.path.text item.place ∧
      (∀ row ∈ w.rows (m.store.nextNumber w.table), row.row ∈ m'.store.rows row.table) ∧
      (⟨u, r⟩ : AnyRow) ∈ w.rows (m.store.nextNumber w.table) := by
  cases o with
  | file | type =>
    have same := (step_inserts h).rows_eq (v := u) (by
      intro he
      rw [he] at hu
      simp [Op.table, Table.placed] at hu)
    exact absurd (same ▸ hr) hn
  | record a item =>
    obtain ⟨hrec, -⟩ := step_record_ok h
    obtain ⟨file, w, hf, hw, hrec⟩ := Item.record_ok hrec
    obtain ⟨hfile, hplace⟩ := Item.of_write? hw
    obtain same | ⟨free, added⟩ := w.record_eq hrec
    · exact absurd (same ▸ hr) hn
    refine ⟨a, item, file, w, rfl, hf, hw, ?_, ?_, ?_⟩
    · rwa [Store.occupied_iff hf, ← hplace, ← hfile, ← Item.table_of_write? hw]
    · rw [added]
      exact fun row => Store.mem_pushAll
    · rw [added, Store.rows_pushAll] at hr
      exact AnyRow.mem_of_in? ((List.mem_append.mp hr).resolve_left hn)

/-- A new file is one that an operation names. -/
theorem step_adds_file {o : Op} (h : o.step m = .ok m') {r : FileRow}
    (hr : r ∈ m'.store.rows .files) (hn : r ∉ m.store.rows .files) :
    ∃ path, o = .file path ∧ r.path = path.text := by
  cases o with
  | file path =>
    obtain ⟨id, hid, -⟩ := step_file_ok h
    obtain ⟨isNew, hid⟩ := recordFile_ok hid
    obtain same | ⟨-, same⟩ := Write.ensure_eq hid
    · exact absurd (same ▸ hr) hn
    · rw [same, Store.rows_pushAll] at hr
      obtain hr | hr := List.mem_append.mp hr
      · exact absurd hr hn
      · cases List.mem_singleton.mp (AnyRow.mem_of_in? hr)
        exact ⟨path, rfl, rfl⟩
  | type =>
    have same := (step_inserts h).rows_eq (v := .files) (by simp [Op.table, Table.owner])
    exact absurd (same ▸ hr) hn
  | record a item =>
    have same := (step_inserts h).rows_eq (v := .files)
      (by cases item <;> simp [Op.table, Item.table, Table.owner])
    exact absurd (same ▸ hr) hn

/-- An operation that takes the place of its item adds all rows of the item. -/
theorem record_adds {a : Around} {item : Item} (h : (Op.record a item).step m = .ok m')
    (free : ¬ m.store.Occupied item.table a.path.text item.place)
    (taken : m'.store.Occupied item.table a.path.text item.place) :
    ∃ file w, m.store.fileNamed? a.path.text = some file ∧
      item.write? m.store file m.types a = some w ∧
      ∀ row ∈ w.rows (m.store.nextNumber w.table), row.row ∈ m'.store.rows row.table := by
  obtain ⟨hrec, -⟩ := step_record_ok h
  obtain ⟨file, w, hf, hw, hrec⟩ := Item.record_ok hrec
  obtain same | ⟨-, added⟩ := w.record_eq hrec
  · exact absurd (same ▸ taken) free
  · rw [added]
    exact ⟨file, w, hf, hw, fun row => Store.mem_pushAll⟩

end Plan
end AccessDepth
