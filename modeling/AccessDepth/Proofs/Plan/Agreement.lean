import AccessDepth.Proofs.Plan.Accesses
import AccessDepth.Proofs.Plan.Reached
import AccessDepth.Proofs.Plan.Told

/-!
# AccessDepth.Proofs.Plan.Agreement

Stores that are reached in two orders.

* `Standing.same_places` — where a part is to record an item in a file, the same places of it are
  taken, whatever the other parts have made.
* `Moment.agree`, `Moment.agreeOnVariables` — there, two stores agree on what the item goes by.
* `Moment.transfer` — a row that was added at a moment has its like in every store in which the part
  has come as far.
* `Reached.content_subset` — where every part has come as far, the same is said.
-/

namespace AccessDepth
namespace Plan

namespace Parts

variable {ι : Type} [DecidableEq ι] {P : Parts ι} {π π' : ι → Nat} {s s' : Store} {d : ι} {k : Nat}
  {a : Around} {item : Item}

/-! ## What is taken -/

namespace Standing

theorem occupied (hP : P.Orderly) (h : P.Standing d k π s) (h' : P.Standing d k π' s')
    (here : (P.code d)[k]? = some (.record a item)) {u : Table} (hu : u ∈ Table.placed)
    {place : List Cell} (ho : s.Occupied u a.path.text place) : s'.Occupied u a.path.text place := by
  rw [h.reached.occupied_iff hP hu] at ho
  obtain ho | ⟨d', n, a', item', hn, here', ht, hp, hplace⟩ := ho
  · exact ho.of_le h'.reached.new
  · refine (h'.reached.occupied_iff hP hu).mpr
      (.inr ⟨d', n, a', item', ?_, here', ht, hp, hplace⟩)
    obtain rfl | hd | hd := hP.apart d' d a' item' a item (List.mem_of_getElem? here')
      (List.mem_of_getElem? here) hp
    · rw [h'.count, ← h.count]
      exact hn
    · exact Nat.lt_of_lt_of_le (List.getElem?_eq_some_iff.mp here').1 (h'.due d' hd)
    · have ended := h.reached.due (Nat.lt_of_le_of_lt (Nat.zero_le n) hn) d hd
      rw [h.count] at ended
      exact absurd (List.getElem?_eq_some_iff.mp here).1 (Nat.not_lt_of_le ended)

/-- In the file of an item that is to be recorded, the same places are taken. -/
theorem same_places (hP : P.Orderly) (h : P.Standing d k π s) (h' : P.Standing d k π' s')
    (here : (P.code d)[k]? = some (.record a item)) {u : Table} (hu : u ∈ Table.placed)
    {place : List Cell} : s.Occupied u a.path.text place ↔ s'.Occupied u a.path.text place :=
  ⟨h.occupied hP h' here hu, h'.occupied hP h here hu⟩

theorem occupied_variables (hP : P.Orderly) (h : P.Standing d k π s) (h' : P.Standing d k π' s') {o : Op}
    (here : (P.code d)[k]? = some o) (he : o.table = .expressions) {path : String}
    {place : List Cell} (ho : s.Occupied .variables path place) :
    s'.Occupied .variables path place := by
  have placed : Table.variables ∈ Table.placed := by simp [Table.placed]
  rw [h.reached.occupied_iff hP placed] at ho
  obtain ho | ⟨d', n, a', item', hn, here', ht, hp, hplace⟩ := ho
  · exact ho.of_le h'.reached.new
  · refine (h'.reached.occupied_iff hP placed).mpr
      (.inr ⟨d', n, a', item', ?_, here', ht, hp, hplace⟩)
    have before := hP.separate d' d _ o (List.mem_of_getElem? here') ht (List.mem_of_getElem? here) he
    exact Nat.lt_of_lt_of_le (List.getElem?_eq_some_iff.mp here').1 (h'.due d' before)

theorem same_variables (hP : P.Orderly) (h : P.Standing d k π s) (h' : P.Standing d k π' s') {o : Op}
    (here : (P.code d)[k]? = some o) (he : o.table = .expressions) (site : SourceSite) :
    (s.variableOf? site).isSome = (s'.variableOf? site).isSome := by
  rw [Bool.eq_iff_iff, Store.variableOf?_isSome, Store.variableOf?_isSome]
  exact ⟨h.occupied_variables hP h' here he, h'.occupied_variables hP h here he⟩

theorem same_exprs (hP : P.Orderly) (h : P.Standing d k π s) (h' : P.Standing d k π' s')
    (here : (P.code d)[k]? = some (.record a item)) {file file' : FileId}
    (hf : s.fileNamed? a.path.text = some file) (hf' : s'.fileNamed? a.path.text = some file')
    (span : Span) : (s.exprAt? file span).isSome = (s'.exprAt? file' span).isSome := by
  rw [Bool.eq_iff_iff, Store.exprAt?_isSome, Store.exprAt?_isSome, ← Store.occupied_iff hf,
    ← Store.occupied_iff hf']
  exact h.same_places hP h' here (by simp [Table.placed])

end Standing

/-! ## One item in two orders -/

namespace Moment

/-- What is written at a moment, described in a store that is reached after it. -/
def writing (x : P.Moment s d k (.record a item)) {file : FileId}
    (hf : x.now.store.fileNamed? a.path.text = some file) : Writing a where
  store := x.now.store
  later := s
  file := file
  types := x.now.types
  sound := x.sound
  le := x.now_le
  here := hf

variable (hP : P.Orderly) (x : P.Moment s d k (.record a item))
  (x' : P.Moment s' d k (.record a item))
include hP

theorem agree {file file' : FileId} (hf : x.now.store.fileNamed? a.path.text = some file)
    (hf' : x'.now.store.fileNamed? a.path.text = some file') :
    (x.writing hf).Agree (x'.writing hf') where
  types := by
    have closed : ∀ o ∈ (P.code d).take k, o.Closed := fun o ho =>
      hP.closed d o (List.mem_of_mem_take ho)
    exact (lookups_run (m := ⟨x.now.store, []⟩) x.sound closed x.made x.now_le).trans
      (lookups_run (m := ⟨x'.now.store, []⟩) x'.sound closed x'.made x'.now_le).symm
  functions p _ := by
    have same : x.now.store.Occupied .functions a.path.text (Cell.ofPosition p) ↔
        x'.now.store.Occupied .functions a.path.text (Cell.ofPosition p) :=
      x.standing.same_places hP x'.standing x.here (by simp [Table.placed])
    rwa [Store.occupied_iff hf, Store.occupied_iff hf', ← Store.functionAt?_isSome,
      ← Store.functionAt?_isSome, ← Bool.eq_iff_iff] at same

theorem agreeOnVariables {file file' : FileId}
    (hf : x.now.store.fileNamed? a.path.text = some file)
    (hf' : x'.now.store.fileNamed? a.path.text = some file') (he : item.table = .expressions) :
    (x.writing hf).AgreeOnVariables (x'.writing hf') where
  sites := x.standing.same_variables hP x'.standing x.here he
  unknown := ((x.writing hf).nameOf_unknown x.standing.reached.new).trans
    ((x'.writing hf').nameOf_unknown x'.standing.reached.new).symm

omit hP x x' in
theorem added {o : Op} (x : P.Moment s d k o) {u : Table} (hu : u.owner ∈ Table.placed) {r : Row u}
    (hr : r ∈ x.next.store.rows u) (hn : r ∉ x.now.store.rows u) :
    ∃ a item file w, o = .record a item ∧ x.now.store.fileNamed? a.path.text = some file ∧
      item.write? x.now.store file x.now.types a = some w ∧
      ¬ x.now.store.Occupied item.table a.path.text item.place ∧
      (∀ row ∈ w.rows (x.now.store.nextNumber w.table), row.row ∈ s.rows row.table) ∧
      (⟨u, r⟩ : AnyRow) ∈ w.rows (x.now.store.nextNumber w.table) := by
  obtain ⟨a, item, file, w, ho, hf, hw, free, there, hadd⟩ := step_adds x.step hu hr hn
  exact ⟨a, item, file, w, ho, hf, hw, free, fun row hrow => (x.le row.table).subset (there row hrow),
    hadd⟩

omit hP in
/-- A row that was added at a moment has its like in every store in which the part has come as
far. -/
theorem transfer (hP : P.Orderly) {o : Op} (x : P.Moment s d k o) (hs : s.Sound) {u : Table}
    (hu : u.owner ∈ Table.placed) {r : Row u} (hr : r ∈ x.next.store.rows u)
    (hn : r ∉ x.now.store.rows u) (h' : P.Reached π' s') (hk : k < π' d) :
    ∃ r' ∈ s'.rows u, s.describe u r = s'.describe u r' := by
  obtain ⟨a, item, file, w, rfl, hf, hw, free, there, hadd⟩ := x.added hu hr hn
  obtain ⟨o', ⟨x'⟩⟩ := h'.moment hk
  obtain rfl := Option.some.inj (x.here.symm.trans x'.here)
  have free' : ¬ x'.now.store.Occupied item.table a.path.text item.place :=
    (x.standing.same_places hP x'.standing x.here item.table_placed).not.mp free
  obtain ⟨file', w', hf', hw', there'⟩ :=
    record_adds x'.step free' (occupied_of_tidy (hP.tidy x'.mem) x'.step)
  exact (x.agree hP x' hf hf').like (x.agreeOnVariables hP x' hf hf') hs h'.sound hw hw' there
    (fun row hrow => (x'.le row.table).subset (there' row hrow)) hadd

end Moment

/-! ## What is said -/

namespace Reached

/-- A row of a file has its like where the part that recorded it has come as far. -/
theorem transfer (h : P.Reached π s) (hP : P.Orderly) {u : Table} (hu : u.owner ∈ Table.placed)
    {r : Row u} (hr : r ∈ s.rows u) (h' : P.Reached π' s')
    (far : ∀ d k o, k < π d → (x : P.Moment s d k o) → r ∈ x.next.store.rows u →
      r ∉ x.now.store.rows u → k < π' d) :
    ∃ r' ∈ s'.rows u, s.describe u r = s'.describe u r' := by
  by_cases hold : r ∈ Store.initial.rows u
  · refine ⟨r, (h'.new u).subset hold, ?_⟩
    rw [Store.initial_sound.describe_of_le h.new hold, Store.initial_sound.describe_of_le h'.new hold]
  · obtain ⟨d, k, o, hk, x, hx, hx'⟩ := h.added hr hold
    exact x.transfer hP h.sound hu hx hx' h' (far d k o hk x hx hx')

theorem fileNamed? (h : P.Reached π s) {path : Path} (hk : k < π d)
    (ho : (P.code d)[k]? = some (.file path)) : (s.fileNamed? path.text).isSome = true := by
  obtain ⟨o, ⟨x⟩⟩ := h.moment hk
  obtain rfl := Option.some.inj (ho.symm.trans x.here)
  obtain ⟨id, hid, -⟩ := step_file_ok x.step
  exact Option.isSome_of_eq_some (Store.fileNamed?_of_le x.le (fileNamed?_of_recordFile hid))

theorem typeNamed? (h : P.Reached π s) (hP : P.Orderly) {t : TypeTable} {ref : Option TypeRef}
    (hk : k < π d) (ho : (P.code d)[k]? = some (.type t ref)) {name : String}
    (hn : ref.bind t.name? = some name) : (s.typeNamed? name).isSome = true := by
  obtain ⟨o, ⟨x⟩⟩ := h.moment hk
  obtain rfl := Option.some.inj (ho.symm.trans x.here)
  obtain ⟨id, hid, -⟩ := step_type_ok x.step
  obtain ⟨missing, -⟩ | ⟨name', i, hn', hi, -⟩ := Uncached.typeId_ok (hP.closed d _ x.mem) hid
  · rw [hn] at missing
    cases missing
  · obtain rfl : name = name' := Option.some.inj (hn.symm.trans hn')
    exact Option.isSome_of_eq_some (Store.typeNamed?_of_le x.le hi)

theorem files (h : P.Reached π s) {r : FileRow} (hr : r ∈ s.files) :
    r ∈ Store.initial.files ∨
      ∃ d k path, k < π d ∧ (P.code d)[k]? = some (.file path) ∧ r.path = path.text := by
  by_cases hold : r ∈ Store.initial.rows .files
  · exact .inl hold
  · obtain ⟨d, k, o, hk, x, hx, hx'⟩ := h.added (u := .files) hr hold
    obtain ⟨path, rfl, hp⟩ := step_adds_file x.step hx hx'
    exact .inr ⟨d, k, path, hk, x.here, hp⟩

theorem holdsTypes (h : P.Reached π s) (names : String → Prop)
    (hn : ∀ d k t ref, k < π d → (P.code d)[k]? = some (.type t ref) →
      t.Reaches names ∧ ∀ name, ref.bind t.name? = some name → names name) :
    s.HoldsTypes (fun t => ∃ d ref, .type t ref ∈ P.code d) names := by
  refine h.keeps (Q := (·.HoldsTypes (fun t => ∃ d ref, Op.type t ref ∈ P.code d) names))
    (fun d k o hk ho m m' hs hm => step_holdsTypes ?_ hs hm) ⟨?_, fun r hr => nomatch hr⟩
  · cases o with
    | type t ref => exact ⟨⟨d, ref, List.mem_of_getElem? ho⟩, hn d k t ref hk ho⟩
    | file | record => trivial
  · intro u hu r hr
    cases u <;> first | exact absurd hu (by decide) | exact nomatch hr

variable (h : P.Reached π s) (h' : P.Reached π' s') (hle : ∀ d, π d ≤ π' d)
include h h' hle

theorem files_subset : s.content .files ⊆ s'.content .files := by
  have said {s : Store} (r : FileRow) : s.describe .files r = [.cell (.text r.path)] := rfl
  intro vs hvs
  obtain ⟨r, hr, rfl⟩ := List.mem_map.mp hvs
  obtain hr | ⟨d, k, path, hk, ho, hp⟩ := h.files hr
  · exact List.mem_map.mpr ⟨r, (h'.new .files).subset hr, rfl⟩
  · obtain ⟨id, hid⟩ := Option.isSome_iff_exists.mp
      (h'.fileNamed? (Nat.lt_of_lt_of_le hk (hle d)) ho)
    obtain ⟨r', hr', -⟩ := Option.map_eq_some_iff.mp hid
    have same : r'.path = path.text := by simpa using List.find?_some hr'
    refine List.mem_map.mpr ⟨r', List.mem_of_find?_eq_some hr', ?_⟩
    rw [said, said, same, hp]

theorem types_subset (hP : P.Orderly) {u : Table} (hu : u.owner = .types) :
    s.content u ⊆ s'.content u := by
  have held' := h'.holdsTypes (fun _ => True)
    fun _ _ _ _ _ _ => ⟨fun _ _ _ _ _ _ _ _ _ _ => trivial, fun _ _ => trivial⟩
  have complete {t : TypeTable} (ht : ∃ d ref, .type t ref ∈ P.code d) {e : TypeEntry}
      (he : e ∈ t.entries) (hn : (s'.typeNamed? e.name).isSome = true) :
      ∃ t', ∃ e', e.Alike t t' e' ∧ e'.Complete t' s' := by
    obtain ⟨id, hid⟩ := Option.isSome_iff_exists.mp hn
    obtain ⟨r, hr, -⟩ := Option.map_eq_some_iff.mp hid
    have name : r.name = e.name := by simpa using List.find?_some hr
    obtain ⟨t', ht', e', he', hn', hc⟩ := held'.complete r (List.mem_of_find?_eq_some hr)
    exact ⟨t', e', hP.alike _ ht _ ht' e he e' he' (name ▸ hn'.symm), hc⟩
  have held := h.holdsTypes (fun name => (s'.typeNamed? name).isSome = true)
    fun d k t ref hk ho => by
      have hm := List.mem_of_getElem? ho
      refine ⟨fun e he hn id part hp r hr name hname => ?_, fun name hn => ?_⟩
      · obtain ⟨t', e', same, hc'⟩ := complete ⟨d, ref, hm⟩ he hn
        exact same.reaches hc' hp hr hname
      · exact h'.typeNamed? hP (Nat.lt_of_lt_of_le hk (hle d)) ho hn
  intro vs hvs
  obtain ⟨r, hr, rfl⟩ := List.mem_map.mp hvs
  obtain ⟨t, ht, e, he, hn, has⟩ := held.rows u hu r hr
  obtain ⟨t', e', same, hc⟩ := complete ht he hn
  obtain ⟨x, hx, hsame⟩ := same.tell h.sound h'.sound has hc
  exact List.mem_map.mpr ⟨x, hx, hsame⟩

/-- Where every part has come as far, the same is said. -/
theorem content_subset (hP : P.Orderly) (u : Table) : s.content u ⊆ s'.content u := by
  obtain rfl | hu | hu := u.owner_cases
  · exact h.files_subset h' hle
  · exact h.types_subset h' hle hP hu
  · intro vs hvs
    obtain ⟨r, hr, rfl⟩ := List.mem_map.mp hvs
    obtain ⟨r', hr', same⟩ := h.transfer hP hu hr h' fun d k _ hk _ _ _ =>
      Nat.lt_of_lt_of_le hk (hle d)
    exact List.mem_map.mpr ⟨r', hr', same.symm⟩

end Reached

theorem Reached.content_perm (hP : P.Orderly) (h : P.Reached π s) (h' : P.Reached π s') (u : Table) :
    (s.content u).Perm (s'.content u) :=
  Store.content_perm h.sound h'.sound (h.content_subset h' (fun _ => Nat.le_refl _) hP u)
    (h'.content_subset h (fun _ => Nat.le_refl _) hP u)

end Parts
end Plan
end AccessDepth
