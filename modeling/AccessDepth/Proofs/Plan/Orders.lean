import AccessDepth.Proofs.Plan.Accesses
import AccessDepth.Proofs.Plan.Lookups
import AccessDepth.Proofs.Plan.Told

/-!
# AccessDepth.Proofs.Plan.Orders

The same directories visited in two orders.

* `Orders` — visits to the same directories in two orders, where no two directories record in one
  file, and where variables are not recorded beside the expressions that use them.
* `Orders.same_places` — where an item is recorded, the same places are free in both orders.
* `Orders.agree`, `Orders.agreeOnVariables` — there, the two stores agree on what the item goes by.
* `Orders.content_subset` — the rows that one order adds, the other one adds as well.
-/

namespace AccessDepth
namespace Plan

/-- Visits to the same directories, from two stores with the same places taken. -/
structure Orders {ι : Type} (code : ι → List Op) (ds ds' : List ι) (s t s' t' : Store) : Prop where
  first : Visits code ds s t
  second : Visits code ds' s' t'
  sound : s.Sound
  sound' : s'.Sound
  new : Store.initial ≤ s
  new' : Store.initial ≤ s'
  places : ∀ u ∈ Table.placed, u ∈ Store.namedTables → ∀ path place,
    s.Occupied u path place ↔ s'.Occupied u path place
  dirs : ∀ d, d ∈ ds ↔ d ∈ ds'
  closed : ∀ d ∈ ds, ∀ o ∈ code d, o.Closed
  named : ∀ d ∈ ds, ∀ a item, .record a item ∈ code d → item.table ∈ Store.namedTables
  /-- No two directories record in one file. -/
  apart : ∀ d ∈ ds, ∀ d' ∈ ds, ∀ a item a' item', .record a item ∈ code d →
    .record a' item' ∈ code d' → a.path.text = a'.path.text → d = d'
  /-- Where expressions are recorded, no variables are. -/
  separate : ∀ d ∈ ds, ∀ a item, .record a item ∈ code d → item.table = .expressions →
    ∀ d' ∈ ds, ∀ o ∈ code d', o.table ≠ .variables

namespace Orders

variable {ι : Type} {code : ι → List Op} {ds ds' : List ι} {s t s' t' : Store}

section

variable (h : Orders code ds ds' s t s' t')
include h

theorem places_after {u : Table} (hu : u ∈ Table.placed) (hn : u ∈ Store.namedTables) {path : String}
    {place : List Cell} : t.Occupied u path place ↔ t'.Occupied u path place := by
  have same : (∃ d ∈ ds, ∃ a item, .record a item ∈ code d ∧ item.table = u ∧
        a.path.text = path ∧ item.place = place) ↔
      ∃ d ∈ ds', ∃ a item, .record a item ∈ code d ∧ item.table = u ∧ a.path.text = path ∧
        item.place = place :=
    exists_congr fun d => and_congr_left fun _ => h.dirs d
  rw [h.first.occupied_iff h.sound hn hu, h.second.occupied_iff h.sound' hn hu,
    h.places u hu hn, same]

end

/-! ## Moments that add a row -/

section

variable {before before' after : List ι} {d : ι} {done : List Op} {a : Around} {item : Item}

/-- A moment in the first visit to a directory. There, a place of the file of its item is taken if it
was at the start, or by what the directory has done. -/
theorem occupied_moment (hs : s.Sound) (hd : d ∉ before)
    (apart : ∀ d' ∈ before, ∀ a' item', .record a' item' ∈ code d' →
      a'.path.text = a.path.text → d' = d)
    (x : Moment code s before d done (.record a item)) {u : Table} (hu : u ∈ Table.placed)
    (hn : u ∈ Store.namedTables) {place : List Cell} :
    x.now.store.Occupied u a.path.text place ↔ s.Occupied u a.path.text place ∨
      ∃ a' item', .record a' item' ∈ done ∧ item'.table = u ∧ a'.path.text = a.path.text ∧
        item'.place = place := by
  have others : ¬ ∃ d' ∈ before, ∃ a' item', .record a' item' ∈ code d' ∧ item'.table = u ∧
      a'.path.text = a.path.text ∧ item'.place = place := by
    rintro ⟨d', hd', a', item', ho, -, hp, -⟩
    exact hd (apart d' hd' a' item' ho hp ▸ hd')
  rw [occupied_run_iff (x.start_sound hs) x.reached hn hu, x.visited.occupied_iff hs hn hu,
    or_iff_left others]

end

/-! ## One item in two orders -/

section

variable {before before' : List ι} {d : ι} {done : List Op} {a : Around} {item : Item}

/-- What is written at a moment, described in the end. -/
def writing (x : Moment code s before d done (.record a item)) (hs : s.Sound)
    (hle : x.next.store ≤ t) {file : FileId}
    (hf : x.now.store.fileNamed? a.path.text = some file) : Writing a where
  store := x.now.store
  later := t
  file := file
  types := x.now.types
  sound := x.sound hs
  le := le_trans (step_inserts x.step).le hle
  here := hf

variable (h : Orders code ds ds' s t s' t')
  {x : Moment code s before d done (.record a item)}
  {x' : Moment code s' before' d done (.record a item)}
  (hm : d ∈ ds) (hb : before ⊆ ds) (hb' : before' ⊆ ds') (hd : d ∉ before) (hd' : d ∉ before')

include h hm hb hb' hd hd'

/-- In the file of the item, the same places are taken. -/
theorem same_places (x : Moment code s before d done (.record a item))
    (x' : Moment code s' before' d done (.record a item)) {u : Table} (hu : u ∈ Table.placed)
    (hn : u ∈ Store.namedTables) {place : List Cell} :
    x.now.store.Occupied u a.path.text place ↔ x'.now.store.Occupied u a.path.text place := by
  rw [occupied_moment h.sound hd (fun d' hd' a' item' ho hp =>
      h.apart d' (hb hd') d hm a' item' a item ho x.here hp) x hu hn,
    occupied_moment h.sound' hd' (fun d' hd' a' item' ho hp =>
      h.apart d' ((h.dirs d').mpr (hb' hd')) d hm a' item' a item ho x.here hp) x' hu hn,
    h.places u hu hn]

theorem agree (hle : x.next.store ≤ t) (hle' : x'.next.store ≤ t') {file file' : FileId}
    (hf : x.now.store.fileNamed? a.path.text = some file)
    (hf' : x'.now.store.fileNamed? a.path.text = some file') :
    (writing x h.sound hle hf).Agree (writing x' h.sound' hle' hf') where
  types := by
    have closed : ∀ o ∈ done, o.Closed := fun o ho => h.closed d hm o (x.made ho)
    have types := lookups_run (x.start_sound h.sound) closed x.reached
      (le_trans (step_inserts x.step).le hle)
    have types' := lookups_run (x'.start_sound h.sound') closed x'.reached
      (le_trans (step_inserts x'.step).le hle')
    exact types.trans types'.symm
  functions p _ := by
    have same : x.now.store.Occupied .functions a.path.text (Cell.ofPosition p) ↔
        x'.now.store.Occupied .functions a.path.text (Cell.ofPosition p) :=
      same_places h hm hb hb' hd hd' x x' (by simp [Table.placed]) (by simp [Store.namedTables])
    rwa [Store.occupied_iff hf, Store.occupied_iff hf', ← Store.functionAt?_isSome,
      ← Store.functionAt?_isSome, ← Bool.eq_iff_iff] at same

omit hd hd' in
theorem agreeOnVariables (hle : x.next.store ≤ t) (hle' : x'.next.store ≤ t') {file file' : FileId}
    (hf : x.now.store.fileNamed? a.path.text = some file)
    (hf' : x'.now.store.fileNamed? a.path.text = some file') (he : item.table = .expressions) :
    (writing x h.sound hle hf).AgreeOnVariables (writing x' h.sound' hle' hf') where
  sites site := by
    have unchanged {s : Store} {before : List ι} {done : List Op} {o : Op}
        (x : Moment code s before d done o) (hs : s.Sound) (hb : before ⊆ ds) :
        x.now.store.variableOf? site = s.variableOf? site := by
      have none {d' : ι} (hd' : d' ∈ ds) {o : Op} (ho : o ∈ code d') : o.table ≠ .variables :=
        h.separate d hm a item ‹Moment code _ _ d _ (.record a item)›.here he d' hd' o ho
      have before : x.start.vars = s.vars := x.visited.keeps (P := fun z => z.vars = s.vars)
        (fun d' hd' o ho m m' hstep same => by
          have inserts := step_inserts hstep
          exact (inserts.rows_eq (v := .variables) fun e => none (hb hd') ho e.symm).trans same) rfl
      have after : x.now.store.vars = x.start.vars :=
        run_rows_eq (u := .variables) (fun o ho => none hm (x.made ho)) x.reached
      exact hs.variableOf?_eq (x.sound hs) x.le (after.trans before) site
    have start : (s.variableOf? site).isSome = (s'.variableOf? site).isSome := by
      rw [Bool.eq_iff_iff, Store.variableOf?_isSome, Store.variableOf?_isSome]
      exact h.places .variables (by simp [Table.placed]) (by simp [Store.namedTables]) _ _
    have first := unchanged x h.sound hb
    have second := unchanged x' h.sound' fun d' hd' => (h.dirs d').mpr (hb' hd')
    exact (congrArg Option.isSome first).trans (start.trans (congrArg Option.isSome second.symm))
  unknown := ((writing x h.sound hle hf).nameOf_unknown (le_trans h.new x.le)).trans
    ((writing x' h.sound' hle' hf').nameOf_unknown (le_trans h.new' x'.le)).symm

end

/-! ## What is said of the rows -/

/-- What the first order adds, the second one adds as well. -/
theorem content_subset (h : Orders code ds ds' s t s' t') {u : Table}
    (hu : u.owner ∈ Table.placed) (hsub : s.content u ⊆ s'.content u) :
    t.content u ⊆ t'.content u := by
  have sound := h.first.sound h.sound
  have sound' := h.second.sound h.sound'
  intro vs hvs
  obtain ⟨r, hr, rfl⟩ := List.mem_map.mp hvs
  by_cases hold : r ∈ s.rows u
  · rw [h.sound.describe_of_le h.first.le hold]
    obtain ⟨r', hr', he⟩ := List.mem_map.mp (hsub (List.mem_map_of_mem hold))
    rw [← he, ← h.sound'.describe_of_le h.second.le hr']
    exact List.mem_map_of_mem ((h.second.le u).subset hr')
  · obtain ⟨before, d, after, done, o, rest, rfl, hc, x, hle, hadd, hnew⟩ := h.first.new hr hold
    have hm : d ∈ before ++ d :: after := List.mem_append_right _ List.mem_cons_self
    obtain ⟨a, item, file, w, rfl, hf, hw, free, there, hadd⟩ := step_adds x.step hu hadd hnew
    have hplaced := item.table_placed
    have hnamed := h.named d hm a item x.here
    have hd : d ∉ before := fun hd => free ((x.visited.occupied_iff h.sound hnamed hplaced).mpr
      (.inr ⟨d, hd, a, item, x.here, rfl, rfl, rfl⟩) |>.of_le (run_le x.reached))
    obtain ⟨before', after', rfl, hd'⟩ := List.eq_append_cons_of_mem ((h.dirs d).mp hm)
    obtain ⟨x', hle'⟩ := h.second.moment hc
    have hb : before ⊆ before ++ d :: after := List.subset_append_left _ _
    have hb' : before' ⊆ before' ++ d :: after' := List.subset_append_left _ _
    have free' : ¬ x'.now.store.Occupied item.table a.path.text item.place :=
      (same_places h hm hb hb' hd hd' x x' hplaced hnamed).not.mp free
    obtain ⟨file', w', hf', hw', there'⟩ := record_adds x'.step free'
      (occupied_of_record x'.step (by
        intro he
        rw [he] at hnamed
        simp [Store.namedTables] at hnamed))
    obtain ⟨r', hr', same⟩ := (agree h hm hb hb' hd hd' hle hle' hf hf').like
      (agreeOnVariables h hm hb hb' hle hle' hf hf') sound sound' hw hw'
      (fun row hrow => (hle row.table).subset (there row hrow))
      (fun row hrow => (hle' row.table).subset (there' row hrow)) hadd
    exact List.mem_map.mpr ⟨r', hr', same.symm⟩

end Orders
end Plan
end AccessDepth
