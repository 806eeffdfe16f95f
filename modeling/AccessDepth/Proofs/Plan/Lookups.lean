import AccessDepth.Proofs.Interning.Rows
import AccessDepth.Proofs.Plan.Visits

/-!
# AccessDepth.Proofs.Plan.Lookups

Which types and files code leaves in a store.

* `Plan.lookups` — the names of the types that are looked up since the last item, read off the code.
* `Store.HoldsTypes` — the type rows of a store are those of entries of some tables, and every entry
  whose name is stored is complete.
* `Visits.holdsTypes`, `Visits.files` — so it is after visits to directories; the files are those
  that the code names.
-/

namespace AccessDepth

namespace Uncached

variable {t : TypeTable} {ref : Option TypeRef} {id : Option TypeId} {s s' : Store}

/-- In a closed table what is found is the type of the reference. -/
theorem typeId_ok (hc : t.Closed) (h : typeId t ref s = .ok (id, s')) :
    (ref.bind t.name? = none ∧ id = none) ∨
      ∃ name i, ref.bind t.name? = some name ∧ s'.typeNamed? name = some i ∧ id = some i := by
  unfold typeId at h
  cases ref with
  | none =>
    cases h
    exact .inl ⟨rfl, rfl⟩
  | some r =>
    simp only at h
    split at h
    · rename_i i s₁ hi
      cases h
      obtain ⟨e, he, hn⟩ := typeNamed?_of_intern hi
      exact .inr ⟨e.name, i, by simp [TypeTable.name?, he], hn, rfl⟩
    · rename_i hi
      cases h
      have missing : t.get? r = none := by
        cases hg : t.get? r with
        | none => rfl
        | some e => exact absurd rfl (intern_error hc (by simp [hg]) hi)
      exact .inl ⟨by simp [TypeTable.name?, missing], rfl⟩
    · cases h

theorem typeId_adds {names : String → Prop} (hreach : t.Reaches names)
    (hr : ∀ name, ref.bind t.name? = some name → names name)
    (h : typeId t ref s = .ok (id, s')) : t.Adds names s s' := by
  unfold typeId at h
  cases ref with
  | none =>
    cases h
    exact .refl _
  | some r =>
    simp only at h
    split at h
    · rename_i hi
      cases h
      exact (intern_adds hreach hr hi).1
    · cases h
      exact .refl _
    · cases h

end Uncached

/-- Whether entries of one name are alike, in whichever of some tables they are. -/
def EntriesAlike (tables : TypeTable → Prop) : Prop :=
  ∀ t, tables t → ∀ t', tables t' → ∀ e ∈ t.entries, ∀ e' ∈ t'.entries, e.name = e'.name →
    e.Alike t t' e'

/-! ## Types that are looked up -/

namespace Plan

variable {m m' : Machine} {os : List Op} {later : Store}

/-- What the types are called that are looked up after some others and since the last item. -/
def lookups (names : List (Option (Option RowName))) : List Op → List (Option (Option RowName))
  | [] => names
  | .file _ :: os => lookups names os
  | .type table ref :: os =>
    lookups (names ++ [(ref.bind table.name?).map fun name => some (.type name)]) os
  | .record .. :: os => lookups [] os

theorem lookups_run (hs : m.store.Sound) (hc : ∀ o ∈ os, o.Closed) (h : run os m = .ok m')
    (hle : m'.store ≤ later) :
    m'.types.map later.called = lookups (m.types.map later.called) os := by
  induction os generalizing m with
  | nil =>
    cases h
    rfl
  | cons o os ih =>
    obtain ⟨m₁, h₁, h₂⟩ := run_cons_ok h
    have sound₁ := (step_inserts h₁).sound hs
    rw [ih sound₁ (fun o' ho => hc o' (List.mem_cons_of_mem o ho)) h₂]
    cases o with
    | file path =>
      obtain ⟨id, -, same⟩ := step_file_ok h₁
      rw [lookups, same]
    | type table ref =>
      obtain ⟨id, hid, same⟩ := step_type_ok h₁
      have called : later.called id =
          (ref.bind table.name?).map fun name => some (.type name) := by
        obtain ⟨hn, rfl⟩ | ⟨name, i, hn, hi, rfl⟩ :=
          Uncached.typeId_ok (hc _ List.mem_cons_self) hid
        · rw [hn]
          rfl
        · have named := Store.nameOf_of_le (le_trans (run_le h₂) hle)
            (Store.nameOf_typeNamed? sound₁ hi)
          rw [hn, Store.called_some, named, Option.map_some]
      rw [lookups, same, List.map_append, List.map_singleton, called]
    | record a item =>
      obtain ⟨-, same⟩ := step_record_ok h₁
      rw [lookups, same]
      rfl

end Plan

/-! ## Type rows -/

/-- The type rows of a store are those of entries with some names of some tables, and every type that
is stored is complete. -/
structure Store.HoldsTypes (s : Store) (tables : TypeTable → Prop) (names : String → Prop) :
    Prop where
  rows : ∀ u, u.owner = .types → ∀ r ∈ s.rows u,
    ∃ t, tables t ∧ ∃ e ∈ t.entries, names e.name ∧ e.Has t s ⟨u, r⟩
  complete : ∀ r ∈ s.types, ∃ t, tables t ∧ ∃ e ∈ t.entries, e.name = r.name ∧ e.Complete t s

namespace Plan

variable {tables : TypeTable → Prop} {names : String → Prop} {s s' : Store}

/-- Whether an operation looks types up in one of some tables, and finds some names only. -/
def Op.Looks (tables : TypeTable → Prop) (names : String → Prop) : Op → Prop
  | .type t ref =>
    tables t ∧ t.Reaches names ∧ ∀ name, ref.bind t.name? = some name → names name
  | _ => True

theorem step_holdsTypes {o : Op} (ho : o.Looks tables names) {m m' : Machine}
    (h : o.step m = .ok m') (hm : m.store.HoldsTypes tables names) :
    m'.store.HoldsTypes tables names := by
  have le := (step_inserts h).le
  by_cases ht : o.table = .types
  · cases o with
    | file => cases ht
    | record a item => exact absurd ht (by cases item <;> simp [Op.table, Item.table])
    | type t ref =>
      obtain ⟨htables, hreach, hnames⟩ := ho
      obtain ⟨id, hid, -⟩ := step_type_ok h
      have adds := Uncached.typeId_adds hreach hnames hid
      constructor
      · intro u hu r hr
        obtain hr | ⟨e, he, hn, has⟩ := adds.rows u r hr
        · obtain ⟨t', ht', e, he, hn, has⟩ := hm.rows u hu r hr
          exact ⟨t', ht', e, he, hn, has.of_le le⟩
        · exact ⟨t, htables, e, he, hn, has⟩
      · intro r hr
        obtain hr | ⟨e, he, hn, complete⟩ := adds.types r hr
        · obtain ⟨t', ht', e, he, hn, complete⟩ := hm.complete r hr
          exact ⟨t', ht', e, he, hn, complete.of_le le⟩
        · exact ⟨t, htables, e, he, hn, complete⟩
  · have same {u : Table} (hu : u.owner = .types) : m'.store.rows u = m.store.rows u :=
      (step_inserts h).rows_eq fun he => ht (he.symm.trans hu)
    constructor
    · intro u hu r hr
      obtain ⟨t, ht, e, he, hn, has⟩ := hm.rows u hu r (same hu ▸ hr)
      exact ⟨t, ht, e, he, hn, has.of_le le⟩
    · intro r hr
      have old : r ∈ m.store.rows .types := same (u := .types) rfl ▸ hr
      obtain ⟨t, ht, e, he, hn, complete⟩ := hm.complete r old
      exact ⟨t, ht, e, he, hn, complete.of_le le⟩

namespace Visits

variable {ι : Type} {code : ι → List Op} {ds : List ι}

theorem holdsTypes (h : Visits code ds s s') (ho : ∀ d ∈ ds, ∀ o ∈ code d, o.Looks tables names)
    (hs : s.HoldsTypes tables names) : s'.HoldsTypes tables names :=
  h.keeps (P := (·.HoldsTypes tables names))
    (fun d hd o hm _ _ hstep => step_holdsTypes (ho d hd o hm) hstep) hs

theorem typeNamed? (h : Visits code ds s s') {d : ι} (hd : d ∈ ds) {t : TypeTable}
    {ref : Option TypeRef} (ho : .type t ref ∈ code d) (hc : t.Closed) {name : String}
    (hn : ref.bind t.name? = some name) : (s'.typeNamed? name).isSome = true := by
  obtain ⟨m, m', hstep, -, hle⟩ := h.made hd ho
  obtain ⟨id, hid, -⟩ := step_type_ok hstep
  obtain ⟨missing, -⟩ | ⟨name', i, hn', hi, -⟩ := Uncached.typeId_ok hc hid
  · rw [hn] at missing
    cases missing
  · obtain rfl : name = name' := Option.some.inj (hn.symm.trans hn')
    exact Option.isSome_of_eq_some (Store.typeNamed?_of_le hle hi)

/-! ## File rows -/

theorem fileNamed? (h : Visits code ds s s') {d : ι} (hd : d ∈ ds) {path : Path}
    (ho : .file path ∈ code d) : (s'.fileNamed? path.text).isSome = true := by
  obtain ⟨m, m', hstep, -, hle⟩ := h.made hd ho
  obtain ⟨id, hid, -⟩ := step_file_ok hstep
  exact Option.isSome_of_eq_some (Store.fileNamed?_of_le hle (fileNamed?_of_recordFile hid))

/-- The files are those that were there and those that the code names. -/
theorem files (h : Visits code ds s s') {r : FileRow} (hr : r ∈ s'.files) :
    r ∈ s.files ∨ ∃ d ∈ ds, ∃ path, .file path ∈ code d ∧ r.path = path.text := by
  by_cases hn : r ∈ s.rows .files
  · exact .inl hn
  · obtain ⟨before, d, after, done, o, rest, rfl, hc, x, -, hadd, hold⟩ := h.new hr hn
    have hd : d ∈ before ++ d :: after := List.mem_append_right _ List.mem_cons_self
    refine .inr ⟨d, hd, ?_⟩
    obtain ⟨path, rfl, hp⟩ := step_adds_file x.step hadd hold
    exact ⟨path, x.here, hp⟩

/-! ## Other visits to the same directories -/

section

variable {t t' : Store} {ds' : List ι}

/-- A file that is stored after some visits is stored after visits to these directories and others. -/
theorem files_subset (h : Visits code ds s t) (h' : Visits code ds' s' t') (hd : ds ⊆ ds')
    (hsub : s.content .files ⊆ s'.content .files) : t.content .files ⊆ t'.content .files := by
  have said {s : Store} (r : FileRow) : s.describe .files r = [.cell (.text r.path)] := rfl
  have later : s'.content .files ⊆ t'.content .files := by
    intro vs hvs
    obtain ⟨r, hr, rfl⟩ := List.mem_map.mp hvs
    exact List.mem_map.mpr ⟨r, (h'.le .files).subset hr, rfl⟩
  intro vs hvs
  obtain ⟨r, hr, rfl⟩ := List.mem_map.mp hvs
  obtain hr | ⟨d, hm, path, ho, hp⟩ := h.files hr
  · exact later (hsub (List.mem_map.mpr ⟨r, hr, rfl⟩))
  · obtain ⟨id, hid⟩ := Option.isSome_iff_exists.mp (h'.fileNamed? (hd hm) ho)
    obtain ⟨r', hr', -⟩ := Option.map_eq_some_iff.mp hid
    have same : r'.path = path.text := by simpa using List.find?_some hr'
    refine List.mem_map.mpr ⟨r', List.mem_of_find?_eq_some hr', ?_⟩
    rw [said, said, same, hp]

/-- Where the entries of one name are alike, what is said of the types after some visits is said of
them after visits to these directories and others. -/
theorem types_subset (h : Visits code ds s t) (h' : Visits code ds' s' t') (hd : ds ⊆ ds')
    (hs : s.Sound) (hs' : s'.Sound) (alike : EntriesAlike tables)
    (ho : ∀ d ∈ ds', ∀ table ref, .type table ref ∈ code d → tables table ∧ table.Closed)
    (hrows : ∀ u, u.owner = .types → s.rows u = [])
    (hrows' : ∀ u, u.owner = .types → s'.rows u = []) {u : Table} (hu : u.owner = .types) :
    t.content u ⊆ t'.content u := by
  have start {s : Store} {names : String → Prop} (hrows : ∀ u, u.owner = .types → s.rows u = []) :
      s.HoldsTypes tables names := by
    refine ⟨fun u hu r hr => ?_, fun r hr => ?_⟩
    · rw [hrows u hu] at hr
      cases hr
    · have none : s.types = [] := hrows .types rfl
      rw [none] at hr
      cases hr
  have held' : t'.HoldsTypes tables fun _ => True := by
    refine h'.holdsTypes (fun d hd o hm => ?_) (start hrows')
    cases o with
    | type table ref => exact ⟨(ho d hd table ref hm).1, fun _ _ _ _ _ _ _ _ _ _ => trivial,
        fun _ _ => trivial⟩
    | file | record => trivial
  have complete {table : TypeTable} (ht : tables table) {e : TypeEntry} (he : e ∈ table.entries)
      (hn : (t'.typeNamed? e.name).isSome = true) :
      ∃ table', tables table' ∧ ∃ e', e.Alike table table' e' ∧ e'.Complete table' t' := by
    obtain ⟨id, hid⟩ := Option.isSome_iff_exists.mp hn
    obtain ⟨r, hr, -⟩ := Option.map_eq_some_iff.mp hid
    have name : r.name = e.name := by simpa using List.find?_some hr
    obtain ⟨table', ht', e', he', hn', hc⟩ := held'.complete r (List.mem_of_find?_eq_some hr)
    exact ⟨table', ht', e', alike _ ht _ ht' e he e' he' (name ▸ hn'.symm), hc⟩
  have held : t.HoldsTypes tables fun name => (t'.typeNamed? name).isSome = true := by
    refine h.holdsTypes (fun d hm o hmem => ?_) (start hrows)
    cases o with
    | type table ref =>
      obtain ⟨ht, hc⟩ := ho d (hd hm) table ref hmem
      refine ⟨ht, fun e he hn id part hp r hr name hname => ?_, fun name hn => ?_⟩
      · obtain ⟨table', -, e', same, hc'⟩ := complete ht he hn
        exact same.reaches hc' hp hr hname
      · exact h'.typeNamed? (hd hm) hmem hc hn
    | file | record => trivial
  intro vs hvs
  obtain ⟨r, hr, rfl⟩ := List.mem_map.mp hvs
  obtain ⟨table, ht, e, he, hn, has⟩ := held.rows u hu r hr
  obtain ⟨table', -, e', same, hc⟩ := complete ht he hn
  obtain ⟨x, hx, hsame⟩ := same.tell (h.sound hs) (h'.sound hs') has hc
  exact List.mem_map.mpr ⟨x, hx, hsame⟩

end

end Visits
end Plan
end AccessDepth
