import AccessDepth.Proofs.Plan.Rows

/-!
# AccessDepth.Proofs.Plan.Visits

Code that is run for one directory after the other.

* `Visits` — a store after visits to some directories.
* `Visits.keeps` — what every operation keeps is kept.
* `Visits.made` — every operation of a directory that is visited was made at some point.
* `Visits.occupied_iff` — which places are taken in the end: those that were taken, and those of the
  items that are recorded.
* `Visits.new` — a row that is new was added by an operation in the code of some directory.
-/

namespace AccessDepth
namespace Plan

variable {ι : Type} {code : ι → List Op} {ds ds' : List ι} {s s' s'' : Store}

/-- A store after visits to directories. At the end of each no types are looked up. -/
inductive Visits (code : ι → List Op) : List ι → Store → Store → Prop
  | nil (s : Store) : Visits code [] s s
  | cons {d : ι} {ds : List ι} {s s₁ s' : Store} :
      run (code d) ⟨s, []⟩ = .ok ⟨s₁, []⟩ → Visits code ds s₁ s' → Visits code (d :: ds) s s'

theorem run_keeps {P : Store → Prop} {os : List Op} {m m' : Machine} (h : run os m = .ok m')
    (hP : ∀ o ∈ os, ∀ m m', o.step m = .ok m' → P m.store → P m'.store) (hm : P m.store) :
    P m'.store := by
  induction os generalizing m with
  | nil =>
    cases h
    exact hm
  | cons o os ih =>
    obtain ⟨m₁, h₁, h₂⟩ := run_cons_ok h
    exact ih h₂ (fun o' ho => hP o' (List.mem_cons_of_mem o ho))
      (hP o List.mem_cons_self m m₁ h₁ hm)

namespace Visits

theorem keeps {P : Store → Prop} (h : Visits code ds s s')
    (hP : ∀ d ∈ ds, ∀ o ∈ code d, ∀ m m', o.step m = .ok m' → P m.store → P m'.store) (hs : P s) :
    P s' := by
  induction h with
  | nil => exact hs
  | @cons d ds s s₁ s' h₁ _ ih =>
    exact ih (fun d' hd => hP d' (List.mem_cons_of_mem d hd))
      (run_keeps h₁ (hP d List.mem_cons_self) hs)

theorem inserts (h : Visits code ds s s') : Inserts (fun _ => True) s s' :=
  h.keeps (P := Inserts (fun _ => True) s)
    (fun _ _ _ _ _ _ hstep hi => hi.trans ((step_inserts hstep).mono fun _ _ => trivial)) (.refl s)

theorem le (h : Visits code ds s s') : s ≤ s' := h.inserts.le

theorem sound (h : Visits code ds s s') (hs : s.Sound) : s'.Sound := h.inserts.sound hs

theorem split (h : Visits code (ds ++ ds') s s'') :
    ∃ s', Visits code ds s s' ∧ Visits code ds' s' s'' := by
  induction ds generalizing s with
  | nil => exact ⟨s, .nil s, h⟩
  | cons d ds ih =>
    cases h with
    | cons h₁ h =>
      obtain ⟨s', hs, hs'⟩ := ih h
      exact ⟨s', .cons h₁ hs, hs'⟩

theorem append (h : Visits code ds s s') (h' : Visits code ds' s' s'') :
    Visits code (ds ++ ds') s s'' := by
  induction h with
  | nil => exact h'
  | cons h₁ _ ih => exact .cons h₁ (ih h')

theorem run_flatMap (h : Visits code ds s s') : run (ds.flatMap code) ⟨s, []⟩ = .ok ⟨s', []⟩ := by
  induction h with
  | nil => rfl
  | cons h₁ _ ih => rw [List.flatMap_cons, run_append_of_ok h₁, ih]

/-- Every operation of a directory that is visited was made at some point. -/
theorem made (h : Visits code ds s s') {d : ι} (hd : d ∈ ds) {o : Op} (ho : o ∈ code d) :
    ∃ m m', o.step m = .ok m' ∧ s ≤ m.store ∧ m'.store ≤ s' := by
  obtain ⟨before, after, rfl⟩ := List.append_of_mem hd
  obtain ⟨s₁, h₁, h⟩ := h.split
  cases h with
  | @cons _ _ _ s₂ _ hrun h₂ =>
    obtain ⟨os, os', hos⟩ := List.append_of_mem ho
    rw [hos] at hrun
    obtain ⟨m, hm, hrun⟩ := run_append_ok hrun
    obtain ⟨m', hm', hrun⟩ := run_cons_ok hrun
    exact ⟨m, m', hm', le_trans h₁.le (run_le hm), le_trans (run_le hrun) h₂.le⟩

end Visits

/-! ## Places -/

section

variable {u : Table} {path : String} {place : List Cell}

/-- Which places are taken after code was run. -/
theorem occupied_run_iff {os : List Op} {m m' : Machine} (hs : m.store.Sound)
    (h : run os m = .ok m') (hu : u ∈ Store.namedTables) (hp : u ∈ Table.placed) :
    m'.store.Occupied u path place ↔ m.store.Occupied u path place ∨
      ∃ a item, .record a item ∈ os ∧ item.table = u ∧ a.path.text = path ∧ item.place = place := by
  refine ⟨occupied_run hs h hp, fun ho => ?_⟩
  obtain ho | ⟨a, item, hm, rfl, rfl, rfl⟩ := ho
  · exact ho.of_le (run_le h)
  · obtain ⟨before, after, rfl⟩ := List.append_of_mem hm
    obtain ⟨m₁, -, h⟩ := run_append_ok h
    obtain ⟨m₂, h₂, h⟩ := run_cons_ok h
    have there := occupied_of_record h₂ (by
      intro he
      rw [he] at hu
      simp [Store.namedTables] at hu)
    exact there.of_le (run_le h)

/-- Which places are taken after visits to directories. -/
theorem Visits.occupied_iff (hs : s.Sound) (h : Visits code ds s s') (hu : u ∈ Store.namedTables)
    (hp : u ∈ Table.placed) :
    s'.Occupied u path place ↔ s.Occupied u path place ∨
      ∃ d ∈ ds, ∃ a item, .record a item ∈ code d ∧ item.table = u ∧ a.path.text = path ∧
        item.place = place := by
  induction h with
  | nil => simp
  | cons h₁ h ih =>
    have sound₁ := (run_inserts (P := fun _ => True) (fun _ _ _ _ => trivial) h₁).sound hs
    rw [ih sound₁, occupied_run_iff hs h₁ hu hp, List.exists_mem_cons_iff, or_assoc]

end

/-! ## Moments -/

/-- A moment of visits to directories: those before `d` were visited, and in the code of `d` the
operations before `o` were made. -/
structure Moment (code : ι → List Op) (s : Store) (before : List ι) (d : ι) (done : List Op)
    (o : Op) where
  start : Store
  now : Machine
  next : Machine
  visited : Visits code before s start
  here : o ∈ code d
  made : done ⊆ code d
  reached : run done ⟨start, []⟩ = .ok now
  step : o.step now = .ok next

namespace Moment

variable {before : List ι} {d : ι} {done : List Op} {o : Op}

theorem start_sound (x : Moment code s before d done o) (hs : s.Sound) : x.start.Sound :=
  x.visited.sound hs

theorem sound (x : Moment code s before d done o) (hs : s.Sound) : x.now.store.Sound :=
  (run_inserts (P := fun _ => True) (fun _ _ _ _ => trivial) x.reached).sound (x.start_sound hs)

theorem le (x : Moment code s before d done o) : s ≤ x.now.store :=
  le_trans x.visited.le (run_le x.reached)

end Moment

theorem Visits.moment {before after : List ι} {d : ι} (h : Visits code (before ++ d :: after) s s')
    {done rest : List Op} {o : Op} (hc : code d = done ++ o :: rest) :
    ∃ x : Moment code s before d done o, x.next.store ≤ s' := by
  obtain ⟨s₁, h₁, h⟩ := h.split
  cases h with
  | cons hrun h₂ =>
    rw [hc] at hrun
    obtain ⟨m, hm, hrun⟩ := run_append_ok hrun
    obtain ⟨m', hm', hrun⟩ := run_cons_ok hrun
    refine ⟨⟨s₁, m, m', h₁, ?_, ?_, hm, hm'⟩, le_trans (run_le hrun) h₂.le⟩
    · exact hc ▸ List.mem_append_right _ List.mem_cons_self
    · exact hc ▸ List.subset_append_left _ _

/-- A row that is new was added by some operation. -/
theorem run_added {os : List Op} {m m' : Machine} {u : Table} {r : Row u} (h : run os m = .ok m')
    (hr : r ∈ m'.store.rows u) (hn : r ∉ m.store.rows u) :
    ∃ done o rest m₁ m₂, os = done ++ o :: rest ∧ run done m = .ok m₁ ∧ o.step m₁ = .ok m₂ ∧
      m₂.store ≤ m'.store ∧ r ∈ m₂.store.rows u ∧ r ∉ m₁.store.rows u := by
  induction os generalizing m with
  | nil =>
    cases h
    exact absurd hr hn
  | cons o os ih =>
    obtain ⟨m₁, h₁, h₂⟩ := run_cons_ok h
    by_cases hr₁ : r ∈ m₁.store.rows u
    · exact ⟨[], o, os, m, m₁, rfl, rfl, h₁, run_le h₂, hr₁, hn⟩
    · obtain ⟨done, o', rest, m₂, m₃, rfl, h₂, h₃⟩ := ih h₂ hr₁
      exact ⟨o :: done, o', rest, m₂, m₃, rfl, (run_cons_of_ok h₁).trans h₂, h₃⟩

/-- A row that is new was added at some moment. -/
theorem Visits.new {u : Table} {r : Row u} (h : Visits code ds s s') (hr : r ∈ s'.rows u)
    (hn : r ∉ s.rows u) :
    ∃ before d after done o rest, ds = before ++ d :: after ∧ code d = done ++ o :: rest ∧
      ∃ x : Moment code s before d done o,
        x.next.store ≤ s' ∧ r ∈ x.next.store.rows u ∧ r ∉ x.now.store.rows u := by
  induction h with
  | nil => exact absurd hr hn
  | @cons d ds s s₁ s' h₁ h ih =>
    by_cases hr₁ : r ∈ s₁.rows u
    · obtain ⟨done, o, rest, m, m', hc, hm, hstep, hle, hadd, hold⟩ := run_added h₁ hr₁ hn
      refine ⟨[], d, ds, done, o, rest, rfl, hc, ⟨s, m, m', .nil s, ?_, ?_, hm, hstep⟩,
        le_trans hle h.le, hadd, hold⟩
      · exact hc ▸ List.mem_append_right _ List.mem_cons_self
      · exact hc ▸ List.subset_append_left _ _
    · obtain ⟨before, d', after, done, o, rest, rfl, hc, x, hle, hadd, hold⟩ := ih hr hr₁
      exact ⟨d :: before, d', after, done, o, rest, rfl, hc,
        ⟨x.start, x.now, x.next, .cons h₁ x.visited, x.here, x.made, x.reached, x.step⟩,
        hle, hadd, hold⟩

end Plan
end AccessDepth
