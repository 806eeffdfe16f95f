import AccessDepth.Proofs.Queries

/-!
# AccessDepth.Proofs.Truncation

Emptying the store.

* `Table.targets_later` — a table is emptied before the tables that its rows refer to.
* `Store.Connected` — every row refers to rows that are there.
* `Store.clear_take`, `Connected.without` — so each deletion takes place, and the rows that are left
  refer to rows that are left.
* `Store.truncate_eq` — every store becomes the new one.
* `Contexts.truncate_resets` — so it is after any queries, and what is asked later is answered as on
  a new store.
-/

namespace AccessDepth

/-! ## The order of the tables -/

namespace Table

/-- The tables that the rows of a table may refer to. -/
def targets (t : Table) : List Table := t.columns.filterMap (·.target)

/-- A table comes before its targets. It may be a target of itself. -/
theorem targets_later (t : Table) :
    ∀ u ∈ t.targets, dependentsFirst.idxOf t ≤ dependentsFirst.idxOf u := by
  cases t <;> decide

theorem mem_dependentsFirst (t : Table) : t ∈ dependentsFirst := by
  cases t <;> decide

theorem mem_take_of_target {k : Nat} {t u : Table} (h : u ∈ dependentsFirst.take k)
    (hu : u ∈ t.targets) : t ∈ dependentsFirst.take k := by
  rw [List.mem_take_iff_idxOf_lt (mem_dependentsFirst _)] at h ⊢
  exact Nat.lt_of_le_of_lt (targets_later t u hu) h

end Table

theorem Row.mem_targets {u : Table} {r : Row u} {ref : Reference}
    (h : ref ∈ Row.references u r) : ref.table ∈ u.targets := by
  obtain ⟨⟨c, cell⟩, hc, he⟩ := List.mem_filterMap.mp h
  have column : c ∈ u.columns := (List.of_mem_zip hc).1
  refine List.mem_filterMap.mpr ⟨c, column, ?_⟩
  cases ht : c.target with
  | none => simp [ht] at he
  | some table =>
    cases cell with
    | int n =>
      simp only [ht, Option.some.injEq] at he
      rw [← he]
    | null | text => simp [ht] at he

/-! ## Deletions -/

namespace Store

variable {s : Store} {u v : Table}

/-- Every row refers to rows that are there. -/
def Connected (s : Store) : Prop :=
  ∀ u, ∀ r ∈ s.rows u, ∀ ref ∈ Row.references u r, s.has ref = true

/-- The store without the rows of some tables. -/
def without (s : Store) (ts : List Table) : Store := ts.foldl (fun s t => s.withRows t []) s

theorem rows_without (s : Store) (ts : List Table) (u : Table) :
    (s.without ts).rows u = if u ∈ ts then [] else s.rows u := by
  induction ts generalizing s with
  | nil => rfl
  | cons t ts ih =>
    have rest : s.without (t :: ts) = (s.withRows t []).without ts := rfl
    rw [rest, ih]
    by_cases hu : u ∈ ts
    · rw [if_pos hu, if_pos (List.mem_cons_of_mem t hu)]
    · rw [if_neg hu]
      by_cases ht : u = t
      · subst ht
        rw [rows_withRows_self, if_pos List.mem_cons_self]
      · rw [rows_withRows_of_ne _ _ ht, if_neg (by simp [hu, ht])]

theorem without_append (s : Store) (ts us : List Table) :
    s.without (ts ++ us) = (s.without ts).without us := by
  simp [without]

/-- A deletion takes place if the other tables that have rows do not have the table as a target. -/
theorem clear_eq (h : ∀ v, v ≠ u → s.rows v ≠ [] → u ∉ v.targets) :
    s.clear u = .ok (s.without [u]) := by
  have free : (s.withRows u []).refersTo u = false := by
    rw [Bool.eq_false_iff]
    intro refers
    obtain ⟨v, -, hv⟩ := List.any_eq_true.mp refers
    obtain ⟨r, hr, hv⟩ := List.any_eq_true.mp hv
    obtain ⟨ref, href, he⟩ := List.any_eq_true.mp hv
    have target : u ∈ v.targets := eq_of_beq he ▸ Row.mem_targets href
    by_cases hu : v = u
    · subst hu
      rw [rows_withRows_self] at hr
      cases hr
    · rw [rows_withRows_of_ne _ _ hu] at hr
      exact h v hu (List.ne_nil_of_mem hr) target
  unfold clear
  simp only [free]
  rfl

/-- Every one of the deletions takes place. -/
theorem clear_take (s : Store) (k : Nat) :
    (Table.dependentsFirst.take k).foldlM clear s =
      .ok (s.without (Table.dependentsFirst.take k)) := by
  induction k with
  | zero => rfl
  | succ k ih =>
    rw [List.take_add_one, List.foldlM_append, ih, without_append]
    cases ht : Table.dependentsFirst[k]? with
    | none => rfl
    | some t =>
      have cleared : (s.without (Table.dependentsFirst.take k)).clear t =
          .ok ((s.without (Table.dependentsFirst.take k)).without [t]) := by
        refine clear_eq fun v hv rows target => ?_
        have next : Table.dependentsFirst.take (k + 1) = Table.dependentsFirst.take k ++ [t] := by
          rw [List.take_add_one, ht, Option.toList_some]
        have last : t ∈ Table.dependentsFirst.take (k + 1) := by simp [next]
        have early := Table.mem_take_of_target last target
        rw [next, List.mem_append, List.mem_singleton] at early
        rw [rows_without, if_pos (early.resolve_right hv)] at rows
        exact rows rfl
      simp only [Option.toList_some, List.foldlM_cons, List.foldlM_nil, bind_pure]
      exact cleared

theorem Connected.without (h : s.Connected) (k : Nat) :
    (s.without (Table.dependentsFirst.take k)).Connected := by
  intro u r hr ref href
  by_cases hu : u ∈ Table.dependentsFirst.take k
  · rw [rows_without, if_pos hu] at hr
    cases hr
  · rw [rows_without, if_neg hu] at hr
    have kept : ref.table ∉ Table.dependentsFirst.take k :=
      fun ht => hu (Table.mem_take_of_target ht (Row.mem_targets href))
    have there := h u r hr ref href
    unfold has at there ⊢
    rw [rows_without, if_neg kept]
    exact there

/-- Whatever a store holds, it becomes the new one. -/
theorem truncate_eq (s : Store) : s.truncate = .ok .initial := by
  have empty : Table.dependentsFirst.foldlM clear s = .ok {} := clear_take s 30
  unfold truncate
  rw [empty]
  rfl

theorem Sound.connected (h : s.Sound) : s.Connected := h.references

end Store

/-! ## After any queries -/

namespace Contexts

variable {ι : Type} [DecidableEq ι]

/-- Contexts with empty caches are asked queries on a new store; any of them may fail. Then every
deletion takes place and leaves a store in which every row refers to rows that are there. In the end
the store is the new one, and queries to contexts that are opened on it, with the rows and the
numbers that they give, are answered as on a new store. -/
theorem truncate_resets {w : Contexts ι} (hw : w.store = .initial)
    (hn : ∀ i, (w.context i).IsNew) (qs : List (Asked ι)) :
    let s := (w.asks qs).2.store
    (∀ k, ∃ t, (Table.dependentsFirst.take k).foldlM Store.clear s = .ok t ∧ t.Connected) ∧
      s.truncate = .ok .initial ∧
      ∀ s', s.truncate = .ok s' → ∀ (opened : ι → Context) (later : List (Asked ι)),
        asks ⟨s', opened⟩ later = asks ⟨.initial, opened⟩ later := by
  intro s
  obtain ⟨sound, -⟩ := asks_keep (hw ▸ Store.initial_sound) (coherent_of_new hn) qs
  refine ⟨fun k => ⟨_, s.clear_take k, sound.connected.without k⟩, s.truncate_eq, ?_⟩
  intro s' hs opened later
  cases s.truncate_eq.symm.trans hs
  rfl

/-- The sample package is analyzed in all ways and a type of the sample table is interned, through
two contexts; then the store is truncated, and another context analyzes the package. -/
theorem truncate_sample_resets :
    let qs : List (Asked Bool) :=
      [⟨false, .analysis .sample .all, none⟩, ⟨true, .type .sample (some 2), none⟩,
        ⟨true, .analysis .sample .allocSizes, some 3⟩]
    let s := (Contexts.sample.asks qs).2.store
    s ≠ .initial ∧
      (∀ k, ∃ t, (Table.dependentsFirst.take k).foldlM Store.clear s = .ok t ∧ t.Connected) ∧
      s.truncate = .ok .initial ∧
      ∀ s', s.truncate = .ok s' → ∀ (opened : Bool → Context) (later : List (Asked Bool)),
        asks ⟨s', opened⟩ later = asks ⟨.initial, opened⟩ later :=
  ⟨by decide +kernel, truncate_resets rfl (fun _ => ⟨rfl, rfl⟩) _⟩

end Contexts
end AccessDepth
