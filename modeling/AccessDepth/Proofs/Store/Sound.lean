import AccessDepth.Proofs.Store.Growth
import Mathlib.Data.List.Nodup

/-!
# AccessDepth.Proofs.Store.Sound

Stores that keep the rules of the schema.

* `Store.Sound` — no two rows of a table share a key or a number of their own, every reference leads
  to a row, and every row meets its conditions.
* `Inserts.sound` — adding rows keeps the rules, and a new store keeps them.
* `Store.pushAll` — rows added to their tables, in order.
* `Sound.new_number` — nothing refers to a row that is about to be added.
-/

namespace AccessDepth

namespace Store

structure Sound (s : Store) : Prop where
  conditions : ∀ u, ∀ r ∈ s.rows u, Row.failedCondition? u r = none
  keys : ∀ u, ((s.rows u).map (Row.key u)).Nodup
  numbers : ∀ u, u.isNumbered = true → ((s.rows u).map (Row.number u)).Nodup
  references : ∀ u, ∀ r ∈ s.rows u, ∀ ref ∈ Row.references u r, s.has ref = true

variable {s s' t : Store} {u : Table}

theorem has_iff {n : Int} : s.has ⟨u, n⟩ = true ↔ ∃ r ∈ s.rows u, Row.number u r = n := by
  simp [has, List.any_eq_true]

theorem keyTaken_iff {r : Row u} :
    s.keyTaken u r = true ↔ ∃ r' ∈ s.rows u, Row.key u r' = Row.key u r := by
  simp [keyTaken, List.any_eq_true]

theorem le_foldl_number (rs : List (Row u)) (n : Int) :
    n ≤ rs.foldl (fun n r => max n (Row.number u r)) n ∧
      ∀ r ∈ rs, Row.number u r ≤ rs.foldl (fun n r => max n (Row.number u r)) n := by
  induction rs generalizing n with
  | nil => exact ⟨Int.le_refl n, fun r hr => by cases hr⟩
  | cons r rs ih =>
    obtain ⟨ha, hb⟩ := ih (max n (Row.number u r))
    rw [List.foldl_cons]
    refine ⟨by omega, fun r' hr => ?_⟩
    obtain rfl | hr := List.mem_cons.mp hr
    · omega
    · exact hb r' hr

theorem number_lt_nextNumber {r : Row u} (h : r ∈ s.rows u) : Row.number u r < s.nextNumber u := by
  have := (le_foldl_number (s.rows u) 0).2 r h
  unfold nextNumber
  omega

theorem nextNumber_pos (s : Store) (u : Table) : 0 < s.nextNumber u := by
  have := (le_foldl_number (s.rows u) 0).1
  unfold nextNumber
  omega

theorem nextNumber_mono (h : s ≤ t) (u : Table) : s.nextNumber u ≤ t.nextNumber u := by
  obtain ⟨rows, hr⟩ := h u
  unfold nextNumber
  rw [← hr, List.foldl_append]
  have := (le_foldl_number rows ((s.rows u).foldl (fun n r => max n (Row.number u r)) 0)).1
  omega

theorem nextNumber_eq (h : t.rows u = s.rows u) : t.nextNumber u = s.nextNumber u := by
  unfold nextNumber
  rw [h]

theorem has_nextNumber (s : Store) (u : Table) : s.has ⟨u, s.nextNumber u⟩ = false := by
  rw [Bool.eq_false_iff]
  intro h
  obtain ⟨r, hr, hn⟩ := has_iff.mp h
  have := number_lt_nextNumber hr
  omega

/-! ## Adding rows -/

namespace Sound

/-- Nothing refers to a row that is about to be added. -/
theorem new_number (h : s.Sound) {v : Table} {r : Row v} (hr : r ∈ s.rows v) :
    (⟨u, s.nextNumber u⟩ : Reference) ∉ Row.references v r := by
  intro href
  have there := h.references v r hr _ href
  rw [has_nextNumber] at there
  cases there

theorem insert (h : s.Sound) {r : Row u}
    (hn : u.isNumbered = true → Row.number u r = s.nextNumber u) (hi : s.insert u r = .ok s') :
    s'.Sound := by
  obtain ⟨hc, hk, hr, rfl⟩ := insert_eq_ok.mp hi
  have rows (v : Table) : (s.push u r).rows v = s.rows v ∨
      ∃ e : v = u, (s.push u r).rows v = s.rows v ++ [e ▸ r] := by
    by_cases e : v = u
    · subst e
      exact .inr ⟨rfl, rows_push_self ..⟩
    · exact .inl (rows_push_of_ne s r e)
  constructor
  · intro v x hx
    obtain e | ⟨rfl, e⟩ := rows v
    · exact h.conditions v x (e ▸ hx)
    · rw [e] at hx
      obtain hx | hx := List.mem_append.mp hx
      · exact h.conditions v x hx
      · obtain rfl := List.mem_singleton.mp hx
        exact hc
  · intro v
    obtain e | ⟨rfl, e⟩ := rows v
    · exact e ▸ h.keys v
    · have free : Row.key v r ∉ (s.rows v).map (Row.key v) := by
        intro hm
        obtain ⟨r', hr', he⟩ := List.mem_map.mp hm
        rw [Bool.eq_false_iff] at hk
        exact hk (keyTaken_iff.mpr ⟨r', hr', he⟩)
      rw [e, List.map_append]
      exact (h.keys v).append (List.nodup_singleton _) (by simpa using free)
  · intro v hv
    obtain e | ⟨rfl, e⟩ := rows v
    · exact e ▸ h.numbers v hv
    · have free : Row.number v r ∉ (s.rows v).map (Row.number v) := by
        intro hm
        obtain ⟨r', hr', he⟩ := List.mem_map.mp hm
        have := number_lt_nextNumber hr'
        have := hn hv
        omega
      rw [e, List.map_append]
      exact (h.numbers v hv).append (List.nodup_singleton _) (by simpa using free)
  · intro v x hx ref href
    obtain e | ⟨rfl, e⟩ := rows v
    · exact has_of_le (le_push s u r) (h.references v x (e ▸ hx) ref href)
    · rw [e] at hx
      obtain hx | hx := List.mem_append.mp hx
      · exact has_of_le (le_push s v r) (h.references v x hx ref href)
      · obtain rfl := List.mem_singleton.mp hx
        exact List.all_eq_true.mp hr ref href

end Sound

/-- A new store keeps the rules. -/
theorem initial_sound : initial.Sound where
  conditions u r hr := by
    cases u <;> first | rfl | cases hr
  keys u := by
    cases u <;> simp [rows, initial]
  numbers u _ := by
    cases u <;> simp [rows, initial]
  references u r hr ref href := by
    cases u with
    | files =>
      obtain rfl := List.mem_singleton.mp hr
      cases href
    | «variables» =>
      obtain rfl := List.mem_singleton.mp hr
      obtain rfl := List.mem_singleton.mp href
      decide
    | _ => cases hr

end Store

theorem Inserts.sound {P : Table → Prop} {s s' : Store} (h : Inserts P s s') (hs : s.Sound) :
    s'.Sound := by
  induction h with
  | refl => exact hs
  | step _ _ hn hi ih => exact ih.insert hn hi

/-! ## Rows by key and by number -/

namespace Store.Sound

variable {s t : Store} {u : Table}

theorem eq_of_key (h : s.Sound) {r r' : Row u} (hr : r ∈ s.rows u) (hr' : r' ∈ s.rows u)
    (hk : Row.key u r = Row.key u r') : r = r' :=
  List.inj_on_of_nodup_map (h.keys u) hr hr' hk

theorem eq_of_number (h : s.Sound) (hu : u.isNumbered = true) {r r' : Row u} (hr : r ∈ s.rows u)
    (hr' : r' ∈ s.rows u) (hn : Row.number u r = Row.number u r') : r = r' :=
  List.inj_on_of_nodup_map (h.numbers u hu) hr hr' hn

/-- The row of a file is the one with its path. -/
theorem fileNamed?_iff (h : s.Sound) {path : String} {id : FileId} :
    s.fileNamed? path = some id ↔ ⟨id, path⟩ ∈ s.files := by
  constructor
  · intro hf
    obtain ⟨⟨_, _⟩, hr, rfl⟩ := Option.map_eq_some_iff.mp hf
    have hp := List.find?_some hr
    simp only [beq_iff_eq] at hp
    exact hp ▸ List.mem_of_find?_eq_some hr
  · intro hr
    cases hf : s.fileNamed? path with
    | none =>
      have free := List.find?_eq_none.mp (Option.map_eq_none_iff.mp hf) _ hr
      simp at free
    | some id' =>
      obtain ⟨⟨_, _⟩, hr', rfl⟩ := Option.map_eq_some_iff.mp hf
      have hp := List.find?_some hr'
      simp only [beq_iff_eq] at hp
      have same := h.eq_of_key (u := .files) (List.mem_of_find?_eq_some hr') hr
        (by simp [Row.key, hp])
      exact congrArg some (congrArg FileRow.id same)

theorem fileNamed?_inj (h : s.Sound) {path path' : String} {id : FileId}
    (hf : s.fileNamed? path = some id) (hf' : s.fileNamed? path' = some id) : path = path' :=
  congrArg FileRow.path
    (h.eq_of_number (u := .files) rfl (h.fileNamed?_iff.mp hf) (h.fileNamed?_iff.mp hf') rfl)

theorem fileNamed?_of_has (ht : t.Sound) (hs : s.Sound) (hle : s ≤ t) {path : String}
    {file : FileId} (h : t.fileNamed? path = some file)
    (there : s.has ⟨.files, file.value⟩ = true) : s.fileNamed? path = some file := by
  obtain ⟨r, hr, hn⟩ := has_iff.mp there
  have later := (hle .files).subset hr
  have same := ht.eq_of_number (u := .files) rfl later (ht.fileNamed?_iff.mp h) hn
  exact hs.fileNamed?_iff.mpr (same ▸ hr)

end Store.Sound

/-! ## Many rows -/

def AnyRow.in? (r : AnyRow) (u : Table) : Option (Row u) :=
  if h : r.table = u then some (h ▸ r.row) else none

namespace Store

/-- Adds rows, whatever the rules say. -/
def pushAll (s : Store) (rs : List AnyRow) : Store := rs.foldl (fun s r => s.push r.table r.row) s

theorem rows_pushAll (s : Store) (rs : List AnyRow) (u : Table) :
    (s.pushAll rs).rows u = s.rows u ++ rs.filterMap (·.in? u) := by
  induction rs generalizing s with
  | nil => simp [pushAll]
  | cons r rs ih =>
    obtain ⟨v, r⟩ := r
    have first : (s.push v r).rows u = s.rows u ++ (AnyRow.in? ⟨v, r⟩ u).toList := by
      by_cases e : v = u
      · subst e
        simp [AnyRow.in?]
      · rw [rows_push_of_ne s r (Ne.symm e)]
        simp [AnyRow.in?, e]
    have step : s.pushAll (⟨v, r⟩ :: rs) = (s.push v r).pushAll rs := rfl
    rw [step, ih, first, List.append_assoc, List.filterMap_cons]
    cases AnyRow.in? ⟨v, r⟩ u <;> simp

end Store

theorem Transaction.insertAll_ok {s s' : Store} {rs : List AnyRow}
    (h : insertAll rs s = .ok ((), s')) : s' = s.pushAll rs := by
  induction rs generalizing s with
  | nil =>
    cases h
    rfl
  | cons r rs ih =>
    obtain ⟨_, s₁, h₁, h₂⟩ := bind_ok.mp h
    rw [ih h₂, Store.eq_push_of_insert (insert_ok.mp h₁)]
    rfl

end AccessDepth
