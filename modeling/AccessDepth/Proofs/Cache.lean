import AccessDepth.Cache

/-!
# AccessDepth.Proofs.Cache

What a cache answers.

* `Cache.mem_of_find?` — what it answers is one of its entries.
* `Cache.find?_get` — to ask for a key changes no answer.
* `Cache.find?_put`, `find?_putAll` — a cache answers nothing but what it answered before and what
  was put into it.
-/

namespace AccessDepth
namespace Cache

variable {κ ν : Type} [DecidableEq κ] {c : Cache κ ν} {k k' : κ} {x v : ν}

theorem mem_of_find? (h : c.find? k = some v) : (k, v) ∈ c.entries := by
  obtain ⟨e, he, rfl⟩ := Option.map_eq_some_iff.mp h
  have key : e.1 = k := by simpa using List.find?_some he
  subst key
  exact List.mem_of_find?_eq_some he

theorem find?_others (h : k' ≠ k) :
    (c.others k).find? (fun e => e.1 = k') = c.entries.find? fun e => e.1 = k' := by
  unfold others
  rw [List.find?_filter]
  congr
  funext e
  by_cases he : e.1 = k'
  · have hk : e.1 ≠ k := he ▸ h
    simp [he, h]
  · simp [he]

theorem find?_get (c : Cache κ ν) (k k' : κ) : (c.get k).2.find? k' = c.find? k' := by
  unfold get
  cases h : c.find? k with
  | none => rfl
  | some v =>
    by_cases hk : k = k'
    · subst hk
      simp [find?, ← h]
    · have hk' : k' ≠ k := fun h => hk h.symm
      simp [find?, hk, find?_others hk']

@[simp] theorem get_fst (c : Cache κ ν) (k : κ) : (c.get k).1 = c.find? k := by
  unfold get
  cases c.find? k <;> rfl

theorem find?_put (h : (c.put k v).find? k' = some x) :
    (k' = k ∧ x = v) ∨ c.find? k' = some x := by
  obtain ⟨e, he, rfl⟩ := Option.map_eq_some_iff.mp h
  have hp : (((k, v) :: c.others k).take c.capacity).IsPrefix ((k, v) :: c.others k) :=
    List.take_prefix ..
  have hfull := hp.find?_eq_some he
  by_cases hk : k = k'
  · rw [List.find?_cons_of_pos (by simpa using hk)] at hfull
    cases hfull
    exact .inl ⟨hk.symm, rfl⟩
  · have hk' : k' ≠ k := fun h => hk h.symm
    rw [List.find?_cons_of_neg (by simpa using hk), find?_others hk'] at hfull
    exact .inr (by rw [find?, hfull, Option.map_some])

theorem find?_putAll {es : List (κ × ν)} (h : (c.putAll es).find? k = some x) :
    (k, x) ∈ es ∨ c.find? k = some x := by
  induction es generalizing c with
  | nil => exact .inr h
  | cons e es ih =>
    obtain hm | hf := ih h
    · exact .inl (List.mem_cons_of_mem e hm)
    · obtain ⟨rfl, rfl⟩ | hc := find?_put hf
      · exact .inl List.mem_cons_self
      · exact .inr hc

@[simp] theorem find?_empty (n : Nat) (k : κ) : (empty n : Cache κ ν).find? k = none := rfl

end Cache
end AccessDepth
