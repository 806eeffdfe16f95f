import AccessDepth.Proofs.Plan.Lookups
import AccessDepth.Proofs.Plan.Prepared
import Mathlib.Logic.Function.Basic

/-!
# AccessDepth.Proofs.Plan.Reached

Code in parts that are made side by side.

* `Parts` — parts of code, of which some wait for others.
* `Parts.Reached` — a store after the first operations of each part, one after the other in whatever
  order. How far each part has come is a ghost: the store does not hold it.
* `Reached.settled` — what a part has made is made again with nothing added.
* `Reached.extend` — a part may start again at its beginning, and then go on.
* `Parts.Standing`, `Parts.Moment` — a part may make an operation, and did for the first time.
* `Reached.occupied_iff` — which places are taken: those of the items that were recorded.
-/

namespace AccessDepth
namespace Plan

/-- Parts of code. -/
structure Parts (ι : Type) where
  code : ι → List Op
  /-- Whether a part is finished before another one begins. -/
  prior : ι → ι → Prop

namespace Parts

variable {ι : Type} [DecidableEq ι] {P : Parts ι} {π : ι → Nat} {s : Store} {d : ι}

/-- Whether the parts that a part waits for are finished. -/
def Due (P : Parts ι) (π : ι → Nat) (d : ι) : Prop := ∀ e, P.prior e d → (P.code e).length ≤ π e

/-- A store after the first operations of each part, so many of each. An operation goes by the types
that its part has looked up. -/
inductive Reached (P : Parts ι) : (ι → Nat) → Store → Prop
  | start : Reached P (fun _ => 0) .initial
  | step {π : ι → Nat} {s : Store} {d : ι} {o : Op} {types : List (Option TypeId)} {m : Machine} :
      Reached P π s → P.Due π d → (P.code d)[π d]? = some o →
      run ((P.code d).take (π d)) ⟨s, []⟩ = .ok ⟨s, types⟩ → o.step ⟨s, types⟩ = .ok m →
      Reached P (Function.update π d (π d + 1)) m.store

/-- What is asked of the parts: their types are in closed tables that agree, their items can be
recorded, and two parts that record in one file do not run side by side. -/
structure Orderly (P : Parts ι) : Prop where
  closed : ∀ d, ∀ o ∈ P.code d, o.Closed
  /-- Types of one name are alike. -/
  alike : EntriesAlike fun t => ∃ d ref, .type t ref ∈ P.code d
  prepared : ∀ d, Prepared [] (P.code d)
  apart : ∀ d d' a item a' item', .record a item ∈ P.code d → .record a' item' ∈ P.code d' →
    a.path.text = a'.path.text → d = d' ∨ P.prior d d' ∨ P.prior d' d
  /-- Variables are recorded before the expressions that use them. -/
  separate : ∀ d d' o o', o ∈ P.code d → o.table = .variables → o' ∈ P.code d' →
    o'.table = .expressions → P.prior d d'

theorem le_update {n : Nat} (h : π d ≤ n) (e : ι) : π e ≤ Function.update π d n e := by
  by_cases he : e = d
  · subst he
    rwa [Function.update_self]
  · exact Nat.le_of_eq (Function.update_of_ne he n π).symm

theorem update_le (π : ι → Nat) (d e : ι) : π e ≤ Function.update π d (π d + 1) e :=
  le_update (Nat.le_succ _) e

theorem lt_update {e : ι} {k : Nat} (h : k < Function.update π d (π d + 1) e) :
    k < π e ∨ e = d ∧ k = π d := by
  by_cases he : e = d
  · subst he
    rw [Function.update_self] at h
    obtain h | h := Nat.lt_succ_iff_lt_or_eq.mp h
    · exact .inl h
    · exact .inr ⟨rfl, h⟩
  · rw [Function.update_of_ne he] at h
    exact .inl h

omit [DecidableEq ι] in
theorem Due.mono {π' : ι → Nat} (h : P.Due π d) (hπ : ∀ e, π e ≤ π' e) : P.Due π' d :=
  fun e he => Nat.le_trans (h e he) (hπ e)

namespace Reached

theorem keeps {Q : Store → Prop} (h : P.Reached π s)
    (hQ : ∀ d k o, k < π d → (P.code d)[k]? = some o → ∀ m m', o.step m = .ok m' → Q m.store →
      Q m'.store) (start : Q .initial) : Q s := by
  induction h with
  | start => exact start
  | @step π s d o types m _ _ ho _ hs ih =>
    have before := ih fun d' k o hk => hQ d' k o (Nat.lt_of_lt_of_le hk (update_le π d d'))
    refine hQ d (π d) o ?_ ho _ _ hs before
    rw [Function.update_self]
    exact Nat.lt_succ_self _

theorem inserts (h : P.Reached π s) : Inserts (fun _ => True) .initial s :=
  h.keeps (Q := Inserts (fun _ => True) .initial)
    (fun _ _ _ _ _ _ _ hs hi => hi.trans ((step_inserts hs).mono fun _ _ => trivial)) (.refl _)

theorem sound (h : P.Reached π s) : s.Sound := h.inserts.sound Store.initial_sound

theorem new (h : P.Reached π s) : Store.initial ≤ s := h.inserts.le

theorem le_length (h : P.Reached π s) (d : ι) : π d ≤ (P.code d).length := by
  induction h with
  | start => exact Nat.zero_le _
  | @step π s d' o types m _ _ ho _ _ ih =>
    by_cases hd : d = d'
    · subst hd
      rw [Function.update_self]
      exact (List.getElem?_eq_some_iff.mp ho).1
    · rw [Function.update_of_ne hd]
      exact ih

theorem due (h : P.Reached π s) (hd : 0 < π d) : P.Due π d := by
  induction h with
  | start => cases hd
  | @step π s d' o types m _ due ho _ _ ih =>
    obtain hd | ⟨rfl, -⟩ := lt_update hd
    · exact (ih hd).mono (update_le π d')
    · exact due.mono (update_le π d)

/-- What a part has made is made again with nothing added. -/
theorem settled (h : P.Reached π s) (hc : ∀ d, ∀ o ∈ P.code d, o.Closed) (d : ι) :
    ∃ types, run ((P.code d).take (π d)) ⟨s, []⟩ = .ok ⟨s, types⟩ := by
  induction h with
  | start => exact ⟨[], rfl⟩
  | @step π s d' o types m _ _ ho hr hs ih =>
    have closed : ∀ n, ∀ o ∈ (P.code d).take n, o.Closed := fun n o ho =>
      hc d o (List.mem_of_mem_take ho)
    by_cases hd : d = d'
    · subst hd
      have whole : run ((P.code d).take (π d + 1)) ⟨s, []⟩ = .ok m := by
        rw [List.take_add_one, ho, Option.toList_some, run_append_of_ok hr, run_singleton, hs]
      rw [Function.update_self]
      exact ⟨m.types, run_settled (closed _) whole (le_refl _)⟩
    · rw [Function.update_of_ne hd]
      obtain ⟨types', hr'⟩ := ih
      exact ⟨types', run_settled (closed _) hr' (step_inserts hs).le⟩

theorem settled_take (h : P.Reached π s) (hc : ∀ d, ∀ o ∈ P.code d, o.Closed) {n : Nat}
    (hn : n ≤ π d) : ∃ types, run ((P.code d).take n) ⟨s, []⟩ = .ok ⟨s, types⟩ := by
  obtain ⟨types, hr⟩ := h.settled hc d
  have split : (P.code d).take (π d) =
      (P.code d).take n ++ ((P.code d).take (π d)).drop n := by
    conv_lhs => rw [← List.take_append_drop n ((P.code d).take (π d))]
    rw [List.take_take, Nat.min_eq_left hn]
  rw [split] at hr
  obtain ⟨m, hm, hr⟩ := run_append_ok hr
  exact ⟨m.types, run_settled (fun o ho => hc d o (List.mem_of_mem_take ho)) hm (run_le hr)⟩

theorem next (h : P.Reached π s) (due : P.Due π d) {k : Nat} (hk : π d = k) {o : Op}
    (ho : (P.code d)[k]? = some o) {types : List (Option TypeId)}
    (hr : run ((P.code d).take k) ⟨s, []⟩ = .ok ⟨s, types⟩) {m : Machine}
    (hs : o.step ⟨s, types⟩ = .ok m) : P.Reached (Function.update π d (k + 1)) m.store := by
  subst hk
  exact h.step due ho hr hs

/-- A part may go on from where it was. -/
theorem goOn (h : P.Reached π s) (hc : ∀ d, ∀ o ∈ P.code d, o.Closed) (due : P.Due π d) {n : Nat}
    (hle : π d ≤ n) (hn : n ≤ (P.code d).length) {m : Machine}
    (hr : run ((P.code d).take n) ⟨s, []⟩ = .ok m) : P.Reached (Function.update π d n) m.store := by
  induction hle generalizing m with
  | refl =>
    obtain ⟨types, again⟩ := h.settled hc d
    cases again.symm.trans hr
    rw [Function.update_eq_self]
    exact h
  | @step n hle ih =>
    have here : (P.code d)[n]? = some (P.code d)[n] := List.getElem?_eq_getElem hn
    rw [List.take_add_one, here] at hr
    obtain ⟨m₁, hr₁, hs⟩ := run_append_ok hr
    rw [Option.toList_some, run_singleton] at hs
    have closed : ∀ o ∈ (P.code d).take n, o.Closed := fun o ho => hc d o (List.mem_of_mem_take ho)
    have after := (ih (Nat.le_of_succ_le hn) hr₁).next (due.mono (le_update hle))
      (Function.update_self d n π) here (run_settled closed hr₁ (le_refl _)) hs
    rwa [Function.update_idem] at after

/-- A part may start again at its beginning and go on. -/
theorem extend (h : P.Reached π s) (hc : ∀ d, ∀ o ∈ P.code d, o.Closed) (due : P.Due π d) {n : Nat}
    (hn : n ≤ (P.code d).length) {m : Machine} (hr : run ((P.code d).take n) ⟨s, []⟩ = .ok m) :
    P.Reached (Function.update π d (max (π d) n)) m.store := by
  obtain hle | hle := Nat.le_total n (π d)
  · obtain ⟨types, again⟩ := h.settled_take hc hle
    cases again.symm.trans hr
    rw [Nat.max_eq_left hle, Function.update_eq_self]
    exact h
  · rw [Nat.max_eq_right hle]
    exact h.goOn hc due hle hn hr

end Reached

/-! ## Moments -/

/-- A store that is reached when a part has made so many operations and may make the next one. -/
structure Standing (P : Parts ι) (d : ι) (k : Nat) (π : ι → Nat) (s : Store) : Prop where
  reached : P.Reached π s
  due : P.Due π d
  count : π d = k

/-- The moment at which a part made an operation for the first time, before a store was reached. -/
structure Moment (P : Parts ι) (s : Store) (d : ι) (k : Nat) (o : Op) where
  progress : ι → Nat
  now : Machine
  next : Machine
  standing : P.Standing d k progress now.store
  here : (P.code d)[k]? = some o
  made : run ((P.code d).take k) ⟨now.store, []⟩ = .ok now
  step : o.step now = .ok next
  le : next.store ≤ s

namespace Moment

variable {t : Store} {k : Nat} {o : Op}

def later (x : P.Moment s d k o) (h : s ≤ t) : P.Moment t d k o := { x with le := le_trans x.le h }

theorem mem (x : P.Moment s d k o) : o ∈ P.code d := List.mem_of_getElem? x.here

theorem now_le (x : P.Moment s d k o) : x.now.store ≤ s := le_trans (step_inserts x.step).le x.le

theorem sound (x : P.Moment s d k o) : x.now.store.Sound := x.standing.reached.sound

end Moment

namespace Reached

variable {k : Nat}

theorem moment (h : P.Reached π s) (hk : k < π d) : ∃ o, Nonempty (P.Moment s d k o) := by
  induction h with
  | start => cases hk
  | @step π s d' o types m h due ho hr hs ih =>
    obtain hk | ⟨rfl, rfl⟩ := lt_update hk
    · obtain ⟨o', ⟨x⟩⟩ := ih hk
      exact ⟨o', ⟨x.later (step_inserts hs).le⟩⟩
    · exact ⟨o, ⟨⟨π, ⟨s, types⟩, m, ⟨h, due, rfl⟩, ho, hr, hs, le_refl _⟩⟩⟩

theorem added (h : P.Reached π s) {u : Table} {r : Row u} (hr : r ∈ s.rows u)
    (hn : r ∉ Store.initial.rows u) : ∃ d k o, k < π d ∧ ∃ x : P.Moment s d k o,
      r ∈ x.next.store.rows u ∧ r ∉ x.now.store.rows u := by
  induction h with
  | start => exact absurd hr hn
  | @step π s d o types m h due ho hrun hs ih =>
    have le := (step_inserts hs).le
    by_cases hold : r ∈ s.rows u
    · obtain ⟨d', k, o', hk, x, hx, hx'⟩ := ih hold
      exact ⟨d', k, o', Nat.lt_of_lt_of_le hk (update_le π d d'), x.later le, hx, hx'⟩
    · refine ⟨d, π d, o, ?_, ⟨π, ⟨s, types⟩, m, ⟨h, due, rfl⟩, ho, hrun, hs, le_refl _⟩, hr, hold⟩
      rw [Function.update_self]
      exact Nat.lt_succ_self _

end Reached

/-! ## Places -/

section

variable {u : Table} {path : String} {place : List Cell} {a : Around} {item : Item}

omit [DecidableEq ι] in
theorem Orderly.tidy (hP : P.Orderly) (ho : .record a item ∈ P.code d) : item.Tidy := by
  obtain ⟨done, rest, hc⟩ := List.append_of_mem ho
  exact (hc ▸ hP.prepared d).here.1

/-- After an operation the place of its item is taken. -/
theorem occupied_of_tidy {m m' : Machine} (ht : item.Tidy)
    (h : (Op.record a item).step m = .ok m') :
    m'.store.Occupied item.table a.path.text item.place := by
  obtain ⟨hr, -⟩ := step_record_ok h
  obtain ⟨file, w, hf, hw, hrec⟩ := Item.record_ok hr
  have taken : w.Taken m'.store := by
    obtain taken | ⟨n, rfl⟩ := Write.taken_of_settled (Write.settled_of_record hrec)
    · exact taken
    · cases item with
      | sizedAlloc =>
        cases hw
        obtain ⟨hm, hn⟩ | taken := Write.settled_of_record hrec
        · exact absurd ht (not_or.mpr ⟨hm, hn⟩)
        · exact taken
      | _ => exact absurd (Item.table_of_write? hw) (by simp [Write.table, Item.table])
  obtain ⟨hfile, hp⟩ := Item.of_write? hw
  obtain ⟨r, hr, hk⟩ := taken
  rw [← Item.table_of_write? hw, ← hp]
  exact ⟨file, Store.fileNamed?_of_le (step_inserts h).le hf, r, hr, hfile ▸ hk⟩

/-- Which places are taken: those of the items that were recorded. -/
theorem Reached.occupied_iff (h : P.Reached π s) (hP : P.Orderly) (hu : u ∈ Table.placed) :
    s.Occupied u path place ↔ Store.initial.Occupied u path place ∨
      ∃ d k a item, k < π d ∧ (P.code d)[k]? = some (.record a item) ∧ item.table = u ∧
        a.path.text = path ∧ item.place = place := by
  constructor
  · intro ho
    induction h with
    | start => exact .inl ho
    | @step π s d o types m h _ here _ hs ih =>
      obtain ho | ⟨a, item, rfl, hi⟩ := occupied_step h.sound hs hu ho
      · refine (ih ho).imp_right ?_
        rintro ⟨d', k, a, item, hk, rest⟩
        exact ⟨d', k, a, item, Nat.lt_of_lt_of_le hk (update_le π d d'), rest⟩
      · refine .inr ⟨d, π d, a, item, ?_, here, hi⟩
        rw [Function.update_self]
        exact Nat.lt_succ_self _
  · rintro (ho | ⟨d, k, a, item, hk, here, rfl, rfl, rfl⟩)
    · exact ho.of_le h.new
    · obtain ⟨o, ⟨x⟩⟩ := h.moment hk
      obtain rfl := Option.some.inj (here.symm.trans x.here)
      exact (occupied_of_tidy (hP.tidy x.mem) x.step).of_le x.le

end

end Parts
end Plan
end AccessDepth
