import AccessDepth.Package.Types
import Mathlib.Data.List.Chain
import Mathlib.Data.List.Duplicate
import Mathlib.Data.List.Perm.Subperm

/-!
# AccessDepth.Proofs.NamedTypes

Chains of named types, followed without a bound.

* `TypeTable.Names` — an entry is a named type over another place.
* `TypeTable.EndsAt`, `Leaves`, `Circles` — the chain from a place ends at a structure, leads out of
  the table, or runs into a cycle.
* `TypeTable.underlying_exact` — the structure behind a place is the one that its chain ends at, and
  there is none if and only if the chain leaves the table or circles.
-/

namespace AccessDepth
namespace TypeTable

open Relation (ReflTransGen TransGen)

/-- The entry at a place is a named type, and names another place. -/
def Names (t : TypeTable) (r next : TypeRef) : Prop :=
  ∃ e package name, t.get? r = some e ∧ e.shape = .named package name next

/-- The entry at a place has a structure, and is no named type. -/
def Holds (t : TypeTable) (r : TypeRef) (d : TypeShape) : Prop :=
  (∃ e, t.get? r = some e ∧ e.shape = d) ∧ ∀ package name next, d ≠ .named package name next

/-- Named types lead from a place to one that holds a structure. -/
def EndsAt (t : TypeTable) (r : TypeRef) (d : TypeShape) : Prop :=
  ∃ last, ReflTransGen t.Names r last ∧ t.Holds last d

/-- Named types lead from a place to one outside the table. -/
def Leaves (t : TypeTable) (r : TypeRef) : Prop :=
  ∃ last, ReflTransGen t.Names r last ∧ t.get? last = none

/-- Named types lead from a place into a cycle. -/
def Circles (t : TypeTable) (r : TypeRef) : Prop :=
  ∃ again, ReflTransGen t.Names r again ∧ TransGen t.Names again again

variable {t : TypeTable} {r r' next : TypeRef} {d d' : TypeShape} {n : Nat}

/-! ## Chains -/

theorem Names.unique (h : t.Names r next) (h' : t.Names r r') : next = r' := by
  obtain ⟨e, package, name, he, hs⟩ := h
  obtain ⟨e', package', name', he', hs'⟩ := h'
  obtain rfl : e = e' := Option.some.inj (he.symm.trans he')
  rw [hs] at hs'
  exact (TypeShape.named.inj hs').2.2

theorem Names.isSome (h : t.Names r next) : (t.get? r).isSome := by
  obtain ⟨e, -, -, he, -⟩ := h
  simp [he]

theorem Holds.not_names (h : t.Holds r d) : ¬ t.Names r next := by
  rintro ⟨e', package, name, he', hs'⟩
  obtain ⟨⟨e, he, hs⟩, unnamed⟩ := h
  obtain rfl : e = e' := Option.some.inj (he.symm.trans he')
  exact unnamed package name next (hs.symm.trans hs')

theorem Holds.unique (h : t.Holds r d) (h' : t.Holds r d') : d = d' := by
  obtain ⟨⟨e, he, hs⟩, -⟩ := h
  obtain ⟨⟨e', he', hs'⟩, -⟩ := h'
  obtain rfl : e = e' := Option.some.inj (he.symm.trans he')
  exact hs.symm.trans hs'

theorem holds_or_names {e : TypeEntry} (he : t.get? r = some e) :
    t.Holds r e.shape ∨ ∃ next, t.Names r next := by
  by_cases h : ∃ package name next, e.shape = .named package name next
  · obtain ⟨package, name, next, hs⟩ := h
    exact .inr ⟨next, e, package, name, he, hs⟩
  · exact .inl ⟨⟨e, he, rfl⟩, fun package name next hs => h ⟨package, name, next, hs⟩⟩

theorem EndsAt.along (h : t.EndsAt r d) (hr : ReflTransGen t.Names r r') : t.EndsAt r' d := by
  induction hr with
  | refl => exact h
  | tail _ names ih =>
    obtain ⟨last, hl, holds⟩ := ih
    obtain rfl | ⟨other, names', rest⟩ := hl.cases_head
    · exact absurd names holds.not_names
    · exact ⟨last, names'.unique names ▸ rest, holds⟩

theorem EndsAt.unique (h : t.EndsAt r d) (h' : t.EndsAt r d') : d = d' := by
  obtain ⟨last, hl, holds⟩ := h
  obtain ⟨last', hl', holds'⟩ := h'.along hl
  obtain rfl | ⟨other, names, -⟩ := hl'.cases_head
  · exact holds.unique holds'
  · exact absurd names holds.not_names

theorem EndsAt.not_leaves (h : t.EndsAt r d) : ¬ t.Leaves r := by
  rintro ⟨out, ho, outside⟩
  obtain ⟨last, hl, ⟨⟨e, he, -⟩, -⟩⟩ := h.along ho
  obtain rfl | ⟨next, names, -⟩ := hl.cases_head
  · cases he.symm.trans outside
  · simpa [outside] using names.isSome

theorem not_cycle (hl : ReflTransGen t.Names r r') (holds : t.Holds r' d) :
    ¬ TransGen t.Names r r := by
  induction hl using ReflTransGen.head_induction_on with
  | refl =>
    intro cycle
    obtain ⟨next, names, -⟩ := TransGen.head'_iff.mp cycle
    exact holds.not_names names
  | head names _ ih =>
    intro cycle
    obtain ⟨next, names', rest⟩ := TransGen.head'_iff.mp cycle
    obtain rfl := names.unique names'
    exact ih (.tail' rest names)

theorem EndsAt.not_circles (h : t.EndsAt r d) : ¬ t.Circles r := by
  rintro ⟨again, ha, cycle⟩
  obtain ⟨last, hl, holds⟩ := h.along ha
  exact not_cycle hl holds cycle

/-! ## A number of rounds -/

/-- The structure that is found behind a place in a number of rounds. -/
def within (t : TypeTable) (n : Nat) (r : TypeRef) : Option TypeShape :=
  (t.get? r).bind fun e => t.follow n e.shape

theorem underlying_eq_within (t : TypeTable) (r : TypeRef) :
    t.underlying r = t.within (t.size + 1) r := rfl

theorem within_zero (t : TypeTable) (r : TypeRef) : t.within 0 r = none := by
  unfold within
  cases t.get? r <;> rfl

theorem within_of_holds (h : t.Holds r d) : t.within (n + 1) r = some d := by
  obtain ⟨⟨e, he, rfl⟩, unnamed⟩ := h
  rw [within, he, Option.bind_some]
  cases hs : e.shape with
  | named package name next => exact absurd hs (unnamed package name next)
  | _ => rfl

theorem within_of_names (h : t.Names r next) : t.within (n + 1) r = t.within n next := by
  obtain ⟨e, package, name, he, hs⟩ := h
  rw [within, he, Option.bind_some, hs]
  rfl

theorem endsAt_of_within (h : t.within n r = some d) : t.EndsAt r d := by
  induction n generalizing r with
  | zero =>
    rw [within_zero] at h
    cases h
  | succ n ih =>
    obtain ⟨e, he, -⟩ := Option.bind_eq_some_iff.mp h
    obtain holds | ⟨next, names⟩ := holds_or_names he
    · rw [within_of_holds holds] at h
      exact ⟨r, .refl, Option.some.inj h ▸ holds⟩
    · rw [within_of_names names] at h
      obtain ⟨last, hl, holds⟩ := ih h
      exact ⟨last, .head names hl, holds⟩

/-- If nothing is found inside the table, every round went one named type further. -/
theorem chain_of_within (h : t.within n r = none) (inside : ¬ t.Leaves r) :
    ∃ rs, rs.length = n ∧ (r :: rs).IsChain t.Names := by
  induction n generalizing r with
  | zero => exact ⟨[], rfl, .singleton r⟩
  | succ n ih =>
    cases he : t.get? r with
    | none => exact absurd ⟨r, .refl, he⟩ inside
    | some e =>
      obtain holds | ⟨next, names⟩ := holds_or_names he
      · rw [within_of_holds holds] at h
        cases h
      · rw [within_of_names names] at h
        obtain ⟨rs, hl, chain⟩ := ih h fun ⟨last, hn, outside⟩ =>
          inside ⟨last, .head names hn, outside⟩
        exact ⟨next :: rs, congrArg (· + 1) hl, .cons_cons names chain⟩

theorem length_le_size {rs : List TypeRef} (h : ∀ x ∈ rs, (t.get? x).isSome) (hn : rs.Nodup) :
    rs.length ≤ t.size := by
  have places : (rs.map UInt32.toNat).Nodup := hn.map fun _ _ => UInt32.toNat_inj.mp
  have below : rs.map UInt32.toNat ⊆ List.range t.size := by
    intro i hi
    obtain ⟨x, hx, rfl⟩ := List.mem_map.mp hi
    obtain ⟨e, he⟩ := Option.isSome_iff_exists.mp (h x hx)
    exact List.mem_range.mpr (Array.getElem?_eq_some_iff.mp he).1
  simpa using (List.subperm_of_subset places below).length_le

/-- A chain inside the table that is longer than the table comes to one of its places again. -/
theorem circles_of_chain {rs : List TypeRef} (chain : (r :: rs).IsChain t.Names)
    (inside : ¬ t.Leaves r) (long : t.size < rs.length) : t.Circles r := by
  have onward : (r :: rs).Pairwise (TransGen t.Names) :=
    List.isChain_iff_pairwise.mp (chain.imp fun _ _ => .single)
  have reached {x : TypeRef} (hx : x ∈ r :: rs) : ReflTransGen t.Names r x := by
    obtain rfl | hx := List.mem_cons.mp hx
    · exact .refl
    · exact (List.rel_of_pairwise_cons onward hx).to_reflTransGen
  have repeated : ¬ (r :: rs).Nodup := by
    intro hn
    have few := length_le_size (fun x hx => Option.isSome_iff_ne_none.mpr fun outside =>
      inside ⟨x, reached hx, outside⟩) hn
    rw [List.length_cons] at few
    omega
  obtain ⟨x, twice⟩ := List.exists_duplicate_iff_not_nodup.mpr repeated
  have cycle := onward.sublist (List.duplicate_iff_sublist.mp twice)
  exact ⟨x, reached twice.mem, List.rel_of_pairwise_cons cycle (by simp)⟩

theorem leaves_or_circles (h : t.underlying r = none) : t.Leaves r ∨ t.Circles r := by
  rw [underlying_eq_within] at h
  by_cases inside : t.Leaves r
  · exact .inl inside
  · obtain ⟨rs, hl, chain⟩ := chain_of_within h inside
    exact .inr (circles_of_chain chain inside (by omega))

theorem underlying_eq_some_iff : t.underlying r = some d ↔ t.EndsAt r d := by
  constructor
  · intro h
    rw [underlying_eq_within] at h
    exact endsAt_of_within h
  · intro ends
    cases hu : t.underlying r with
    | none =>
      obtain leaves | circles := leaves_or_circles hu
      · exact absurd leaves ends.not_leaves
      · exact absurd circles ends.not_circles
    | some d' => rw [ends.unique (endsAt_of_within hu)]

theorem underlying_eq_none_iff : t.underlying r = none ↔ t.Leaves r ∨ t.Circles r := by
  refine ⟨leaves_or_circles, fun h => ?_⟩
  rw [Option.eq_none_iff_forall_ne_some]
  intro d hd
  have ends := underlying_eq_some_iff.mp hd
  exact h.elim ends.not_leaves ends.not_circles

theorem underlying_eq_some_iff_within : t.underlying r = some d ↔ ∃ n, t.within n r = some d :=
  ⟨fun h => ⟨t.size + 1, h⟩, fun ⟨_, h⟩ => underlying_eq_some_iff.mpr (endsAt_of_within h)⟩

theorem shape_some (t : TypeTable) (r : TypeRef) :
    t.shape (some r) = (t.underlying r).map .ofShape := by
  cases hu : t.underlying r <;> simp [shape, hu]

/-- The structure behind a place is the one at which its chain of named types ends, and no number of
rounds finds another. There is none if and only if the chain leaves the table or circles. An operand has
no shape if and only if it has no type or one with no structure behind it. -/
theorem underlying_exact (t : TypeTable) :
    (∀ r d, t.underlying r = some d ↔ t.EndsAt r d) ∧
      (∀ r d, t.underlying r = some d ↔ ∃ rounds, t.within rounds r = some d) ∧
      (∀ r, t.underlying r = none ↔ t.Leaves r ∨ t.Circles r) ∧
      ∀ type, t.shape type = none ↔
        type = none ∨ ∃ r, type = some r ∧ (t.Leaves r ∨ t.Circles r) := by
  refine ⟨fun r d => underlying_eq_some_iff, fun r d => underlying_eq_some_iff_within,
    fun r => underlying_eq_none_iff, fun type => ?_⟩
  cases type with
  | none => simp [shape]
  | some r =>
    rw [shape_some, Option.map_eq_none_iff, underlying_eq_none_iff]
    simp

/-- Every entry of the table is on the chain. -/
example : (TypeTable.mk #[⟨"a.A", none, .named none "A" 1⟩, ⟨"a.B", none, .named none "B" 2⟩,
    ⟨"[]a.A", none, .slice 0⟩]).underlying 0 = some (.slice 0) := by
  decide

end TypeTable
end AccessDepth
