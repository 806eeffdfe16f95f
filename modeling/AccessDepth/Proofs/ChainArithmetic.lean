import AccessDepth.Chain
import Mathlib.Data.List.Count
import Mathlib.Tactic.Ring

/-!
# AccessDepth.Proofs.ChainArithmetic

Depth and uncertainty after any number of steps.

* `Step.indirections`, `Step.addresses`, `Step.unclassified` — the steps that add an indirection, that
  remove one, and that cannot be classified.
* `Chain.follow` — the chain after a list of steps.
* `Chain.follow_neutral` — a reference and an indirection side by side, or parentheses, change nothing.
* `Chain.follow_arithmetic` — depth, uncertainty, base and stored base after a list of steps.
-/

namespace AccessDepth
namespace Step

/-- The steps that go through one indirection more. -/
def indirections : List Step :=
  [.deref, .select (some .pointer), .index (some .slice), .index (some .map)]

/-- The steps that go back to an address. -/
def addresses : List Step := [.ref, .slice (some .array)]

/-- The steps from an operand whose shape is not known. -/
def unclassified : List Step := [.select none, .index none, .slice none]

/-- Steps next to each other that undo one another. -/
def neutral : List (List Step) := [[.ref, .deref], [.deref, .ref], [.paren]]

variable {s : Step} {e : StepEffect}

theorem effect_eq (h : s.effect = some e) :
    e.depth = [s].countP (· ∈ indirections) - [s].countP (· ∈ addresses) ∧
      e.uncertainty = [s].countP (· ∈ unclassified) := by
  cases s with
  | deref | ref | paren =>
    cases h
    decide
  | select shape | index shape | slice shape =>
    cases shape with
    | none =>
      cases h
      decide
    | some shape => cases shape <;> cases h <;> decide

end Step

namespace Chain

open Step (indirections addresses unclassified neutral)

/-- The chain after a list of steps; none if one of them gives no access. -/
def follow (c : Chain) : List Step → Option Chain
  | [] => some c
  | s :: ss => (c.extend s).bind fun x => x.2.follow ss

/-- The chains without a step: a variable, a variable of another package, a call. -/
inductive Starts : Chain → Prop
  | root (name : String) (base : Option VariableId) : Starts (.root name base)
  | otherPackage (name : String) (base : Option VariableId) : Starts (.otherPackage name base)
  | call : Starts .call

/-- A chain leads to another one by some steps: these add to depth and uncertainty what they are, and
keep the base. -/
structure AddsUp (c : Chain) (steps : List Step) (c' : Chain) : Prop where
  depth : c'.depth = c.depth + steps.countP (· ∈ indirections) - steps.countP (· ∈ addresses)
  uncertainty : c'.uncertainty = c.uncertainty + steps.countP (· ∈ unclassified)
  baseName : c'.baseName = c.baseName
  baseVariable : c'.baseVariable = c.baseVariable

variable {c c' c'' : Chain} {s : Step} {steps steps' : List Step} {kind : AccessKind}

theorem AddsUp.refl (c : Chain) : c.AddsUp [] c := ⟨by simp, by simp, rfl, rfl⟩

theorem AddsUp.append (h : c.AddsUp steps c') (h' : c'.AddsUp steps' c'') :
    c.AddsUp (steps ++ steps') c'' where
  depth := by
    rw [h'.depth, h.depth, List.countP_append, List.countP_append]
    push_cast
    ring
  uncertainty := by
    rw [h'.uncertainty, h.uncertainty, List.countP_append]
    push_cast
    ring
  baseName := h'.baseName.trans h.baseName
  baseVariable := h'.baseVariable.trans h.baseVariable

theorem AddsUp.uncertainty_le (h : c.AddsUp steps c') : c.uncertainty ≤ c'.uncertainty := by
  rw [h.uncertainty]
  exact Int.le_add_of_nonneg_right (Int.natCast_nonneg _)

/-! ## One step -/

theorem addsUp_of_extend (h : c.extend s = some (kind, c')) : c.AddsUp [s] c' := by
  obtain ⟨e, he, hc⟩ := Option.map_eq_some_iff.mp h
  obtain ⟨depth, uncertainty⟩ := Step.effect_eq he
  cases hc
  refine ⟨?_, ?_, rfl, rfl⟩
  · rw [Int.add_sub_assoc, ← depth]
  · rw [← uncertainty]

theorem extend_isSome (c : Chain) (s : Step) : (c.extend s).isSome = s.effect.isSome :=
  Option.isSome_map

/-! ## A list of steps -/

theorem follow_append (c : Chain) (steps steps' : List Step) :
    c.follow (steps ++ steps') = (c.follow steps).bind fun c' => c'.follow steps' := by
  induction steps generalizing c with
  | nil => rfl
  | cons s ss ih =>
    rw [List.cons_append, follow, follow, Option.bind_assoc]
    exact congrArg _ (funext fun x => ih x.2)

theorem addsUp_of_follow (h : c.follow steps = some c') : c.AddsUp steps c' := by
  induction steps generalizing c with
  | nil =>
    cases h
    exact .refl _
  | cons s ss ih =>
    obtain ⟨⟨kind, next⟩, step, rest⟩ := Option.bind_eq_some_iff.mp h
    exact (addsUp_of_extend step).append (ih rest)

theorem exists_follow (h : ∀ s ∈ steps, s.effect.isSome) (c : Chain) :
    ∃ c', c.follow steps = some c' := by
  induction steps generalizing c with
  | nil => exact ⟨c, rfl⟩
  | cons s ss ih =>
    obtain ⟨hs, hss⟩ := List.forall_mem_cons.mp h
    obtain ⟨⟨kind, next⟩, step⟩ := Option.isSome_iff_exists.mp ((c.extend_isSome s).trans hs)
    obtain ⟨c', rest⟩ := ih hss next
    refine ⟨c', ?_⟩
    rw [follow, step]
    exact rest

theorem follow_of_neutral {pair : List Step} (h : pair ∈ neutral) (c : Chain) :
    c.follow pair = some c := by
  simp only [neutral, List.mem_cons, List.not_mem_nil, or_false] at h
  obtain rfl | rfl | rfl := h <;> simp [follow, extend, Step.effect]

/-- Steps that undo one another can be put in and left out anywhere. -/
theorem follow_neutral {pair : List Step} (h : pair ∈ neutral) (c : Chain)
    (before after : List Step) : c.follow (before ++ pair ++ after) = c.follow (before ++ after) := by
  have same : (fun c' : Chain => c'.follow pair) = some := funext (follow_of_neutral h)
  rw [follow_append, follow_append, follow_append, same, Option.bind_fun_some]

/-! ## From the start -/

theorem Starts.uncertainty_eq (h : c.Starts) : c.uncertainty = 0 := by cases h <;> rfl

theorem storedBase_eq_none_iff (h : c.AddsUp steps c') (hc : c.uncertainty = 0)
    (inner : Option ExprId) :
    (c'.access kind inner).storedBase = none ↔ ∃ s ∈ steps, s ∈ unclassified := by
  have certain : 0 < c'.uncertainty ↔ 0 < steps.countP (· ∈ unclassified) := by
    rw [h.uncertainty, hc]
    omega
  have stored : (c'.access kind inner).storedBase = none ↔ 0 < c'.uncertainty := by
    by_cases hu : 0 < c'.uncertainty <;> simp [NewAccess.storedBase, access, hu]
  rw [stored, certain, List.countP_pos_iff]
  simp

/-- Depth, uncertainty and base after a list of steps that give accesses: every indirection counts,
every address counts against it, and every step that could not be classified is told of. On the way
the uncertainty never falls, and steps that undo one another change neither the chain nor what a later
step gives. -/
theorem follow_arithmetic (hc : c.Starts) (h : ∀ s ∈ steps, s.effect.isSome) :
    (∃ c', c.follow steps = some c' ∧
      c'.depth = c.depth + steps.countP (· ∈ indirections) - steps.countP (· ∈ addresses) ∧
      c'.uncertainty = steps.countP (· ∈ unclassified) ∧
      c'.baseName = c.baseName ∧ c'.baseVariable = c.baseVariable ∧
      ∀ kind inner,
        (c'.access kind inner).storedBase = none ↔ ∃ s ∈ steps, s ∈ unclassified) ∧
    (∀ before between after, steps = before ++ between ++ after →
      ∃ a b, c.follow before = some a ∧ c.follow (before ++ between) = some b ∧
        a.uncertainty ≤ b.uncertainty) ∧
    ∀ pair ∈ neutral, ∀ before after,
      c.follow (before ++ pair ++ after) = c.follow (before ++ after) ∧
        ∀ later, (c.follow (before ++ pair ++ after)).bind (·.extend later) =
          (c.follow (before ++ after)).bind (·.extend later) := by
  refine ⟨?_, ?_, ?_⟩
  · obtain ⟨c', hf⟩ := exists_follow h c
    have sums := addsUp_of_follow hf
    refine ⟨c', hf, sums.depth, ?_, sums.baseName, sums.baseVariable, fun kind inner => ?_⟩
    · rw [sums.uncertainty, hc.uncertainty_eq, Int.zero_add]
    · exact storedBase_eq_none_iff sums hc.uncertainty_eq inner
  · rintro before between after rfl
    obtain ⟨both, -⟩ := List.forall_mem_append.mp h
    obtain ⟨first, second⟩ := List.forall_mem_append.mp both
    obtain ⟨a, ha⟩ := exists_follow first c
    obtain ⟨b, hb⟩ := exists_follow second a
    refine ⟨a, b, ha, ?_, (addsUp_of_follow hb).uncertainty_le⟩
    rw [follow_append, ha, Option.bind_some, hb]
  · intro pair hp before after
    have same := c.follow_neutral hp before after
    exact ⟨same, fun later => by rw [same]⟩

/-- `&(*p).f[i:j][k]`, where it is not known what `f` is a field of, and `f` is an array. -/
theorem follow_sample_arithmetic :
    let steps : List Step :=
      [.deref, .paren, .select none, .slice (some .array), .index (some .slice), .ref]
    (root "p" none).Starts ∧ (∀ s ∈ steps, s.effect.isSome) ∧
      ∃ c', (root "p" none).follow steps = some c' ∧ c'.depth = 0 ∧ c'.uncertainty = 1 ∧
        c'.baseName = some "p" ∧ ∀ kind inner, (c'.access kind inner).storedBase = none := by
  intro steps
  have start : (root "p" none).Starts := .root "p" none
  have given : ∀ s ∈ steps, s.effect.isSome := by decide
  obtain ⟨⟨c', hf, depth, uncertainty, name, -, stored⟩, -⟩ := follow_arithmetic start given
  refine ⟨start, given, c', hf, depth.trans (by decide), uncertainty.trans (by decide), name,
    fun kind inner => (stored kind inner).mpr ⟨.select none, by decide, by decide⟩⟩

end Chain
end AccessDepth
