/-!
# AccessDepth.Proofs.Effects

Computations that read and change a state, as functions of that state.

* `succeeds`, `failure?` — how a computation ends, as something that can be evaluated.
* `bind_of_ok`, `bind_of_error`, `bind_eq_ok` — one computation after another.
* `get_apply`, `modify_apply`, `modifyGet_apply` — the steps that they are made of.
-/

namespace AccessDepth

variable {ε σ α β : Type} {a : EStateM ε σ α} {f : α → EStateM ε σ β} {s s' : σ}

/-- Whether a computation succeeds in a state. -/
def succeeds (a : EStateM ε σ α) (s : σ) : Bool :=
  match a s with
  | .ok .. => true
  | .error .. => false

theorem ok_of_succeeds (h : succeeds a s = true) : ∃ x s', a s = .ok x s' := by
  unfold succeeds at h
  cases ha : a s with
  | ok x s' => exact ⟨x, s', rfl⟩
  | error f s' =>
    rw [ha] at h
    cases h

/-- Why a computation fails in a state. -/
def failure? (a : EStateM ε σ α) (s : σ) : Option ε :=
  match a s with
  | .ok .. => none
  | .error f _ => some f

theorem error_of_failure? {e : ε} (h : failure? a s = some e) : ∃ s', a s = .error e s' := by
  unfold failure? at h
  cases ha : a s with
  | ok x s' =>
    rw [ha] at h
    cases h
  | error f s' =>
    rw [ha] at h
    exact ⟨s', by rw [Option.some.inj h]⟩

theorem bind_of_ok {x : α} (h : a s = .ok x s') : (a >>= f) s = f x s' := by
  simp only [Bind.bind, EStateM.bind, h]

theorem bind_of_error {e : ε} (h : a s = .error e s') : (a >>= f) s = .error e s' := by
  simp only [Bind.bind, EStateM.bind, h]

/-- A computation after another one succeeds if both do. -/
theorem bind_eq_ok {b : β} :
    (a >>= f) s = .ok b s' ↔ ∃ x s₁, a s = .ok x s₁ ∧ f x s₁ = .ok b s' := by
  cases ha : a s with
  | ok x s₁ =>
    rw [bind_of_ok ha]
    constructor
    · intro h
      exact ⟨x, s₁, rfl, h⟩
    · rintro ⟨_, _, h, hf⟩
      cases h
      exact hf
  | error e s₁ =>
    rw [bind_of_error ha]
    constructor
    · intro h
      cases h
    · rintro ⟨_, _, h, -⟩
      cases h

@[simp] theorem get_apply (s : σ) : (get : EStateM ε σ σ) s = .ok s s := rfl

@[simp] theorem modify_apply (g : σ → σ) (s : σ) :
    (modify g : EStateM ε σ PUnit) s = .ok ⟨⟩ (g s) := rfl

@[simp] theorem modifyGet_apply (g : σ → α × σ) (s : σ) :
    (modifyGet g : EStateM ε σ α) s = .ok (g s).1 (g s).2 := rfl

end AccessDepth
