import AccessDepth.Proofs.Run.Progress
import Mathlib.Algebra.Ring.Nat
import Mathlib.Data.Prod.Lex
import Mathlib.Order.WellFounded

/-!
# AccessDepth.Proofs.Run.Ending

A run that is not stopped can be brought to its end.

* `Crew.rank` — how far a run is from its end: the passes that are left, then the directories that
  wait, the packages that are left, and what is on its way to the log.
* `Crew.progress` — where a run is not over, some calm event lowers its rank.
* `Crew.ends` — calm events bring a run to its end, unless they stop it.
-/

namespace AccessDepth
namespace Crew

variable {job : Job} {c c' : Crew} {mode : Mode} {later : List Mode}

def Paced (c : Crew) : Prop := ∀ t ∈ c.tasks, t.analyzed ≤ t.packages.length

theorem Paced.step (h : c.Paced) (hs : Step job c c') : c'.Paced := by
  cases hs with
  | same | refused | skipped | logged | unlogged | halted => exact h
  | loaded =>
    intro t ht
    obtain ht | ht := List.mem_append.mp ht
    · exact h t ht
    · rw [List.mem_singleton.mp ht]
      exact Nat.zero_le _
  | analyzed hp hi hpk ha =>
    intro t ht
    obtain ht | rfl := List.mem_or_eq_of_mem_set ht
    · exact h t ht
    · exact (List.getElem?_eq_some_iff.mp hpk).1
  | failed | finished => exact fun t ht => h t (List.mem_of_mem_eraseIdx ht)
  | next total hp hi =>
    intro t ht
    rw [(begin_tasks job ..).1] at ht
    cases ht

theorem Paced.acts (h : c.Paced) (es : List Event) : (c.acts job es).Paced := by
  induction es generalizing c with
  | nil => exact h
  | cons e es ih => exact ih (h.step (act_step job c e))

theorem paced_start (job : Job) (mode : Mode) (w : Workspace) : (start job mode w).Paced := by
  intro t ht
  unfold start at ht
  split at ht
  · cases ht
  · rw [(begin_tasks job ..).1] at ht
    cases ht

/-- How much of a task is left. Its end counts as well. -/
def Task.left (t : Task) : Nat := t.packages.length - t.analyzed + 1

/-- How far a run is from its end. -/
def rank (c : Crew) : Nat ×ₗ Nat ×ₗ Nat ×ₗ Nat :=
  toLex (c.phases.length, toLex (c.waiting.length, toLex ((c.tasks.map Task.left).sum,
    c.outcomes.length)))

theorem rank_lt_iff : c'.rank < c.rank ↔
    c'.phases.length < c.phases.length ∨ c'.phases.length = c.phases.length ∧
      (c'.waiting.length < c.waiting.length ∨ c'.waiting.length = c.waiting.length ∧
        ((c'.tasks.map Task.left).sum < (c.tasks.map Task.left).sum ∨
          (c'.tasks.map Task.left).sum = (c.tasks.map Task.left).sum ∧
            c'.outcomes.length < c.outcomes.length)) := by
  simp only [rank, Prod.Lex.toLex_lt_toLex]

/-- Where a run is not over, there is something to do. -/
theorem progress (job : Job) (h : c.Paced) (hn : c.stopped = none) (hp : c.phases ≠ []) :
    ∃ e : Event, e.Calm c ∧ (c.act job e).rank < c.rank := by
  obtain ⟨mode, later, hp⟩ := List.exists_cons_of_ne_nil hp
  simp only [rank_lt_iff]
  cases hw : c.waiting with
  | cons dir waiting =>
    refine ⟨.load 0, trivial, ?_⟩
    cases hl : job.loader c.workspace.disk dir mode.loadMode <;> simp [act, hp, load, hw, hl]
  | nil =>
    cases ht : c.tasks with
    | cons t tasks =>
      cases hpk : t.packages[t.analyzed]? with
      | some p =>
        have room := (List.getElem?_eq_some_iff.mp hpk).1
        refine ⟨.analyze 0 c.workspace.session.writesLeft, rfl, ?_⟩
        cases ha : Run.analyzing (AccessDepth.analyze p mode) c.workspace <;>
          simp [act, hp, analyze, hw, ht, hpk, bench_self, ha, stop, Task.left]
        omega
      | none =>
        have all : t.analyzed = t.packages.length :=
          Nat.le_antisymm (h t (ht ▸ List.mem_cons_self)) (List.getElem?_eq_none_iff.mp hpk)
        exact ⟨.finish 0, trivial, by simp [act, hp, finish, hw, ht, all, Task.left]⟩
    | nil =>
      cases ho : c.outcomes with
      | cons v outcomes =>
        refine ⟨.settle, trivial, ?_⟩
        cases hs : Phase.settle (job.settings.logPath mode) c.report v c.workspace <;>
          simp [act, hp, settle, hw, ht, ho, hs, stop]
      | nil =>
        refine ⟨.next, trivial, .inl ?_⟩
        simp [act, hp, Crew.next, isIdle, hw, ht, ho, hn, begin_phases]

/-- A run that no calm events stop can be brought to its end. -/
theorem ends (h : c.Paced)
    (going : ∀ es, Calm job c es → (c.acts job es).stopped = none) :
    ∃ es, Calm job c es ∧ (c.acts job es).phases = [] := by
  induction hr : c.rank using WellFoundedLT.induction generalizing c with
  | ind r ih =>
    by_cases hp : c.phases = []
    · exact ⟨[], trivial, hp⟩
    · obtain ⟨e, calm, less⟩ := progress job h (going [] trivial) hp
      obtain ⟨es, calms, done⟩ := ih (c.act job e).rank (hr ▸ less) (h.step (act_step job c e))
        (fun es hes => going (e :: es) ⟨calm, hes⟩) rfl
      exact ⟨e :: es, ⟨calm, calms⟩, done⟩

end Crew
end AccessDepth
