import AccessDepth.Proofs.Run.Pass
import Mathlib.Data.List.Perm.Basic

/-!
# AccessDepth.Proofs.Run.Crew

A run whose work is shared.

Some workers load directories, some analyze them, and what came of them goes through a queue to the
log. All are at work at once, and a failure reaches the others only after a while.

* `Crew` — a run under way: the directories that wait, those that are being analyzed, and what is not
  in the log yet.
* `Crew.Event`, `Crew.act` — one thing that one of the workers does. Every interleaving is a list of
  events. A list that stops early is a run that was cut off.
* `Crew.result` — what the run returns, if it is over.
* `Crew.Calm` — events without failures from outside.
* `Run.execute_calm`, `execute_shared` — `Run.execute` is the crew that completes each directory before
  it loads the next one.

The analysis of a package is one event, and all workers share one session. Workers that write row by
row in sessions of their own have many transactions in place of such an event, between which others can
write. `Plan.Parts.Reached` is about transactions that alternate in that way.
-/

namespace AccessDepth

/-- A directory that was loaded, and how many of its packages were analyzed. -/
structure Crew.Task where
  dir : Path
  packages : List Package
  analyzed : Nat
  skips : List Skip

structure Crew where
  /-- The pass that is made, and those after it. -/
  phases : List Mode
  /-- The directories that were not loaded yet. -/
  waiting : List Path
  tasks : List Crew.Task
  /-- What came of directories, on its way to the log. -/
  outcomes : List Visit
  /-- Why the run is to end. -/
  stopped : Option Failure
  report : Phase.Report
  total : RunReport
  workspace : Workspace

inductive Crew.Event where
  /-- A directory is loaded. -/
  | load (i : Nat)
  /-- The next package of a task is analyzed, on a store that takes so many transactions. -/
  | analyze (i : Nat) (writesLeft : Option Nat)
  /-- All packages of a task were analyzed. -/
  | finish (i : Nat)
  /-- The first outcome goes into the report, a completed directory into the log before. -/
  | settle
  /-- The pass is over; the next one begins. -/
  | next
  /-- A worker fails otherwise. -/
  | halt (f : Failure)

namespace Phase

def Report.start (finished : List Path) : Report :=
  { finished := finished, already := finished.length, completed := 0, packages := 0, skips := [] }

def opening (job : Job) (mode : Mode) (candidates : List Path) : Run (List Path × List Path) := do
  let log := job.settings.logPath mode
  let done ← Run.inspect fun d => (Ledger.read d log).mapError .file
  Run.onDisk (Ledger.prepare log)
  pure (candidates.partition fun dir => done.any dir.same)

end Phase

namespace Crew

def idle (phases : List Mode) (total : RunReport) (stopped : Option Failure) (w : Workspace) : Crew :=
  { phases := phases, waiting := [], tasks := [], outcomes := [], stopped := stopped,
    report := .start [], total := total, workspace := w }

def opened (job : Job) (phases : List Mode) (total : RunReport) :
    EStateM.Result Failure Workspace (List Path × List Path) → Crew
  | .error f w => idle phases total (some f) w
  | .ok (finished, pending) w =>
    { idle phases total none w with
      waiting := if job.settings.hasWorkers then pending else []
      report := .start finished }

def begin (job : Job) (phases : List Mode) (candidates : List Path) (total : RunReport)
    (w : Workspace) : Crew :=
  match phases with
  | [] => idle phases total none w
  | mode :: _ => opened job phases total (Phase.opening job mode candidates w)

/-- A run in some mode begins. -/
def start (job : Job) (mode : Mode) (w : Workspace) : Crew :=
  match Discovery.discover w.disk job.settings.corpusRoot with
  | .error f => idle mode.phases ⟨0, 0, 0, 0, []⟩ (some f) w
  | .ok found => begin job mode.phases found ⟨found.length, 0, 0, 0, []⟩ w

def stop (c : Crew) (f : Failure) : Crew := { c with stopped := c.stopped.or (some f) }

def load (loader : Loader) (mode : Mode) (c : Crew) (i : Nat) : Crew :=
  match c.waiting[i]? with
  | none => c
  | some dir =>
    match loader c.workspace.disk dir mode.loadMode with
    | .error f =>
      { c with
        waiting := c.waiting.eraseIdx i
        outcomes := c.outcomes ++ [.skipped (.ofFailure dir f)] }
    | .ok packages =>
      { c with
        waiting := c.waiting.eraseIdx i
        tasks := c.tasks ++ [⟨dir, packages, 0, []⟩] }

def bench (c : Crew) (writesLeft : Option Nat) : Workspace :=
  { c.workspace with session := { c.workspace.session with writesLeft := writesLeft } }

def analyze (mode : Mode) (c : Crew) (i : Nat) (writesLeft : Option Nat) : Crew :=
  match c.tasks[i]? with
  | none => c
  | some t =>
    match t.packages[t.analyzed]? with
    | none => c
    | some p =>
      match Run.analyzing (AccessDepth.analyze p mode) (c.bench writesLeft) with
      | .ok skips w =>
        { c with
          tasks := c.tasks.set i { t with analyzed := t.analyzed + 1, skips := t.skips ++ skips }
          workspace := w }
      | .error f w => { c with tasks := c.tasks.eraseIdx i, workspace := w }.stop f

def finish (c : Crew) (i : Nat) : Crew :=
  match c.tasks[i]? with
  | none => c
  | some t =>
    if t.analyzed = t.packages.length then
      { c with
        tasks := c.tasks.eraseIdx i
        outcomes := c.outcomes ++ [.completed t.dir t.packages.length t.skips] }
    else c

def settle (log : Path) (c : Crew) : Crew :=
  match c.outcomes with
  | [] => c
  | outcome :: outcomes =>
    match Phase.settle log c.report outcome c.workspace with
    | .ok report w => { c with outcomes := outcomes, report := report, workspace := w }
    | .error f w => { c with outcomes := outcomes, workspace := w }.stop f

/-- Whether nothing is left to do in a pass. -/
def isIdle (c : Crew) : Bool :=
  c.waiting.isEmpty && c.tasks.isEmpty && c.outcomes.isEmpty && c.stopped.isNone

def next (job : Job) (later : List Mode) (c : Crew) : Crew :=
  if c.isIdle then
    let report := { c.report with finished := c.report.finished.mergeSort Path.notAfter }
    begin job later report.finished (c.total.after report) c.workspace
  else c

/-- What an event does. One that cannot happen does nothing. -/
def act (job : Job) (c : Crew) (e : Event) : Crew :=
  match c.phases with
  | [] => c
  | mode :: later =>
    match e with
    | .load i => c.load job.loader mode i
    | .analyze i writesLeft => c.analyze mode i writesLeft
    | .finish i => c.finish i
    | .settle => c.settle (job.settings.logPath mode)
    | .next => c.next job later
    | .halt f => c.stop f

def acts (job : Job) (c : Crew) (es : List Event) : Crew := es.foldl (act job) c

/-- What a run returns: the reason that stopped it, or a report after its last pass. -/
def result (c : Crew) : Option (Except Failure RunReport) :=
  match c.stopped with
  | some f => some (.error f)
  | none => if c.phases = [] then some (.ok c.total) else none

variable {job : Job} {c : Crew}

theorem acts_cons (e : Event) (es : List Event) : c.acts job (e :: es) = (c.act job e).acts job es :=
  rfl

theorem acts_append (es es' : List Event) :
    c.acts job (es ++ es') = (c.acts job es).acts job es' := List.foldl_append

/-! ## Events without failures from outside -/

/-- Whether an event is no failure from outside, and finds a store that takes as many transactions as
the session says. -/
def Event.Calm (c : Crew) : Event → Prop
  | .halt _ => False
  | .analyze _ writesLeft => writesLeft = c.workspace.session.writesLeft
  | _ => True

/-- Events of which each one is calm when it happens. -/
def Calm (job : Job) : Crew → List Event → Prop
  | _, [] => True
  | c, e :: es => e.Calm c ∧ Calm job (c.act job e) es

theorem calm_append {es es' : List Event} :
    Calm job c (es ++ es') ↔ Calm job c es ∧ Calm job (c.acts job es) es' := by
  induction es generalizing c with
  | nil => simp [Calm, acts]
  | cons e es ih => simp [Calm, ih, acts_cons, and_assoc]

/-! ## What an event does -/

/-- A crew after something was done. -/
inductive Step (job : Job) (c : Crew) : Crew → Prop
  | same : Step job c c
  | refused {mode : Mode} {later : List Mode} {i : Nat} {dir : Path} {f : Failure} :
      c.phases = mode :: later → c.waiting[i]? = some dir →
      job.loader c.workspace.disk dir mode.loadMode = .error f →
      Step job c { c with
        waiting := c.waiting.eraseIdx i
        outcomes := c.outcomes ++ [.skipped (.ofFailure dir f)] }
  | loaded {mode : Mode} {later : List Mode} {i : Nat} {dir : Path} {packages : List Package} :
      c.phases = mode :: later → c.waiting[i]? = some dir →
      job.loader c.workspace.disk dir mode.loadMode = .ok packages →
      Step job c { c with
        waiting := c.waiting.eraseIdx i, tasks := c.tasks ++ [⟨dir, packages, 0, []⟩] }
  | analyzed {mode : Mode} {later : List Mode} {i : Nat} {writesLeft : Option Nat} {t : Task}
      {p : Package} {skips : List Skip} {w : Workspace} :
      c.phases = mode :: later → c.tasks[i]? = some t → t.packages[t.analyzed]? = some p →
      Run.analyzing (AccessDepth.analyze p mode) (c.bench writesLeft) = .ok skips w →
      Step job c { c with
        tasks := c.tasks.set i { t with analyzed := t.analyzed + 1, skips := t.skips ++ skips }
        workspace := w }
  | failed {mode : Mode} {later : List Mode} {i : Nat} {writesLeft : Option Nat} {t : Task}
      {p : Package} {f : Failure} {w : Workspace} :
      c.phases = mode :: later → c.tasks[i]? = some t → t.packages[t.analyzed]? = some p →
      Run.analyzing (AccessDepth.analyze p mode) (c.bench writesLeft) = .error f w →
      Step job c ({ c with tasks := c.tasks.eraseIdx i, workspace := w }.stop f)
  | finished {i : Nat} {t : Task} :
      c.tasks[i]? = some t → t.analyzed = t.packages.length →
      Step job c { c with
        tasks := c.tasks.eraseIdx i
        outcomes := c.outcomes ++ [.completed t.dir t.packages.length t.skips] }
  | skipped {skip : Skip} {outcomes : List Visit} :
      c.outcomes = .skipped skip :: outcomes →
      Step job c { c with
        outcomes := outcomes, report := { c.report with skips := c.report.skips ++ [skip] } }
  | logged {mode : Mode} {later : List Mode} {dir : Path} {packages : Nat} {skips : List Skip}
      {outcomes : List Visit} {disk : Disk} :
      c.phases = mode :: later → c.outcomes = .completed dir packages skips :: outcomes →
      Ledger.append (job.settings.logPath mode) dir c.workspace.disk = .ok () disk →
      Step job c { c with
        outcomes := outcomes
        report :=
          { c.report with
            finished := c.report.finished ++ [dir], completed := c.report.completed + 1
            packages := c.report.packages + packages, skips := c.report.skips ++ skips }
        workspace := { c.workspace with disk := disk } }
  | unlogged {mode : Mode} {later : List Mode} {dir : Path} {packages : Nat} {skips : List Skip}
      {outcomes : List Visit} {e : FileProblem} {disk : Disk} :
      c.phases = mode :: later → c.outcomes = .completed dir packages skips :: outcomes →
      Ledger.append (job.settings.logPath mode) dir c.workspace.disk = .error e disk →
      Step job c ({ c with
        outcomes := outcomes, workspace := { c.workspace with disk := disk } }.stop (.file e))
  | next {mode : Mode} {later : List Mode} (total : RunReport) :
      c.phases = mode :: later → c.isIdle = true →
      Step job c (begin job later (c.report.finished.mergeSort Path.notAfter) total c.workspace)
  | halted (f : Failure) : Step job c (c.stop f)

theorem act_step (job : Job) (c : Crew) (e : Event) : Step job c (c.act job e) := by
  unfold act
  split
  · exact .same
  · rename_i mode later hp
    cases e with
    | load i =>
      simp only [load]
      split
      · exact .same
      · split
        · exact .refused hp ‹_› ‹_›
        · exact .loaded hp ‹_› ‹_›
    | analyze i writesLeft =>
      simp only [analyze]
      split
      · exact .same
      · split
        · exact .same
        · split
          · exact .analyzed hp ‹_› ‹_› ‹_›
          · exact .failed hp ‹_› ‹_› ‹_›
    | finish i =>
      simp only [finish]
      split
      · exact .same
      · split
        · exact .finished ‹_› ‹_›
        · exact .same
    | settle =>
      simp only [settle]
      split
      · exact .same
      · rename_i outcome outcomes ho
        cases outcome with
        | skipped skip => exact .skipped ho
        | completed dir packages skips =>
          cases ha : Ledger.append (job.settings.logPath mode) dir c.workspace.disk with
          | ok u disk =>
            have settled : Phase.settle (job.settings.logPath mode) c.report
                (.completed dir packages skips) c.workspace = .ok
                  { c.report with
                    finished := c.report.finished ++ [dir], completed := c.report.completed + 1
                    packages := c.report.packages + packages, skips := c.report.skips ++ skips }
                  { c.workspace with disk := disk } := by
              simp only [Phase.settle, Run.onDisk, Bind.bind, EStateM.bind, ha, pure, EStateM.pure]
            rw [settled]
            exact .logged hp ho ha
          | error e disk =>
            have settled : Phase.settle (job.settings.logPath mode) c.report
                (.completed dir packages skips) c.workspace =
                  .error (.file e) { c.workspace with disk := disk } := by
              simp only [Phase.settle, Run.onDisk, Bind.bind, EStateM.bind, ha]
            rw [settled]
            exact .unlogged hp ho ha
    | next =>
      simp only [Crew.next]
      split
      · exact .next _ hp ‹_›
      · exact .same
    | halt f => exact .halted f

end Crew

/-! ## One directory after the other -/

namespace Phase

variable {job : Job} {mode : Mode} {candidates finished pending : List Path} {w w' : Workspace}

/-- When a log was opened, the candidates are split by what was in it. -/
theorem split_of_opening (h : opening job mode candidates w = .ok (finished, pending) w') :
    ∃ done disk, Ledger.read w.disk (job.settings.logPath mode) = .ok done ∧
      Ledger.prepare (job.settings.logPath mode) w.disk = .ok () disk ∧
      w' = { w with disk := disk } ∧
      candidates.partition (fun dir => done.any dir.same) = (finished, pending) := by
  unfold opening at h
  obtain ⟨done, w₁, hr, h⟩ := bind_eq_ok.mp h
  obtain ⟨u, w₂, hp, h⟩ := bind_eq_ok.mp h
  obtain ⟨hd, rfl⟩ := Run.inspect_ok hr
  obtain ⟨disk, hdisk, rfl⟩ := Run.onDisk_ok hp
  have same := EStateM.Result.ok.inj h
  refine ⟨done, disk, ?_, hdisk, same.2.symm, same.1⟩
  cases hl : Ledger.read w₁.disk (job.settings.logPath mode) with
  | error e =>
    rw [hl] at hd
    cases hd
  | ok ps =>
    rw [hl] at hd
    cases hd
    rfl

/-- Where a log is not opened, at most directories were made. -/
theorem refused_of_opening {f : Failure} (h : opening job mode candidates w = .error f w') :
    w' = w ∨ w' = { w with
      disk := Disk.Change.leaves (Ledger.prepare (job.settings.logPath mode)) w.disk } := by
  unfold opening at h
  cases hr : Run.inspect (fun d => (Ledger.read d (job.settings.logPath mode)).mapError .file) w with
  | error e w₁ =>
    rw [bind_of_error hr] at h
    cases h
    unfold Run.inspect at hr
    split at hr
    · cases hr
    · cases hr
      exact .inl rfl
  | ok done w₁ =>
    rw [bind_of_ok hr] at h
    obtain ⟨-, rfl⟩ := Run.inspect_ok hr
    unfold Run.onDisk at h
    cases hp : Ledger.prepare (job.settings.logPath mode) w₁.disk with
    | ok u d =>
      simp only [Bind.bind, EStateM.bind, hp] at h
      cases h
    | error e d =>
      simp only [Bind.bind, EStateM.bind, hp] at h
      cases h
      exact .inr (by rw [Disk.Change.leaves_error hp])

theorem run_of_opening (h : opening job mode candidates w = .ok (finished, pending) w') :
    run job mode candidates w =
      (visitAll job.loader mode (job.settings.logPath mode)
        (if job.settings.hasWorkers then job.schedule mode pending else []) (.start finished) >>=
          fun r => pure { r with finished := r.finished.mergeSort Path.notAfter }) w' := by
  unfold opening at h
  obtain ⟨done, w₁, hr, h⟩ := bind_eq_ok.mp h
  obtain ⟨u, w₂, hp, h⟩ := bind_eq_ok.mp h
  obtain ⟨same, rfl⟩ : candidates.partition (fun dir => done.any dir.same) = (finished, pending) ∧
      w₂ = w' := EStateM.Result.ok.inj h
  unfold run
  rw [bind_of_ok hr, bind_of_ok hp, same]
  rfl

theorem run_of_refused {f : Failure} (h : opening job mode candidates w = .error f w') :
    run job mode candidates w = .error f w' := by
  unfold opening at h
  unfold run
  cases hr : Run.inspect (fun d => (Ledger.read d (job.settings.logPath mode)).mapError .file) w with
  | error e w₁ =>
    rw [bind_of_error hr] at h ⊢
    cases h
    rfl
  | ok done w₁ =>
    rw [bind_of_ok hr] at h ⊢
    cases hp : Run.onDisk (Ledger.prepare (job.settings.logPath mode)) w₁ with
    | error e w₂ =>
      rw [bind_of_error hp] at h ⊢
      cases h
      rfl
    | ok u w₂ =>
      rw [bind_of_ok hp] at h
      cases h

end Phase

namespace Crew

section

variable {α β : Type} {job : Job} {c : Crew} {mode : Mode} {later : List Mode}

/-- Whether some calm events make a crew do what a computation does. Where that fails, the crew is
stopped. -/
def CanDo (job : Job) (c : Crew) (a : Run α) (done : α → Workspace → Crew) : Prop :=
  match a c.workspace with
  | .ok x w => ∃ es, Calm job c es ∧ c.acts job es = done x w
  | .error f w => ∃ es, Calm job c es ∧ (c.acts job es).stopped = some f ∧
      (c.acts job es).workspace = w

theorem CanDo.bind {a : Run α} {f : α → Run β} {mid : α → Workspace → Crew}
    {done : β → Workspace → Crew} (h : CanDo job c a mid) (hw : ∀ x w, (mid x w).workspace = w)
    (hf : ∀ x w, a c.workspace = .ok x w → CanDo job (mid x w) (f x) done) :
    CanDo job c (a >>= f) done := by
  unfold CanDo at h ⊢
  cases ha : a c.workspace with
  | error e w =>
    rw [ha] at h
    rw [bind_of_error ha]
    exact h
  | ok x w =>
    rw [ha] at h
    obtain ⟨es, calm, he⟩ := h
    have rest := hf x w ha
    unfold CanDo at rest
    rw [hw] at rest
    rw [bind_of_ok ha]
    split
    · rename_i hr
      rw [hr] at rest
      obtain ⟨es', calm', he'⟩ := rest
      exact ⟨es ++ es', calm_append.mpr ⟨calm, he ▸ calm'⟩, by rw [acts_append, he, he']⟩
    · rename_i hr
      rw [hr] at rest
      obtain ⟨es', calm', he'⟩ := rest
      exact ⟨es ++ es', calm_append.mpr ⟨calm, he ▸ calm'⟩, by rw [acts_append, he]; exact he'⟩

/-- Events that leave the workspace as it is may come first. -/
theorem CanDo.after {a b : Run α} {done : α → Workspace → Crew} {c' : Crew} (es : List Event)
    (calm : Calm job c es) (he : c.acts job es = c') (hw : c'.workspace = c.workspace)
    (hab : a c.workspace = b c.workspace) (h : CanDo job c' b done) : CanDo job c a done := by
  unfold CanDo at h ⊢
  rw [hw] at h
  rw [hab]
  split
  · rename_i hr
    rw [hr] at h
    obtain ⟨es', calm', he'⟩ := h
    exact ⟨es ++ es', calm_append.mpr ⟨calm, he ▸ calm'⟩, by rw [acts_append, he, he']⟩
  · rename_i hr
    rw [hr] at h
    obtain ⟨es', calm', he'⟩ := h
    exact ⟨es ++ es', calm_append.mpr ⟨calm, he ▸ calm'⟩, by rw [acts_append, he]; exact he'⟩

theorem analyzing_bind (a : Analyze α) (f : α → Analyze β) :
    Run.analyzing (a >>= f) = Run.analyzing a >>= fun x => Run.analyzing (f x) := by
  funext w
  simp only [Run.analyzing, Bind.bind, EStateM.bind]
  cases a w.session <;> rfl

theorem bench_self (c : Crew) : c.bench c.workspace.session.writesLeft = c.workspace := rfl

/-- The packages of the only task that are left can be analyzed one after the other. -/
theorem canDo_analyzeAll (hp : c.phases = mode :: later) (hs : c.stopped = none) {t : Task}
    {ps : List Package} (ht : c.tasks = [t]) (hd : t.packages.drop t.analyzed = ps) :
    CanDo job c (Run.analyzing (Phase.analyzeAll mode ps)) fun skips w =>
      { c with
        tasks := [⟨t.dir, t.packages, t.analyzed + ps.length, t.skips ++ skips⟩], workspace := w } := by
  induction ps generalizing c t with
  | nil =>
    refine ⟨[], trivial, ?_⟩
    obtain ⟨dir, packages, analyzed, skips⟩ := t
    simp [acts, ← ht]
  | cons p ps ih =>
    have here : t.packages[t.analyzed]? = some p := by
      rw [← List.head?_drop, hd, List.head?_cons]
    have rest : t.packages.drop (t.analyzed + 1) = ps := by
      rw [← List.tail_drop, hd, List.tail_cons]
    have first : CanDo job c (Run.analyzing (AccessDepth.analyze p mode)) fun skips w =>
        { c with
          tasks := [⟨t.dir, t.packages, t.analyzed + 1, t.skips ++ skips⟩], workspace := w } := by
      have step : c.act job (.analyze 0 c.workspace.session.writesLeft) =
          match Run.analyzing (AccessDepth.analyze p mode) c.workspace with
          | .ok skips w =>
            { c with
              tasks := [⟨t.dir, t.packages, t.analyzed + 1, t.skips ++ skips⟩], workspace := w }
          | .error f w => { c with tasks := [], workspace := w }.stop f := by
        simp [act, hp, analyze, ht, here, bench_self]
      unfold CanDo
      split
      · rename_i hr
        rw [hr] at step
        exact ⟨[.analyze 0 c.workspace.session.writesLeft], ⟨rfl, trivial⟩, step⟩
      · rename_i f w hr
        rw [hr] at step
        refine ⟨[.analyze 0 c.workspace.session.writesLeft], ⟨rfl, trivial⟩, ?_⟩
        rw [acts_cons, step]
        exact ⟨by simp [acts, stop, hs], rfl⟩
    unfold Phase.analyzeAll
    rw [analyzing_bind]
    refine first.bind (fun _ _ => rfl) fun skips w _ => ?_
    rw [analyzing_bind]
    refine (ih (c := { c with tasks := [_], workspace := w }) hp hs rfl rest).bind (fun _ _ => rfl)
      fun more w' _ => ?_
    refine ⟨[], trivial, ?_⟩
    simp [acts, Nat.add_assoc, Nat.add_comm 1]

theorem canDo_settle (job : Job) (hp : c.phases = mode :: later) (hs : c.stopped = none) {v : Visit}
    (ho : c.outcomes = [v]) :
    CanDo job c (Phase.settle (job.settings.logPath mode) c.report v) fun r w =>
      { c with outcomes := [], report := r, workspace := w } := by
  have step : c.act job .settle =
      match Phase.settle (job.settings.logPath mode) c.report v c.workspace with
      | .ok r w => { c with outcomes := [], report := r, workspace := w }
      | .error f w => { c with outcomes := [], workspace := w }.stop f := by
    simp [act, hp, settle, ho]
  unfold CanDo
  split
  · rename_i hr
    rw [hr] at step
    exact ⟨[.settle], ⟨trivial, trivial⟩, step⟩
  · rename_i f w hr
    rw [hr] at step
    refine ⟨[.settle], ⟨trivial, trivial⟩, ?_⟩
    rw [acts_cons, step]
    exact ⟨by simp [acts, stop, hs], rfl⟩

/-- A directory that waits can be loaded, analyzed and logged. -/
theorem canDo_visit (hp : c.phases = mode :: later) (hs : c.stopped = none) (ht : c.tasks = [])
    (ho : c.outcomes = []) {i : Nat} {dir : Path} (hi : c.waiting[i]? = some dir) :
    CanDo job c
      (Phase.visit job.loader mode dir >>= Phase.settle (job.settings.logPath mode) c.report)
      fun r w =>
        { c with
          waiting := c.waiting.eraseIdx i, tasks := [], outcomes := [], report := r
          workspace := w } := by
  cases hl : job.loader c.workspace.disk dir mode.loadMode with
  | error f =>
    have loaded : c.acts job [.load i] =
        { c with
          waiting := c.waiting.eraseIdx i, tasks := []
          outcomes := [.skipped (.ofFailure dir f)] } := by
      simp [acts, act, hp, load, hi, hl, ht, ho]
    have visited : (Phase.visit job.loader mode dir >>=
        Phase.settle (job.settings.logPath mode) c.report) c.workspace =
        Phase.settle (job.settings.logPath mode) c.report (.skipped (.ofFailure dir f))
          c.workspace := by
      simp [Phase.visit, Bind.bind, EStateM.bind, hl, pure, EStateM.pure]
    have settled := canDo_settle job (v := .skipped (.ofFailure dir f))
      (c := { c with waiting := c.waiting.eraseIdx i, tasks := [], outcomes := [_] }) hp hs rfl
    exact .after [.load i] ⟨trivial, trivial⟩ loaded rfl visited settled
  | ok packages =>
    have loaded : c.acts job [.load i] =
        { c with
          waiting := c.waiting.eraseIdx i, tasks := [⟨dir, packages, 0, []⟩] } := by
      simp [acts, act, hp, load, hi, hl, ht]
    have visited : (Phase.visit job.loader mode dir >>=
        Phase.settle (job.settings.logPath mode) c.report) c.workspace =
        (Run.analyzing (Phase.analyzeAll mode packages) >>= fun skips =>
          Phase.settle (job.settings.logPath mode) c.report (.completed dir packages.length skips))
          c.workspace := by
      simp only [Phase.visit, Bind.bind, EStateM.bind, get_apply, hl, pure, EStateM.pure]
      cases Run.analyzing (Phase.analyzeAll mode packages) c.workspace <;> rfl
    refine .after [.load i] ⟨trivial, trivial⟩ loaded rfl visited ?_
    refine (canDo_analyzeAll (c := { c with waiting := c.waiting.eraseIdx i, tasks := [_] }) hp hs rfl
      rfl).bind (fun _ _ => rfl) fun skips w _ => ?_
    have settled := canDo_settle job (v := .completed dir packages.length skips)
      (c := { c with
        waiting := c.waiting.eraseIdx i, tasks := [], outcomes := [_], workspace := w }) hp hs rfl
    refine .after [.finish 0] ⟨trivial, trivial⟩ ?_ ?_ ?_ settled
    · simp [acts, act, hp, finish, ho]
    · rfl
    · rfl

/-- The directories that wait can be visited in any order. -/
theorem canDo_visitAll (job : Job) (hp : c.phases = mode :: later) (hs : c.stopped = none)
    (ht : c.tasks = []) (ho : c.outcomes = []) {dirs : List Path} (hd : c.waiting.Perm dirs) :
    CanDo job c (Phase.visitAll job.loader mode (job.settings.logPath mode) dirs c.report) fun r w =>
      { c with waiting := [], tasks := [], outcomes := [], report := r, workspace := w } := by
  induction dirs generalizing c with
  | nil =>
    refine ⟨[], trivial, ?_⟩
    simp [acts, ← hd.eq_nil, ← ht, ← ho]
  | cons dir dirs ih =>
    obtain ⟨i, hi⟩ := List.mem_iff_getElem?.mp (hd.symm.subset List.mem_cons_self)
    have rest : (c.waiting.eraseIdx i).Perm dirs := by
      obtain ⟨hlt, rfl⟩ := List.getElem?_eq_some_iff.mp hi
      exact ((List.getElem_cons_eraseIdx_perm hlt).trans hd).cons_inv
    have split : Phase.visitAll job.loader mode (job.settings.logPath mode) (dir :: dirs) c.report =
        (Phase.visit job.loader mode dir >>= Phase.settle (job.settings.logPath mode) c.report) >>=
          fun r => Phase.visitAll job.loader mode (job.settings.logPath mode) dirs r := by
      rw [Phase.visitAll, bind_assoc]
    rw [split]
    exact (canDo_visit hp hs ht ho hi).bind (fun _ _ => rfl) fun r w _ =>
      ih (c := { c with
        waiting := c.waiting.eraseIdx i, tasks := [], outcomes := [], report := r
        workspace := w }) hp hs rfl rfl rest

theorem begin_cons (job : Job) (mode : Mode) (later : List Mode) (candidates : List Path)
    (total : RunReport) (w : Workspace) :
    begin job (mode :: later) candidates total w =
      opened job (mode :: later) total (Phase.opening job mode candidates w) := rfl

/-- Passes over some directories can be made by a crew. -/
theorem begin_passes (hs : ∀ mode dirs, (job.schedule mode dirs).Perm dirs) (phases : List Mode)
    (candidates : List Path) (total : RunReport) (w : Workspace) :
    ∃ es, Calm job (begin job phases candidates total w) es ∧
      match Run.passes job phases candidates total w with
      | .ok r w' => ((begin job phases candidates total w).acts job es).result = some (.ok r) ∧
          ((begin job phases candidates total w).acts job es).workspace = w'
      | .error f w' =>
          ((begin job phases candidates total w).acts job es).result = some (.error f) ∧
            ((begin job phases candidates total w).acts job es).workspace = w' := by
  induction phases generalizing candidates total w with
  | nil => exact ⟨[], trivial, rfl, rfl⟩
  | cons mode later ih =>
    obtain ⟨o, ho⟩ : ∃ o, Phase.opening job mode candidates w = o := ⟨_, rfl⟩
    unfold Run.passes
    cases o with
    | error f w₁ =>
      rw [bind_of_error (Phase.run_of_refused ho), begin_cons, ho]
      exact ⟨[], trivial, rfl, rfl⟩
    | ok opened w₁ =>
      obtain ⟨finished, pending⟩ := opened
      rw [begin_cons, ho]
      obtain ⟨c, hc⟩ : ∃ c, opened job (mode :: later) total (.ok (finished, pending) w₁) = c :=
        ⟨_, rfl⟩
      rw [hc]
      have perm : c.waiting.Perm
          (if job.settings.hasWorkers then job.schedule mode pending else []) := by
        rw [← hc]
        simp only [opened]
        split
        · exact (hs mode pending).symm
        · exact .refl _
      have visits := canDo_visitAll job (c := c) (by rw [← hc]; rfl) (by rw [← hc]; rfl)
        (by rw [← hc]; rfl) (by rw [← hc]; rfl) perm
      have pass := Phase.run_of_opening ho
      unfold CanDo at visits
      rw [show c.workspace = w₁ by rw [← hc]; rfl, show c.report = .start finished by rw [← hc]; rfl]
        at visits
      split at visits
      · rename_i r w₂ hv
        obtain ⟨es, calm, he⟩ := visits
        rw [bind_of_ok hv] at pass
        rw [bind_of_ok pass]
        obtain ⟨es', calm', rest⟩ := ih (r.finished.mergeSort Path.notAfter)
          (total.after { r with finished := r.finished.mergeSort Path.notAfter }) w₂
        have next : c.acts job (es ++ [.next]) = begin job later
            (r.finished.mergeSort Path.notAfter)
            (total.after { r with finished := r.finished.mergeSort Path.notAfter }) w₂ := by
          rw [acts_append, he, ← hc]
          rfl
        refine ⟨es ++ [.next] ++ es', calm_append.mpr ⟨?_, next ▸ calm'⟩, ?_⟩
        · exact calm_append.mpr ⟨calm, trivial, trivial⟩
        · rw [acts_append, next]
          exact rest
      · rename_i f w₂ hv
        obtain ⟨es, calm, stopped, left⟩ := visits
        rw [bind_of_error hv] at pass
        rw [bind_of_error pass]
        refine ⟨es, calm, ?_⟩
        simp [result, stopped, left]

end

end Crew

namespace Run

/-- A run is what a crew does that completes each directory before it loads the next one. No failure
comes from outside. -/
theorem execute_calm {job : Job} (hs : ∀ mode dirs, (job.schedule mode dirs).Perm dirs)
    (mode : Mode) (w : Workspace) :
    ∃ es, (Crew.start job mode w).Calm job es ∧ match execute job mode w with
      | .ok r w' => ((Crew.start job mode w).acts job es).result = some (.ok r) ∧
          ((Crew.start job mode w).acts job es).workspace = w'
      | .error f w' => ((Crew.start job mode w).acts job es).result = some (.error f) ∧
          ((Crew.start job mode w).acts job es).workspace = w' := by
  unfold execute
  cases hd : Discovery.discover w.disk job.settings.corpusRoot with
  | error f =>
    have failed : inspect (Discovery.discover · job.settings.corpusRoot) w = .error f w := by
      simp only [inspect, hd]
    rw [bind_of_error failed]
    refine ⟨[], trivial, ?_⟩
    simp [Crew.start, hd, Crew.acts, Crew.idle, Crew.result]
  | ok found =>
    have there : inspect (Discovery.discover · job.settings.corpusRoot) w = .ok found w := by
      simp only [inspect, hd]
    rw [bind_of_ok there]
    rw [show Crew.start job mode w = Crew.begin job mode.phases found ⟨found.length, 0, 0, 0, []⟩ w by
      simp only [Crew.start, hd]]
    exact Crew.begin_passes hs mode.phases found ⟨found.length, 0, 0, 0, []⟩ w

theorem execute_shared {job : Job} (hs : ∀ mode dirs, (job.schedule mode dirs).Perm dirs)
    (mode : Mode) (w : Workspace) :
    ∃ es, match execute job mode w with
      | .ok r w' => ((Crew.start job mode w).acts job es).result = some (.ok r) ∧
          ((Crew.start job mode w).acts job es).workspace = w'
      | .error f w' => ((Crew.start job mode w).acts job es).result = some (.error f) ∧
          ((Crew.start job mode w).acts job es).workspace = w' := by
  obtain ⟨es, -, h⟩ := execute_calm hs mode w
  exact ⟨es, h⟩

end Run

end AccessDepth
