import AccessDepth.Analysis
import AccessDepth.Run.Ledger
import AccessDepth.Run.Loader
import AccessDepth.Run.Workspace

/-!
# AccessDepth.Run.Phase

One pass over the directories of a corpus.

* `Phase.visit` — loads a directory and analyzes its packages. A directory that does not load is
  skipped; a package whose rows cannot be stored ends the run.
* `Phase.settle` — a directory is added to the log after all of its packages were analyzed.
* `Phase.run` — passes over the directories that are not in the log, in the order of a schedule.
-/

namespace AccessDepth

/-- In which order the directories of a pass are analyzed. -/
abbrev Schedule := Mode → List Path → List Path

/-- In the order in which they were found. -/
def Schedule.asFound : Schedule := fun _ dirs => dirs

/-- What a run goes by. -/
structure Job where
  settings : Settings
  loader : Loader
  schedule : Schedule

/-- What came of a directory. -/
inductive Visit where
  | completed (dir : Path) (packages : Nat) (skips : List Skip)
  | skipped (skip : Skip)

/-- What a pass achieved. -/
structure Phase.Report where
  /-- The directories in the log, before the pass or because of it. -/
  finished : List Path
  /-- How many were in the log before. -/
  already : Nat
  completed : Nat
  packages : Nat
  skips : List Skip

namespace Phase

/-- Analyzes packages one after the other. -/
def analyzeAll (mode : Mode) : List Package → Analyze (List Skip)
  | [] => pure []
  | p :: ps => do
    let skips ← analyze p mode
    let more ← analyzeAll mode ps
    pure (skips ++ more)

/-- Loads a directory and analyzes its packages. -/
def visit (loader : Loader) (mode : Mode) (dir : Path) : Run Visit := do
  match loader (← get).disk dir mode.loadMode with
  | .error e => pure (.skipped (.ofFailure dir e))
  | .ok packages =>
    let skips ← Run.analyzing (analyzeAll mode packages)
    pure (.completed dir packages.length skips)

/-- Takes an outcome into the report; a completed directory goes into the log first. -/
def settle (log : Path) (r : Phase.Report) : Visit → Run Phase.Report
  | .skipped skip => pure { r with skips := r.skips ++ [skip] }
  | .completed dir packages skips => do
    Run.onDisk (Ledger.append log dir)
    pure
      { r with
        finished := r.finished ++ [dir]
        completed := r.completed + 1
        packages := r.packages + packages
        skips := r.skips ++ skips }

/-- Visits directories one after the other. -/
def visitAll (loader : Loader) (mode : Mode) (log : Path) :
    List Path → Phase.Report → Run Phase.Report
  | [], r => pure r
  | dir :: dirs, r => do
    let outcome ← visit loader mode dir
    visitAll loader mode log dirs (← settle log r outcome)

/-- Passes over the candidates that are not in the log. Without workers none is visited. -/
def run (job : Job) (mode : Mode) (candidates : List Path) : Run Phase.Report := do
  let log := job.settings.logPath mode
  let done ← Run.inspect fun d => (Ledger.read d log).mapError .file
  Run.onDisk (Ledger.prepare log)
  let (finished, pending) := candidates.partition fun dir => done.any dir.same
  let visited := if job.settings.hasWorkers then job.schedule mode pending else []
  let report ← visitAll job.loader mode log visited
    { finished := finished, already := finished.length, completed := 0, packages := 0, skips := [] }
  pure { report with finished := report.finished.mergeSort Path.notAfter }

end Phase

end AccessDepth
