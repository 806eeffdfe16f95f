import AccessDepth.Run.Discovery
import AccessDepth.Run.Phase

/-!
# AccessDepth.Run

Runs over a corpus.

* `Run.execute` — makes the passes of a mode one after the other. A pass covers the whole corpus
  before the next one starts, and the next one sees only directories that it finished.
* `Run.fresh` — checks the settings, opens the store and executes.

The unit of progress is a directory. A run that ends early leaves in the log what it has completed,
and the next run goes on from there.
-/

namespace AccessDepth

/-- What a run achieved. -/
structure RunReport where
  /-- How many directories were found. -/
  total : Nat
  /-- How many of them the last pass found in its log. -/
  already : Nat
  /-- How many the last pass completed. -/
  completed : Nat
  /-- How many packages the last pass analyzed. -/
  packages : Nat
  /-- What any pass skipped. -/
  skips : List Skip

/-- Adds a skip unless there is one of the same path and message. -/
def Run.addSkip (known : List Skip) (skip : Skip) : List Skip :=
  if known.any fun k => k.path.same skip.path && k.message == skip.message then known
  else known ++ [skip]

/-- The report of a run after one more pass. -/
def RunReport.after (r : RunReport) (p : Phase.Report) : RunReport :=
  { r with
    already := p.already
    completed := p.completed
    packages := p.packages
    skips := p.skips.foldl Run.addSkip r.skips }

namespace Run

/-- Makes passes, each over the directories that the one before it finished. -/
def passes (job : Job) : List Mode → List Path → RunReport → Run RunReport
  | [], _, r => pure r
  | mode :: modes, candidates, r => do
    let report ← Phase.run job mode candidates
    passes job modes report.finished (r.after report)

/-- Makes the passes of a mode over a corpus. -/
def execute (job : Job) (mode : Mode) : Run RunReport := do
  let found ← Run.inspect (Discovery.discover · job.settings.corpusRoot)
  passes job mode.phases found
    { total := found.length, already := 0, completed := 0, packages := 0, skips := [] }

/-- Checks the settings, opens the store and executes. The store is put back on the disk whether the
run succeeds or not. -/
def fresh (job : Job) (mode : Mode) : EStateM Failure Disk RunReport := fun d =>
  match job.settings.problem? d with
  | some problem => .error (.settings problem) d
  | none =>
    match Workspace.openSession job.settings d with
    | .error e d => .error e d
    | .ok session d =>
      let database := job.settings.databasePath
      match execute job mode ⟨d, session⟩ with
      | .ok report w => .ok report (w.save database).disk
      | .error e w => .error e (w.save database).disk

end Run

end AccessDepth
