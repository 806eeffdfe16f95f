import AccessDepth.Run.Phase
import AccessDepth.Run.Stage

/-!
# AccessDepth.Run.Pipeline

A pass that is shared among workers. All are at work at once:

* the feeder hands out the directories,
* some workers load them,
* some workers analyze them,
* the keeper takes what came of them into the log.

Between two of these is a queue with room for only so many values. Who finds it full, or empty
although more may come, waits.

* `Pipeline` — a pass under way.
* `Pipeline.Event`, `Pipeline.act` — a move of one of them, if it need not wait. Every interleaving
  is a list of events.
* `Pipeline.result` — what the pass returns once all are through.

The first failure ends the pass. The others notice it when they next look: from then on the feeder
hands out nothing, and what was on its way is thrown away.

The analysis of a package is one move, and all workers share one session. Workers that write row by row
in sessions of their own have many transactions in place of such a move, between which others can move.
`Plan.Parts.Reached` is about transactions that alternate in that way.
-/

namespace AccessDepth

/-- How many workers of each kind a pass has, and the room in its queues. -/
structure Staff where
  loaders : Nat
  analyzers : Nat
  room : Nat
  loaders_pos : 0 < loaders
  analyzers_pos : 0 < analyzers
  room_pos : 0 < room

namespace Stage

variable {α : Type}

/-- Makes producers. -/
def withProducers : Nat → Stage α → Stage α
  | 0, s => s
  | n + 1, s => withProducers n s.producer.2

/-- A queue with the producers that were announced. -/
def staffed (n : Nat) : Stage α := withProducers n (start n)

/-- Whether a producer has to wait. One whose consumer has gone does not. -/
def isFull (s : Stage α) (room : Nat) : Bool := s.attended && decide (room ≤ s.queue.length)

end Stage

namespace Pipeline

/-- A directory with its packages, or with why it has none. -/
structure Loaded where
  dir : Path
  packages : Except Failure (List Package)

inductive Feeder where
  /-- About to look whether the pass is to end. -/
  | looking (dirs : List Path)
  | offering (dir : Path) (dirs : List Path)
  | gone

inductive LoadWorker where
  | receiving
  | looking (dir : Path)
  | loading (dir : Path)
  | offering (x : Loaded)
  | gone

inductive AnalyzeWorker where
  /-- About to open its session. -/
  | opening
  | receiving
  | looking (x : Loaded)
  /-- Some packages of a directory are left. -/
  | analyzing (dir : Path) (packages : Nat) (left : List Package) (skips : List Skip)
  | offering (v : Visit)
  | gone

inductive Keeper where
  /-- Still has a share in the queue of the analyzing workers. -/
  | starting
  | receiving
  | looking (v : Visit)
  | settling (v : Visit)
  /-- For the others to leave; nothing more will come. -/
  | waiting

def LoadWorker.isGone : LoadWorker → Bool
  | .gone => true
  | _ => false

def AnalyzeWorker.isGone : AnalyzeWorker → Bool
  | .gone => true
  | _ => false

def Keeper.isStarting : Keeper → Bool
  | .starting => true
  | _ => false

/-- Whether this is a directory to be logged. -/
def isCompleted : Visit → Bool
  | .completed .. => true
  | .skipped _ => false

end Pipeline

open Pipeline in
/-- A pass under way. -/
structure Pipeline where
  feeder : Feeder
  paths : List Path
  loaders : List LoadWorker
  loaded : Stage Loaded
  analyzers : List AnalyzeWorker
  outcomes : Stage Visit
  keeper : Keeper
  /-- The first failure. -/
  stopped : Option Failure
  report : Phase.Report
  workspace : Workspace

namespace Pipeline

inductive Event where
  | feed
  | load (i : Nat)
  /-- A worker cannot open its session. -/
  | refuse (i : Nat) (f : Failure)
  /-- A worker moves on; its store takes so many transactions. -/
  | analyze (i : Nat) (writesLeft : Option Nat)
  | keep

/-- A pass over some directories begins, when those in the log have been reported. -/
def start (staff : Staff) (dirs : List Path) (report : Phase.Report) (w : Workspace) : Pipeline :=
  { feeder := .looking dirs, paths := []
    loaders := List.replicate staff.loaders .receiving, loaded := .staffed staff.loaders
    analyzers := List.replicate staff.analyzers .opening, outcomes := .staffed staff.analyzers
    keeper := .starting, stopped := none, report := report, workspace := w }

def stop (p : Pipeline) (f : Failure) : Pipeline := { p with stopped := p.stopped.or (some f) }

/-- When no one is left who could receive it, what was loaded is thrown away. -/
def attend (p : Pipeline) : Pipeline :=
  if p.analyzers.all AnalyzeWorker.isGone && !p.keeper.isStarting then
    { p with loaded := p.loaded.hangUp.2 }
  else p

def setLoader (p : Pipeline) (i : Nat) (l : LoadWorker) : Pipeline :=
  { p with loaders := p.loaders.set i l }

def setAnalyzer (p : Pipeline) (i : Nat) (a : AnalyzeWorker) : Pipeline :=
  { p with analyzers := p.analyzers.set i a }

/-- A loading worker goes. -/
def dismissLoader (p : Pipeline) (i : Nat) : Pipeline :=
  { p.setLoader i .gone with loaded := (p.loaded.drop i).2 }

/-- An analyzing worker goes. -/
def dismissAnalyzer (p : Pipeline) (i : Nat) : Pipeline :=
  attend { p.setAnalyzer i .gone with outcomes := (p.outcomes.drop i).2 }

/-- The workspace of a worker whose store takes so many transactions. -/
def bench (p : Pipeline) (writesLeft : Option Nat) : Workspace :=
  { p.workspace with session := { p.workspace.session with writesLeft := writesLeft } }

def feed (room : Nat) (p : Pipeline) : Option Pipeline :=
  match p.feeder with
  | .looking [] => some { p with feeder := .gone }
  | .looking (dir :: dirs) =>
    some { p with feeder := if p.stopped.isSome then .gone else .offering dir dirs }
  | .offering dir dirs =>
    if p.loaders.all LoadWorker.isGone then some { p with feeder := .gone }
    else if p.paths.length < room then
      some { p with feeder := .looking dirs, paths := p.paths ++ [dir] }
    else none
  | .gone => none

def load (job : Job) (mode : Mode) (room : Nat) (p : Pipeline) (i : Nat) : Option Pipeline :=
  match p.loaders[i]? with
  | some .receiving =>
    match p.paths, p.feeder with
    | dir :: dirs, _ => some { p.setLoader i (.looking dir) with paths := dirs }
    | [], .gone => some (p.dismissLoader i)
    | [], _ => none
  | some (.looking dir) =>
    some (p.setLoader i (if p.stopped.isSome then .receiving else .loading dir))
  | some (.loading dir) =>
    some (p.setLoader i (.offering ⟨dir, job.loader p.workspace.disk dir mode.loadMode⟩))
  | some (.offering x) =>
    if p.loaded.isFull room then none
    else
      match p.loaded.send i x with
      | (some true, loaded) => some { p.setLoader i .receiving with loaded := loaded }
      | _ => some (p.dismissLoader i)
  | some .gone => none
  | none => none

def refuse (p : Pipeline) (i : Nat) (f : Failure) : Option Pipeline :=
  match p.analyzers[i]? with
  | some .opening => some ((p.dismissAnalyzer i).stop f)
  | _ => none

/-- What a worker does with what it received. -/
def examine (x : Loaded) : AnalyzeWorker :=
  match x.packages with
  | .error f => .offering (.skipped (.ofFailure x.dir f))
  | .ok packages => .analyzing x.dir packages.length packages []

def analyze (mode : Mode) (room : Nat) (p : Pipeline) (i : Nat) (writesLeft : Option Nat) :
    Option Pipeline :=
  match p.analyzers[i]? with
  | some .opening => some (p.setAnalyzer i .receiving)
  | some .receiving =>
    match p.loaded.receive with
    | (some (.value x), loaded) => some { p.setAnalyzer i (.looking x) with loaded := loaded }
    | (some .disconnected, _) => some (p.dismissAnalyzer i)
    | _ => none
  | some (.looking x) =>
    some (p.setAnalyzer i (if p.stopped.isSome then .receiving else examine x))
  | some (.analyzing dir packages [] skips) =>
    some (p.setAnalyzer i (.offering (.completed dir packages skips)))
  | some (.analyzing dir packages (next :: left) skips) =>
    match Run.analyzing (AccessDepth.analyze next mode) (p.bench writesLeft) with
    | .ok more w =>
      some { p.setAnalyzer i (.analyzing dir packages left (skips ++ more)) with workspace := w }
    | .error f w => some ({ p.setAnalyzer i .receiving with workspace := w }.stop f)
  | some (.offering v) =>
    if p.outcomes.isFull room then none
    else
      match p.outcomes.send i v with
      | (some true, outcomes) => some { p.setAnalyzer i .receiving with outcomes := outcomes }
      | _ => some (p.dismissAnalyzer i)
  | some .gone => none
  | none => none

def keep (log : Path) (p : Pipeline) : Option Pipeline :=
  match p.keeper with
  | .starting => some (attend { p with keeper := .receiving })
  | .receiving =>
    match p.outcomes.receive with
    | (some (.value v), outcomes) => some { p with keeper := .looking v, outcomes := outcomes }
    | (some .disconnected, _) => some { p with keeper := .waiting }
    | _ => none
  | .looking v =>
    some { p with
      keeper := if isCompleted v && p.stopped.isSome then .receiving else .settling v }
  | .settling v =>
    match Phase.settle log p.report v p.workspace with
    | .ok report w => some { p with keeper := .receiving, report := report, workspace := w }
    | .error f w => some ({ p with keeper := .receiving, workspace := w }.stop f)
  | .waiting => none

/-- What an event does, if it can happen. -/
def act (job : Job) (mode : Mode) (room : Nat) (p : Pipeline) : Event → Option Pipeline
  | .feed => p.feed room
  | .load i => p.load job mode room i
  | .refuse i f => p.refuse i f
  | .analyze i writesLeft => p.analyze mode room i writesLeft
  | .keep => p.keep (job.settings.logPath mode)

def acts (job : Job) (mode : Mode) (room : Nat) (p : Pipeline) (es : List Event) :
    Option Pipeline :=
  es.foldlM (act job mode room) p

/-- Whether all are through. -/
def isOver (p : Pipeline) : Bool :=
  match p.feeder, p.keeper with
  | .gone, .waiting => p.loaders.all LoadWorker.isGone && p.analyzers.all AnalyzeWorker.isGone
  | _, _ => false

/-- What the pass returns once all are through. -/
def result (p : Pipeline) : Option (Except Failure Phase.Report) :=
  if p.isOver then
    match p.stopped with
    | some f => some (.error f)
    | none =>
      some (.ok { p.report with finished := p.report.finished.mergeSort Path.notAfter })
  else none

end Pipeline

end AccessDepth
