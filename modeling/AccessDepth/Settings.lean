import AccessDepth.Disk

/-!
# AccessDepth.Settings

The settings of a run.

* `Settings.forRoot` — the settings for a corpus when nothing else is said.
* `Settings.databasePath`, `Settings.logDirPath` — where state is kept: in a directory of the corpus
  unless it is set.
* `Settings.parseWorkersOn`, `Settings.writeWorkersOn` — the numbers of workers, by the number of
  hardware threads unless they are set.
* `Settings.problem?` — the first reason not to run with some settings.
-/

namespace AccessDepth

structure Settings where
  corpusRoot : Path
  database : Option Path
  logDir : Option Path
  parseWorkers : Option Nat
  writeWorkers : Option Nat
  queueCapacity : Nat
  /-- How long to wait for another writer, in milliseconds. -/
  busyTimeout : Nat
  typeCacheCapacity : Nat
  fileCacheCapacity : Nat
  deriving DecidableEq, Inhabited

/-- A quarter of the hardware threads, at least one. -/
def defaultParseWorkers (threads : Nat) : Nat := max (threads / 4) 1

/-- An eighth of the hardware threads, at least one and at most ten. -/
def defaultWriteWorkers (threads : Nat) : Nat := min (max (threads / 8) 1) 10

namespace Settings

def defaultQueueCapacity : Nat := 10

def defaultBusyTimeout : Nat := 30000

def defaultCacheCapacity : Nat := 65536

def forRoot (root : Path) : Settings :=
  { corpusRoot := root, database := none, logDir := none, parseWorkers := none,
    writeWorkers := none, queueCapacity := defaultQueueCapacity,
    busyTimeout := defaultBusyTimeout, typeCacheCapacity := defaultCacheCapacity,
    fileCacheCapacity := defaultCacheCapacity }

/-- The directory of the corpus in which state is kept. -/
def stateDirectory (c : Settings) : Path := c.corpusRoot.child ".memdepth"

def databasePath (c : Settings) : Path := c.database.getD (c.stateDirectory.child "memdepth.db")

def logDirPath (c : Settings) : Path := c.logDir.getD c.stateDirectory

/-- The log of one pass. -/
def logPath (c : Settings) (phase : Mode) : Path := c.logDirPath.child phase.logName

/-- The logs of a mode, in the order of its passes. -/
def logPaths (c : Settings) (mode : Mode) : List Path := mode.phases.map c.logPath

def parseWorkersOn (c : Settings) (threads : Nat) : Nat :=
  c.parseWorkers.getD (defaultParseWorkers threads)

def writeWorkersOn (c : Settings) (threads : Nat) : Nat :=
  c.writeWorkers.getD (defaultWriteWorkers threads)

/-- Whether neither number of workers is set to 0. -/
def hasWorkers (c : Settings) : Bool := c.parseWorkers != some 0 && c.writeWorkers != some 0

/-- A cache has room for one entry at least. -/
def typeCache (c : Settings) : Nat := max c.typeCacheCapacity 1

def fileCache (c : Settings) : Nat := max c.fileCacheCapacity 1

/-- The settings that must be at least 1, with their values if they are set. -/
def positiveSettings (c : Settings) : List (String × Option Nat) :=
  [("parse-workers", c.parseWorkers), ("write-workers", c.writeWorkers),
    ("queue-capacity", some c.queueCapacity), ("type-cache-capacity", some c.typeCacheCapacity),
    ("file-cache-capacity", some c.fileCacheCapacity)]

/-- The first reason not to run with these settings. -/
def problem? (c : Settings) (d : Disk) : Option SettingsProblem :=
  if c.corpusRoot.text = "" then some .rootUnset
  else if !d.isDirectory c.corpusRoot then some (.rootNotADirectory c.corpusRoot)
  else (c.positiveSettings.find? fun s => s.2 == some 0).map fun s => .tooSmall s.1

end Settings

end AccessDepth
