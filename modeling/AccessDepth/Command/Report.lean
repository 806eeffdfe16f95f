import AccessDepth.Run
import AccessDepth.Store.Report

/-!
# AccessDepth.Command.Report

What a command tells its user.

* `Report` — the result of a command.
* `Report.lines` and `Report.complaints` — the lines for standard output and for standard error.
* `Report.code` — 0, or 1 for a command that failed.
-/

namespace AccessDepth

/-- What is measured outside: how long a run took, and the size of the file of the store. -/
structure Measures where
  duration : Option String
  storeSize : Option String

/-- The result of a command. -/
inductive Report where
  | ran (settings : Settings) (mode : Mode) (result : Except Failure RunReport)
  | truncated (database logDir : Path)
  | counted (database : Path) (stats : StoreStats)
  | listed (file : Path) (records : List AccessRecord)
  /-- A text about the tool. -/
  | told (lines : List String)
  | failed (cause : Failure)

namespace Report

/-- How many skips are shown. -/
def shownSkips : Nat := 5

def skipLines (skips : List Skip) : List String :=
  if skips.isEmpty then []
  else
    ["", s!"Errors ({skips.length}):"] ++
      (skips.take shownSkips).map (fun s => s!"  • {s.path.text}: {s.message}") ++
      (if shownSkips < skips.length then [s!"  ... and {skips.length - shownSkips} more"] else [])

def runLines (m : Measures) (settings : Settings) (mode : Mode) (r : RunReport) : List String :=
  ["", s!"Analyzed {r.completed} directories, {r.packages} units"] ++
    m.duration.toList.map ("Duration: " ++ ·) ++
    (if 0 < r.already then
      [s!"Skipped: {r.already} of {r.total} directories (already completed)"] else []) ++
    skipLines r.skips ++
    (settings.logPaths mode).map fun p => "Completed log: " ++ p.text

def statsLines (m : Measures) (database : Path) (s : StoreStats) : List String :=
  let size := (m.storeSize.map fun size => s!" ({size})").getD ""
  ["memdepth Database Statistics", "", s!"  Database: {database.text}{size}", "",
    s!"  Files: {s.files}", s!"  Types: {s.types}", s!"  Functions: {s.functions}",
    s!"  Variables: {s.vars}", s!"  Statements: {s.statements}",
    s!"  Expressions: {s.expressions}", s!"  Memory accesses: {s.accesses}",
    s!"  Make sites: {s.makeSites}", s!"  Sized allocations: {s.sizedAllocSites}"]

/-- A text filled up with blanks to a width. -/
def padded (width : Nat) (s : String) : String :=
  s ++ String.ofList (List.replicate (width - s.length) ' ')

def recordLine (r : AccessRecord) : String :=
  let uncertainty := if 0 < r.uncertainty then s!"?{r.uncertainty}" else ""
  s!"  {r.span.startLine}:{r.span.startColumn}  {padded 22 (Vocabulary.text r.kind)} " ++
    s!"depth {r.depth}{uncertainty}  " ++ r.baseName.getD "<call>"

def recordLines (file : Path) (records : List AccessRecord) : List String :=
  if records.isEmpty then [s!"No memory accesses recorded for {file.text}"]
  else [s!"{records.length} memory accesses in {file.text}:", ""] ++ records.map recordLine

/-- The lines for standard output. -/
def lines (m : Measures) : Report → List String
  | .ran settings mode result =>
    s!"Analyzing {settings.corpusRoot.text} ({Vocabulary.text mode} mode)..." ::
      match result with
      | .ok r => runLines m settings mode r
      | .error _ => []
  | .truncated database logDir =>
    [s!"Truncated all tables in {database.text}",
      s!"Completed logs in {logDir.text} still list finished directories."]
  | .counted database stats => statsLines m database stats
  | .listed file records => recordLines file records
  | .told lines => lines
  | .failed _ => []

/-- Why the command failed, if it did. -/
def cause? : Report → Option Failure
  | .ran _ _ (.error cause) => some cause
  | .failed cause => some cause
  | _ => none

/-- The lines for standard error. -/
def complaints (r : Report) : List String := r.cause?.toList.map ("error: " ++ ·.message)

def code (r : Report) : Nat := if r.cause?.isSome then 1 else 0

end Report

end AccessDepth
