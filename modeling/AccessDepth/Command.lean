import AccessDepth.Command.Arguments
import AccessDepth.Command.Help
import AccessDepth.Command.Report
import AccessDepth.Settings.Text

/-!
# AccessDepth.Command

What the commands do.

* `Invocation.settingsOn` — the settings of an invocation: those of a file, or the defaults for the
  directory in which paths start; then those of the command line.
* `Invocation.execute` — carries out a command on a disk.
* `Request.answer` — does what a command line asks for.
-/

namespace AccessDepth
namespace Invocation

/-- The settings that concern every command. -/
def settingsOn (i : Invocation) (d : Disk) : Except Failure Settings := do
  let c ← match i.config with
    | some file => Settings.load d file
    | none => .ok (.forRoot d.startPath)
  .ok { c with
    corpusRoot := i.corpus.getD c.corpusRoot
    database := i.database.or c.database }

/-- Opens the store of some settings; `f` says what to report and which store to keep. -/
def onStore (c : Settings) (f : Store → Except Failure (Report × Store)) (d : Disk) :
    Report × Disk :=
  match Disk.openStore c.databasePath d with
  | .error e d => (.failed e, d)
  | .ok store d =>
    match f store with
    | .error e => (.failed e, d)
    | .ok (report, store) => (report, d.saveStore c.databasePath store)

/-- The accesses of a file from a depth upwards. -/
def deepAccesses (s : Store) (file : Path) (minDepth : Option Int) :
    Except Failure (List AccessRecord) :=
  match s.accessRecords (some file) with
  | .ok records => .ok (records.filter fun r => minDepth.all fun n => n ≤ r.depth)
  | .error span => .error (.store (.unorderedSpan span))

/-- Carries out a command with its settings. -/
def perform (c : Settings) (d : Disk) : Command → Report × Disk
  | .run mode parseWorkers writeWorkers unitsFile =>
    let c := { c with
      parseWorkers := parseWorkers.or c.parseWorkers
      writeWorkers := writeWorkers.or c.writeWorkers }
    match Run.fresh ⟨c, .exports unitsFile, .asFound⟩ mode d with
    | .ok report d => (.ran c mode (.ok report), d)
    | .error e d => (.ran c mode (.error e), d)
  | .truncate confirmed =>
    d |> onStore c fun s =>
      if confirmed then
        match s.truncate with
        | .ok s => .ok (.truncated c.databasePath c.logDirPath, s)
        | .error v => .error (.store (.violation v))
      else .error (.settings (.unconfirmed c.databasePath))
  | .stats => d |> onStore c fun s => .ok (.counted c.databasePath s.stats, s)
  | .depths file minDepth =>
    d |> onStore c fun s => (deepAccesses s file minDepth).map fun rs => (.listed file rs, s)

/-- Carries out what a command line asks for. -/
def execute (i : Invocation) (d : Disk) : Report × Disk :=
  match i.settingsOn d with
  | .error e => (.failed e, d)
  | .ok c => perform c d i.command

end Invocation

/-- Does what a command line asks for. -/
def Request.answer (r : Request) (d : Disk) : Report × Disk :=
  match r with
  | .help about => (.told (Help.page about), d)
  | .version command => (.told [Help.versionLine command], d)
  | .invoke i => i.execute d

end AccessDepth
