import AccessDepth.Command
import AccessDepth.Store.Image

/-!
# AccessDepth.Main

The program: it copies what a command needs from the file system to a disk, carries the command out
there, and copies back what has changed.

* `Snapshot` — the files of the settings, the store, the logs and the corpus.
* `main` — prints the lines of the report; the exit code is 0, 1 for a failure, or 2 for a command
  line that asks for nothing.
-/

namespace AccessDepth

/-- A number of hundredths with two decimals. -/
def hundredths (n : Nat) : String :=
  let fraction := toString (n % 100)
  s!"{n / 100}." ++ (if fraction.length = 1 then "0" ++ fraction else fraction)

/-- A quotient in hundredths, rounded to the nearest one. -/
def hundredthsOf (n unit : Nat) : Nat := (n * 100 + unit / 2) / unit

/-- A duration with two decimals in the largest unit of which there is a whole one. -/
def durationText (nanos : Nat) : String :=
  if 1000000000 ≤ nanos then hundredths (hundredthsOf nanos 1000000000) ++ "s"
  else if 1000000 ≤ nanos then hundredths (hundredthsOf nanos 1000000) ++ "ms"
  else if 1000 ≤ nanos then hundredths (hundredthsOf nanos 1000) ++ "µs"
  else toString nanos ++ "ns"

/-- A size with one decimal in the largest unit of which there is a whole one. -/
def sizeText (bytes : Nat) : String :=
  let scaled (unit : Nat) (name : String) :=
    let tenths := (bytes * 10 + unit / 2) / unit
    s!"{tenths / 10}.{tenths % 10} {name}"
  if 1 <<< 30 ≤ bytes then scaled (1 <<< 30) "GB"
  else if 1 <<< 20 ≤ bytes then scaled (1 <<< 20) "MB"
  else if 1 <<< 10 ≤ bytes then scaled (1 <<< 10) "KB"
  else s!"{bytes} B"

namespace Snapshot

/-- The disk after a change that may be refused. -/
def after (d : Disk) (change : Disk.Change) : Disk :=
  match change d with
  | .ok () d => d
  | .error _ d => d

/-- The entry for the bytes of the file that is to hold the store. -/
def storeEntry (bytes : ByteArray) : Entry :=
  match (String.fromUTF8? bytes).bind Store.ofText? with
  | some content => .store content
  | none => .file bytes

/-- Copies a file to the disk, if it is there. -/
def addFile (d : Disk) (p : Path) (entry : ByteArray → Entry) : IO Disk := do
  let here ← IO.currentDir
  let there := here / p.text
  if ← there.isDir then return after d (Disk.createDirs p)
  else if ← there.pathExists then
    let bytes ← IO.FS.readBinFile there
    return after d do
      Disk.createParents p
      Disk.putFile p (entry bytes)
  else return d

/-- Copies a directory to the disk. Of the files only those of the given name are copied with what
is in them. -/
partial def addTree (d : Disk) (p : Path) (fileName : String) : IO Disk := do
  let here ← IO.currentDir
  let there := here / p.text
  unless ← there.isDir do
    return ← addFile d p .file
  let mut d := after d (Disk.createDirs p)
  for e in ← there.readDir do
    let child := p.child e.fileName
    if ← (here / child.text).isDir then d ← addTree d child fileName
    else if e.fileName = fileName then d ← addFile d child .file
    else d := after d (Disk.write child .empty)
  return d

/-- What the command reads of the corpus. -/
def addCorpus (d : Disk) (c : Settings) : Command → IO Disk
  | .run _ _ _ unitsFile => do
    let parts := (⟨unitsFile⟩ : Path).pieces
    addTree d c.corpusRoot (parts.getLast?.getD unitsFile)
  | _ => return d

/-- The logs that the command adds to. -/
def logs (c : Settings) : Command → List Path
  | .run mode .. => c.logPaths mode
  | _ => []

/-- The disk that a request needs. -/
def take (r : Request) : IO Disk := do
  let here ← IO.currentDir
  let names := (⟨here.toString⟩ : Path).pieces.filter (· ≠ "")
  let mut d : Disk := ⟨(Entry.directory []), []⟩
  d := { (after d (Disk.createDirs ⟨here.toString⟩)) with start := names }
  let .invoke i := r | return d
  if let some file := i.config then d ← addFile d file .file
  match i.settingsOn d with
  | .error _ => return d
  | .ok c =>
    d ← addCorpus d c i.command
    for log in logs c i.command do
      d ← addFile d log .file
    addFile d c.databasePath storeEntry

/-- Writes a file and makes the directories above it. -/
def putFile (p : Path) (bytes : ByteArray) : IO Unit := do
  let here ← IO.currentDir
  if let some parent := p.parent? then
    IO.FS.createDirAll (here / parent.text)
  IO.FS.writeBinFile (here / p.text) bytes

/-- Copies the store and the logs back to the file system. Tells the size of the store. -/
def putBack (r : Request) (d : Disk) : IO (Option Nat) := do
  let .invoke i := r | return none
  match i.settingsOn d with
  | .error _ => return none
  | .ok c =>
    for log in logs c i.command do
      if let .ok bytes := d.read log then putFile log bytes
    match d.store? c.databasePath with
    | some content =>
      let bytes := content.toText.toUTF8
      putFile c.databasePath bytes
      return some bytes.size
    | none => return none

end Snapshot

end AccessDepth

open AccessDepth in
def main (arguments : List String) : IO UInt32 := do
  match Request.ofArguments? arguments with
  | none =>
    for line in ["Usage: " ++ Help.usage .tool, "", "For more information, try '--help'."] do
      IO.eprintln line
    return 2
  | some request =>
    let started ← IO.monoNanosNow
    let (report, disk) := request.answer (← Snapshot.take request)
    let size ← Snapshot.putBack request disk
    let duration := durationText ((← IO.monoNanosNow) - started)
    let measures : Measures := ⟨some duration, some ((size.map sizeText).getD "size unknown")⟩
    for line in report.lines measures do IO.println line
    for line in report.complaints do IO.eprintln line
    return report.code.toUInt32
