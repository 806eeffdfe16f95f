import AccessDepth.Analysis.Session
import AccessDepth.Settings

/-!
# AccessDepth.Run.Workspace

What a run works on.

* `Workspace` — a disk, and a session on a store that is kept on it.
* `Run` — a computation on a workspace. When it fails, what it did before stays done.
* `Run.onDisk`, `Run.analyzing` — operations on the disk alone and on the session alone.
* `Workspace.open`, `Workspace.save`, `Workspace.reload` — the store of a session is a copy of the
  one on the disk, made when a session starts; it is put back when a run ends.
-/

namespace AccessDepth

structure Workspace where
  disk : Disk
  session : Session

abbrev Run := EStateM Failure Workspace

namespace Workspace

/-- Opens the store of some settings, for a session with empty caches. -/
def openSession (c : Settings) : EStateM Failure Disk Session := do
  let store ← Disk.openStore c.databasePath
  pure (.start store c.corpusRoot c.typeCache c.fileCache)

/-- The workspace with the store of its session put back on the disk. -/
def save (w : Workspace) (database : Path) : Workspace :=
  { w with disk := w.disk.saveStore database w.session.store }

/-- The workspace with the store that is on the disk, if it is there. -/
def reload (w : Workspace) (database : Path) : Workspace :=
  match w.disk.store? database with
  | some content => { w with session := { w.session with store := content } }
  | none => w

end Workspace

namespace Run

/-- Changes the disk. -/
def onDisk (change : Disk.Change) : Run Unit := fun w =>
  match change w.disk with
  | .ok () disk => .ok () { w with disk := disk }
  | .error e disk => .error (.file e) { w with disk := disk }

/-- Looks at the disk. -/
def inspect {α : Type} (f : Disk → Except Failure α) : Run α := fun w =>
  match f w.disk with
  | .ok x => .ok x w
  | .error e => .error e w

/-- Works on the session. -/
def analyzing {α : Type} (a : Analyze α) : Run α := fun w =>
  match a w.session with
  | .ok x session => .ok x { w with session := session }
  | .error e session => .error e { w with session := session }

end Run

end AccessDepth
