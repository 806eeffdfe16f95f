import AccessDepth.Path
import AccessDepth.Failure
import AccessDepth.Store

/-!
# AccessDepth.Disk

The part of a file system that the tool reads and writes.

* `Entry` — a file, a directory or a store. All names are texts, and there are no links. What else the
  search for sources can meet is in `Discovery.Tree`.
* `Disk` — the entries below the root, and the directory in which relative paths start.
* `Disk.place` — where a path leads. Each of its pieces is looked up in a directory that must be
  there; only the last piece may be missing. `.` and `..` are followed, not cut off.
* `Disk.Change` — an operation that changes a disk: `write`, `append`, `createDirs`, `remove`. One
  that is refused changes nothing, but for the directories that `createDirs` made before it stopped.
* `Disk.storePlace` — where the file of a store is. Here `.` and `..` are cut off.
* `Disk.openStore` — the store in a file, which is made if it is not there.
-/

namespace AccessDepth

/-- What a name in a directory stands for. -/
inductive Entry where
  | file (bytes : ByteArray)
  | directory (entries : List (String × Entry))
  /-- The file of a store. -/
  | store (content : Store)
  deriving Inhabited

namespace Entry

/-- The entry of a name in a directory. -/
def named? (entries : List (String × Entry)) (name : String) : Option Entry :=
  (entries.find? fun e => e.1 == name).map (·.2)

/-- The entry at the end of a list of names. -/
def at? (e : Entry) : List String → Option Entry
  | [] => some e
  | name :: names =>
    match e with
    | .directory entries =>
      match named? entries name with
      | some child => child.at? names
      | none => none
    | _ => none

/-- The entries of a directory with another one under a name, or with none. -/
def setName (entries : List (String × Entry)) (name : String) : Option Entry →
    List (String × Entry)
  | none => entries.filter fun e => e.1 != name
  | some child =>
    if entries.any fun e => e.1 == name then
      entries.map fun e => if e.1 == name then (name, child) else e
    else entries ++ [(name, child)]

/-- Puts an entry at the end of a list of names, or removes what is there. Nothing changes where
the names do not lead through directories. -/
def set (new : Option Entry) (e : Entry) : List String → Entry
  | [] => new.getD e
  | [name] =>
    match e with
    | .directory entries => .directory (setName entries name new)
    | _ => e
  | name :: names =>
    match e with
    | .directory entries =>
      match named? entries name with
      | some child => .directory (setName entries name (some (child.set new names)))
      | none => e
    | _ => e

def isDirectory : Entry → Bool
  | .directory _ => true
  | _ => false

/-- Whether the entry is a file, that of a store included. -/
def isFile : Entry → Bool
  | .directory _ => false
  | _ => true

end Entry

structure Disk where
  root : Entry
  /-- The names from the root to the directory in which relative paths start. -/
  start : List String
  deriving Inhabited

namespace Disk

/-- A change of a disk that may be refused. -/
abbrev Change := EStateM FileProblem Disk Unit

/-- The change to a disk that is found by a look at the old one. -/
def Change.of (f : Disk → Except FileProblem Disk) : Change := fun d =>
  match f d with
  | .ok d => .ok () d
  | .error e => .error e d

/-! ## Places -/

/-- The directory in which relative paths start, as an absolute path. -/
def startPath (d : Disk) : Path := .ofComponents (.root :: d.start.map .name)

/-- How many bytes a name may have. -/
def nameLimit : Nat := 255

/-- How many bytes a path may have. -/
def pathLimit : Nat := 4095

/-- Where a path starts. -/
def origin (d : Disk) (p : Path) : List String := if p.isAbsolute then [] else d.start

/-- A place after one more piece of a path. -/
def step (d : Disk) (place : List String) (piece : String) : Except FileProblem (List String) :=
  match d.root.at? place with
  | none => .error .notFound
  | some (.directory _) =>
    if piece = "" ∨ piece = "." then .ok place
    else if piece = ".." then .ok place.dropLast
    else if nameLimit < piece.utf8ByteSize then .error .nameTooLong
    else .ok (place ++ [piece])
  | some _ => .error .notADirectory

/-- The place to which some pieces of a path lead. -/
def follow (d : Disk) (p : Path) (pieces : List String) : Except FileProblem (List String) :=
  if p.text = "" then .error .notFound
  else if p.text.toList.contains '\x00' then .error (.other "file name contained a NUL byte")
  else if pathLimit < p.text.utf8ByteSize then .error .nameTooLong
  else pieces.foldlM d.step (d.origin p)

/-- The place of a path: names from the root, of which only the last one may be missing. -/
def place (d : Disk) (p : Path) : Except FileProblem (List String) := d.follow p p.pieces

/-- What a path leads to. -/
def entry (d : Disk) (p : Path) : Except FileProblem Entry := do
  match d.root.at? (← d.place p) with
  | some e => .ok e
  | none => .error .notFound

def isDirectory (d : Disk) (p : Path) : Bool :=
  match d.entry p with
  | .ok e => e.isDirectory
  | .error _ => false

/-! ## Files -/

/-- The bytes of a file. -/
def read (d : Disk) (p : Path) : Except FileProblem ByteArray := do
  match ← d.entry p with
  | .file bytes => .ok bytes
  | .directory _ => .error .isADirectory
  | .store _ => .error .invalidText

/-- The text of a file. -/
def readText (d : Disk) (p : Path) : Except FileProblem String := do
  match String.fromUTF8? (← d.read p) with
  | some text => .ok text
  | none => .error .invalidText

/-- The disk with another entry at a place. -/
def put (d : Disk) (place : List String) (e : Option Entry) : Disk :=
  { d with root := d.root.set e place }

/-- Puts an entry that is no directory where a path leads, unless a directory is there. -/
def putFile (p : Path) (e : Entry) : Change := .of fun d => do
  let place ← d.place p
  match d.root.at? place with
  | some (.directory _) => .error .isADirectory
  | _ => .ok (d.put place (some e))

def write (p : Path) (bytes : ByteArray) : Change := putFile p (.file bytes)

/-- Adds bytes at the end of a file, which is made if it is not there. -/
def append (p : Path) (bytes : ByteArray) : Change := fun d =>
  match d.read p with
  | .ok old => write p (old ++ bytes) d
  | .error .notFound => write p bytes d
  | .error e => .error e d

/-- Removes a file, or a directory and everything in it. -/
def remove (p : Path) : Change := .of fun d => do
  let place ← d.place p
  match d.root.at? place with
  | some _ => .ok (d.put place none)
  | none => .error .notFound

/-! ## Directories -/

/-- Makes one directory. The one above it must be there, and nothing of its name. Slashes at the end
of the path do not count. -/
def makeDir (p : Path) : Change := .of fun d => do
  let place ← d.follow p (p.pieces.reverse.dropWhile (· = "")).reverse
  match d.root.at? place with
  | some _ => .error .alreadyThere
  | none => .ok (d.put place (some (.directory [])))

/-- Makes the directories that are missing along some pieces of a path. -/
def createAlong : List String → List String → Change
  | _, [], d => .ok () d
  | place, piece :: pieces, d =>
    match d.step place piece with
    | .error e => .error e d
    | .ok next =>
      match d.root.at? next with
      | some (.directory _) => createAlong next pieces d
      | some _ => .error .notADirectory d
      | none => createAlong next pieces (d.put next (some (.directory [])))

/-- Makes one directory if it is not there. -/
def ensureDir (p : Path) : Change := fun d =>
  match makeDir p d with
  | .ok () d => .ok () d
  | .error e d => if d.isDirectory p then .ok () d else .error e d

/-- Makes a directory and those above it. -/
def createDirs (p : Path) : Change := fun d =>
  if p.text = "" then .ok () d
  else
    match ensureDir p d with
    | .error .notFound d =>
      match createAlong (d.origin p) ((p.parent?.map Path.pieces).getD []) d with
      | .ok () d => ensureDir p d
      | .error e d => .error e d
    | result => result

/-- Makes the directories above a path. -/
def createParents (p : Path) : Change :=
  match p.parent? with
  | some parent => createDirs parent
  | none => pure ()

/-! ## Stores -/

/-- How many bytes the absolute path of a store may have: 512 with eight more for the files that are
kept beside it. -/
def storePathLimit : Nat := 504

/-- A place after one more piece of a path, without a look at the disk. -/
def plainStep (place : List String) (piece : String) : List String :=
  if piece = "" ∨ piece = "." then place
  else if piece = ".." then place.dropLast
  else place ++ [piece]

/-- Where the file of a store is. A `..` takes back the name before it. -/
def storePlace (d : Disk) (p : Path) : Except StoreFailure (List String) :=
  let names := p.pieces.foldl plainStep (d.origin p)
  match p.text.toUTF8.data.findIdx? (· == 0) with
  | some position => .error (.nulInName position)
  | none =>
    if storePathLimit < names.foldr (fun name size => name.utf8ByteSize + 1 + size) 0 then
      .error (.cannotOpen p)
    else (names.foldlM d.step []).mapError fun _ => .cannotOpen p

/-- The store in a file, if there is one. -/
def store? (d : Disk) (p : Path) : Option Store :=
  match (d.storePlace p).toOption.bind d.root.at? with
  | some (.store content) => some content
  | _ => none

/-- The store that a file becomes when it is opened. A missing or empty file becomes a new one. -/
def storeAt (d : Disk) (p : Path) (place : List String) : Except StoreFailure Store :=
  match d.root.at? place with
  | some (.store content) => .ok content
  | some (.file bytes) => if bytes.isEmpty then .ok .initial else .error .notADatabase
  | some (.directory _) => .error (.cannotOpen p)
  | none => .ok .initial

/-- Opens the store in a file. The directories above the file are made first, and stay when the
store cannot be opened. -/
def openStore (p : Path) : EStateM Failure Disk Store := do
  (createParents p).adaptExcept .file
  fun d =>
    match d.storePlace p with
    | .error e => .error (.store e) d
    | .ok place =>
      match d.storeAt p place with
      | .error e => .error (.store e) d
      | .ok content => .ok content (d.put place (some (.store content)))

/-- The disk with other content in the file of a store. -/
def saveStore (d : Disk) (p : Path) (content : Store) : Disk :=
  match d.store? p, d.storePlace p with
  | some _, .ok place => d.put place (some (.store content))
  | _, _ => d

/-- A disk with one empty directory below the root, in which relative paths start. -/
def withStart (name : String) : Disk := ⟨.directory [(name, .directory [])], [name]⟩

end Disk

end AccessDepth
