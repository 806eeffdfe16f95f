import AccessDepth.Cache
import AccessDepth.Failure
import AccessDepth.Package.Objects
import AccessDepth.Store.Record

/-!
# AccessDepth.Analysis.Session

What the passes work on.

* `Session` — the store, the corpus root, the caches in front of the store, and how many more
  transactions the store takes, if it does not take any number.
* `Analyze` — a computation on a session. When it fails, what it did before stays done.
* `Analyze.commit` — makes a transaction. One that fails leaves the session as it was.
* `Analyze.fileId`, `definition`, `variableAt`, `functionAt` — from places in the sources to rows.
  Only places in the corpus have rows.
-/

namespace AccessDepth

structure Session where
  store : Store
  corpusRoot : Path
  /-- Rows of types by canonical name. -/
  types : Cache String TypeId
  /-- Rows of files by the components of their paths. -/
  files : Cache (List Path.Component) FileId
  /-- How many more transactions the store takes; none for any number. -/
  writesLeft : Option Nat

abbrev Analyze := EStateM Failure Session

namespace Session

/-- A session with empty caches on a store. -/
def start (store : Store) (corpusRoot : Path) (typeCapacity fileCapacity : Nat) : Session :=
  { store := store, corpusRoot := corpusRoot, types := .empty typeCapacity,
    files := .empty fileCapacity, writesLeft := none }

/-- Whether a path lies in the corpus. -/
def inCorpus (s : Session) (path : Path) : Bool := path.startsWith s.corpusRoot

/-- Whether the store takes another transaction. -/
def isOpen (s : Session) : Bool := s.writesLeft != some 0

/-- The session after a transaction that left this store behind. -/
def committed (s : Session) (store : Store) : Session :=
  { s with store := store, writesLeft := s.writesLeft.map (· - 1) }

end Session

namespace Analyze

/-- Makes a transaction. One that fails leaves the session as it was. -/
def commit {α : Type} (t : Transaction α) : Analyze α := fun s =>
  if s.isOpen then
    match t s.store with
    | .ok (a, store) => .ok a (s.committed store)
    | .error v => .error (.store (.violation v)) s
  else .error (.store .closed) s

/-- The cached row of a file. -/
def cachedFile (path : Path) : Analyze (Option FileId) :=
  modifyGet fun s =>
    let (id, files) := s.files.get path.components
    (id, { s with files := files })

def cacheFile (path : Path) (id : FileId) : Analyze Unit :=
  modify fun s => { s with files := s.files.put path.components id }

/-- The row of a file, which is added if it is not there. -/
def fileId (path : Path) : Analyze FileId := do
  match ← cachedFile path with
  | some id => pure id
  | none =>
    let id ← commit (recordFile path)
    cacheFile path id
    pure id

/-- The row of a file of the corpus, if it has one. -/
def storedFile (path : Path) : Analyze (Option FileId) := do
  if (← get).inCorpus path then
    match ← cachedFile path with
    | some id => pure (some id)
    | none =>
      match (← get).store.fileNamed? path.text with
      | some id =>
        cacheFile path id
        pure (some id)
      | none => pure none
  else pure none

/-- The file row and position of a site in the corpus. The row is added if it is not there, so that
the reference is recorded before the file is analyzed. -/
def definition (site : SourceSite) : Analyze (Option (FileId × Position)) := do
  if (← get).inCorpus site.file then
    let file ← fileId site.file
    pure (some (file, site.position))
  else pure none

/-- The variable that is recorded at a site in the corpus. -/
def variableAt (site : SourceSite) : Analyze (Option VariableId) := do
  match ← storedFile site.file with
  | some file => pure ((← get).store.variableAt? file site.position)
  | none => pure none

/-- The function that is recorded at a site in the corpus. -/
def functionAt (site : SourceSite) : Analyze (Option FunctionId) := do
  match ← storedFile site.file with
  | some file => pure ((← get).store.functionAt? file site.position)
  | none => pure none

end Analyze

end AccessDepth
