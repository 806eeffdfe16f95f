import AccessDepth.Path
import AccessDepth.Position
import AccessDepth.Store.Table

/-!
# AccessDepth.Failure

Why an operation stops, and why a part of the corpus is skipped.

* `Failure` — what ends an operation. `Failure.message` is its text.
* `Skip` — a directory or file that is left out of a run while the run goes on.

A failure of the store must end a run, since a directory whose rows are not all written must not
count as complete; a directory that does not load is only skipped.
-/

namespace AccessDepth

/-- What the store answers instead of doing its work. -/
inductive StoreFailure where
  /-- A row would break a rule of the schema. -/
  | violation (violation : Violation)
  /-- An access is stored whose span ends before it starts. -/
  | unorderedSpan (span : Span)
  /-- The store takes no more writes. -/
  | closed
  /-- The file of the store cannot be opened. -/
  | cannotOpen (path : Path)
  /-- The name of that file holds a NUL, after so many bytes. -/
  | nulInName (position : Nat)
  | notADatabase
  /-- The asked row is not there. -/
  | noRows
  /-- Any other failure, by its code and text. -/
  | reported (code : Int) (text : String)
  deriving DecidableEq

namespace StoreFailure

def message : StoreFailure → String
  | .violation v => v.message
  | .unorderedSpan s =>
    "Conversion error from type Integer at index: 4, expression span ends before it starts (" ++
      s.text ++ ")"
  | .closed => "database or disk is full"
  | .cannotOpen path => "unable to open database file: " ++ path.text
  | .nulInName position => s!"nul byte found in provided data at position: {position}"
  | .notADatabase => "file is not a database"
  | .noRows => "Query returned no rows"
  | .reported _ text => text

/-- Whether a key was taken: by the rule that was broken, or by the code for a key or a row
number. -/
def isUnique : StoreFailure → Bool
  | .violation (.unique _) => true
  | .reported code _ => code = 2067 || code = 1555
  | _ => false

end StoreFailure

/-- Why a directory gives no packages. -/
inductive ExportProblem where
  | missing (file : Path)
  /-- The text of the file is no list of packages. -/
  | malformed (file : Path)
  /-- A package has files but neither types nor objects. -/
  | unresolved (file : Path) (package : String)
  | other (text : String)
  deriving DecidableEq

namespace ExportProblem

def message : ExportProblem → String
  | .missing file => "no exported units at " ++ file.text
  | .malformed file => file.text ++ ": no list of packages"
  | .unresolved file package =>
    file.text ++ ": package " ++ package ++ " has no type information"
  | .other text => text

end ExportProblem

/-- What is wrong with the settings of a run. -/
inductive SettingsProblem where
  | rootUnset
  | rootNotADirectory (root : Path)
  /-- A setting that must be at least 1 is 0. -/
  | tooSmall (setting : String)
  /-- The text of the settings cannot be read. -/
  | malformed
  /-- Emptying the store was asked for, but not confirmed. -/
  | unconfirmed (database : Path)
  | other (text : String)
  deriving DecidableEq

namespace SettingsProblem

def message : SettingsProblem → String
  | .rootUnset => "corpus-root must be set"
  | .rootNotADirectory root => "corpus-root " ++ root.text ++ " is not a directory"
  | .tooSmall setting => setting ++ " must be at least 1"
  | .malformed => "invalid settings"
  | .unconfirmed database =>
    "truncate deletes every row of " ++ database.text ++ "; pass --yes to confirm"
  | .other text => text

end SettingsProblem

/-- Why a file operation was refused. -/
inductive FileProblem where
  | notFound
  | notADirectory
  | isADirectory
  | alreadyThere
  | nameTooLong
  | invalidText
  | other (text : String)
  deriving DecidableEq

namespace FileProblem

def message : FileProblem → String
  | .notFound => "No such file or directory"
  | .notADirectory => "Not a directory"
  | .isADirectory => "Is a directory"
  | .alreadyThere => "File exists"
  | .nameTooLong => "File name too long"
  | .invalidText => "stream did not contain valid UTF-8"
  | .other text => text

end FileProblem

/-- What ends an operation. -/
inductive Failure where
  | store (cause : StoreFailure)
  | file (cause : FileProblem)
  | exported (cause : ExportProblem)
  | settings (cause : SettingsProblem)
  /-- A type was asked for where none resolves. -/
  | nilType
  | internal (text : String)
  deriving DecidableEq

namespace Failure

def message : Failure → String
  | .store cause => "database error: " ++ cause.message
  | .file cause => "I/O error: " ++ cause.message
  | .exported cause => "front end error: " ++ cause.message
  | .settings cause => "configuration error: " ++ cause.message
  | .nilType => "no static type available"
  | .internal text => "internal error: " ++ text

def isNilType (f : Failure) : Bool := f = .nilType

def isUnique : Failure → Bool
  | .store cause => cause.isUnique
  | _ => false

end Failure

/-- Why a directory or file is skipped. -/
inductive SkipReason where
  /-- Its packages cannot be loaded. -/
  | unusableExport
  /-- The exporter said so. -/
  | diagnostic
  /-- Its export cannot be read from disk. -/
  | unreadable
  deriving DecidableEq, Repr

instance : Vocabulary SkipReason where
  all := [.unusableExport, .diagnostic, .unreadable]
  text
    | .unusableExport => "front end failed"
    | .diagnostic => "skipped by diagnostic"
    | .unreadable => "I/O error"
  name
    | .unusableExport => "front_end_failed"
    | .diagnostic => "diagnostic"
    | .unreadable => "io_error"

namespace SkipReason

/-- Whether the sources or their export are at fault. -/
def isInputProblem : SkipReason → Bool
  | .unusableExport | .diagnostic => true
  | .unreadable => false

end SkipReason

/-- A directory or file that is left out of a run. -/
structure Skip where
  path : Path
  reason : SkipReason
  message : String
  deriving DecidableEq

namespace Skip

def text (s : Skip) : String :=
  s.path.text ++ ": " ++ s.message ++ " (" ++ Vocabulary.text s.reason ++ ")"

/-- A directory that did not load. Trouble with the disk is told apart from a bad export. -/
def ofFailure (path : Path) (f : Failure) : Skip :=
  let reason := match f with
    | .file _ => SkipReason.unreadable
    | _ => .unusableExport
  ⟨path, reason, f.message⟩

/-- A file or directory that a diagnostic names. -/
def ofDiagnostic (path : Path) (message : String) : Skip := ⟨path, .diagnostic, message⟩

end Skip

end AccessDepth
