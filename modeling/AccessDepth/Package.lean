import AccessDepth.Failure
import AccessDepth.Package.Tree

/-!
# AccessDepth.Package

One package of one directory, as an exporter hands it over: its files, the types and objects that
were resolved, and what the exporter had to complain about.

* `Package.usableFiles` — the files that no diagnostic names, and a skip for each diagnostic. A
  diagnostic that names no file skips the whole package and ends the list.
* `Package.withoutResolution` — the syntax alone.
-/

namespace AccessDepth

/-- A complaint of the exporter, about one file or about the whole package. -/
structure Diagnostic where
  file : Option Path
  message : String
  deriving DecidableEq

structure Package where
  dir : Path
  name : String
  files : List SourceFile
  types : TypeTable
  objects : ObjectTable
  diagnostics : List Diagnostic

namespace Package

/-- A package without files. -/
def bare (dir : Path) (name : String) : Package := ⟨dir, name, [], .empty, .empty, []⟩

def withoutResolution (p : Package) : Package := { p with types := .empty, objects := .empty }

/-- Whether any type or object was resolved. -/
def isResolved (p : Package) : Bool := !p.types.isEmpty || !p.objects.isEmpty

/-- The skips of a list of diagnostics: those up to the first one that names no file. -/
def skips (dir : Path) : List Diagnostic → List Skip
  | [] => []
  | ⟨some file, message⟩ :: rest => .ofDiagnostic file message :: skips dir rest
  | ⟨none, message⟩ :: _ => [.ofDiagnostic dir message]

/-- Whether a file goes through: no diagnostic names it, and none is about the whole package. -/
def isUsable (p : Package) (f : SourceFile) : Bool :=
  p.diagnostics.all fun d => d.file.any fun file => !file.same f.path

/-- The files that go through, and what is skipped. -/
def usableFiles (p : Package) : List SourceFile × List Skip :=
  (p.files.filter p.isUsable, skips p.dir p.diagnostics)

end Package

end AccessDepth
