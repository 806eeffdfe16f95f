import AccessDepth.Disk
import AccessDepth.Package.Export

/-!
# AccessDepth.Run.Loader

How the packages of a directory are obtained.

* `Loader` — from a directory to its packages, or a reason why it has none that can be used.
* `Loader.exports` — packages that an exporter has written next to the sources.
* `Loader.prepared` — the packages that a pass gets: without resolution where it needs none, and
  refused where it needs one that is not there.
-/

namespace AccessDepth

/-- From a directory on a disk to its packages. -/
abbrev Loader := Disk → Path → LoadMode → Except Failure (List Package)

namespace Loader

/-- The name of an export file unless another one is given. -/
def defaultFileName : String := "memdepth-units.json"

/-- Whether a package can be used where resolution is needed. -/
def serves (p : Package) : Bool := p.isResolved || p.files.isEmpty

/-- The packages of an export file as a pass gets them. -/
def prepared (file : Path) (mode : LoadMode) (packages : List Package) :
    Except ExportProblem (List Package) :=
  match mode with
  | .syntaxOnly => .ok (packages.map Package.withoutResolution)
  | .resolved =>
    match packages.find? fun p => !serves p with
    | some p => .error (.unresolved file p.name)
    | none => .ok packages

/-- The packages that a text exports. -/
def ofText (file : Path) (mode : LoadMode) (text : String) : Except ExportProblem (List Package) :=
  match Package.listOfText? text with
  | some packages => prepared file mode packages
  | none => .error (.malformed file)

/-- The packages that are exported to a file of a given name in each directory. -/
def exports (fileName : String) : Loader := fun d dir mode =>
  let file := dir.child fileName
  match d.readText file with
  | .ok text => (ofText file mode text).mapError .exported
  | .error .notFound => .error (.exported (.missing file))
  | .error e => .error (.file e)

end Loader
end AccessDepth
