import AccessDepth.Analysis.Interning
import AccessDepth.Package

/-!
# AccessDepth.Analysis.Scope

Where a pass stands in a file.

* `Scope` — the package, the file with its row, and the functions around the place.
* `Scope.enter` — the scope inside a function.
-/

namespace AccessDepth

structure Scope where
  package : Package
  path : Path
  file : FileId
  enclosing : Enclosing

namespace Scope

/-- The scope at the top of a file. -/
def ofFile (package : Package) (f : SourceFile) : Analyze Scope := do
  let file ← Analyze.fileId f.path
  pure { package := package, path := f.path, file := file, enclosing := ⟨none, none⟩ }

/-- The scope inside a function. -/
def enter (w : Scope) (function : FunctionId) : Scope :=
  { w with enclosing := ⟨w.enclosing.outermost.or (some function), some function⟩ }

def object? (w : Scope) (r : Option ObjectRef) : Option Object := w.package.objects.get? r

/-- The type of a name or else of the object that it denotes. -/
def typeOfName (w : Scope) (i : Ident) : Option TypeRef :=
  i.type.or ((w.object? i.object).bind (·.type))

def typeId (w : Scope) (r : Option TypeRef) : Analyze (Option TypeId) :=
  Analyze.typeIdIfResolved w.package.types r

/-- The function that is recorded at a position of the file. -/
def functionAt (w : Scope) (position : Position) : Analyze (Option FunctionId) := do
  pure ((← get).store.functionAt? w.file position)

end Scope

end AccessDepth
