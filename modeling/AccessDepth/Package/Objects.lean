import AccessDepth.Kind
import AccessDepth.Path
import AccessDepth.Position
import AccessDepth.Package.Types

/-!
# AccessDepth.Package.Objects

What the identifiers of a package denote, in a table.

* `SourceSite` — the file and position of a declaring identifier.
* `Object` — a variable, field, constant, type, package, function, label or predeclared name.
* `ObjectTable` — the table; a missing reference and one outside the table resolve to nothing.
-/

namespace AccessDepth

/-- A place in the object table of a package. -/
abbrev ObjectRef := UInt32

inductive ObjectKind where
  | var | field | const | typeName | pkgName | func | label | builtin | nil
  deriving DecidableEq, Repr, Inhabited

instance : Vocabulary ObjectKind where
  all := [.var, .field, .const, .typeName, .pkgName, .func, .label, .builtin, .nil]
  text
    | .var => "var"
    | .field => "field"
    | .const => "const"
    | .typeName => "type_name"
    | .pkgName => "pkg_name"
    | .func => "func"
    | .label => "label"
    | .builtin => "builtin"
    | .nil => "nil"

structure SourceSite where
  file : Path
  position : Position
  deriving DecidableEq

namespace SourceSite

/-- Whether the site is this position of this file. -/
def isAt (d : SourceSite) (file : Path) (position : Position) : Bool :=
  d.position = position && d.file.same file

end SourceSite

structure Object where
  name : String
  kind : ObjectKind
  /-- Predeclared objects have no site. -/
  decl : Option SourceSite
  type : Option TypeRef
  deriving DecidableEq

namespace Object

/-- A variable that is not a field. -/
def isVariable (o : Object) : Bool := o.kind = .var

/-- Whether the identifier at this position of this file declares the object. -/
def declaredAt (o : Object) (file : Path) (position : Position) : Bool :=
  o.decl.any fun d => d.isAt file position

end Object

structure ObjectTable where
  objects : Array Object
  deriving DecidableEq

namespace ObjectTable

def empty : ObjectTable := ⟨#[]⟩

def size (t : ObjectTable) : Nat := t.objects.size

def isEmpty (t : ObjectTable) : Bool := t.objects.isEmpty

/-- Adds an object at the end and tells its place. -/
def push (t : ObjectTable) (o : Object) : ObjectTable × ObjectRef :=
  (⟨t.objects.push o⟩, UInt32.ofNat t.objects.size)

def get? (t : ObjectTable) (r : Option ObjectRef) : Option Object := do t.objects[(← r).toNat]?

end ObjectTable

end AccessDepth
