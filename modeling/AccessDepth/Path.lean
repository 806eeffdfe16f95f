/-!
# AccessDepth.Path

Paths as text, compared by their components.

* `Path.components` — repeated and trailing slashes do not count, nor does a `.` that is not the
  first component of a relative path; `..` does.
* `Path.same`, `Path.startsWith`, `Path.compare` — equality, containment and order by components.
* `Path.join` — a path below another one; an absolute path stands for itself.
* `Path.parent?` — the path without its last component.
-/

namespace AccessDepth

structure Path where
  text : String
  deriving DecidableEq, Repr, Inhabited

namespace Path

/-- A part of a path. -/
inductive Component where
  /-- The leading slash of an absolute path. -/
  | root
  /-- The leading `.` of a relative path. -/
  | here
  | up
  | name (text : String)
  deriving DecidableEq, Repr, Inhabited

/-- The bytes of a text in UTF-8. -/
def utf8 (text : String) : List UInt8 := text.toUTF8.data.toList

namespace Component

def rank : Component → Nat
  | .root => 0
  | .here => 1
  | .up => 2
  | .name _ => 3

/-- The root comes first, then `.`, then `..`, then names by their bytes. -/
def compare (a b : Component) : Ordering :=
  match a, b with
  | .name s, .name t => Ord.compare (utf8 s) (utf8 t)
  | _, _ => Ord.compare a.rank b.rank

def text : Component → String
  | .root => "/"
  | .here => "."
  | .up => ".."
  | .name text => text

end Component

def isAbsolute (p : Path) : Bool := p.text.toList.head? = some '/'

/-- The pieces between the slashes, empty ones included. -/
def pieces (p : Path) : List String := (p.text.toList.splitOn '/').map String.ofList

/-- The component that a piece stands for when it is not the first one. -/
def componentOf (piece : String) : Option Component :=
  if piece = "" ∨ piece = "." then none
  else if piece = ".." then some .up
  else some (.name piece)

def components (p : Path) : List Component :=
  match p.pieces with
  | [] => []
  | first :: rest =>
    let head :=
      if p.isAbsolute then [Component.root]
      else if first = "." then [Component.here]
      else (componentOf first).toList
    head ++ rest.filterMap componentOf

/-- The path that is written with these components. -/
def ofComponents : List Component → Path
  | .root :: rest => ⟨"/" ++ "/".intercalate (rest.map Component.text)⟩
  | cs => ⟨"/".intercalate (cs.map Component.text)⟩

/-- The path without its last component; an empty path and the root have none. -/
def parent? (p : Path) : Option Path :=
  match p.components.reverse with
  | [] => none
  | [.root] => none
  | _ :: rest => some (ofComponents rest.reverse)

/-- Whether two paths have the same components. -/
def same (p q : Path) : Bool := p.components = q.components

/-- Whether the components of `q` are the first ones of `p`. -/
def startsWith (p q : Path) : Bool := q.components.isPrefixOf p.components

/-- The order of two lists of components by their first difference. -/
def compareComponents : List Component → List Component → Ordering
  | [], [] => .eq
  | [], _ :: _ => .lt
  | _ :: _, [] => .gt
  | a :: as, b :: bs => (a.compare b).then (compareComponents as bs)

def compare (p q : Path) : Ordering := compareComponents p.components q.components

/-- Whether `p` does not come after `q`. -/
def notAfter (p q : Path) : Bool := (p.compare q).isLE

/-- The path `q` seen from `p`. -/
def join (p q : Path) : Path :=
  if q.isAbsolute then q
  else if p.text = "" ∨ p.text.toList.getLast? = some '/' then ⟨p.text ++ q.text⟩
  else ⟨p.text ++ "/" ++ q.text⟩

/-- The entry of a given name in a directory. -/
def child (p : Path) (name : String) : Path := p.join ⟨name⟩

end Path

end AccessDepth
