import AccessDepth.Path

/-!
# AccessDepth.Path.Raw

Paths as a file system keeps them. A name is made of bytes, which most of the time are a text in
UTF-8 but need not be one.

* `RawText` — a text, or bytes that are none.
* `RawText.extension?` — what follows the last dot of a file name.
* `RawPath` — a path, and the names that lead down from it.
* `RawPath.compare` — the order of two paths that start alike, by the names that follow.
* `RawPath.toPath?` — the path as a text.
-/

namespace AccessDepth

inductive RawText where
  | text (text : String)
  | bytes (bytes : List UInt8) (invalid : ¬ bytes.toByteArray.IsValidUTF8)
  deriving DecidableEq

namespace RawText

def text? : RawText → Option String
  | .text s => some s
  | .bytes .. => none

def toBytes : RawText → List UInt8
  | .text s => Path.utf8 s
  | .bytes bs _ => bs

/-- What follows the last dot of a file name, unless nothing comes before that dot. -/
def extension? (name : RawText) : Option (List UInt8) :=
  match name.toBytes.reverse.span (· ≠ '.'.toUInt8) with
  | (extension, _ :: _ :: _) => some extension.reverse
  | _ => none

end RawText

structure RawPath where
  start : RawText
  /-- The names that lead down from the start, one below the other. -/
  names : List RawText
  deriving DecidableEq

namespace RawPath

def ofPath (p : Path) : RawPath := ⟨.text p.text, []⟩

/-- The entry of a given name in a directory. -/
def child (p : RawPath) (name : RawText) : RawPath := { p with names := p.names ++ [name] }

/-- The bytes of a path with those of one more name. -/
def joinBytes (path name : List UInt8) : List UInt8 :=
  if path = [] ∨ path.getLast? = some '/'.toUInt8 then path ++ name
  else path ++ '/'.toUInt8 :: name

def toBytes (p : RawPath) : List UInt8 :=
  p.names.foldl (fun path name => joinBytes path name.toBytes) p.start.toBytes

/-- The order by components of two paths with the same start. -/
def compare (p q : RawPath) : Ordering :=
  Ord.compare (p.names.map RawText.toBytes) (q.names.map RawText.toBytes)

/-- Whether `p` does not come after `q`. -/
def notAfter (p q : RawPath) : Bool := (p.compare q).isLE

/-- The path as a text, if it is one. -/
def toPath? (p : RawPath) : Option Path := do
  let start ← p.start.text?
  let names ← p.names.mapM RawText.text?
  pure (names.foldl Path.child ⟨start⟩)

end RawPath

end AccessDepth
