import AccessDepth.Kind

/-!
# AccessDepth.Package.Types

The types that an exporter resolved for one package, in a table. Types refer to each other by their
place in the table, so that a type may contain itself.

* `TypeShape` — the structure of a type; `TypeEntry` — its canonical name, size and structure.
* `TypeTable` — the table; a reference outside it resolves to nothing.
* `TypeTable.underlying` — the structure behind any number of named types.
* `TypeTable.shape` — what a selection, an index or a slice needs to know about its operand.
-/

namespace AccessDepth

/-- A place in the type table of a package. -/
abbrev TypeRef := UInt32

inductive ChanDir where
  | both | send | recv
  deriving DecidableEq, Repr, Inhabited

instance : Vocabulary ChanDir where
  all := [.both, .send, .recv]
  text
    | .both => "both"
    | .send => "send"
    | .recv => "recv"

/-- The predeclared types, typed and untyped. -/
inductive BasicKind where
  | invalid | bool | int | int8 | int16 | int32 | int64 | uint | uint8 | uint16 | uint32 | uint64
  | uintptr | float32 | float64 | complex64 | complex128 | string | unsafePointer | untypedBool
  | untypedInt | untypedRune | untypedFloat | untypedComplex | untypedString | untypedNil
  deriving DecidableEq, Repr, Inhabited

instance : Vocabulary BasicKind where
  all := [.invalid, .bool, .int, .int8, .int16, .int32, .int64, .uint, .uint8, .uint16, .uint32,
    .uint64, .uintptr, .float32, .float64, .complex64, .complex128, .string, .unsafePointer,
    .untypedBool, .untypedInt, .untypedRune, .untypedFloat, .untypedComplex, .untypedString,
    .untypedNil]
  text
    | .invalid => "invalid"
    | .bool => "bool"
    | .int => "int"
    | .int8 => "int8"
    | .int16 => "int16"
    | .int32 => "int32"
    | .int64 => "int64"
    | .uint => "uint"
    | .uint8 => "uint8"
    | .uint16 => "uint16"
    | .uint32 => "uint32"
    | .uint64 => "uint64"
    | .uintptr => "uintptr"
    | .float32 => "float32"
    | .float64 => "float64"
    | .complex64 => "complex64"
    | .complex128 => "complex128"
    | .string => "string"
    | .unsafePointer => "unsafe_pointer"
    | .untypedBool => "untyped_bool"
    | .untypedInt => "untyped_int"
    | .untypedRune => "untyped_rune"
    | .untypedFloat => "untyped_float"
    | .untypedComplex => "untyped_complex"
    | .untypedString => "untyped_string"
    | .untypedNil => "untyped_nil"

/-- How a basic type is kept in memory. -/
structure BasicLayout where
  kind : TypeKind
  /-- Bytes; untyped constants have no width. -/
  width : Option Int64
  /-- Set for typed integers only. -/
  signed : Option Bool
  deriving DecidableEq

namespace BasicKind

def layout : BasicKind → BasicLayout
  | .invalid => ⟨.invalid, none, none⟩
  | .bool => ⟨.bool, some 1, none⟩
  | .int | .int64 => ⟨.int, some 8, some true⟩
  | .int8 => ⟨.int, some 1, some true⟩
  | .int16 => ⟨.int, some 2, some true⟩
  | .int32 => ⟨.int, some 4, some true⟩
  | .uint | .uint64 | .uintptr => ⟨.int, some 8, some false⟩
  | .uint8 => ⟨.int, some 1, some false⟩
  | .uint16 => ⟨.int, some 2, some false⟩
  | .uint32 => ⟨.int, some 4, some false⟩
  | .float32 => ⟨.float, some 4, none⟩
  | .float64 => ⟨.float, some 8, none⟩
  | .complex64 => ⟨.complex, some 8, none⟩
  | .complex128 => ⟨.complex, some 16, none⟩
  | .string => ⟨.string, some 16, none⟩
  | .unsafePointer => ⟨.address, some 8, none⟩
  | .untypedBool => ⟨.bool, none, none⟩
  | .untypedInt | .untypedRune => ⟨.int, none, none⟩
  | .untypedFloat => ⟨.float, none, none⟩
  | .untypedComplex => ⟨.complex, none, none⟩
  | .untypedString => ⟨.string, none, none⟩
  | .untypedNil => ⟨.nil, none, none⟩

end BasicKind

/-- A field of a structure or a method of an interface. -/
structure TypeMember where
  name : String
  type : TypeRef
  embedded : Bool
  deriving DecidableEq

/-- A receiver, parameter, result or type parameter. -/
structure SignatureParam where
  name : Option String
  type : TypeRef
  deriving DecidableEq

structure Signature where
  receiver : Option SignatureParam
  params : List SignatureParam
  results : List SignatureParam
  typeParams : List SignatureParam
  /-- The last parameter takes any number of arguments. -/
  variadic : Bool
  deriving DecidableEq

namespace Signature

def isGeneric (s : Signature) : Bool := !s.typeParams.isEmpty

/-- The entries of a signature by their role, in the order in which they are recorded. -/
def groups (s : Signature) : List (SignatureRole × List SignatureParam) :=
  [(.receiver, s.receiver.toList), (.param, s.params), (.result, s.results),
    (.typeParam, s.typeParams)]

end Signature

/-- A term of a constraint; a tilde admits every type that has the term as its structure. -/
structure UnionTerm where
  type : TypeRef
  tilde : Bool
  deriving DecidableEq

/-- The structure of a type. -/
inductive TypeShape where
  | basic (basic : BasicKind)
  | array (len : Int64) (elem : TypeRef)
  | slice (elem : TypeRef)
  | pointer (elem : TypeRef)
  | map (key value : TypeRef)
  | chan (dir : ChanDir) (elem : TypeRef)
  | struct (fields : List TypeMember)
  | interface (methods : List TypeMember) (embedded : List TypeRef)
  | named (package : Option String) (name : String) (underlying : TypeRef)
  | signature (signature : Signature)
  | typeParam (name : String)
  | tuple (elems : List TypeRef)
  | union (terms : List UnionTerm)
  deriving DecidableEq

namespace TypeShape

/-- The kind under which a type is stored. -/
def kind : TypeShape → TypeKind
  | .basic b => b.layout.kind
  | .array .. => .array
  | .slice _ => .slice
  | .pointer _ => .pointer
  | .map .. => .map
  | .chan .. => .channel
  | .struct _ => .struct
  | .interface .. => .interface
  | .named .. => .named
  | .signature _ => .function
  | .typeParam _ => .typeParam
  | .tuple _ => .tuple
  | .union _ => .union

end TypeShape

structure TypeEntry where
  /-- The canonical name: types of one name are one type. -/
  name : String
  /-- Bytes on the target, when the exporter computed them. -/
  size : Option Int64
  shape : TypeShape
  deriving DecidableEq

/-- What the structure of an operand decides about an access through it. -/
inductive OperandShape where
  | struct | pointer | slice | array | map
  /-- Any other structure. -/
  | other
  deriving DecidableEq, Repr, Inhabited

instance : Vocabulary OperandShape where
  all := [.struct, .pointer, .slice, .array, .map, .other]
  text
    | .struct => "struct"
    | .pointer => "pointer"
    | .slice => "slice"
    | .array => "array"
    | .map => "map"
    | .other => "other"

namespace OperandShape

def ofShape : TypeShape → OperandShape
  | .struct _ => .struct
  | .pointer _ => .pointer
  | .slice _ => .slice
  | .array .. => .array
  | .map .. => .map
  | _ => .other

end OperandShape

structure TypeTable where
  entries : Array TypeEntry
  deriving DecidableEq

namespace TypeTable

def empty : TypeTable := ⟨#[]⟩

def size (t : TypeTable) : Nat := t.entries.size

def isEmpty (t : TypeTable) : Bool := t.entries.isEmpty

/-- Adds an entry at the end and tells its place. -/
def push (t : TypeTable) (e : TypeEntry) : TypeTable × TypeRef :=
  (⟨t.entries.push e⟩, UInt32.ofNat t.entries.size)

/-- Adds an entry whose structure is to be given later. -/
def reserve (t : TypeTable) (name : String) : TypeTable × TypeRef :=
  t.push ⟨name, none, .basic .invalid⟩

def get? (t : TypeTable) (r : TypeRef) : Option TypeEntry := t.entries[r.toNat]?

/-- Changes the entry at a place of the table; elsewhere there is nothing to change. -/
def modify (t : TypeTable) (r : TypeRef) (f : TypeEntry → TypeEntry) : TypeTable :=
  ⟨t.entries.modify r.toNat f⟩

def define (t : TypeTable) (r : TypeRef) (shape : TypeShape) : TypeTable :=
  t.modify r fun e => { e with shape := shape }

def setSize (t : TypeTable) (r : TypeRef) (size : Int64) : TypeTable :=
  t.modify r fun e => { e with size := some size }

def name? (t : TypeTable) (r : TypeRef) : Option String := (t.get? r).map (·.name)

def sizeOf? (t : TypeTable) (r : TypeRef) : Option Int64 := (t.get? r).bind (·.size)

/-- Follows named types for a number of steps at most. -/
def follow (t : TypeTable) : Nat → TypeShape → Option TypeShape
  | 0, _ => none
  | steps + 1, .named _ _ underlying => do
    let e ← t.get? underlying
    follow t steps e.shape
  | _ + 1, shape => some shape

/-- The structure behind any number of named types. There is none for a reference outside the table
and for names that only lead to each other: a chain without repetition has at most as many named
types as the table has entries, and one step more reads its end. -/
def underlying (t : TypeTable) (r : TypeRef) : Option TypeShape := do
  let e ← t.get? r
  t.follow (t.size + 1) e.shape

/-- What is known about an operand of a type; nothing if the type does not resolve. -/
def shape (t : TypeTable) (r : Option TypeRef) : Option OperandShape := do
  let shape ← t.underlying (← r)
  some (.ofShape shape)

end TypeTable

end AccessDepth
