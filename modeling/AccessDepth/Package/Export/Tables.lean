import AccessDepth.Package.Objects

/-!
# AccessDepth.Package.Export.Tables

The exchanged form of resolved types and objects. Every type writes all of its members, null for an
absent value; reading allows the members with a usual value to be left out.

A structure of a type is one flat record whose member `kind` tells which structure it is.
-/

namespace AccessDepth

open Json (Slot)

namespace TypeMember

def toJson (m : TypeMember) : Json :=
  .obj [("name", .str m.name), ("ty", .ofUInt32 m.type), ("embedded", .bool m.embedded)]

def ofJson? (v : Json) : Option TypeMember := do
  let [name, type, embedded] ← v.slots [.req "name", .req "ty", .opt "embedded"] | none
  some {
    name := ← Json.required Json.string? name
    type := ← Json.required Json.uint32? type
    embedded := ← Json.orElse false Json.bool? embedded }

end TypeMember

namespace SignatureParam

def toJson (p : SignatureParam) : Json :=
  .obj [("name", .ofOption .str p.name), ("ty", .ofUInt32 p.type)]

def ofJson? (v : Json) : Option SignatureParam := do
  let [name, type] ← v.slots [.opt "name", .req "ty"] | none
  some {
    name := ← Json.optional Json.string? name
    type := ← Json.required Json.uint32? type }

end SignatureParam

namespace Signature

/-- The members of a signature, without the one that tells its kind. -/
def members (s : Signature) : List (String × Json) :=
  [("recv", .ofOption SignatureParam.toJson s.receiver),
    ("params", .ofList SignatureParam.toJson s.params),
    ("results", .ofList SignatureParam.toJson s.results),
    ("type_params", .ofList SignatureParam.toJson s.typeParams),
    ("variadic", .bool s.variadic)]

def ofJson? (v : Json) : Option Signature := do
  let [receiver, params, results, typeParams, variadic] ← v.slots
    [.opt "recv", .opt "params", .opt "results", .opt "type_params", .opt "variadic"] | none
  some {
    receiver := ← Json.optional SignatureParam.ofJson? receiver
    params := ← Json.orElse [] (Json.list? SignatureParam.ofJson?) params
    results := ← Json.orElse [] (Json.list? SignatureParam.ofJson?) results
    typeParams := ← Json.orElse [] (Json.list? SignatureParam.ofJson?) typeParams
    variadic := ← Json.orElse false Json.bool? variadic }

end Signature

namespace UnionTerm

def toJson (t : UnionTerm) : Json :=
  .obj [("ty", .ofUInt32 t.type), ("tilde", .bool t.tilde)]

def ofJson? (v : Json) : Option UnionTerm := do
  let [type, tilde] ← v.slots [.req "ty", .opt "tilde"] | none
  some {
    type := ← Json.required Json.uint32? type
    tilde := ← Json.orElse false Json.bool? tilde }

end UnionTerm

namespace TypeShape

/-- The record of a structure, under the kind that tells it. -/
def record (kind : String) (members : List (String × Json)) : Json :=
  .obj (("kind", .str kind) :: members)

def toJson : TypeShape → Json
  | .basic b => record "basic" [("basic", Vocabulary.toJson b)]
  | .array len elem => record "array" [("len", .ofInt64 len), ("elem", .ofUInt32 elem)]
  | .slice elem => record "slice" [("elem", .ofUInt32 elem)]
  | .pointer elem => record "pointer" [("elem", .ofUInt32 elem)]
  | .map key value => record "map" [("key", .ofUInt32 key), ("value", .ofUInt32 value)]
  | .chan dir elem => record "chan" [("dir", Vocabulary.toJson dir), ("elem", .ofUInt32 elem)]
  | .struct fields => record "struct" [("fields", .ofList TypeMember.toJson fields)]
  | .interface methods embedded =>
    record "interface" [("methods", .ofList TypeMember.toJson methods),
      ("embedded", .ofList .ofUInt32 embedded)]
  | .named package name underlying =>
    record "named" [("package", .ofOption .str package), ("name", .str name),
      ("underlying", .ofUInt32 underlying)]
  | .signature s => record "signature" s.members
  | .typeParam name => record "type_param" [("name", .str name)]
  | .tuple elems => record "tuple" [("elems", .ofList .ofUInt32 elems)]
  | .union terms => record "union" [("terms", .ofList UnionTerm.toJson terms)]

/-- The kind of a record and the rest of its members. In a record written as an array the kind
comes first. -/
def split? : Json → Option (String × Json)
  | .obj members =>
    match members.filter fun m => m.1 == "kind" with
    | [(_, .str kind)] => some (kind, .obj (members.filter fun m => m.1 != "kind"))
    | _ => none
  | .arr (.str kind :: rest) => some (kind, .arr rest)
  | _ => none

/-- The structure that a record describes. As its kind may stand anywhere, the record is taken as a
whole, and everything in it must be usable. -/
def ofJson? (v : Json) : Option TypeShape := do
  guard v.isUsable
  let (kind, v) ← split? v
  match kind with
  | "basic" =>
    let [b] ← v.slots [.req "basic"] | none
    some (.basic (← Json.required Vocabulary.ofTaggedJson? b))
  | "array" =>
    let [len, elem] ← v.slots [.req "len", .req "elem"] | none
    some (.array (← Json.required Json.int64? len) (← Json.required Json.uint32? elem))
  | "slice" =>
    let [elem] ← v.slots [.req "elem"] | none
    some (.slice (← Json.required Json.uint32? elem))
  | "pointer" =>
    let [elem] ← v.slots [.req "elem"] | none
    some (.pointer (← Json.required Json.uint32? elem))
  | "map" =>
    let [key, value] ← v.slots [.req "key", .req "value"] | none
    some (.map (← Json.required Json.uint32? key) (← Json.required Json.uint32? value))
  | "chan" =>
    let [dir, elem] ← v.slots [.opt "dir", .req "elem"] | none
    some (.chan (← Json.orElse .both Vocabulary.ofTaggedJson? dir)
      (← Json.required Json.uint32? elem))
  | "struct" =>
    let [fields] ← v.slots [.opt "fields"] | none
    some (.struct (← Json.orElse [] (Json.list? TypeMember.ofJson?) fields))
  | "interface" =>
    let [methods, embedded] ← v.slots [.opt "methods", .opt "embedded"] | none
    some (.interface (← Json.orElse [] (Json.list? TypeMember.ofJson?) methods)
      (← Json.orElse [] (Json.list? Json.uint32?) embedded))
  | "named" =>
    let [package, name, underlying] ←
      v.slots [.opt "package", .req "name", .req "underlying"] | none
    some (.named (← Json.optional Json.string? package) (← Json.required Json.string? name)
      (← Json.required Json.uint32? underlying))
  | "signature" => some (.signature (← Signature.ofJson? v))
  | "type_param" =>
    let [name] ← v.slots [.req "name"] | none
    some (.typeParam (← Json.required Json.string? name))
  | "tuple" =>
    let [elems] ← v.slots [.opt "elems"] | none
    some (.tuple (← Json.orElse [] (Json.list? Json.uint32?) elems))
  | "union" =>
    let [terms] ← v.slots [.req "terms"] | none
    some (.union (← Json.required (Json.list? UnionTerm.ofJson?) terms))
  | _ => none

end TypeShape

namespace TypeEntry

def toJson (e : TypeEntry) : Json :=
  .obj [("name", .str e.name), ("size", .ofOption .ofInt64 e.size), ("data", e.shape.toJson)]

def ofJson? (v : Json) : Option TypeEntry := do
  let [name, size, shape] ← v.slots [.req "name", .opt "size", .req "data"] | none
  some {
    name := ← Json.required Json.string? name
    size := ← Json.optional Json.int64? size
    shape := ← Json.required TypeShape.ofJson? shape }

end TypeEntry

namespace TypeTable

def toJson (t : TypeTable) : Json := .ofList TypeEntry.toJson t.entries.toList

def ofJson? (v : Json) : Option TypeTable :=
  (Json.list? TypeEntry.ofJson? v).map fun es => ⟨es.toArray⟩

end TypeTable

namespace Path

def toJson (p : Path) : Json := .str p.text

def ofJson? (v : Json) : Option Path := (Json.string? v).map Path.mk

end Path

namespace SourceSite

def toJson (d : SourceSite) : Json :=
  .obj [("file", d.file.toJson), ("position", d.position.toJson)]

def ofJson? (v : Json) : Option SourceSite := do
  let [file, position] ← v.slots [.req "file", .req "position"] | none
  some {
    file := ← Json.required Path.ofJson? file
    position := ← Json.required Position.ofJson? position }

end SourceSite

namespace Object

def toJson (o : Object) : Json :=
  .obj [("name", .str o.name), ("kind", Vocabulary.toJson o.kind),
    ("decl", .ofOption SourceSite.toJson o.decl), ("ty", .ofOption .ofUInt32 o.type)]

def ofJson? (v : Json) : Option Object := do
  let [name, kind, decl, type] ← v.slots [.req "name", .req "kind", .opt "decl", .opt "ty"] | none
  some {
    name := ← Json.required Json.string? name
    kind := ← Json.required Vocabulary.ofJson? kind
    decl := ← Json.optional SourceSite.ofJson? decl
    type := ← Json.optional Json.uint32? type }

end Object

namespace ObjectTable

def toJson (t : ObjectTable) : Json := .ofList Object.toJson t.objects.toList

def ofJson? (v : Json) : Option ObjectTable :=
  (Json.list? Object.ofJson? v).map fun os => ⟨os.toArray⟩

end ObjectTable

end AccessDepth
