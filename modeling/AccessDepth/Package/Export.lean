import AccessDepth.Json.Reader
import AccessDepth.Json.Writer
import AccessDepth.Package
import AccessDepth.Package.Export.Tree

/-!
# AccessDepth.Package.Export

Export files: the packages of a directory as one JSON array.

* `Package.toJson`, `Package.ofJson?` — the exchanged form of a package.
* `Package.listOfText?` — the packages of an export file, whose values may nest 127 containers.
-/

namespace AccessDepth

open Json (Slot)

namespace Diagnostic

def toJson (d : Diagnostic) : Json :=
  .obj [("file", .ofOption Path.toJson d.file), ("message", .str d.message)]

def ofJson? (v : Json) : Option Diagnostic := do
  let [file, message] ← v.slots [.opt "file", .req "message"] | none
  some {
    file := ← Json.optional Path.ofJson? file
    message := ← Json.required Json.string? message }

end Diagnostic

namespace Package

def toJson (p : Package) : Json :=
  .obj [("dir", p.dir.toJson), ("package", .str p.name),
    ("files", .ofList SourceFile.toJson p.files), ("types", p.types.toJson),
    ("objects", p.objects.toJson), ("diagnostics", .ofList Diagnostic.toJson p.diagnostics)]

def ofJson? (origin : Json.Origin) (v : Json) : Option Package := do
  let [dir, name, files, types, objects, diagnostics] ← v.slots
    [.req "dir", .req "package", .req "files", .opt "types", .opt "objects", .opt "diagnostics"]
    | none
  some {
    dir := ← Json.required Path.ofJson? dir
    name := ← Json.required Json.string? name
    files := ← Json.required (Json.list? (SourceFile.ofJson? origin)) files
    types := ← Json.orElse .empty TypeTable.ofJson? types
    objects := ← Json.orElse .empty ObjectTable.ofJson? objects
    diagnostics := ← Json.orElse [] (Json.list? Diagnostic.ofJson?) diagnostics }

/-- How many containers an export file may nest. -/
def nestingLimit : Nat := 127

/-- The text of an export file. -/
def listToText (ps : List Package) : String := (Json.ofList toJson ps).text

/-- The packages of an export file. -/
def listOfText? (text : String) : Option (List Package) := do
  Json.list? (ofJson? .text) (← Json.parse nestingLimit text)

end Package

end AccessDepth
