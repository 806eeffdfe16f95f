import AccessDepth.Package.Tree
import AccessDepth.Package.Export.Tables

/-!
# AccessDepth.Package.Export.Tree

The exchanged form of syntax trees.

* `Expr.toJson`, `Stmt.toJson`, … write a node. A form with content is an object with one member,
  named for the form; a form without content is its bare name.
* `Expr.ofJson?`, `Stmt.ofJson?`, … read a node that comes from a text or is at hand as a value. The
  reader at a level reads nodes whose value nests at most that many containers; the public readers
  take the level from the value.
-/

namespace AccessDepth

open Json (Slot)

/-- A form with content. -/
def Json.form (name : String) (content : Json) : Json := .obj [(name, content)]

namespace Ident

def toJson (i : Ident) : Json :=
  .obj [("name", .str i.name), ("span", i.span.toJson), ("ty", .ofOption .ofUInt32 i.type),
    ("obj", .ofOption .ofUInt32 i.object)]

def ofJson? (v : Json) : Option Ident := do
  let [name, span, type, object] ← v.slots [.req "name", .req "span", .opt "ty", .opt "obj"] | none
  some {
    name := ← Json.required Json.string? name
    span := ← Json.required Span.ofJson? span
    type := ← Json.optional Json.uint32? type
    object := ← Json.optional Json.uint32? object }

end Ident

namespace BasicLit

def toJson (l : BasicLit) : Json :=
  .obj [("span", l.span.toJson), ("kind", Vocabulary.toJson l.kind), ("value", .str l.value)]

def ofJson? (v : Json) : Option BasicLit := do
  let [span, kind, value] ← v.slots [.req "span", .req "kind", .req "value"] | none
  some {
    span := ← Json.required Span.ofJson? span
    kind := ← Json.required Vocabulary.ofJson? kind
    value := ← Json.required Json.string? value }

end BasicLit

/-! ## Writing -/

mutual

def Expr.toJson : Expr → Json
  | ⟨span, type, node⟩ =>
    .obj [("span", span.toJson), ("ty", .ofOption .ofUInt32 type), ("node", node.toJson)]
termination_by structural e => e

def ExprNode.toJson : ExprNode → Json
  | .bad => .str "bad"
  | .ident name object =>
    .form "ident" (.obj [("name", .str name), ("obj", .ofOption .ofUInt32 object)])
  | .ellipsis elt => .form "ellipsis" (.obj [("elt", Expr.optionToJson elt)])
  | .basicLit kind value =>
    .form "basic_lit" (.obj [("kind", Vocabulary.toJson kind), ("value", .str value)])
  | .funcLit type body =>
    .form "func_lit" (.obj [("ty", type.toJson), ("body", body.toJson)])
  | .compositeLit type elts =>
    .form "composite_lit"
      (.obj [("ty", Expr.optionToJson type), ("elts", .arr (Expr.listToJson elts))])
  | .paren x => .form "paren" (.obj [("x", x.toJson)])
  | .selector x sel => .form "selector" (.obj [("x", x.toJson), ("sel", sel.toJson)])
  | .index x index => .form "index" (.obj [("x", x.toJson), ("index", index.toJson)])
  | .indexList x indices =>
    .form "index_list" (.obj [("x", x.toJson), ("indices", .arr (Expr.listToJson indices))])
  | .slice x low high max =>
    .form "slice"
      (.obj [("x", x.toJson), ("low", Expr.optionToJson low), ("high", Expr.optionToJson high),
        ("max", Expr.optionToJson max)])
  | .typeAssert x type =>
    .form "type_assert" (.obj [("x", x.toJson), ("ty", Expr.optionToJson type)])
  | .call fn args spread =>
    .form "call"
      (.obj [("fun", fn.toJson), ("args", .arr (Expr.listToJson args)),
        ("ellipsis", .bool spread)])
  | .star x => .form "star" (.obj [("x", x.toJson)])
  | .unary op x => .form "unary" (.obj [("op", Vocabulary.toJson op), ("x", x.toJson)])
  | .binary op x y =>
    .form "binary" (.obj [("op", .str op), ("x", x.toJson), ("y", y.toJson)])
  | .keyValue key value =>
    .form "key_value" (.obj [("key", key.toJson), ("value", value.toJson)])
  | .arrayType len elt =>
    .form "array_type" (.obj [("len", Expr.optionToJson len), ("elt", elt.toJson)])
  | .structType fields => .form "struct_type" (.obj [("fields", fields.toJson)])
  | .funcType type => .form "func_type" type.toJson
  | .interfaceType methods => .form "interface_type" (.obj [("methods", methods.toJson)])
  | .mapType key value =>
    .form "map_type" (.obj [("key", key.toJson), ("value", value.toJson)])
  | .chanType dir value =>
    .form "chan_type" (.obj [("dir", Vocabulary.toJson dir), ("value", value.toJson)])
termination_by structural n => n

def Expr.optionToJson : Option Expr → Json
  | none => .null
  | some e => e.toJson
termination_by structural e => e

def Expr.listToJson : List Expr → List Json
  | [] => []
  | e :: es => e.toJson :: Expr.listToJson es
termination_by structural es => es

def FieldList.toJson : FieldList → Json
  | ⟨span, fields⟩ =>
    .obj [("span", .ofOption Span.toJson span), ("fields", .arr (Field.listToJson fields))]
termination_by structural l => l

def FieldList.optionToJson : Option FieldList → Json
  | none => .null
  | some l => l.toJson
termination_by structural l => l

def Field.toJson : Field → Json
  | ⟨span, names, type, tag⟩ =>
    .obj [("span", span.toJson), ("names", .ofList Ident.toJson names), ("ty", type.toJson),
      ("tag", .ofOption BasicLit.toJson tag)]
termination_by structural f => f

def Field.listToJson : List Field → List Json
  | [] => []
  | f :: fs => f.toJson :: Field.listToJson fs
termination_by structural fs => fs

def FuncType.toJson : FuncType → Json
  | ⟨span, typeParams, params, results⟩ =>
    .obj [("span", span.toJson), ("type_params", FieldList.optionToJson typeParams),
      ("params", params.toJson), ("results", FieldList.optionToJson results)]
termination_by structural t => t

def Block.toJson : Block → Json
  | ⟨span, stmts⟩ => .obj [("span", span.toJson), ("stmts", .arr (Stmt.listToJson stmts))]
termination_by structural b => b

def Spec.toJson : Spec → Json
  | .import span name path =>
    .form "import"
      (.obj [("span", span.toJson), ("name", .ofOption Ident.toJson name), ("path", path.toJson)])
  | .value span names type values =>
    .form "value"
      (.obj [("span", span.toJson), ("names", .ofList Ident.toJson names),
        ("ty", Expr.optionToJson type), ("values", .arr (Expr.listToJson values))])
  | .type span name typeParams isAlias type =>
    .form "type"
      (.obj [("span", span.toJson), ("name", name.toJson),
        ("type_params", FieldList.optionToJson typeParams), ("alias", .bool isAlias),
        ("ty", type.toJson)])
termination_by structural s => s

def Spec.listToJson : List Spec → List Json
  | [] => []
  | s :: ss => s.toJson :: Spec.listToJson ss
termination_by structural ss => ss

def GenDecl.toJson : GenDecl → Json
  | ⟨span, tok, specs⟩ =>
    .obj [("span", span.toJson), ("tok", Vocabulary.toJson tok),
      ("specs", .arr (Spec.listToJson specs))]
termination_by structural d => d

def Stmt.toJson : Stmt → Json
  | .bad span => .form "bad" span.toJson
  | .decl span decl => .form "decl" (.obj [("span", span.toJson), ("decl", decl.toJson)])
  | .empty span => .form "empty" span.toJson
  | .labeled span label stmt =>
    .form "labeled"
      (.obj [("span", span.toJson), ("label", label.toJson), ("stmt", stmt.toJson)])
  | .expr span x => .form "expr" (.obj [("span", span.toJson), ("x", x.toJson)])
  | .send span chan value =>
    .form "send" (.obj [("span", span.toJson), ("chan", chan.toJson), ("value", value.toJson)])
  | .incDec span x inc =>
    .form "inc_dec" (.obj [("span", span.toJson), ("x", x.toJson), ("inc", .bool inc)])
  | .assign span lhs op rhs =>
    .form "assign"
      (.obj [("span", span.toJson), ("lhs", .arr (Expr.listToJson lhs)),
        ("op", Vocabulary.toJson op), ("rhs", .arr (Expr.listToJson rhs))])
  | .go span call => .form "go" (.obj [("span", span.toJson), ("call", call.toJson)])
  | .defer span call => .form "defer" (.obj [("span", span.toJson), ("call", call.toJson)])
  | .return span results =>
    .form "return" (.obj [("span", span.toJson), ("results", .arr (Expr.listToJson results))])
  | .branch span tok label =>
    .form "branch"
      (.obj [("span", span.toJson), ("tok", Vocabulary.toJson tok),
        ("label", .ofOption Ident.toJson label)])
  | .block block => .form "block" block.toJson
  | .if span init cond body els =>
    .form "if"
      (.obj [("span", span.toJson), ("init", Stmt.optionToJson init), ("cond", cond.toJson),
        ("body", body.toJson), ("els", Stmt.optionToJson els)])
  | .caseClause span list body =>
    .form "case_clause"
      (.obj [("span", span.toJson), ("list", .arr (Expr.listToJson list)),
        ("body", .arr (Stmt.listToJson body))])
  | .switch span init tag body =>
    .form "switch"
      (.obj [("span", span.toJson), ("init", Stmt.optionToJson init),
        ("tag", Expr.optionToJson tag), ("body", body.toJson)])
  | .typeSwitch span init assign body =>
    .form "type_switch"
      (.obj [("span", span.toJson), ("init", Stmt.optionToJson init), ("assign", assign.toJson),
        ("body", body.toJson)])
  | .commClause span comm body =>
    .form "comm_clause"
      (.obj [("span", span.toJson), ("comm", Stmt.optionToJson comm),
        ("body", .arr (Stmt.listToJson body))])
  | .select span body => .form "select" (.obj [("span", span.toJson), ("body", body.toJson)])
  | .for span init cond post body =>
    .form "for"
      (.obj [("span", span.toJson), ("init", Stmt.optionToJson init),
        ("cond", Expr.optionToJson cond), ("post", Stmt.optionToJson post),
        ("body", body.toJson)])
  | .range span key value define x body =>
    .form "range"
      (.obj [("span", span.toJson), ("key", Expr.optionToJson key),
        ("value", Expr.optionToJson value), ("define", .bool define), ("x", x.toJson),
        ("body", body.toJson)])
  | .other span => .form "other" span.toJson
termination_by structural s => s

def Stmt.optionToJson : Option Stmt → Json
  | none => .null
  | some s => s.toJson
termination_by structural s => s

def Stmt.listToJson : List Stmt → List Json
  | [] => []
  | s :: ss => s.toJson :: Stmt.listToJson ss
termination_by structural ss => ss

end

namespace FuncDecl

def toJson (d : FuncDecl) : Json :=
  .obj [("span", d.span.toJson), ("recv", FieldList.optionToJson d.recv), ("name", d.name.toJson),
    ("ty", d.type.toJson), ("body", .ofOption Block.toJson d.body)]

end FuncDecl

namespace Decl

def toJson : Decl → Json
  | .bad span => .form "bad" span.toJson
  | .func decl => .form "func" decl.toJson
  | .gen decl => .form "gen" decl.toJson

end Decl

namespace SourceFile

def toJson (f : SourceFile) : Json :=
  .obj [("path", f.path.toJson), ("package", f.package.toJson),
    ("decls", .ofList Decl.toJson f.decls)]

end SourceFile

/-! ## Reading -/

/-- The content of a form, if the value is one with content. -/
def Json.content? (v : Json) : Option (String × Json) := do
  let (name, content) ← v.variant?
  some (name, ← content)

mutual

def Expr.read (o : Json.Origin) (level : Nat) (v : Json) : Option Expr :=
  match level with
  | 0 => none
  | level + 1 => do
    let [span, type, node] ← v.slots [.req "span", .opt "ty", .req "node"] | none
    some {
      span := ← Json.required Span.ofJson? span
      type := ← Json.optional Json.uint32? type
      node := ← Json.required (ExprNode.read o level) node }

def ExprNode.read (o : Json.Origin) (level : Nat) (v : Json) : Option ExprNode :=
  match level with
  | 0 => if Json.isBare "bad" v then some .bad else none
  | level + 1 =>
    if Json.isBare "bad" v then some .bad
    else do
      let (form, v) ← v.content?
      match form with
      | "ident" =>
        let [name, object] ← v.formSlots o [.req "name", .opt "obj"] | none
        some (.ident (← Json.required Json.string? name) (← Json.optional Json.uint32? object))
      | "ellipsis" =>
        let [elt] ← v.formSlots o [.opt "elt"] | none
        some (.ellipsis (← Json.optional (Expr.read o level) elt))
      | "basic_lit" =>
        let [kind, value] ← v.formSlots o [.req "kind", .req "value"] | none
        some (.basicLit (← Json.required Vocabulary.ofJson? kind)
          (← Json.required Json.string? value))
      | "func_lit" =>
        let [type, body] ← v.formSlots o [.req "ty", .req "body"] | none
        some (.funcLit (← Json.required (FuncType.read o level) type)
          (← Json.required (Block.read o level) body))
      | "composite_lit" =>
        let [type, elts] ← v.formSlots o [.opt "ty", .opt "elts"] | none
        some (.compositeLit (← Json.optional (Expr.read o level) type)
          (← Json.orElse [] (Json.list? (Expr.read o level)) elts))
      | "paren" =>
        let [x] ← v.formSlots o [.req "x"] | none
        some (.paren (← Json.required (Expr.read o level) x))
      | "selector" =>
        let [x, sel] ← v.formSlots o [.req "x", .req "sel"] | none
        some (.selector (← Json.required (Expr.read o level) x) (← Json.required Ident.ofJson? sel))
      | "index" =>
        let [x, index] ← v.formSlots o [.req "x", .req "index"] | none
        some (.index (← Json.required (Expr.read o level) x)
          (← Json.required (Expr.read o level) index))
      | "index_list" =>
        let [x, indices] ← v.formSlots o [.req "x", .req "indices"] | none
        some (.indexList (← Json.required (Expr.read o level) x)
          (← Json.required (Json.list? (Expr.read o level)) indices))
      | "slice" =>
        let [x, low, high, max] ←
          v.formSlots o [.req "x", .opt "low", .opt "high", .opt "max"] | none
        some (.slice (← Json.required (Expr.read o level) x)
          (← Json.optional (Expr.read o level) low) (← Json.optional (Expr.read o level) high)
          (← Json.optional (Expr.read o level) max))
      | "type_assert" =>
        let [x, type] ← v.formSlots o [.req "x", .opt "ty"] | none
        some (.typeAssert (← Json.required (Expr.read o level) x)
          (← Json.optional (Expr.read o level) type))
      | "call" =>
        let [fn, args, spread] ← v.formSlots o [.req "fun", .opt "args", .opt "ellipsis"] | none
        some (.call (← Json.required (Expr.read o level) fn)
          (← Json.orElse [] (Json.list? (Expr.read o level)) args)
          (← Json.orElse false Json.bool? spread))
      | "star" =>
        let [x] ← v.formSlots o [.req "x"] | none
        some (.star (← Json.required (Expr.read o level) x))
      | "unary" =>
        let [op, x] ← v.formSlots o [.req "op", .req "x"] | none
        some (.unary (← Json.required Vocabulary.ofJson? op)
          (← Json.required (Expr.read o level) x))
      | "binary" =>
        let [op, x, y] ← v.formSlots o [.req "op", .req "x", .req "y"] | none
        some (.binary (← Json.required Json.string? op) (← Json.required (Expr.read o level) x)
          (← Json.required (Expr.read o level) y))
      | "key_value" =>
        let [key, value] ← v.formSlots o [.req "key", .req "value"] | none
        some (.keyValue (← Json.required (Expr.read o level) key)
          (← Json.required (Expr.read o level) value))
      | "array_type" =>
        let [len, elt] ← v.formSlots o [.opt "len", .req "elt"] | none
        some (.arrayType (← Json.optional (Expr.read o level) len)
          (← Json.required (Expr.read o level) elt))
      | "struct_type" =>
        let [fields] ← v.formSlots o [.req "fields"] | none
        some (.structType (← Json.required (FieldList.read o level) fields))
      | "func_type" => some (.funcType (← FuncType.read o level v))
      | "interface_type" =>
        let [methods] ← v.formSlots o [.req "methods"] | none
        some (.interfaceType (← Json.required (FieldList.read o level) methods))
      | "map_type" =>
        let [key, value] ← v.formSlots o [.req "key", .req "value"] | none
        some (.mapType (← Json.required (Expr.read o level) key)
          (← Json.required (Expr.read o level) value))
      | "chan_type" =>
        let [dir, value] ← v.formSlots o [.req "dir", .req "value"] | none
        some (.chanType (← Json.required Vocabulary.ofJson? dir)
          (← Json.required (Expr.read o level) value))
      | _ => none

def FieldList.read (o : Json.Origin) (level : Nat) (v : Json) : Option FieldList :=
  match level with
  | 0 => none
  | level + 1 => do
    let [span, fields] ← v.slots [.nullable "span", .req "fields"] | none
    some {
      span := ← Json.optional Span.ofJson? span
      fields := ← Json.required (Json.list? (Field.read o level)) fields }

def Field.read (o : Json.Origin) (level : Nat) (v : Json) : Option Field :=
  match level with
  | 0 => none
  | level + 1 => do
    let [span, names, type, tag] ←
      v.slots [.req "span", .opt "names", .req "ty", .opt "tag"] | none
    some {
      span := ← Json.required Span.ofJson? span
      names := ← Json.orElse [] (Json.list? Ident.ofJson?) names
      type := ← Json.required (Expr.read o level) type
      tag := ← Json.optional BasicLit.ofJson? tag }

def FuncType.read (o : Json.Origin) (level : Nat) (v : Json) : Option FuncType :=
  match level with
  | 0 => none
  | level + 1 => do
    let [span, typeParams, params, results] ←
      v.slots [.req "span", .opt "type_params", .req "params", .opt "results"] | none
    some {
      span := ← Json.required Span.ofJson? span
      typeParams := ← Json.optional (FieldList.read o level) typeParams
      params := ← Json.required (FieldList.read o level) params
      results := ← Json.optional (FieldList.read o level) results }

def Block.read (o : Json.Origin) (level : Nat) (v : Json) : Option Block :=
  match level with
  | 0 => none
  | level + 1 => do
    let [span, stmts] ← v.slots [.req "span", .req "stmts"] | none
    some {
      span := ← Json.required Span.ofJson? span
      stmts := ← Json.required (Json.list? (Stmt.read o level)) stmts }

def Spec.read (o : Json.Origin) (level : Nat) (v : Json) : Option Spec :=
  match level with
  | 0 => none
  | level + 1 => do
    let (form, v) ← v.content?
    match form with
    | "import" =>
      let [span, name, path] ← v.formSlots o [.req "span", .opt "name", .req "path"] | none
      some (.import (← Json.required Span.ofJson? span) (← Json.optional Ident.ofJson? name)
        (← Json.required BasicLit.ofJson? path))
    | "value" =>
      let [span, names, type, values] ←
        v.formSlots o [.req "span", .req "names", .opt "ty", .opt "values"] | none
      some (.value (← Json.required Span.ofJson? span)
        (← Json.required (Json.list? Ident.ofJson?) names)
        (← Json.optional (Expr.read o level) type)
        (← Json.orElse [] (Json.list? (Expr.read o level)) values))
    | "type" =>
      let [span, name, typeParams, isAlias, type] ←
        v.formSlots o [.req "span", .req "name", .opt "type_params", .opt "alias", .req "ty"] | none
      some (.type (← Json.required Span.ofJson? span) (← Json.required Ident.ofJson? name)
        (← Json.optional (FieldList.read o level) typeParams)
        (← Json.orElse false Json.bool? isAlias) (← Json.required (Expr.read o level) type))
    | _ => none

def GenDecl.read (o : Json.Origin) (level : Nat) (v : Json) : Option GenDecl :=
  match level with
  | 0 => none
  | level + 1 => do
    let [span, tok, specs] ← v.slots [.req "span", .req "tok", .req "specs"] | none
    some {
      span := ← Json.required Span.ofJson? span
      tok := ← Json.required Vocabulary.ofJson? tok
      specs := ← Json.required (Json.list? (Spec.read o level)) specs }

def Stmt.read (o : Json.Origin) (level : Nat) (v : Json) : Option Stmt :=
  match level with
  | 0 => none
  | level + 1 => do
    let (form, v) ← v.content?
    match form with
    | "bad" => some (.bad (← Span.ofJson? v))
    | "decl" =>
      let [span, decl] ← v.formSlots o [.req "span", .req "decl"] | none
      some (.decl (← Json.required Span.ofJson? span) (← Json.required (GenDecl.read o level) decl))
    | "empty" => some (.empty (← Span.ofJson? v))
    | "labeled" =>
      let [span, label, stmt] ← v.formSlots o [.req "span", .req "label", .req "stmt"] | none
      some (.labeled (← Json.required Span.ofJson? span) (← Json.required Ident.ofJson? label)
        (← Json.required (Stmt.read o level) stmt))
    | "expr" =>
      let [span, x] ← v.formSlots o [.req "span", .req "x"] | none
      some (.expr (← Json.required Span.ofJson? span) (← Json.required (Expr.read o level) x))
    | "send" =>
      let [span, chan, value] ← v.formSlots o [.req "span", .req "chan", .req "value"] | none
      some (.send (← Json.required Span.ofJson? span) (← Json.required (Expr.read o level) chan)
        (← Json.required (Expr.read o level) value))
    | "inc_dec" =>
      let [span, x, inc] ← v.formSlots o [.req "span", .req "x", .req "inc"] | none
      some (.incDec (← Json.required Span.ofJson? span) (← Json.required (Expr.read o level) x)
        (← Json.required Json.bool? inc))
    | "assign" =>
      let [span, lhs, op, rhs] ←
        v.formSlots o [.req "span", .req "lhs", .req "op", .req "rhs"] | none
      some (.assign (← Json.required Span.ofJson? span)
        (← Json.required (Json.list? (Expr.read o level)) lhs)
        (← Json.required Vocabulary.ofJson? op)
        (← Json.required (Json.list? (Expr.read o level)) rhs))
    | "go" =>
      let [span, call] ← v.formSlots o [.req "span", .req "call"] | none
      some (.go (← Json.required Span.ofJson? span) (← Json.required (Expr.read o level) call))
    | "defer" =>
      let [span, call] ← v.formSlots o [.req "span", .req "call"] | none
      some (.defer (← Json.required Span.ofJson? span) (← Json.required (Expr.read o level) call))
    | "return" =>
      let [span, results] ← v.formSlots o [.req "span", .opt "results"] | none
      some (.return (← Json.required Span.ofJson? span)
        (← Json.orElse [] (Json.list? (Expr.read o level)) results))
    | "branch" =>
      let [span, tok, label] ← v.formSlots o [.req "span", .req "tok", .opt "label"] | none
      some (.branch (← Json.required Span.ofJson? span) (← Json.required Vocabulary.ofJson? tok)
        (← Json.optional Ident.ofJson? label))
    | "block" => some (.block (← Block.read o level v))
    | "if" =>
      let [span, init, cond, body, els] ←
        v.formSlots o [.req "span", .opt "init", .req "cond", .req "body", .opt "els"] | none
      some (.if (← Json.required Span.ofJson? span) (← Json.optional (Stmt.read o level) init)
        (← Json.required (Expr.read o level) cond) (← Json.required (Block.read o level) body)
        (← Json.optional (Stmt.read o level) els))
    | "case_clause" =>
      let [span, list, body] ← v.formSlots o [.req "span", .opt "list", .req "body"] | none
      some (.caseClause (← Json.required Span.ofJson? span)
        (← Json.orElse [] (Json.list? (Expr.read o level)) list)
        (← Json.required (Json.list? (Stmt.read o level)) body))
    | "switch" =>
      let [span, init, tag, body] ←
        v.formSlots o [.req "span", .opt "init", .opt "tag", .req "body"] | none
      some (.switch (← Json.required Span.ofJson? span) (← Json.optional (Stmt.read o level) init)
        (← Json.optional (Expr.read o level) tag) (← Json.required (Block.read o level) body))
    | "type_switch" =>
      let [span, init, assign, body] ←
        v.formSlots o [.req "span", .opt "init", .req "assign", .req "body"] | none
      some (.typeSwitch (← Json.required Span.ofJson? span)
        (← Json.optional (Stmt.read o level) init) (← Json.required (Stmt.read o level) assign)
        (← Json.required (Block.read o level) body))
    | "comm_clause" =>
      let [span, comm, body] ← v.formSlots o [.req "span", .opt "comm", .req "body"] | none
      some (.commClause (← Json.required Span.ofJson? span)
        (← Json.optional (Stmt.read o level) comm)
        (← Json.required (Json.list? (Stmt.read o level)) body))
    | "select" =>
      let [span, body] ← v.formSlots o [.req "span", .req "body"] | none
      some (.select (← Json.required Span.ofJson? span) (← Json.required (Block.read o level) body))
    | "for" =>
      let [span, init, cond, post, body] ←
        v.formSlots o [.req "span", .opt "init", .opt "cond", .opt "post", .req "body"] | none
      some (.for (← Json.required Span.ofJson? span) (← Json.optional (Stmt.read o level) init)
        (← Json.optional (Expr.read o level) cond) (← Json.optional (Stmt.read o level) post)
        (← Json.required (Block.read o level) body))
    | "range" =>
      let [span, key, value, define, x, body] ←
        v.formSlots o
          [.req "span", .opt "key", .opt "value", .opt "define", .req "x", .req "body"] | none
      some (.range (← Json.required Span.ofJson? span) (← Json.optional (Expr.read o level) key)
        (← Json.optional (Expr.read o level) value) (← Json.orElse false Json.bool? define)
        (← Json.required (Expr.read o level) x) (← Json.required (Block.read o level) body))
    | "other" => some (.other (← Span.ofJson? v))
    | _ => none

end

namespace Expr

def ofJson? (o : Json.Origin) (v : Json) : Option Expr :=
  Expr.read o (v.depth + 1) v

end Expr

namespace Stmt

def ofJson? (o : Json.Origin) (v : Json) : Option Stmt :=
  Stmt.read o (v.depth + 1) v

end Stmt

namespace Block

def ofJson? (o : Json.Origin) (v : Json) : Option Block :=
  Block.read o (v.depth + 1) v

end Block

namespace Spec

def ofJson? (o : Json.Origin) (v : Json) : Option Spec :=
  Spec.read o (v.depth + 1) v

end Spec

namespace GenDecl

def ofJson? (o : Json.Origin) (v : Json) : Option GenDecl :=
  GenDecl.read o (v.depth + 1) v

end GenDecl

namespace FieldList

def ofJson? (o : Json.Origin) (v : Json) : Option FieldList :=
  FieldList.read o (v.depth + 1) v

end FieldList

namespace FuncType

def ofJson? (o : Json.Origin) (v : Json) : Option FuncType :=
  FuncType.read o (v.depth + 1) v

end FuncType

namespace FuncDecl

def ofJson? (o : Json.Origin) (v : Json) : Option FuncDecl := do
  let [span, recv, name, type, body] ←
    v.slots [.req "span", .opt "recv", .req "name", .req "ty", .opt "body"] | none
  some {
    span := ← Json.required Span.ofJson? span
    recv := ← Json.optional (FieldList.ofJson? o) recv
    name := ← Json.required Ident.ofJson? name
    type := ← Json.required (FuncType.ofJson? o) type
    body := ← Json.optional (Block.ofJson? o) body }

end FuncDecl

namespace Decl

def ofJson? (o : Json.Origin) (v : Json) : Option Decl := do
  let (form, v) ← v.content?
  match form with
  | "bad" => some (.bad (← Span.ofJson? v))
  | "func" => some (.func (← FuncDecl.ofJson? o v))
  | "gen" => some (.gen (← GenDecl.ofJson? o v))
  | _ => none

end Decl

namespace SourceFile

def ofJson? (o : Json.Origin) (v : Json) : Option SourceFile := do
  let [path, package, decls] ← v.slots [.req "path", .req "package", .req "decls"] | none
  some {
    path := ← Json.required Path.ofJson? path
    package := ← Json.required Ident.ofJson? package
    decls := ← Json.required (Json.list? (Decl.ofJson? o)) decls }

end SourceFile

end AccessDepth
