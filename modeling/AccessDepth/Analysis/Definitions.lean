import AccessDepth.Analysis.Scope
import AccessDepth.Package.Outline

/-!
# AccessDepth.Analysis.Definitions

The definitions pass: functions with their signatures, and variables.

* Every function declaration and function literal is recorded, with the receivers, parameters and
  results that have names as its variables.
* The names of `var` and `const` declarations are recorded, and so are the targets of `:=` and of
  `range` with `:=` that are declared where they stand.
* The name `_` is never recorded.
-/

namespace AccessDepth
namespace Definitions

/-- A pass knows the functions around the node that it looks at. -/
abbrev Pass := ReaderT Scope Analyze

/-- A function about to be recorded. -/
structure Site where
  name : Option String
  position : Position
  type : Option TypeRef
  literal : Bool
  parent : Option FunctionId

/-- Whether the last parameter is written as `...T`. -/
def isVariadic (params : FieldList) : Bool :=
  match params.fields.getLast? with
  | some f => f.type.node.kind = .ellipsis
  | none => false

/-- The resolved signature of a function. -/
def signature? (w : Scope) (type : Option TypeRef) : Option Signature :=
  match type.bind w.package.types.underlying with
  | some (.signature s) => some s
  | _ => none

/-- The entries of one role, from a first place on. -/
def entries (w : Scope) (role : SignatureRole) :
    List (Int × SignatureParam) → Analyze (List SignatureItem)
  | [] => pure []
  | (position, p) :: ps => do
    let type ← w.typeId (some p.type)
    let rest ← entries w role ps
    pure ({ role := role, position := position, type := type, name := p.name } :: rest)

/-- The entries of a signature, role by role. -/
def allEntries (w : Scope) :
    List (SignatureRole × List SignatureParam) → Analyze (List SignatureItem)
  | [] => pure []
  | (role, params) :: groups => do
    let first ← entries w role (numbered 0 params)
    let rest ← allEntries w groups
    pure (first ++ rest)

/-- Records a function. What the resolved signature does not tell is read off the syntax. -/
def function (w : Scope) (site : Site) (syntaxType : FuncType) : Analyze FunctionId := do
  let s? := signature? w site.type
  let type ← w.typeId site.type
  let entries ← allEntries w ((s?.map Signature.groups).getD [])
  let f : NewFunction := {
    name := site.name, file := w.file, position := site.position, type := type
    variadic := match s? with
      | some s => s.variadic
      | none => isVariadic syntaxType.params
    generic := match s? with
      | some s => s.isGeneric
      | none => syntaxType.typeParams.any fun l => !l.fields.isEmpty
    literal := site.literal, parent := site.parent }
  let (id, _) ← Analyze.commit (recordFunction f entries)
  pure id

/-- Records a variable, unless its name is `_`. -/
def namedVariable (w : Scope) (name : String) (position : Position) (type : Option TypeRef)
    (isConst : Bool) (role : VariableRole) : Analyze Unit := do
  if name = "_" then pure ()
  else
    let type ← w.typeId type
    let _ ← Analyze.commit (recordVariable {
      name := name, file := w.file, position := position, type := type, isConst := isConst,
      function := w.enclosing.innermost, role := role })
    pure ()

/-- Records names of one declaration; `type` is what their type falls back to. -/
def names (w : Scope) (type : Option TypeRef) (isConst : Bool) (role : VariableRole) :
    List Ident → Analyze Unit
  | [] => pure ()
  | i :: is => do
    namedVariable w i.name i.span.start ((w.typeOfName i).or type) isConst role
    names w type isConst role is

/-- Records the names of receivers, parameters or results of the innermost function. -/
def fields (w : Scope) (role : VariableRole) : List Field → Analyze Unit
  | [] => pure ()
  | f :: fs => do
    names w f.type.type false role f.names
    fields w role fs

def optionalFields (w : Scope) (role : VariableRole) (list : Option FieldList) : Analyze Unit :=
  match list with
  | some l => fields w role l.fields
  | none => pure ()

/-- Records the parameters and results of the innermost function. -/
def parameters (w : Scope) (type : FuncType) : Analyze Unit := do
  fields w .param type.params.fields
  optionalFields w .result type.results

/-- Records an expression as a variable, if it is an identifier that is declared right there. -/
def newName (w : Scope) (e : Expr) : Analyze Unit :=
  match e.node with
  | .ident name object =>
    match w.object? object with
    | some o =>
      if o.declaredAt w.path e.span.start then
        namedVariable w name e.span.start (e.type.or o.type) false .local
      else pure ()
    | none => pure ()
  | _ => pure ()

def newNames (w : Scope) : List Expr → Analyze Unit
  | [] => pure ()
  | e :: es => do
    newName w e
    newNames w es

/-- Records the names of `var` and `const` specs. -/
def specs (w : Scope) (isConst : Bool) : List Spec → Analyze Unit
  | [] => pure ()
  | .value _ is type _ :: rest => do
    names w (type.bind (·.type)) isConst .local is
    specs w isConst rest
  | _ :: rest => specs w isConst rest

/-- What is recorded at a node, and in which scope the nodes below it are looked at. -/
def hook (n : Node) (below : Pass Unit) : Pass Unit := fun w =>
  match n with
  | .func d => do
    let id ← function w {
      name := some d.name.name, position := d.name.span.start, type := w.typeOfName d.name,
      literal := false, parent := none } d.type
    let w := w.enter id
    optionalFields w .receiver d.recv
    parameters w d.type
    below w
  | .gen d => do
    match d.tok with
    | .const => specs w true d.specs
    | .var => specs w false d.specs
    | _ => pure ()
    below w
  | .stmt s => do
    match s with
    | .assign _ lhs .define _ => newNames w lhs
    | .range _ key value true _ _ => newNames w (key.toList ++ value.toList)
    | _ => pure ()
    below w
  | .expr e =>
    match e.node with
    | .funcLit type _ => do
      let id ← function w {
        name := none, position := e.span.start, type := e.type, literal := true,
        parent := w.enclosing.innermost } type
      let w := w.enter id
      parameters w type
      below w
    | _ => below w

/-- The definitions of a file. -/
def run (package : Package) (f : SourceFile) : Analyze Unit := do
  let w ← Scope.ofFile package f
  Outline.visitAll hook f.outlines w

end Definitions
end AccessDepth
