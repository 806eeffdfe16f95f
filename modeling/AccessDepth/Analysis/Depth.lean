import AccessDepth.Chain
import AccessDepth.Analysis.Scope

/-!
# AccessDepth.Analysis.Depth

The depth pass: statements, expressions and memory accesses.

* Nodes are recorded after the nodes below them. An expression is recorded with its detail and its
  access in one transaction; its type is interned before that.
* The chain of an operand is handed up and extended by the step that the expression around it
  makes.
* A function declaration encloses its receiver, name, signature and body; a literal encloses its
  signature and body, but not its own row. A function that is not recorded encloses nothing.
-/

namespace AccessDepth
namespace Depth

/-- The row of an expression and, if it is an access, its chain. -/
structure Recorded where
  id : ExprId
  chain : Option Chain

/-- What an expression is besides its node. -/
structure Head where
  span : Span
  /-- The type that was resolved for it. -/
  type : Option TypeRef

/-- An access about to be recorded. -/
structure FoundAccess where
  kind : AccessKind
  inner : Option ExprId
  chain : Chain

/-! ## Rows -/

def addStmt (w : Scope) (kind : StmtKind) (span : Span) (detail : StmtDetail) :
    Analyze Unit := do
  let _ ← Analyze.commit (recordStmt
    { kind := kind, file := w.file, span := span, enclosing := w.enclosing } detail)
  pure ()

/-- What a statement binds as the guard of a type switch, and the assertion that it makes. -/
structure Binding where
  bound : Option String
  assertion : ExprId

/-- Records a statement that is no guard. -/
def unbound (w : Scope) (kind : StmtKind) (span : Span) (detail : StmtDetail) :
    Analyze (Option Binding) := do
  addStmt w kind span detail
  pure none

/-- Records an expression with its detail and access. -/
def addExpr (w : Scope) (span : Span) (type : Option TypeRef) (kind : ExprKind)
    (detail : ExprDetail) (access : Option FoundAccess) : Analyze Recorded := do
  let type ← w.typeId type
  let (id, _) ← Analyze.commit (recordExpr
    { kind := kind, type := type, file := w.file, span := span, enclosing := w.enclosing } detail
    (access.map fun a => a.chain.access a.kind a.inner))
  pure { id := id, chain := access.map (·.chain) }

/-- Records an expression that is no access and has no detail. -/
def plain (w : Scope) (e : Head) (kind : ExprKind) : Analyze Recorded :=
  addExpr w e.span e.type kind .none none

/-- The access that a step makes of an operand. -/
def stepFrom (base : Recorded) (chain : Chain) (step : Step) : Option FoundAccess :=
  (chain.extend step).map fun (kind, chain) => ⟨kind, some base.id, chain⟩

/-- Records an expression whose access is one step from that of its operand. -/
def extend (w : Scope) (e : Head) (kind : ExprKind) (base : Recorded) (step : Step) :
    Analyze Recorded :=
  addExpr w e.span e.type kind .none (base.chain.bind fun chain => stepFrom base chain step)

/-! ## Names -/

/-- Where an object is defined, if that is in the corpus. -/
def definition (w : Scope) (object : Option ObjectRef) : Analyze (Option (FileId × Position)) :=
  match (w.object? object).bind (·.decl) with
  | some site => Analyze.definition site
  | none => pure none

/-- The variable that is recorded for an object. -/
def variableOf (o : Object) : Analyze (Option VariableId) :=
  match o.decl with
  | some site => Analyze.variableAt site
  | none => pure none

/-- Records a name that is not an operand. -/
def ident (w : Scope) (i : Ident) : Analyze Unit := do
  let definition ← definition w i.object
  let _ ← addExpr w i.span (w.typeOfName i) .ident (.ident i.name definition) none
  pure ()

def idents (w : Scope) : List Ident → Analyze Unit
  | [] => pure ()
  | i :: is => do
    ident w i
    idents w is

def optionalIdent (w : Scope) (i : Option Ident) : Analyze Unit :=
  match i with
  | some i => ident w i
  | none => pure ()

/-- Records an import path or a field tag. -/
def basicLit (w : Scope) (l : BasicLit) : Analyze Unit := do
  let _ ← addExpr w l.span none .basicLit .none none
  pure ()

def optionalBasicLit (w : Scope) (l : Option BasicLit) : Analyze Unit :=
  match l with
  | some l => basicLit w l
  | none => pure ()

/-- The access of an identifier: a variable that is used, not declared, where it stands. -/
def identAccess (w : Scope) (e : Head) (name : String) (object : Option ObjectRef) :
    Analyze (Option FoundAccess) :=
  match w.object? object with
  | some o => do
    if o.isVariable && !o.declaredAt w.path e.span.start then
      let variableId ← variableOf o
      pure (some ⟨.ident, none, .root name variableId⟩)
    else pure none
  | none => pure none

/-- Records an identifier that is an operand. -/
def nameOperand (w : Scope) (e : Head) (name : String) (object : Option ObjectRef) :
    Analyze Recorded := do
  let definition ← definition w object
  let access ← identAccess w e name object
  let type := e.type.or ((w.object? object).bind (·.type))
  addExpr w e.span type .ident (.ident name definition) access

/-- Whether an expression is the name of a package. -/
def namesPackage (w : Scope) (x : Expr) : Bool :=
  match x.node with
  | .ident _ object => (w.object? object).any fun o => o.kind = .pkgName
  | _ => false

/-- The access of a variable of another package: one indirection away from its name. -/
def packageAccess (w : Scope) (x : Expr) (member : Object) (name : String) :
    Analyze (Option FoundAccess) := do
  if member.kind = .var && namesPackage w x then
    let variableId ← variableOf member
    pure (some ⟨.ident, none, .otherPackage name variableId⟩)
  else pure none

/-- The access of a selection. A member of what a call returns is none. -/
def selectorAccess (w : Scope) (x : Expr) (base : Recorded) (sel : Ident) :
    Analyze (Option FoundAccess) :=
  match w.object? sel.object with
  | some member =>
    if member.kind = .var || member.kind = .field then
      match base.chain with
      | some chain =>
        if x.unparen.node.kind = .call then packageAccess w x member sel.name
        else pure (stepFrom base chain (.select (w.package.types.shape x.type)))
      | none => packageAccess w x member sel.name
    else pure none
  | none => pure none

/-- The step that a unary operator makes. -/
def unaryStep? : UnaryOp → Option Step
  | .addr => some .ref
  | .deref => some .deref
  | _ => none

/-- The types that the clauses of a type switch list. -/
def caseTypes (w : Scope) (clause : Int) : List (Int × Expr) → Analyze (List SwitchCase)
  | [] => pure []
  | (position, e) :: es => do
    let type ← w.typeId e.type
    let rest ← caseTypes w clause es
    pure ({ clause := clause, position := position, place := e.span.start, type := type } :: rest)

/-- The types listed by all clauses, clause by clause. -/
def switchCases (w : Scope) : List (Int × Stmt) → Analyze (List SwitchCase)
  | [] => pure []
  | (clause, .caseClause _ list _) :: rest => do
    let first ← caseTypes w clause (numbered 0 list)
    let more ← switchCases w rest
    pure (first ++ more)
  | _ :: rest => switchCases w rest

/-! ## Nodes -/

mutual

def expr (w : Scope) : Expr → Analyze Recorded
  | ⟨span, type, node⟩ => exprNode w ⟨span, type⟩ node
termination_by structural e => e

/-- Records an expression by its node. -/
def exprNode (w : Scope) (e : Head) : ExprNode → Analyze Recorded
  | .bad => plain w e .bad
  | .ident name object => nameOperand w e name object
  | .ellipsis elt => do
    optionalExpr w elt
    plain w e .ellipsis
  | .basicLit _ _ => plain w e .basicLit
  | .funcLit type body => do
    let function ← w.functionAt e.span.start
    let inner := match function with
      | some id => w.enter id
      | none => w
    funcType inner type
    let _ ← addExpr inner type.span e.type .funcType .none none
    block inner body
    plain w e .funcLit
  | .compositeLit type elts => do
    optionalExpr w type
    let _ ← exprs w elts
    plain w e .compositeLit
  | .paren x => do
    let base ← expr w x
    extend w e .paren base .paren
  | .selector x sel => do
    let base ← expr w x
    ident w sel
    let access ← selectorAccess w x base sel
    addExpr w e.span e.type .selector (.selector base.id sel.name) access
  | .index x index => do
    let base ← expr w x
    let _ ← expr w index
    extend w e .index base (.index (w.package.types.shape x.type))
  | .indexList x indices => do
    let _ ← expr w x
    let _ ← exprs w indices
    plain w e .indexList
  | .slice x low high max => do
    let base ← expr w x
    optionalExpr w low
    optionalExpr w high
    optionalExpr w max
    extend w e .slice base (.slice (w.package.types.shape x.type))
  | .typeAssert x target => do
    let base ← expr w x
    optionalExpr w target
    let targetId ← w.typeId (target.bind (·.type))
    addExpr w e.span e.type .typeAssert (.typeAssert base.id targetId) none
  | .call fn args _ => do
    let function ← expr w fn
    let args ← exprs w args
    addExpr w e.span e.type .call (.call function.id args)
      (some ⟨.functionCall, none, .call⟩)
  | .star x => do
    let base ← expr w x
    extend w e .star base .deref
  | .unary op x => do
    let base ← expr w x
    match unaryStep? op with
    | some step => extend w e .unary base step
    | none => plain w e .unary
  | .binary _ x y => do
    let _ ← expr w x
    let _ ← expr w y
    plain w e .binary
  | .keyValue key value => do
    let _ ← expr w key
    let _ ← expr w value
    plain w e .keyValue
  | .arrayType len elt => do
    optionalExpr w len
    let _ ← expr w elt
    plain w e .arrayType
  | .structType fields => do
    fieldList w fields
    plain w e .structType
  | .funcType type => do
    funcType w type
    plain w e .funcType
  | .interfaceType methods => do
    fieldList w methods
    plain w e .interfaceType
  | .mapType key value => do
    let _ ← expr w key
    let _ ← expr w value
    plain w e .mapType
  | .chanType _ value => do
    let _ ← expr w value
    plain w e .chanType
termination_by structural n => n

def optionalExpr (w : Scope) : Option Expr → Analyze Unit
  | none => pure ()
  | some e => do
    let _ ← expr w e
    pure ()
termination_by structural e => e

/-- Records expressions and tells their rows. -/
def exprs (w : Scope) : List Expr → Analyze (List ExprId)
  | [] => pure []
  | e :: es => do
    let r ← expr w e
    let rest ← exprs w es
    pure (r.id :: rest)
termination_by structural es => es

def fieldList (w : Scope) : FieldList → Analyze Unit
  | ⟨_, fs⟩ => fields w fs
termination_by structural l => l

def optionalFieldList (w : Scope) : Option FieldList → Analyze Unit
  | none => pure ()
  | some l => fieldList w l
termination_by structural l => l

/-- The names, type and tag of each field. -/
def fields (w : Scope) : List Field → Analyze Unit
  | [] => pure ()
  | ⟨_, names, type, tag⟩ :: fs => do
    idents w names
    let _ ← expr w type
    optionalBasicLit w tag
    fields w fs
termination_by structural fs => fs

/-- The fields of a function type; its own row is left to the caller. -/
def funcType (w : Scope) : FuncType → Analyze Unit
  | ⟨_, typeParams, params, results⟩ => do
    optionalFieldList w typeParams
    fieldList w params
    optionalFieldList w results
termination_by structural t => t

def block (w : Scope) : Block → Analyze Unit
  | ⟨span, body⟩ => do
    stmts w body
    addStmt w .block span .none
termination_by structural b => b

def specs (w : Scope) : List Spec → Analyze Unit
  | [] => pure ()
  | .import _ name path :: rest => do
    optionalIdent w name
    basicLit w path
    specs w rest
  | .value _ names type values :: rest => do
    idents w names
    optionalExpr w type
    let _ ← exprs w values
    specs w rest
  | .type _ name typeParams _ type :: rest => do
    ident w name
    optionalFieldList w typeParams
    let _ ← expr w type
    specs w rest
termination_by structural ss => ss

def genDecl (w : Scope) : GenDecl → Analyze Unit
  | ⟨_, _, ss⟩ => specs w ss
termination_by structural d => d

/-- Records a statement and tells what it binds as a guard: the assertion is the first value of an
assignment, or the expression of an expression statement. -/
def stmt (w : Scope) : Stmt → Analyze (Option Binding)
  | .bad span => unbound w .bad span .none
  | .decl span decl => do
    genDecl w decl
    unbound w .decl span .none
  | .empty span => unbound w .empty span .none
  | .labeled span label body => do
    ident w label
    let _ ← stmt w body
    unbound w .labeled span .none
  | .expr span x => do
    let x ← expr w x
    addStmt w .expr span .none
    pure (some ⟨none, x.id⟩)
  | .send span chan value => do
    let _ ← expr w chan
    let _ ← expr w value
    unbound w .send span .none
  | .incDec span x _ => do
    let _ ← expr w x
    unbound w .incDec span .none
  | .assign span lhs _ rhs => do
    let left ← exprs w lhs
    let right ← exprs w rhs
    addStmt w .assign span (.assign left right)
    pure (right.head?.map fun id => ⟨lhs.head?.bind Expr.identName?, id⟩)
  | .go span call => do
    let _ ← expr w call
    unbound w .go span .none
  | .defer span call => do
    let call ← expr w call
    unbound w .defer span (.defer call.id)
  | .return span results => do
    let results ← exprs w results
    unbound w .return span (.return results)
  | .branch span _ label => do
    optionalIdent w label
    unbound w .branch span .none
  | .block b => do
    block w b
    pure none
  | .if span init cond body els => do
    optionalStmt w init
    let _ ← expr w cond
    block w body
    optionalStmt w els
    unbound w .if span .none
  | .caseClause span list body => do
    let _ ← exprs w list
    stmts w body
    unbound w .caseClause span .none
  | .switch span init tag body => do
    optionalStmt w init
    optionalExpr w tag
    block w body
    unbound w .switch span .none
  | .typeSwitch span init assign body => do
    optionalStmt w init
    let binding ← stmt w assign
    block w body
    match binding with
    | none => unbound w .typeSwitch span .none
    | some b =>
      let cases ← switchCases w (numbered 0 body.stmts)
      unbound w .typeSwitch span (.typeSwitch b.bound b.assertion cases)
  | .commClause span comm body => do
    optionalStmt w comm
    stmts w body
    unbound w .commClause span .none
  | .select span body => do
    block w body
    unbound w .select span .none
  | .for span init cond post body => do
    optionalStmt w init
    optionalExpr w cond
    optionalStmt w post
    block w body
    unbound w .for span .none
  | .range span key value _ x body => do
    optionalExpr w key
    optionalExpr w value
    let _ ← expr w x
    block w body
    unbound w .range span .none
  | .other span => unbound w .other span .none
termination_by structural s => s

def optionalStmt (w : Scope) : Option Stmt → Analyze Unit
  | none => pure ()
  | some s => do
    let _ ← stmt w s
    pure ()
termination_by structural s => s

def stmts (w : Scope) : List Stmt → Analyze Unit
  | [] => pure ()
  | s :: ss => do
    let _ ← stmt w s
    stmts w ss
termination_by structural ss => ss

end

/-! ## Declarations -/

def funcDecl (w : Scope) (d : FuncDecl) : Analyze Unit := do
  let function ← w.functionAt d.name.span.start
  let w := match function with
    | some id => w.enter id
    | none => w
  optionalFieldList w d.recv
  ident w d.name
  funcType w d.type
  let _ ← addExpr w d.type.span (w.typeOfName d.name) .funcType .none none
  match d.body with
  | some body => block w body
  | none => pure ()

def decls (w : Scope) : List Decl → Analyze Unit
  | [] => pure ()
  | .bad _ :: rest => decls w rest
  | .func d :: rest => do
    funcDecl w d
    decls w rest
  | .gen d :: rest => do
    genDecl w d
    decls w rest

/-- The statements, expressions and accesses of a file. -/
def run (package : Package) (f : SourceFile) : Analyze Unit := do
  let w ← Scope.ofFile package f
  ident w f.package
  decls w f.decls

end Depth
end AccessDepth
