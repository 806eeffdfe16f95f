import AccessDepth.Analysis.Depth
import AccessDepth.Proofs.Access

/-!
# AccessDepth.Proofs.Plan.Depth

The depth pass as code.

* `Depth.Mark` — a node that the pass records, with what is around it.
* `SourceFile.marks` — the nodes of a file in the order in which they are recorded: each after the
  nodes below it.
* `Mark.code` — what is recorded of a node. It is read off the node alone.
-/

namespace AccessDepth

open Plan (Around ExprNote StmtNote AccessNote Item Op mention)

namespace Depth

/-- A node that is recorded. -/
inductive Mark where
  | expr (around : Around) (e : Expr)
  /-- A name that is not an operand. -/
  | name (around : Around) (i : Ident)
  /-- An import path or a field tag. -/
  | literal (around : Around) (l : BasicLit)
  /-- The signature of a function with its type. -/
  | signature (around : Around) (span : Span) (type : Option TypeRef)
  | block (around : Around) (span : Span)
  | stmt (around : Around) (s : Stmt)

def Mark.around : Mark → Around
  | .expr a _ | .name a _ | .literal a _ | .signature a _ _ | .block a _ | .stmt a _ => a

def nameMarks (a : Around) : List Ident → List Mark
  | [] => []
  | i :: is => [.name a i] ++ nameMarks a is

def optionalNameMarks (a : Around) : Option Ident → List Mark
  | none => []
  | some i => [.name a i]

def optionalLiteralMarks (a : Around) : Option BasicLit → List Mark
  | none => []
  | some l => [.literal a l]

mutual

def exprMarks (a : Around) : Expr → List Mark
  | ⟨span, type, node⟩ => nodeMarks a span type node ++ [.expr a ⟨span, type, node⟩]
termination_by structural e => e

def nodeMarks (a : Around) (span : Span) (type : Option TypeRef) : ExprNode → List Mark
  | .bad | .ident .. | .basicLit .. => []
  | .ellipsis elt => optionalExprMarks a elt
  | .funcLit signature body =>
    let inner := a.enter span.start
    funcTypeMarks inner signature ++ [.signature inner signature.span type] ++
      blockMarks inner body
  | .compositeLit type elts => optionalExprMarks a type ++ exprsMarks a elts
  | .paren x | .star x | .unary _ x => exprMarks a x
  | .selector x sel => exprMarks a x ++ [.name a sel]
  | .index x index => exprMarks a x ++ exprMarks a index
  | .indexList x indices => exprMarks a x ++ exprsMarks a indices
  | .slice x low high max =>
    exprMarks a x ++ optionalExprMarks a low ++ optionalExprMarks a high ++ optionalExprMarks a max
  | .typeAssert x target => exprMarks a x ++ optionalExprMarks a target
  | .call fn args _ => exprMarks a fn ++ exprsMarks a args
  | .binary _ x y => exprMarks a x ++ exprMarks a y
  | .keyValue key value => exprMarks a key ++ exprMarks a value
  | .arrayType len elt => optionalExprMarks a len ++ exprMarks a elt
  | .structType fields => fieldListMarks a fields
  | .funcType signature => funcTypeMarks a signature
  | .interfaceType methods => fieldListMarks a methods
  | .mapType key value => exprMarks a key ++ exprMarks a value
  | .chanType _ value => exprMarks a value
termination_by structural n => n

def optionalExprMarks (a : Around) : Option Expr → List Mark
  | none => []
  | some e => exprMarks a e
termination_by structural e => e

def exprsMarks (a : Around) : List Expr → List Mark
  | [] => []
  | e :: es => exprMarks a e ++ exprsMarks a es
termination_by structural es => es

def fieldListMarks (a : Around) : FieldList → List Mark
  | ⟨_, fs⟩ => fieldsMarks a fs
termination_by structural l => l

def optionalFieldListMarks (a : Around) : Option FieldList → List Mark
  | none => []
  | some l => fieldListMarks a l
termination_by structural l => l

def fieldsMarks (a : Around) : List Field → List Mark
  | [] => []
  | ⟨_, names, type, tag⟩ :: fs =>
    nameMarks a names ++ exprMarks a type ++ optionalLiteralMarks a tag ++ fieldsMarks a fs
termination_by structural fs => fs

def funcTypeMarks (a : Around) : FuncType → List Mark
  | ⟨_, typeParams, params, results⟩ =>
    optionalFieldListMarks a typeParams ++ fieldListMarks a params ++
      optionalFieldListMarks a results
termination_by structural t => t

def blockMarks (a : Around) : Block → List Mark
  | ⟨span, body⟩ => stmtsMarks a body ++ [.block a span]
termination_by structural b => b

def specsMarks (a : Around) : List Spec → List Mark
  | [] => []
  | .import _ name path :: rest =>
    optionalNameMarks a name ++ [.literal a path] ++ specsMarks a rest
  | .value _ names type values :: rest =>
    nameMarks a names ++ optionalExprMarks a type ++ exprsMarks a values ++ specsMarks a rest
  | .type _ name typeParams _ type :: rest =>
    [.name a name] ++ optionalFieldListMarks a typeParams ++ exprMarks a type ++ specsMarks a rest
termination_by structural ss => ss

def genDeclMarks (a : Around) : GenDecl → List Mark
  | ⟨_, _, ss⟩ => specsMarks a ss
termination_by structural d => d

/-- The nodes below a statement, then the statement. A block has one row. -/
def stmtMarks (a : Around) : Stmt → List Mark
  | .bad span => [.stmt a (.bad span)]
  | .decl span decl => genDeclMarks a decl ++ [.stmt a (.decl span decl)]
  | .empty span => [.stmt a (.empty span)]
  | .labeled span label body =>
    [.name a label] ++ stmtMarks a body ++ [.stmt a (.labeled span label body)]
  | .expr span x => exprMarks a x ++ [.stmt a (.expr span x)]
  | .send span chan value =>
    exprMarks a chan ++ exprMarks a value ++ [.stmt a (.send span chan value)]
  | .incDec span x inc => exprMarks a x ++ [.stmt a (.incDec span x inc)]
  | .assign span lhs op rhs =>
    exprsMarks a lhs ++ exprsMarks a rhs ++ [.stmt a (.assign span lhs op rhs)]
  | .go span call => exprMarks a call ++ [.stmt a (.go span call)]
  | .defer span call => exprMarks a call ++ [.stmt a (.defer span call)]
  | .return span results => exprsMarks a results ++ [.stmt a (.return span results)]
  | .branch span tok label => optionalNameMarks a label ++ [.stmt a (.branch span tok label)]
  | .block b => blockMarks a b
  | .if span init cond body els =>
    optionalStmtMarks a init ++ exprMarks a cond ++ blockMarks a body ++
      optionalStmtMarks a els ++ [.stmt a (.if span init cond body els)]
  | .caseClause span list body =>
    exprsMarks a list ++ stmtsMarks a body ++ [.stmt a (.caseClause span list body)]
  | .switch span init tag body =>
    optionalStmtMarks a init ++ optionalExprMarks a tag ++ blockMarks a body ++
      [.stmt a (.switch span init tag body)]
  | .typeSwitch span init assign body =>
    optionalStmtMarks a init ++ stmtMarks a assign ++ blockMarks a body ++
      [.stmt a (.typeSwitch span init assign body)]
  | .commClause span comm body =>
    optionalStmtMarks a comm ++ stmtsMarks a body ++ [.stmt a (.commClause span comm body)]
  | .select span body => blockMarks a body ++ [.stmt a (.select span body)]
  | .for span init cond post body =>
    optionalStmtMarks a init ++ optionalExprMarks a cond ++ optionalStmtMarks a post ++
      blockMarks a body ++ [.stmt a (.for span init cond post body)]
  | .range span key value define x body =>
    optionalExprMarks a key ++ optionalExprMarks a value ++ exprMarks a x ++ blockMarks a body ++
      [.stmt a (.range span key value define x body)]
  | .other span => [.stmt a (.other span)]
termination_by structural s => s

def optionalStmtMarks (a : Around) : Option Stmt → List Mark
  | none => []
  | some s => stmtMarks a s
termination_by structural s => s

def stmtsMarks (a : Around) : List Stmt → List Mark
  | [] => []
  | s :: ss => stmtMarks a s ++ stmtsMarks a ss
termination_by structural ss => ss

end

end Depth

def Package.typeOfName (p : Package) (i : Ident) : Option TypeRef :=
  i.type.or ((p.objects.get? i.object).bind (·.type))

namespace Depth

/-- The nodes of a function declaration. Everything but the body is recorded before it. -/
def funcDeclMarks (p : Package) (path : Path) (d : FuncDecl) : List Mark :=
  let inner := (Around.top path).enter d.name.span.start
  optionalFieldListMarks inner d.recv ++ [.name inner d.name] ++ funcTypeMarks inner d.type ++
    [.signature inner d.type.span (p.typeOfName d.name)] ++
    match d.body with
    | some body => blockMarks inner body
    | none => []

def declsMarks (p : Package) (path : Path) : List Decl → List Mark
  | [] => []
  | .bad _ :: rest => declsMarks p path rest
  | .func d :: rest => funcDeclMarks p path d ++ declsMarks p path rest
  | .gen d :: rest => genDeclMarks (.top path) d ++ declsMarks p path rest

/-! ## What is recorded of a node -/

def guardOf : Stmt → Option (Option String × Span)
  | .expr _ x => some (none, x.span)
  | .assign _ lhs _ rhs => rhs.head?.map fun x => (lhs.head?.bind Expr.identName?, x.span)
  | _ => none

def clauseCases (clause : Int) (list : List Expr) : List (SwitchCase × Option TypeRef) :=
  (numbered 0 list).map fun (position, e) =>
    ({ clause := clause, position := position, place := e.span.start, type := none }, e.type)

def switchCasesOf : List (Int × Stmt) → List (SwitchCase × Option TypeRef)
  | [] => []
  | (clause, .caseClause _ list _) :: rest => clauseCases clause list ++ switchCasesOf rest
  | _ :: rest => switchCasesOf rest

def stmtNote : Stmt → StmtKind × StmtNote × List (Option TypeRef)
  | .bad _ => (.bad, .none, [])
  | .decl .. => (.decl, .none, [])
  | .empty _ => (.empty, .none, [])
  | .labeled .. => (.labeled, .none, [])
  | .expr .. => (.expr, .none, [])
  | .send .. => (.send, .none, [])
  | .incDec .. => (.incDec, .none, [])
  | .assign _ lhs _ rhs => (.assign, .assign (lhs.map (·.span)) (rhs.map (·.span)), [])
  | .go .. => (.go, .none, [])
  | .defer _ call => (.defer, .defer call.span, [])
  | .return _ results => (.return, .return (results.map (·.span)), [])
  | .branch .. => (.branch, .none, [])
  | .block _ => (.block, .none, [])
  | .if .. => (.if, .none, [])
  | .caseClause .. => (.caseClause, .none, [])
  | .switch .. => (.switch, .none, [])
  | .typeSwitch _ _ assign body =>
    match guardOf assign with
    | none => (.typeSwitch, .none, [])
    | some (bound, assertion) =>
      let cases := switchCasesOf (numbered 0 body.stmts)
      (.typeSwitch, .typeSwitch bound assertion (cases.map (·.1)), cases.map (·.2))
  | .commClause .. => (.commClause, .none, [])
  | .select .. => (.select, .none, [])
  | .for .. => (.for, .none, [])
  | .range .. => (.range, .none, [])
  | .other _ => (.other, .none, [])

section

variable (p : Package) (root : Path)

def exprNote (e : Expr) : Option TypeRef × ExprNote × List (Option TypeRef) :=
  match e.node with
  | .ident name object =>
    (e.type.or ((p.objects.get? object).bind (·.type)),
      .ident name (p.declaration? root object), [])
  | .selector x sel => (e.type, .selector x.span sel.name, [])
  | .typeAssert x target => (e.type, .typeAssert x.span, [target.bind (·.type)])
  | .call fn args _ => (e.type, .call fn.span (args.map (·.span)), [])
  | _ => (e.type, .none, [])

def mentioned (e : Expr) : Option SourceSite :=
  match e.node with
  | .ident _ object => p.declaration? root object
  | _ => none

def exprCode (a : Around) (span : Span) (kind : ExprKind) (type : Option TypeRef)
    (detail : ExprNote) (access : Option AccessNote) : List Op :=
  [.type p.types type] ++ [.record a (.expr kind span detail access)]

def nameCode (a : Around) (i : Ident) : List Op :=
  mention (p.declaration? root i.object) ++
    exprCode p a i.span .ident (p.typeOfName i) (.ident i.name (p.declaration? root i.object)) none

/-- What is recorded of a node. -/
def Mark.code : Mark → List Op
  | .expr a e =>
    let (type, detail, targets) := exprNote p root e
    mention (mentioned p root e) ++ targets.map (.type p.types) ++
      exprCode p a e.span e.node.kind type detail (e.access? p root a.path)
  | .name a i => nameCode p root a i
  | .literal a l => exprCode p a l.span .basicLit none .none none
  | .signature a span type => exprCode p a span .funcType type .none none
  | .block a span => [.record a (.stmt .block span .none)]
  | .stmt a s =>
    let (kind, detail, types) := stmtNote s
    types.map (.type p.types) ++ [.record a (.stmt kind s.span detail)]

def codeOf (marks : List Mark) : List Op := marks.flatMap (Mark.code p root)

@[simp] theorem codeOf_nil : codeOf p root [] = [] := rfl

theorem codeOf_singleton (m : Mark) : codeOf p root [m] = m.code p root := by
  simp [codeOf]

@[simp] theorem codeOf_append (marks marks' : List Mark) :
    codeOf p root (marks ++ marks') = codeOf p root marks ++ codeOf p root marks' := by
  simp [codeOf]

end

end Depth

/-- The nodes of a file that the depth pass records, in order. -/
def SourceFile.marks (p : Package) (f : SourceFile) : List Depth.Mark :=
  [.name (.top f.path) f.package] ++ Depth.declsMarks p f.path f.decls

def SourceFile.depthCode (p : Package) (root : Path) (f : SourceFile) : List Op :=
  .file f.path :: Depth.codeOf p root (f.marks p)

end AccessDepth
