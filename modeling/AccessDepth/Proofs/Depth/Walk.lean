import AccessDepth.Package.Outline
import AccessDepth.Proofs.Plan.Depth

/-!
# AccessDepth.Proofs.Depth.Walk

The walk over a file and the nodes that the depth pass records.

* `Part` — what is recorded of a node besides the node: a name, a literal, a signature or a body.
* `Node.parts` — the parts of a node, in source order.
* `Heading` — the kind and the span of a row. `Node.headings`, `SourceFile.headings` — those of a node
  with its parts, and of a file.
* `Depth.Composes` — something that holds of the nodes that are recorded of a piece of syntax, of the
  parts that the node around it has there, and of the nodes that the walk meets in it, because it holds
  of the pieces below.
* `Composes.file` — so it holds of a file.
-/

namespace AccessDepth

/-- What is recorded of a node besides the node. -/
inductive Part where
  | name (i : Ident)
  /-- An import path or a field tag. -/
  | literal (l : BasicLit)
  | signature (span : Span)
  | body (span : Span)
  deriving DecidableEq

def Field.parts (f : Field) : List Part := f.names.map .name ++ f.tag.toList.map .literal

def FieldList.parts (l : FieldList) : List Part := l.fields.flatMap Field.parts

def FieldList.optionParts : Option FieldList → List Part
  | none => []
  | some l => l.parts

def FuncType.parts (t : FuncType) : List Part :=
  FieldList.optionParts t.typeParams ++ t.params.parts ++ FieldList.optionParts t.results

def ExprNode.parts : ExprNode → List Part
  | .funcLit type body => type.parts ++ [.signature type.span] ++ [.body body.span]
  | .selector _ sel => [.name sel]
  | .structType fields | .interfaceType fields => fields.parts
  | .funcType type => type.parts
  | _ => []

def Spec.parts : Spec → List Part
  | .import _ name path => name.toList.map .name ++ [.literal path]
  | .value _ names _ _ => names.map .name
  | .type _ name typeParams _ _ => [.name name] ++ FieldList.optionParts typeParams

def Stmt.parts : Stmt → List Part
  | .labeled _ label _ => [.name label]
  | .branch _ _ label => label.toList.map .name
  | .if _ _ _ body _ | .switch _ _ _ body | .typeSwitch _ _ _ body | .select _ body
  | .for _ _ _ _ body | .range _ _ _ _ _ body => [.body body.span]
  | _ => []

def FuncDecl.parts (d : FuncDecl) : List Part :=
  FieldList.optionParts d.recv ++ [.name d.name] ++ d.type.parts ++ [.signature d.type.span] ++
    d.body.toList.map fun body => .body body.span

/-- The parts of a node, in source order. The nodes below it have their own. -/
def Node.parts : Node → List Part
  | .expr e => e.node.parts
  | .stmt s => s.parts
  | .func d => d.parts
  | .gen d => d.specs.flatMap Spec.parts

/-- A row by its kind and its span. -/
inductive Heading where
  | expr (kind : ExprKind) (span : Span)
  | stmt (kind : StmtKind) (span : Span)
  deriving DecidableEq

def Part.heading : Part → Heading
  | .name i => .expr .ident i.span
  | .literal l => .expr .basicLit l.span
  | .signature span => .expr .funcType span
  | .body span => .stmt .block span

def Stmt.kind : Stmt → StmtKind
  | .bad _ => .bad
  | .decl .. => .decl
  | .empty _ => .empty
  | .labeled .. => .labeled
  | .expr .. => .expr
  | .send .. => .send
  | .incDec .. => .incDec
  | .assign .. => .assign
  | .go .. => .go
  | .defer .. => .defer
  | .return .. => .return
  | .branch .. => .branch
  | .block _ => .block
  | .if .. => .if
  | .caseClause .. => .caseClause
  | .switch .. => .switch
  | .typeSwitch .. => .typeSwitch
  | .commClause .. => .commClause
  | .select .. => .select
  | .for .. => .for
  | .range .. => .range
  | .other _ => .other

namespace Node

/-- The row of a node. Declarations have none. -/
def heading? : Node → Option Heading
  | .expr e => some (.expr e.node.kind e.span)
  | .stmt s => some (.stmt s.kind s.span)
  | .func _ | .gen _ => none

/-- The rows of a node and of its parts. -/
def headings (n : Node) : List Heading := n.parts.map Part.heading ++ n.heading?.toList

def outline : Node → Outline
  | .expr e => e.outline
  | .stmt s => s.outline
  | .func d => d.outline
  | .gen d => d.outline

def below (n : Node) : List Node := n.outline.nodes.tail

def headingsBelow (n : Node) : List Heading := n.parts.map Part.heading ++ n.below.flatMap headings

end Node

namespace SourceFile

def parts (f : SourceFile) : List Part := .name f.package :: f.nodes.flatMap Node.parts

/-- The rows of a file. -/
def headings (f : SourceFile) : List Heading :=
  .expr .ident f.package.span :: f.nodes.flatMap Node.headings

end SourceFile

namespace Outline

@[simp] theorem nodesOfAll_nil : nodesOfAll [] = [] := rfl

@[simp] theorem nodesOfAll_cons (o : Outline) (os : List Outline) :
    nodesOfAll (o :: os) = o.nodes ++ nodesOfAll os := rfl

@[simp] theorem nodesOfAll_append (os os' : List Outline) :
    nodesOfAll (os ++ os') = nodesOfAll os ++ nodesOfAll os' := by
  induction os with
  | nil => rfl
  | cons o os ih => simp [ih]

end Outline

namespace Depth

open Plan (Around)

def Mark.part? : Mark → Option Part
  | .name _ i => some (.name i)
  | .literal _ l => some (.literal l)
  | .signature _ span _ => some (.signature span)
  | .block _ span => some (.body span)
  | .expr .. | .stmt .. => none

def Mark.heading : Mark → Heading
  | .expr _ e => .expr e.node.kind e.span
  | .name _ i => .expr .ident i.span
  | .literal _ l => .expr .basicLit l.span
  | .signature _ span _ => .expr .funcType span
  | .block _ span => .stmt .block span
  | .stmt _ s => .stmt s.kind s.span

inductive Mark.Stands : Mark → Node → Prop
  | expr {a e} : Stands (.expr a e) (.expr e)
  | stmt {a s} : Stands (.stmt a s) (.stmt s)
  /-- A block is recorded in the same way where it is a statement. -/
  | block {a b} : Stands (.block a b.span) (.stmt (.block b))

/-- Something that holds of what is recorded of a piece of syntax, of the parts that the node around
it has there, and of the nodes that the walk meets in it, because it holds of the pieces. -/
structure Composes (path : Path) (R : List Mark → List Part → List Node → Prop) : Prop where
  nil : R [] [] []
  append {marks marks' parts parts' nodes nodes'} : R marks parts nodes → R marks' parts' nodes' →
    R (marks ++ marks') (parts ++ parts') (nodes ++ nodes')
  part {m x} : m.around.path = path → m.part? = some x → R [m] [x] []
  /-- An expression has its parts, so that the node around it has none of them. -/
  expr {a e} : a.path = path →
    R (nodeMarks a e.span e.type e.node) e.node.parts (Node.expr e).below →
    R (nodeMarks a e.span e.type e.node ++ [.expr a e]) [] (.expr e :: (Node.expr e).below)
  stmt {m s marks} : m.around.path = path → m.Stands (.stmt s) →
    R marks s.parts (Node.stmt s).below → R (marks ++ [m]) [] (.stmt s :: (Node.stmt s).below)
  /-- A declaration has no row of its own. -/
  decl {n marks} : n.heading? = none → R marks n.parts n.below → R marks [] (n :: n.below)

namespace Composes

open Outline (nodesOfAll)

variable {path : Path} {R : List Mark → List Part → List Node → Prop} (h : Composes path R)
include h

theorem names {a : Around} (ha : a.path = path) (is : List Ident) :
    R (nameMarks a is) (is.map .name) [] := by
  induction is with
  | nil => exact h.nil
  | cons i is ih => exact h.append (h.part (m := .name a i) ha rfl) ih

theorem optionalName {a : Around} (ha : a.path = path) (i : Option Ident) :
    R (optionalNameMarks a i) (i.toList.map .name) [] := by
  cases i with
  | none => exact h.nil
  | some i => exact h.part (m := .name a i) ha rfl

theorem optionalLiteral {a : Around} (ha : a.path = path) (l : Option BasicLit) :
    R (optionalLiteralMarks a l) (l.toList.map .literal) [] := by
  cases l with
  | none => exact h.nil
  | some l => exact h.part (m := .literal a l) ha rfl

set_option linter.unusedSectionVars false in
mutual

theorem ofExpr {a : Around} (ha : a.path = path) (e : Expr) :
    R (exprMarks a e) [] e.outline.nodes := by
  obtain ⟨span, type, node⟩ := e
  exact h.expr (e := ⟨span, type, node⟩) ha (ofNode ha span type node)
termination_by structural e

theorem ofNode {a : Around} (ha : a.path = path) (span : Span) (type : Option TypeRef) (n : ExprNode) :
    R (nodeMarks a span type n) n.parts (nodesOfAll n.outlines) := by
  cases n with
  | bad | ident | basicLit => exact h.nil
  | ellipsis elt => exact ofOptionalExpr ha elt
  | funcLit signature body =>
    have inner : (a.enter span.start).path = path := ha
    have fields := ofFuncType inner signature
    have row := h.part (m := .signature (a.enter span.start) signature.span type) inner rfl
    have body := ofBlock inner body
    simpa [nodeMarks, ExprNode.parts, ExprNode.outlines] using h.append (h.append fields row) body
  | compositeLit type elts =>
    simpa [nodeMarks, ExprNode.parts, ExprNode.outlines] using
      h.append (ofOptionalExpr ha type) (ofExprs ha elts)
  | paren x | star x | unary op x | chanType dir x =>
    simpa [nodeMarks, ExprNode.parts, ExprNode.outlines] using ofExpr ha x
  | selector x sel =>
    have name := h.part (m := .name a sel) ha rfl
    simpa [nodeMarks, ExprNode.parts, ExprNode.outlines] using h.append (ofExpr ha x) name
  | index x y | binary op x y | keyValue x y | mapType x y =>
    simpa [nodeMarks, ExprNode.parts, ExprNode.outlines] using
      h.append (ofExpr ha x) (ofExpr ha y)
  | indexList x es | call x es spread =>
    simpa [nodeMarks, ExprNode.parts, ExprNode.outlines] using
      h.append (ofExpr ha x) (ofExprs ha es)
  | slice x low high max =>
    have first := h.append (ofExpr ha x) (ofOptionalExpr ha low)
    have second := h.append first (ofOptionalExpr ha high)
    simpa [nodeMarks, ExprNode.parts, ExprNode.outlines] using
      h.append second (ofOptionalExpr ha max)
  | typeAssert x target =>
    simpa [nodeMarks, ExprNode.parts, ExprNode.outlines] using
      h.append (ofExpr ha x) (ofOptionalExpr ha target)
  | arrayType len elt =>
    simpa [nodeMarks, ExprNode.parts, ExprNode.outlines] using
      h.append (ofOptionalExpr ha len) (ofExpr ha elt)
  | structType fields | interfaceType fields => exact ofFieldList ha fields
  | funcType signature => exact ofFuncType ha signature
termination_by structural n

theorem ofOptionalExpr {a : Around} (ha : a.path = path) (e : Option Expr) :
    R (optionalExprMarks a e) [] (nodesOfAll (Expr.optionOutlines e)) := by
  cases e with
  | none => exact h.nil
  | some e => simpa [optionalExprMarks, Expr.optionOutlines] using ofExpr ha e
termination_by structural e

theorem ofExprs {a : Around} (ha : a.path = path) (es : List Expr) :
    R (exprsMarks a es) [] (nodesOfAll (Expr.listOutlines es)) := by
  cases es with
  | nil => exact h.nil
  | cons e es => exact h.append (ofExpr ha e) (ofExprs ha es)
termination_by structural es

theorem ofFieldList {a : Around} (ha : a.path = path) (l : FieldList) :
    R (fieldListMarks a l) l.parts (nodesOfAll l.outlines) := by
  obtain ⟨span, fs⟩ := l
  exact ofFields ha fs
termination_by structural l

theorem ofOptionalFieldList {a : Around} (ha : a.path = path) (l : Option FieldList) :
    R (optionalFieldListMarks a l) (FieldList.optionParts l)
      (nodesOfAll (FieldList.optionOutlines l)) := by
  cases l with
  | none => exact h.nil
  | some l => exact ofFieldList ha l
termination_by structural l

theorem ofFields {a : Around} (ha : a.path = path) (fs : List Field) :
    R (fieldsMarks a fs) (fs.flatMap Field.parts) (nodesOfAll (Field.listOutlines fs)) := by
  cases fs with
  | nil => exact h.nil
  | cons f fs =>
    obtain ⟨span, names, type, tag⟩ := f
    have here := h.append (h.append (h.names ha names) (ofExpr ha type)) (h.optionalLiteral ha tag)
    simpa [fieldsMarks, Field.parts, Field.listOutlines] using h.append here (ofFields ha fs)
termination_by structural fs

theorem ofFuncType {a : Around} (ha : a.path = path) (t : FuncType) :
    R (funcTypeMarks a t) t.parts (nodesOfAll t.outlines) := by
  obtain ⟨span, typeParams, params, results⟩ := t
  have first := h.append (ofOptionalFieldList ha typeParams) (ofFieldList ha params)
  simpa [funcTypeMarks, FuncType.parts, FuncType.outlines] using
    h.append first (ofOptionalFieldList ha results)
termination_by structural t

theorem ofBlock {a : Around} (ha : a.path = path) (b : Block) :
    R (blockMarks a b) [.body b.span] (nodesOfAll b.outlines) := by
  obtain ⟨span, body⟩ := b
  have row := h.part (m := .block a span) ha rfl
  simpa [blockMarks, Block.outlines] using h.append (ofStmts ha body) row
termination_by structural b

theorem ofSpecs {a : Around} (ha : a.path = path) (ss : List Spec) :
    R (specsMarks a ss) (ss.flatMap Spec.parts) (nodesOfAll (Spec.listOutlines ss)) := by
  cases ss with
  | nil => exact h.nil
  | cons s ss =>
    have rest := ofSpecs ha ss
    cases s with
    | «import» span name literal =>
      have row := h.part (m := .literal a literal) ha rfl
      simpa [specsMarks, Spec.parts, Spec.listOutlines, Spec.outlines] using
        h.append (h.append (h.optionalName ha name) row) rest
    | value span names type values =>
      have here := h.append (h.append (h.names ha names) (ofOptionalExpr ha type))
        (ofExprs ha values)
      simpa [specsMarks, Spec.parts, Spec.listOutlines, Spec.outlines] using h.append here rest
    | type span name typeParams isAlias type =>
      have row := h.part (m := .name a name) ha rfl
      have here := h.append (h.append row (ofOptionalFieldList ha typeParams)) (ofExpr ha type)
      simpa [specsMarks, Spec.parts, Spec.listOutlines, Spec.outlines] using h.append here rest
termination_by structural ss

theorem ofGenDecl {a : Around} (ha : a.path = path) (d : GenDecl) :
    R (genDeclMarks a d) [] d.outline.nodes := by
  obtain ⟨span, tok, ss⟩ := d
  exact h.decl (n := .gen ⟨span, tok, ss⟩) rfl (ofSpecs ha ss)
termination_by structural d

theorem ofStmt {a : Around} (ha : a.path = path) (s : Stmt) :
    R (stmtMarks a s) [] s.outline.nodes := by
  cases s with
  | bad span => exact h.stmt (s := .bad span) (m := .stmt a _) ha .stmt h.nil
  | empty span => exact h.stmt (s := .empty span) (m := .stmt a _) ha .stmt h.nil
  | other span => exact h.stmt (s := .other span) (m := .stmt a _) ha .stmt h.nil
  | decl span d =>
    refine h.stmt (s := .decl span d) (m := .stmt a _) ha .stmt ?_
    simpa [Stmt.parts, Node.below, Node.outline, Stmt.outline, Outline.nodes] using
      (ofGenDecl ha d)
  | labeled span label body =>
    have name := h.part (m := .name a label) ha rfl
    refine h.stmt (s := .labeled span label body) (m := .stmt a _) ha .stmt ?_
    simpa [Stmt.parts, Node.below, Node.outline, Stmt.outline, Outline.nodes] using
      (h.append name (ofStmt ha body))
  | expr span x =>
    refine h.stmt (s := .expr span x) (m := .stmt a _) ha .stmt ?_
    simpa [Stmt.parts, Node.below, Node.outline, Stmt.outline, Outline.nodes] using
      (ofExpr ha x)
  | incDec span x inc =>
    refine h.stmt (s := .incDec span x inc) (m := .stmt a _) ha .stmt ?_
    simpa [Stmt.parts, Node.below, Node.outline, Stmt.outline, Outline.nodes] using
      (ofExpr ha x)
  | go span x =>
    refine h.stmt (s := .go span x) (m := .stmt a _) ha .stmt ?_
    simpa [Stmt.parts, Node.below, Node.outline, Stmt.outline, Outline.nodes] using
      (ofExpr ha x)
  | defer span x =>
    refine h.stmt (s := .defer span x) (m := .stmt a _) ha .stmt ?_
    simpa [Stmt.parts, Node.below, Node.outline, Stmt.outline, Outline.nodes] using
      (ofExpr ha x)
  | send span chan value =>
    refine h.stmt (s := .send span chan value) (m := .stmt a _) ha .stmt ?_
    simpa [Stmt.parts, Node.below, Node.outline, Stmt.outline, Outline.nodes] using
      (h.append (ofExpr ha chan) (ofExpr ha value))
  | assign span lhs op rhs =>
    refine h.stmt (s := .assign span lhs op rhs) (m := .stmt a _) ha .stmt ?_
    simpa [Stmt.parts, Node.below, Node.outline, Stmt.outline, Outline.nodes] using
      (h.append (ofExprs ha lhs) (ofExprs ha rhs))
  | «return» span results =>
    refine h.stmt (s := .return span results) (m := .stmt a _) ha .stmt ?_
    simpa [Stmt.parts, Node.below, Node.outline, Stmt.outline, Outline.nodes] using
      (ofExprs ha results)
  | branch span tok label =>
    refine h.stmt (s := .branch span tok label) (m := .stmt a _) ha .stmt ?_
    simpa [Stmt.parts, Node.below, Node.outline, Stmt.outline, Outline.nodes] using
      (h.optionalName ha label)
  | block b =>
    obtain ⟨span, body⟩ := b
    have stands : (Mark.block a span).Stands (.stmt (.block ⟨span, body⟩)) :=
      .block (b := ⟨span, body⟩)
    exact h.stmt ha stands (ofStmts ha body)
  | «if» span init cond body els =>
    have upTo := h.append (h.append (ofOptionalStmt ha init) (ofExpr ha cond)) (ofBlock ha body)
    refine h.stmt (s := .if span init cond body els) (m := .stmt a _) ha .stmt ?_
    simpa [Stmt.parts, Node.below, Node.outline, Stmt.outline, Outline.nodes] using
      (h.append upTo (ofOptionalStmt ha els))
  | caseClause span list body =>
    refine h.stmt (s := .caseClause span list body) (m := .stmt a _) ha .stmt ?_
    simpa [Stmt.parts, Node.below, Node.outline, Stmt.outline, Outline.nodes] using
      (h.append (ofExprs ha list) (ofStmts ha body))
  | switch span init tag body =>
    have first := h.append (ofOptionalStmt ha init) (ofOptionalExpr ha tag)
    refine h.stmt (s := .switch span init tag body) (m := .stmt a _) ha .stmt ?_
    simpa [Stmt.parts, Node.below, Node.outline, Stmt.outline, Outline.nodes] using
      (h.append first (ofBlock ha body))
  | typeSwitch span init assign body =>
    have first := h.append (ofOptionalStmt ha init) (ofStmt ha assign)
    refine h.stmt (s := .typeSwitch span init assign body) (m := .stmt a _) ha .stmt ?_
    simpa [Stmt.parts, Node.below, Node.outline, Stmt.outline, Outline.nodes] using
      (h.append first (ofBlock ha body))
  | commClause span comm body =>
    refine h.stmt (s := .commClause span comm body) (m := .stmt a _) ha .stmt ?_
    simpa [Stmt.parts, Node.below, Node.outline, Stmt.outline, Outline.nodes] using
      (h.append (ofOptionalStmt ha comm) (ofStmts ha body))
  | select span body =>
    refine h.stmt (s := .select span body) (m := .stmt a _) ha .stmt ?_
    simpa [Stmt.parts, Node.below, Node.outline, Stmt.outline, Outline.nodes] using
      (ofBlock ha body)
  | «for» span init cond post body =>
    have upTo := h.append (h.append (ofOptionalStmt ha init) (ofOptionalExpr ha cond))
      (ofOptionalStmt ha post)
    refine h.stmt (s := .for span init cond post body) (m := .stmt a _) ha .stmt ?_
    simpa [Stmt.parts, Node.below, Node.outline, Stmt.outline, Outline.nodes] using
      (h.append upTo (ofBlock ha body))
  | range span key value define x body =>
    have upTo := h.append (h.append (ofOptionalExpr ha key) (ofOptionalExpr ha value)) (ofExpr ha x)
    refine h.stmt (s := .range span key value define x body) (m := .stmt a _) ha .stmt ?_
    simpa [Stmt.parts, Node.below, Node.outline, Stmt.outline, Outline.nodes] using
      (h.append upTo (ofBlock ha body))
termination_by structural s

theorem ofOptionalStmt {a : Around} (ha : a.path = path) (s : Option Stmt) :
    R (optionalStmtMarks a s) [] (nodesOfAll (Stmt.optionOutlines s)) := by
  cases s with
  | none => exact h.nil
  | some s => simpa [optionalStmtMarks, Stmt.optionOutlines] using ofStmt ha s
termination_by structural s

theorem ofStmts {a : Around} (ha : a.path = path) (ss : List Stmt) :
    R (stmtsMarks a ss) [] (nodesOfAll (Stmt.listOutlines ss)) := by
  cases ss with
  | nil => exact h.nil
  | cons s ss => exact h.append (ofStmt ha s) (ofStmts ha ss)
termination_by structural ss

end

theorem ofFuncDecl (p : Package) (d : FuncDecl) :
    R (funcDeclMarks p path d) [] d.outline.nodes := by
  obtain ⟨span, recv, name, type, body⟩ := d
  have inner : ((Around.top path).enter name.span.start).path = path := rfl
  have own := h.part (m := .name ((Around.top path).enter name.span.start) name) inner rfl
  have row := h.part (x := .signature type.span)
    (m := .signature ((Around.top path).enter name.span.start) type.span (p.typeOfName name)) inner rfl
  have fields := h.append (h.append (h.ofOptionalFieldList inner recv) own) (h.ofFuncType inner type)
  have upTo := h.append fields row
  refine h.decl (n := .func ⟨span, recv, name, type, body⟩) rfl ?_
  cases body with
  | none =>
    simpa [funcDeclMarks, Node.parts, FuncDecl.parts, Node.below, Node.outline, FuncDecl.outline,
      Outline.nodes] using upTo
  | some body =>
    simpa [funcDeclMarks, Node.parts, FuncDecl.parts, Node.below, Node.outline, FuncDecl.outline,
      Outline.nodes] using h.append upTo (h.ofBlock inner body)

theorem ofDecls (p : Package) (ds : List Decl) :
    R (declsMarks p path ds) [] (nodesOfAll (ds.flatMap Decl.outlines)) := by
  induction ds with
  | nil => exact h.nil
  | cons d ds ih =>
    cases d with
    | bad => exact ih
    | func d => exact h.append (h.ofFuncDecl p d) ih
    | gen d =>
      have here : (Around.top path).path = path := rfl
      exact h.append (h.ofGenDecl here d) ih

end Composes

/-- What holds of the pieces of a file holds of the file. -/
theorem Composes.file {f : SourceFile} {R : List Mark → List Part → List Node → Prop}
    (h : Composes f.path R) (p : Package) : R (f.marks p) [.name f.package] f.nodes := by
  have name := h.part (m := .name (.top f.path) f.package) rfl rfl
  exact h.append name (h.ofDecls p f.decls)

/-! ## Files and operands -/

theorem inFile_composes (path : Path) :
    Composes path fun marks _ _ => ∀ m ∈ marks, m.around.path = path where
  nil := by simp
  append := by simp +contextual [or_imp]
  part := by simp +contextual
  expr := by simp +contextual [or_imp, Mark.around]
  stmt := by simp +contextual [or_imp]
  decl _ h := h

end Depth

theorem SourceFile.marks_inFile (p : Package) (f : SourceFile) :
    ∀ m ∈ f.marks p, m.around.path = f.path :=
  (Depth.inFile_composes f.path).file p

end AccessDepth
