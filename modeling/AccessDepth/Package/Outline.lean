import AccessDepth.Failure
import AccessDepth.Package.Tree

/-!
# AccessDepth.Package.Outline

The nodes of a file that passes look at, as an ordered tree.

* `Node` — an expression, a statement, a function declaration or a general declaration.
* `Outline` — a node over the outlines below it, in source order. Names, literals and blocks are no
  nodes of their own; the nodes inside them stand below the node around them.
* `Outline.visit` — walks an outline with a hook, which is given each node together with the walk
  below it, and which decides whether to make that walk.
* `Outline.nodes` — every node, each before the nodes below it.
-/

namespace AccessDepth

inductive Node where
  | expr (expr : Expr)
  | stmt (stmt : Stmt)
  | func (decl : FuncDecl)
  | gen (decl : GenDecl)

namespace Node

def span : Node → Span
  | .expr e => e.span
  | .stmt s => s.span
  | .func d => d.span
  | .gen d => d.span

/-- The kind of an expression, or the sort of any other node. -/
def tag : Node → String
  | .expr e => Vocabulary.text e.node.kind
  | .stmt _ => "stmt"
  | .func _ => "func"
  | .gen _ => "gen"

/-- The tag and the place of a node. -/
def label (n : Node) : String := n.tag ++ "@" ++ n.span.text

end Node

inductive Outline where
  | node (head : Node) (children : List Outline)

mutual

def Expr.outline : Expr → Outline
  | ⟨span, type, node⟩ => .node (.expr ⟨span, type, node⟩) node.outlines
termination_by structural e => e

/-- The outlines below an expression. -/
def ExprNode.outlines : ExprNode → List Outline
  | .bad => []
  | .ident .. => []
  | .ellipsis elt => Expr.optionOutlines elt
  | .basicLit .. => []
  | .funcLit type body => type.outlines ++ body.outlines
  | .compositeLit type elts => Expr.optionOutlines type ++ Expr.listOutlines elts
  | .paren x => [x.outline]
  | .selector x _ => [x.outline]
  | .index x index => [x.outline, index.outline]
  | .indexList x indices => x.outline :: Expr.listOutlines indices
  | .slice x low high max =>
    x.outline :: (Expr.optionOutlines low ++ Expr.optionOutlines high ++ Expr.optionOutlines max)
  | .typeAssert x type => x.outline :: Expr.optionOutlines type
  | .call fn args _ => fn.outline :: Expr.listOutlines args
  | .star x => [x.outline]
  | .unary _ x => [x.outline]
  | .binary _ x y => [x.outline, y.outline]
  | .keyValue key value => [key.outline, value.outline]
  | .arrayType len elt => Expr.optionOutlines len ++ [elt.outline]
  | .structType fields => fields.outlines
  | .funcType type => type.outlines
  | .interfaceType methods => methods.outlines
  | .mapType key value => [key.outline, value.outline]
  | .chanType _ value => [value.outline]
termination_by structural n => n

def Expr.optionOutlines : Option Expr → List Outline
  | none => []
  | some e => [e.outline]
termination_by structural e => e

def Expr.listOutlines : List Expr → List Outline
  | [] => []
  | e :: es => e.outline :: Expr.listOutlines es
termination_by structural es => es

/-- The type expressions of the fields. -/
def FieldList.outlines : FieldList → List Outline
  | ⟨_, fields⟩ => Field.listOutlines fields
termination_by structural l => l

def FieldList.optionOutlines : Option FieldList → List Outline
  | none => []
  | some l => l.outlines
termination_by structural l => l

def Field.listOutlines : List Field → List Outline
  | [] => []
  | ⟨_, _, type, _⟩ :: fs => type.outline :: Field.listOutlines fs
termination_by structural fs => fs

/-- Type parameters, parameters, results. -/
def FuncType.outlines : FuncType → List Outline
  | ⟨_, typeParams, params, results⟩ =>
    FieldList.optionOutlines typeParams ++ params.outlines ++ FieldList.optionOutlines results
termination_by structural t => t

def Block.outlines : Block → List Outline
  | ⟨_, stmts⟩ => Stmt.listOutlines stmts
termination_by structural b => b

def Spec.outlines : Spec → List Outline
  | .import .. => []
  | .value _ _ type values => Expr.optionOutlines type ++ Expr.listOutlines values
  | .type _ _ typeParams _ type => FieldList.optionOutlines typeParams ++ [type.outline]
termination_by structural s => s

def Spec.listOutlines : List Spec → List Outline
  | [] => []
  | s :: ss => s.outlines ++ Spec.listOutlines ss
termination_by structural ss => ss

def GenDecl.outline : GenDecl → Outline
  | ⟨span, tok, specs⟩ => .node (.gen ⟨span, tok, specs⟩) (Spec.listOutlines specs)
termination_by structural d => d

def Stmt.outline : Stmt → Outline
  | .bad span => .node (.stmt (.bad span)) []
  | .decl span decl => .node (.stmt (.decl span decl)) [decl.outline]
  | .empty span => .node (.stmt (.empty span)) []
  | .labeled span label stmt => .node (.stmt (.labeled span label stmt)) [stmt.outline]
  | .expr span x => .node (.stmt (.expr span x)) [x.outline]
  | .send span chan value =>
    .node (.stmt (.send span chan value)) [chan.outline, value.outline]
  | .incDec span x inc => .node (.stmt (.incDec span x inc)) [x.outline]
  | .assign span lhs op rhs =>
    .node (.stmt (.assign span lhs op rhs)) (Expr.listOutlines lhs ++ Expr.listOutlines rhs)
  | .go span call => .node (.stmt (.go span call)) [call.outline]
  | .defer span call => .node (.stmt (.defer span call)) [call.outline]
  | .return span results => .node (.stmt (.return span results)) (Expr.listOutlines results)
  | .branch span tok label => .node (.stmt (.branch span tok label)) []
  | .block block => .node (.stmt (.block block)) block.outlines
  | .if span init cond body els =>
    .node (.stmt (.if span init cond body els))
      (Stmt.optionOutlines init ++ [cond.outline] ++ body.outlines ++ Stmt.optionOutlines els)
  | .caseClause span list body =>
    .node (.stmt (.caseClause span list body)) (Expr.listOutlines list ++ Stmt.listOutlines body)
  | .switch span init tag body =>
    .node (.stmt (.switch span init tag body))
      (Stmt.optionOutlines init ++ Expr.optionOutlines tag ++ body.outlines)
  | .typeSwitch span init assign body =>
    .node (.stmt (.typeSwitch span init assign body))
      (Stmt.optionOutlines init ++ [assign.outline] ++ body.outlines)
  | .commClause span comm body =>
    .node (.stmt (.commClause span comm body))
      (Stmt.optionOutlines comm ++ Stmt.listOutlines body)
  | .select span body => .node (.stmt (.select span body)) body.outlines
  | .for span init cond post body =>
    .node (.stmt (.for span init cond post body))
      (Stmt.optionOutlines init ++ Expr.optionOutlines cond ++ Stmt.optionOutlines post ++
        body.outlines)
  | .range span key value define x body =>
    .node (.stmt (.range span key value define x body))
      (Expr.optionOutlines key ++ Expr.optionOutlines value ++ [x.outline] ++ body.outlines)
  | .other span => .node (.stmt (.other span)) []
termination_by structural s => s

def Stmt.optionOutlines : Option Stmt → List Outline
  | none => []
  | some s => [s.outline]
termination_by structural s => s

def Stmt.listOutlines : List Stmt → List Outline
  | [] => []
  | s :: ss => s.outline :: Stmt.listOutlines ss
termination_by structural ss => ss

end

namespace FuncDecl

/-- Receiver, signature and body. -/
def outline (d : FuncDecl) : Outline :=
  .node (.func d) (FieldList.optionOutlines d.recv ++ d.type.outlines ++
    (d.body.map Block.outlines).getD [])

end FuncDecl

namespace Decl

def outlines : Decl → List Outline
  | .bad _ => []
  | .func d => [d.outline]
  | .gen d => [d.outline]

end Decl

namespace SourceFile

/-- The outlines of a file's declarations. -/
def outlines (f : SourceFile) : List Outline := f.decls.flatMap Decl.outlines

end SourceFile

namespace Outline

mutual

/-- Walks an outline. The hook is given each node and the walk below it. -/
def visit {m : Type → Type} [Monad m] (hook : Node → m Unit → m Unit) : Outline → m Unit
  | .node head children => hook head (visitAll hook children)
termination_by structural o => o

def visitAll {m : Type → Type} [Monad m] (hook : Node → m Unit → m Unit) : List Outline → m Unit
  | [] => pure ()
  | o :: os => do
    visit hook o
    visitAll hook os
termination_by structural os => os

end

mutual

/-- Every node of an outline, each before the nodes below it. -/
def nodes : Outline → List Node
  | .node head children => head :: nodesOfAll children
termination_by structural o => o

def nodesOfAll : List Outline → List Node
  | [] => []
  | o :: os => nodes o ++ nodesOfAll os
termination_by structural os => os

end

end Outline

namespace SourceFile

/-- Every node of a file, each before the nodes below it. -/
def nodes (f : SourceFile) : List Node := Outline.nodesOfAll f.outlines

end SourceFile

/-! ## Tracing a walk -/

/-- A walk that has met some nodes, or that has ended at a node with a forbidden tag. -/
abbrev Tracing := EStateM Failure (List Node)

/-- Notes each node. The walk ends at a tag in `fail` and does not go below a tag in `stop`. -/
def traceHook (stop fail : List String) (n : Node) (below : Tracing Unit) : Tracing Unit := do
  modify (· ++ [n])
  if n.tag ∈ fail then throw (.internal ("stopped at " ++ n.tag))
  else if n.tag ∈ stop then pure ()
  else below

namespace SourceFile

/-- The nodes that a walk meets, and the failure that ends it, if one does. -/
def trace (stop fail : List String) (f : SourceFile) : List Node × Except Failure Unit :=
  match Outline.visitAll (traceHook stop fail) f.outlines [] with
  | .ok _ met => (met, .ok ())
  | .error e met => (met, .error e)

/-- The names of the identifier expressions, in source order. -/
def identNames (f : SourceFile) : List String :=
  f.nodes.filterMap fun
    | .expr e => e.identName?
    | _ => none

/-- How many statements a file has. -/
def stmtCount (f : SourceFile) : Nat :=
  (f.nodes.filter fun
    | .stmt _ => true
    | _ => false).length

end SourceFile

end AccessDepth
