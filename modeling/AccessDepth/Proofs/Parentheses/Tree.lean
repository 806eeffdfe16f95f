import AccessDepth.Proofs.Access.Rooted
import AccessDepth.Proofs.Depth.Places
import AccessDepth.Proofs.DepthPass

/-!
# AccessDepth.Proofs.Parentheses.Tree

A syntax tree with one pair of parentheses more.

* `Expr.enclose`, `SourceFile.enclose` — the expression that stands at a span is put into parentheses.
* `SourceFile.marks_enclose` — the nodes that the depth pass records are the same ones in the same
  order, with the parentheses after the expression that they enclose.
-/

namespace AccessDepth

section

variable (place fresh : Span)

mutual

/-- Puts the expression at `place` into parentheses, which stand at `fresh` and have its type. -/
def Expr.enclose : Expr → Expr
  | ⟨span, type, node⟩ =>
    if span = place then ⟨fresh, type, .paren ⟨span, type, node.enclose⟩⟩
    else ⟨span, type, node.enclose⟩
termination_by structural e => e

def ExprNode.enclose : ExprNode → ExprNode
  | .bad => .bad
  | .ident name object => .ident name object
  | .ellipsis elt => .ellipsis (Expr.encloseMaybe elt)
  | .basicLit kind value => .basicLit kind value
  | .funcLit type body => .funcLit type.enclose body.enclose
  | .compositeLit type elts => .compositeLit (Expr.encloseMaybe type) (Expr.encloseAll elts)
  | .paren x => .paren x.enclose
  | .selector x sel => .selector x.enclose sel
  | .index x index => .index x.enclose index.enclose
  | .indexList x indices => .indexList x.enclose (Expr.encloseAll indices)
  | .slice x low high max =>
    .slice x.enclose (Expr.encloseMaybe low) (Expr.encloseMaybe high) (Expr.encloseMaybe max)
  | .typeAssert x target => .typeAssert x.enclose (Expr.encloseMaybe target)
  | .call fn args spread => .call fn.enclose (Expr.encloseAll args) spread
  | .star x => .star x.enclose
  | .unary op x => .unary op x.enclose
  | .binary op x y => .binary op x.enclose y.enclose
  | .keyValue key value => .keyValue key.enclose value.enclose
  | .arrayType len elt => .arrayType (Expr.encloseMaybe len) elt.enclose
  | .structType fields => .structType fields.enclose
  | .funcType type => .funcType type.enclose
  | .interfaceType methods => .interfaceType methods.enclose
  | .mapType key value => .mapType key.enclose value.enclose
  | .chanType dir value => .chanType dir value.enclose
termination_by structural n => n

def Expr.encloseMaybe : Option Expr → Option Expr
  | none => none
  | some e => some e.enclose
termination_by structural e => e

def Expr.encloseAll : List Expr → List Expr
  | [] => []
  | e :: es => e.enclose :: Expr.encloseAll es
termination_by structural es => es

def FieldList.enclose : FieldList → FieldList
  | ⟨span, fs⟩ => ⟨span, Field.encloseAll fs⟩
termination_by structural l => l

def FieldList.encloseMaybe : Option FieldList → Option FieldList
  | none => none
  | some l => some l.enclose
termination_by structural l => l

def Field.encloseAll : List Field → List Field
  | [] => []
  | ⟨span, names, type, tag⟩ :: fs => ⟨span, names, type.enclose, tag⟩ :: Field.encloseAll fs
termination_by structural fs => fs

def FuncType.enclose : FuncType → FuncType
  | ⟨span, typeParams, params, results⟩ =>
    ⟨span, FieldList.encloseMaybe typeParams, params.enclose, FieldList.encloseMaybe results⟩
termination_by structural t => t

def Block.enclose : Block → Block
  | ⟨span, body⟩ => ⟨span, Stmt.encloseAll body⟩
termination_by structural b => b

def Spec.encloseAll : List Spec → List Spec
  | [] => []
  | .import span name path :: ss => .import span name path :: Spec.encloseAll ss
  | .value span names type values :: ss =>
    .value span names (Expr.encloseMaybe type) (Expr.encloseAll values) :: Spec.encloseAll ss
  | .type span name typeParams isAlias type :: ss =>
    .type span name (FieldList.encloseMaybe typeParams) isAlias type.enclose :: Spec.encloseAll ss
termination_by structural ss => ss

def GenDecl.enclose : GenDecl → GenDecl
  | ⟨span, tok, ss⟩ => ⟨span, tok, Spec.encloseAll ss⟩
termination_by structural d => d

def Stmt.enclose : Stmt → Stmt
  | .bad span => .bad span
  | .decl span decl => .decl span decl.enclose
  | .empty span => .empty span
  | .labeled span label body => .labeled span label body.enclose
  | .expr span x => .expr span x.enclose
  | .send span chan value => .send span chan.enclose value.enclose
  | .incDec span x inc => .incDec span x.enclose inc
  | .assign span lhs op rhs => .assign span (Expr.encloseAll lhs) op (Expr.encloseAll rhs)
  | .go span call => .go span call.enclose
  | .defer span call => .defer span call.enclose
  | .return span results => .return span (Expr.encloseAll results)
  | .branch span tok label => .branch span tok label
  | .block b => .block b.enclose
  | .if span init cond body els =>
    .if span (Stmt.encloseMaybe init) cond.enclose body.enclose (Stmt.encloseMaybe els)
  | .caseClause span list body => .caseClause span (Expr.encloseAll list) (Stmt.encloseAll body)
  | .switch span init tag body =>
    .switch span (Stmt.encloseMaybe init) (Expr.encloseMaybe tag) body.enclose
  | .typeSwitch span init assign body =>
    .typeSwitch span (Stmt.encloseMaybe init) assign.enclose body.enclose
  | .commClause span comm body => .commClause span (Stmt.encloseMaybe comm) (Stmt.encloseAll body)
  | .select span body => .select span body.enclose
  | .for span init cond post body =>
    .for span (Stmt.encloseMaybe init) (Expr.encloseMaybe cond) (Stmt.encloseMaybe post) body.enclose
  | .range span key value define x body =>
    .range span (Expr.encloseMaybe key) (Expr.encloseMaybe value) define x.enclose body.enclose
  | .other span => .other span
termination_by structural s => s

def Stmt.encloseMaybe : Option Stmt → Option Stmt
  | none => none
  | some s => some s.enclose
termination_by structural s => s

def Stmt.encloseAll : List Stmt → List Stmt
  | [] => []
  | s :: ss => s.enclose :: Stmt.encloseAll ss
termination_by structural ss => ss

end

def FuncDecl.enclose (d : FuncDecl) : FuncDecl :=
  { d with
    recv := FieldList.encloseMaybe place fresh d.recv
    type := d.type.enclose place fresh
    body := d.body.map (·.enclose place fresh) }

def Decl.enclose : Decl → Decl
  | .bad span => .bad span
  | .func d => .func (d.enclose place fresh)
  | .gen d => .gen (d.enclose place fresh)

def SourceFile.enclose (f : SourceFile) : SourceFile :=
  { f with decls := f.decls.map (·.enclose place fresh) }

def Expr.encloseBelow (e : Expr) : Expr := { e with node := e.node.enclose place fresh }

namespace Depth

def Mark.encloseBelow : Mark → Mark
  | .expr a e => .expr a (e.encloseBelow place fresh)
  | .stmt a s => .stmt a (s.enclose place fresh)
  | m => m

def Mark.parens : Mark → List Mark
  | .expr a e => if e.span = place then [.expr a (e.enclose place fresh)] else []
  | _ => []

/-- What becomes of a node. -/
def Mark.enclose (m : Mark) : List Mark := m.encloseBelow place fresh :: m.parens place fresh

end Depth

end

variable {place fresh : Span}

theorem Expr.enclose_eq (e : Expr) : e.enclose place fresh =
    if e.span = place then ⟨fresh, e.type, .paren (e.encloseBelow place fresh)⟩
    else e.encloseBelow place fresh := by
  obtain ⟨span, type, node⟩ := e
  exact Expr.enclose.eq_1 ..

namespace Depth

open Plan (Around)

theorem nameMarks_enclose (a : Around) (is : List Ident) :
    (nameMarks a is).flatMap (Mark.enclose place fresh) = nameMarks a is := by
  induction is with
  | nil => rfl
  | cons i is ih =>
    rw [nameMarks, List.flatMap_append, ih]
    rfl

theorem optionalNameMarks_enclose (a : Around) (i : Option Ident) :
    (optionalNameMarks a i).flatMap (Mark.enclose place fresh) = optionalNameMarks a i := by
  cases i <;> rfl

theorem optionalLiteralMarks_enclose (a : Around) (l : Option BasicLit) :
    (optionalLiteralMarks a l).flatMap (Mark.enclose place fresh) = optionalLiteralMarks a l := by
  cases l <;> rfl

mutual

theorem exprMarks_enclose (a : Around) (e : Expr) :
    exprMarks a (e.enclose place fresh) = (exprMarks a e).flatMap (Mark.enclose place fresh) := by
  obtain ⟨span, type, node⟩ := e
  have below := nodeMarks_enclose a span type node
  simp only [exprMarks, Expr.enclose, List.flatMap_append, List.flatMap_singleton, Mark.enclose,
    Mark.encloseBelow, Mark.parens, Expr.encloseBelow, ← below]
  split
  · simp [exprMarks, nodeMarks]
  · simp [exprMarks]
termination_by structural e

theorem nodeMarks_enclose (a : Around) (span : Span) (type : Option TypeRef) (node : ExprNode) :
    nodeMarks a span type (node.enclose place fresh) =
      (nodeMarks a span type node).flatMap (Mark.enclose place fresh) := by
  cases node with
  | bad | ident | basicLit => rfl
  | ellipsis elt => exact optionalExprMarks_enclose a elt
  | funcLit signature body =>
    have type' := funcTypeMarks_enclose (a.enter span.start) signature
    have body' := blockMarks_enclose (a.enter span.start) body
    have own : (signature.enclose place fresh).span = signature.span := by
      cases signature
      rfl
    simp only [ExprNode.enclose, nodeMarks, type', body', own, List.flatMap_append,
      List.flatMap_singleton]
    rfl
  | paren x | star x | unary op x | chanType dir x => exact exprMarks_enclose a x
  | selector x sel =>
    simp only [ExprNode.enclose, nodeMarks, exprMarks_enclose a x, List.flatMap_append,
      List.flatMap_singleton]
    rfl
  | index x y | binary op x y | keyValue x y | mapType x y =>
    simp only [ExprNode.enclose, nodeMarks, exprMarks_enclose a x, exprMarks_enclose a y,
      List.flatMap_append]
  | indexList x xs | call x xs spread =>
    simp only [ExprNode.enclose, nodeMarks, exprMarks_enclose a x, exprsMarks_enclose a xs,
      List.flatMap_append]
  | compositeLit x xs =>
    simp only [ExprNode.enclose, nodeMarks, optionalExprMarks_enclose a x, exprsMarks_enclose a xs,
      List.flatMap_append]
  | slice x low high max =>
    simp only [ExprNode.enclose, nodeMarks, exprMarks_enclose a x, optionalExprMarks_enclose a low,
      optionalExprMarks_enclose a high, optionalExprMarks_enclose a max, List.flatMap_append]
  | typeAssert x y =>
    simp only [ExprNode.enclose, nodeMarks, exprMarks_enclose a x, optionalExprMarks_enclose a y,
      List.flatMap_append]
  | arrayType x y =>
    simp only [ExprNode.enclose, nodeMarks, optionalExprMarks_enclose a x, exprMarks_enclose a y,
      List.flatMap_append]
  | structType fields | interfaceType fields => exact fieldListMarks_enclose a fields
  | funcType signature => exact funcTypeMarks_enclose a signature
termination_by structural node

theorem optionalExprMarks_enclose (a : Around) (e : Option Expr) :
    optionalExprMarks a (Expr.encloseMaybe place fresh e) =
      (optionalExprMarks a e).flatMap (Mark.enclose place fresh) := by
  cases e with
  | none => rfl
  | some e => exact exprMarks_enclose a e
termination_by structural e

theorem exprsMarks_enclose (a : Around) (es : List Expr) :
    exprsMarks a (Expr.encloseAll place fresh es) =
      (exprsMarks a es).flatMap (Mark.enclose place fresh) := by
  cases es with
  | nil => rfl
  | cons e es =>
    simp only [Expr.encloseAll, exprsMarks, exprMarks_enclose a e, exprsMarks_enclose a es,
      List.flatMap_append]
termination_by structural es

theorem fieldListMarks_enclose (a : Around) (l : FieldList) :
    fieldListMarks a (l.enclose place fresh) =
      (fieldListMarks a l).flatMap (Mark.enclose place fresh) := by
  obtain ⟨span, fs⟩ := l
  exact fieldsMarks_enclose a fs
termination_by structural l

theorem optionalFieldListMarks_enclose (a : Around) (l : Option FieldList) :
    optionalFieldListMarks a (FieldList.encloseMaybe place fresh l) =
      (optionalFieldListMarks a l).flatMap (Mark.enclose place fresh) := by
  cases l with
  | none => rfl
  | some l => exact fieldListMarks_enclose a l
termination_by structural l

theorem fieldsMarks_enclose (a : Around) (fs : List Field) :
    fieldsMarks a (Field.encloseAll place fresh fs) =
      (fieldsMarks a fs).flatMap (Mark.enclose place fresh) := by
  cases fs with
  | nil => rfl
  | cons f fs =>
    obtain ⟨span, names, type, tag⟩ := f
    simp only [Field.encloseAll, fieldsMarks, exprMarks_enclose a type, fieldsMarks_enclose a fs,
      nameMarks_enclose, optionalLiteralMarks_enclose, List.flatMap_append]
termination_by structural fs

theorem funcTypeMarks_enclose (a : Around) (t : FuncType) :
    funcTypeMarks a (t.enclose place fresh) =
      (funcTypeMarks a t).flatMap (Mark.enclose place fresh) := by
  obtain ⟨span, typeParams, params, results⟩ := t
  simp only [FuncType.enclose, funcTypeMarks, optionalFieldListMarks_enclose a typeParams,
    fieldListMarks_enclose a params, optionalFieldListMarks_enclose a results, List.flatMap_append]
termination_by structural t

theorem blockMarks_enclose (a : Around) (b : Block) :
    blockMarks a (b.enclose place fresh) =
      (blockMarks a b).flatMap (Mark.enclose place fresh) := by
  obtain ⟨span, body⟩ := b
  simp only [Block.enclose, blockMarks, stmtsMarks_enclose a body, List.flatMap_append,
    List.flatMap_singleton]
  rfl
termination_by structural b

theorem specsMarks_enclose (a : Around) (ss : List Spec) :
    specsMarks a (Spec.encloseAll place fresh ss) =
      (specsMarks a ss).flatMap (Mark.enclose place fresh) := by
  cases ss with
  | nil => rfl
  | cons spec ss =>
    have rest := specsMarks_enclose a ss
    cases spec with
    | «import» span name path =>
      simp only [Spec.encloseAll, specsMarks, rest, optionalNameMarks_enclose, List.flatMap_append,
        List.flatMap_singleton]
      rfl
    | value span names type values =>
      simp only [Spec.encloseAll, specsMarks, rest, optionalExprMarks_enclose a type,
        exprsMarks_enclose a values, nameMarks_enclose, List.flatMap_append]
    | type span name typeParams isAlias type =>
      simp only [Spec.encloseAll, specsMarks, rest, optionalFieldListMarks_enclose a typeParams,
        exprMarks_enclose a type, List.flatMap_append, List.flatMap_singleton]
      rfl
termination_by structural ss

theorem genDeclMarks_enclose (a : Around) (d : GenDecl) :
    genDeclMarks a (d.enclose place fresh) =
      (genDeclMarks a d).flatMap (Mark.enclose place fresh) := by
  obtain ⟨span, tok, ss⟩ := d
  exact specsMarks_enclose a ss
termination_by structural d

theorem stmtMarks_enclose (a : Around) (s : Stmt) :
    stmtMarks a (s.enclose place fresh) =
      (stmtMarks a s).flatMap (Mark.enclose place fresh) := by
  cases s with
  | bad | empty | other => rfl
  | decl span decl =>
    simp only [Stmt.enclose, stmtMarks, genDeclMarks_enclose a decl, List.flatMap_append,
      List.flatMap_singleton, Mark.enclose, Mark.encloseBelow, Mark.parens]
  | labeled span label body =>
    simp only [Stmt.enclose, stmtMarks, stmtMarks_enclose a body, List.flatMap_append,
      List.flatMap_singleton, Mark.enclose, Mark.encloseBelow, Mark.parens]
  | expr span x | incDec span x | go span x | defer span x =>
    simp only [Stmt.enclose, stmtMarks, exprMarks_enclose a x, List.flatMap_append,
      List.flatMap_singleton, Mark.enclose, Mark.encloseBelow, Mark.parens]
  | send span x y =>
    simp only [Stmt.enclose, stmtMarks, exprMarks_enclose a x, exprMarks_enclose a y,
      List.flatMap_append, List.flatMap_singleton, Mark.enclose, Mark.encloseBelow, Mark.parens]
  | assign span lhs op rhs =>
    simp only [Stmt.enclose, stmtMarks, exprsMarks_enclose a lhs, exprsMarks_enclose a rhs,
      List.flatMap_append, List.flatMap_singleton, Mark.enclose, Mark.encloseBelow, Mark.parens]
  | «return» span results =>
    simp only [Stmt.enclose, stmtMarks, exprsMarks_enclose a results, List.flatMap_append,
      List.flatMap_singleton, Mark.enclose, Mark.encloseBelow, Mark.parens]
  | branch span tok label =>
    simp only [Stmt.enclose, stmtMarks, optionalNameMarks_enclose, List.flatMap_append,
      List.flatMap_singleton, Mark.enclose, Mark.encloseBelow, Mark.parens]
  | block b => exact blockMarks_enclose a b
  | «if» span init cond body els =>
    simp only [Stmt.enclose, stmtMarks, optionalStmtMarks_enclose a init, exprMarks_enclose a cond,
      blockMarks_enclose a body, optionalStmtMarks_enclose a els, List.flatMap_append,
      List.flatMap_singleton, Mark.enclose, Mark.encloseBelow, Mark.parens]
  | caseClause span list body =>
    simp only [Stmt.enclose, stmtMarks, exprsMarks_enclose a list, stmtsMarks_enclose a body,
      List.flatMap_append, List.flatMap_singleton, Mark.enclose, Mark.encloseBelow, Mark.parens]
  | «switch» span init tag body =>
    simp only [Stmt.enclose, stmtMarks, optionalStmtMarks_enclose a init,
      optionalExprMarks_enclose a tag, blockMarks_enclose a body, List.flatMap_append,
      List.flatMap_singleton, Mark.enclose, Mark.encloseBelow, Mark.parens]
  | typeSwitch span init assign body =>
    simp only [Stmt.enclose, stmtMarks, optionalStmtMarks_enclose a init, stmtMarks_enclose a assign,
      blockMarks_enclose a body, List.flatMap_append, List.flatMap_singleton, Mark.enclose,
      Mark.encloseBelow, Mark.parens]
  | commClause span comm body =>
    simp only [Stmt.enclose, stmtMarks, optionalStmtMarks_enclose a comm, stmtsMarks_enclose a body,
      List.flatMap_append, List.flatMap_singleton, Mark.enclose, Mark.encloseBelow, Mark.parens]
  | select span body =>
    simp only [Stmt.enclose, stmtMarks, blockMarks_enclose a body, List.flatMap_append,
      List.flatMap_singleton, Mark.enclose, Mark.encloseBelow, Mark.parens]
  | «for» span init cond post body =>
    simp only [Stmt.enclose, stmtMarks, optionalStmtMarks_enclose a init,
      optionalExprMarks_enclose a cond, optionalStmtMarks_enclose a post, blockMarks_enclose a body,
      List.flatMap_append, List.flatMap_singleton, Mark.enclose, Mark.encloseBelow, Mark.parens]
  | range span key value define x body =>
    simp only [Stmt.enclose, stmtMarks, optionalExprMarks_enclose a key,
      optionalExprMarks_enclose a value, exprMarks_enclose a x, blockMarks_enclose a body,
      List.flatMap_append, List.flatMap_singleton, Mark.enclose, Mark.encloseBelow, Mark.parens]
termination_by structural s

theorem optionalStmtMarks_enclose (a : Around) (s : Option Stmt) :
    optionalStmtMarks a (Stmt.encloseMaybe place fresh s) =
      (optionalStmtMarks a s).flatMap (Mark.enclose place fresh) := by
  cases s with
  | none => rfl
  | some s => exact stmtMarks_enclose a s
termination_by structural s

theorem stmtsMarks_enclose (a : Around) (ss : List Stmt) :
    stmtsMarks a (Stmt.encloseAll place fresh ss) =
      (stmtsMarks a ss).flatMap (Mark.enclose place fresh) := by
  cases ss with
  | nil => rfl
  | cons s ss =>
    simp only [Stmt.encloseAll, stmtsMarks, stmtMarks_enclose a s, stmtsMarks_enclose a ss,
      List.flatMap_append]
termination_by structural ss

end

theorem funcDeclMarks_enclose (p : Package) (path : Path) (d : FuncDecl) :
    funcDeclMarks p path (d.enclose place fresh) =
      (funcDeclMarks p path d).flatMap (Mark.enclose place fresh) := by
  obtain ⟨span, recv, name, type, body⟩ := d
  have own : (type.enclose place fresh).span = type.span := by
    cases type
    rfl
  cases body <;>
  · simp only [FuncDecl.enclose, funcDeclMarks, optionalFieldListMarks_enclose,
      funcTypeMarks_enclose, blockMarks_enclose, own, List.flatMap_append, List.flatMap_singleton,
      Option.map_some, Option.map_none]
    rfl

theorem declsMarks_enclose (p : Package) (path : Path) (ds : List Decl) :
    declsMarks p path (ds.map (·.enclose place fresh)) =
      (declsMarks p path ds).flatMap (Mark.enclose place fresh) := by
  induction ds with
  | nil => rfl
  | cons d ds ih =>
    cases d with
    | bad => exact ih
    | func d =>
      rw [declsMarks, List.flatMap_append, ← funcDeclMarks_enclose, ← ih]
      rfl
    | gen d =>
      rw [declsMarks, List.flatMap_append, ← genDeclMarks_enclose, ← ih]
      rfl

end Depth

/-- The parentheses come right after what they enclose. -/
theorem SourceFile.marks_enclose (place fresh : Span) (p : Package) (f : SourceFile) :
    (f.enclose place fresh).marks p = (f.marks p).flatMap (Depth.Mark.enclose place fresh) := by
  unfold SourceFile.marks
  rw [List.flatMap_append]
  exact congrArg ([_] ++ ·) (Depth.declsMarks_enclose p f.path f.decls)

end AccessDepth
