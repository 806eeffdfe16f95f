import AccessDepth.Proofs.Depth.Walk
import Mathlib.Data.List.Nodup
import Mathlib.Data.List.Pairwise

/-!
# AccessDepth.Proofs.Tree

The nodes of a file, read off the syntax.

* `Node.children` — the nodes right below a node, in source order.
* `SourceFile.Holds` — a node is a declaration of a file, or stands below a node of it, however deep.
* `Node.outline_eq` — the outline of a node is the node over the outlines of its children.
* `SourceFile.mem_nodes_iff` — the walk over a file meets the nodes of the file and no others.
-/

namespace AccessDepth

open Outline (nodesOfAll)

/-! ## Children -/

def FieldList.types (l : FieldList) : List Expr := l.fields.map (·.type)

def FuncType.types (t : FuncType) : List Expr :=
  t.typeParams.toList.flatMap FieldList.types ++ t.params.types ++
    t.results.toList.flatMap FieldList.types

def Spec.exprs : Spec → List Expr
  | .import .. => []
  | .value _ _ x xs => x.toList ++ xs
  | .type _ _ typeParams _ x => typeParams.toList.flatMap FieldList.types ++ [x]

/-- The nodes right below an expression. -/
def ExprNode.children : ExprNode → List Node
  | .bad | .ident .. | .basicLit .. => []
  | .ellipsis elt => elt.toList.map .expr
  | .funcLit type body => type.types.map .expr ++ body.stmts.map .stmt
  | .compositeLit type elts => (type.toList ++ elts).map .expr
  | .paren x | .selector x _ | .star x | .unary _ x | .chanType _ x => [.expr x]
  | .index x y | .binary _ x y | .keyValue x y | .mapType x y => [.expr x, .expr y]
  | .indexList x xs | .call x xs _ => (x :: xs).map .expr
  | .slice x low high max => (x :: (low.toList ++ high.toList ++ max.toList)).map .expr
  | .typeAssert x type => (x :: type.toList).map .expr
  | .arrayType len elt => (len.toList ++ [elt]).map .expr
  | .structType fields | .interfaceType fields => fields.types.map .expr
  | .funcType type => type.types.map .expr

/-- The nodes right below a statement. -/
def Stmt.children : Stmt → List Node
  | .bad _ | .empty _ | .branch .. | .other _ => []
  | .decl _ d => [.gen d]
  | .labeled _ _ s => [.stmt s]
  | .expr _ x | .incDec _ x _ | .go _ x | .defer _ x => [.expr x]
  | .send _ x y => [.expr x, .expr y]
  | .assign _ lhs _ rhs => (lhs ++ rhs).map .expr
  | .return _ xs => xs.map .expr
  | .block b | .select _ b => b.stmts.map .stmt
  | .if _ init cond body els =>
    init.toList.map .stmt ++ [.expr cond] ++ body.stmts.map .stmt ++ els.toList.map .stmt
  | .caseClause _ xs body => xs.map .expr ++ body.map .stmt
  | .switch _ init tag body =>
    init.toList.map .stmt ++ tag.toList.map .expr ++ body.stmts.map .stmt
  | .typeSwitch _ init s body =>
    init.toList.map .stmt ++ [.stmt s] ++ body.stmts.map .stmt
  | .commClause _ comm body => comm.toList.map .stmt ++ body.map .stmt
  | .for _ init cond post body =>
    init.toList.map .stmt ++ cond.toList.map .expr ++ post.toList.map .stmt ++
      body.stmts.map .stmt
  | .range _ key value _ x body =>
    (key.toList ++ value.toList ++ [x]).map .expr ++ body.stmts.map .stmt

namespace Node

/-- The nodes right below a node, in source order. -/
def children : Node → List Node
  | .expr e => e.node.children
  | .stmt s => s.children
  | .func d =>
    (d.recv.toList.flatMap FieldList.types ++ d.type.types).map .expr ++
      d.body.toList.flatMap fun body => body.stmts.map .stmt
  | .gen d => (d.specs.flatMap Spec.exprs).map .expr

end Node

/-- A node stands in a file: as a declaration, or right below a node that does. -/
inductive SourceFile.Holds (f : SourceFile) : Node → Prop
  | func {d : FuncDecl} : .func d ∈ f.decls → f.Holds (.func d)
  | gen {d : GenDecl} : .gen d ∈ f.decls → f.Holds (.gen d)
  | child {n c : Node} : f.Holds n → c ∈ n.children → f.Holds c

/-! ## Outlines -/

theorem Expr.listOutlines_eq (es : List Expr) : listOutlines es = es.map outline := by
  induction es with
  | nil => rfl
  | cons e es ih => rw [listOutlines, ih, List.map_cons]

theorem Expr.optionOutlines_eq (e : Option Expr) : optionOutlines e = e.toList.map outline := by
  cases e <;> rfl

theorem FieldList.outlines_eq (l : FieldList) : l.outlines = l.types.map Expr.outline := by
  obtain ⟨span, fs⟩ := l
  induction fs with
  | nil => rfl
  | cons f fs ih =>
    obtain ⟨_, _, type, _⟩ := f
    exact congrArg (type.outline :: ·) ih

theorem FieldList.optionOutlines_eq (l : Option FieldList) :
    optionOutlines l = (l.toList.flatMap types).map Expr.outline := by
  cases l with
  | none => rfl
  | some l => simpa [optionOutlines] using l.outlines_eq

theorem FuncType.outlines_eq (t : FuncType) : t.outlines = t.types.map Expr.outline := by
  obtain ⟨span, typeParams, params, results⟩ := t
  simp [outlines, types, FieldList.optionOutlines_eq, FieldList.outlines_eq]

theorem Spec.listOutlines_eq (ss : List Spec) :
    listOutlines ss = (ss.flatMap exprs).map Expr.outline := by
  induction ss with
  | nil => rfl
  | cons s ss ih =>
    cases s <;>
      simp [listOutlines, outlines, exprs, ih, Expr.optionOutlines_eq, Expr.listOutlines_eq,
        FieldList.optionOutlines_eq]

theorem Stmt.listOutlines_eq (ss : List Stmt) : listOutlines ss = ss.map outline := by
  induction ss with
  | nil => rfl
  | cons s ss ih => rw [listOutlines, ih, List.map_cons]

theorem Stmt.optionOutlines_eq (s : Option Stmt) : optionOutlines s = s.toList.map outline := by
  cases s <;> rfl

theorem Block.outlines_eq (b : Block) : b.outlines = b.stmts.map Stmt.outline := by
  obtain ⟨span, body⟩ := b
  exact Stmt.listOutlines_eq body

namespace Node

@[simp] theorem outline_expr (e : Expr) : (Node.expr e).outline = e.outline := rfl

@[simp] theorem outline_stmt (s : Stmt) : (Node.stmt s).outline = s.outline := rfl

@[simp] theorem outline_gen (d : GenDecl) : (Node.gen d).outline = d.outline := rfl

theorem outlines_of_expr (n : ExprNode) : n.outlines = n.children.map outline := by
  cases n <;>
    simp [ExprNode.outlines, ExprNode.children, Function.comp_def, Expr.listOutlines_eq,
      Expr.optionOutlines_eq, FieldList.outlines_eq, FuncType.outlines_eq, Block.outlines_eq]

/-- The outline of a node is the node over the outlines of its children. -/
theorem outline_eq (n : Node) : n.outline = .node n (n.children.map outline) := by
  cases n with
  | expr e =>
    obtain ⟨span, type, node⟩ := e
    exact congrArg (Outline.node (.expr ⟨span, type, node⟩)) (outlines_of_expr node)
  | func d =>
    obtain ⟨span, recv, name, type, body⟩ := d
    cases body <;>
      simp [outline, FuncDecl.outline, children, Function.comp_def, FieldList.optionOutlines_eq,
        FuncType.outlines_eq, Block.outlines_eq]
  | gen d =>
    obtain ⟨span, tok, specs⟩ := d
    simp [outline, GenDecl.outline, children, Function.comp_def, Spec.listOutlines_eq]
  | stmt s =>
    cases s <;>
      simp [outline, Stmt.outline, children, Stmt.children, Function.comp_def,
        Expr.listOutlines_eq, Expr.optionOutlines_eq, Stmt.listOutlines_eq,
        Stmt.optionOutlines_eq, Block.outlines_eq]

/-! ## The walk -/

theorem nodes_outline (n : Node) :
    n.outline.nodes = n :: nodesOfAll (n.children.map outline) := by
  rw [n.outline_eq, Outline.nodes]

end Node

theorem Outline.nodesOfAll_eq (os : List Outline) : nodesOfAll os = os.flatMap nodes := by
  induction os with
  | nil => rfl
  | cons o os ih => rw [nodesOfAll_cons, ih, List.flatMap_cons]

namespace SourceFile

variable {f : SourceFile}

theorem mem_outlines {o : Outline} (ho : o ∈ f.outlines) :
    (∃ d, .func d ∈ f.decls ∧ (Node.func d).outline = o) ∨
      ∃ d, .gen d ∈ f.decls ∧ (Node.gen d).outline = o := by
  obtain ⟨d, hd, ho⟩ := List.mem_flatMap.mp ho
  cases d with
  | bad => cases ho
  | func d => exact .inl ⟨d, hd, (List.mem_singleton.mp ho).symm⟩
  | gen d => exact .inr ⟨d, hd, (List.mem_singleton.mp ho).symm⟩

theorem Holds.nodes_subset {n : Node} (h : f.Holds n) : n.outline.nodes ⊆ f.nodes := by
  have declared {d : Decl} (hd : d ∈ f.decls) {o : Outline} (ho : o ∈ d.outlines) :
      o.nodes ⊆ f.nodes := by
    intro m hm
    rw [nodes, Outline.nodesOfAll_eq]
    exact List.mem_flatMap.mpr ⟨o, List.mem_flatMap.mpr ⟨d, hd, ho⟩, hm⟩
  induction h with
  | func hd | gen hd => exact declared hd (List.mem_singleton_self _)
  | @child n c _ hc ih =>
    intro m hm
    refine ih ?_
    rw [n.nodes_outline, Outline.nodesOfAll_eq]
    exact List.mem_cons_of_mem _ (List.mem_flatMap.mpr ⟨_, List.mem_map_of_mem hc, hm⟩)

mutual

theorem holds_of_nodes (o : Outline) {n : Node} (ho : n.outline = o) (hn : f.Holds n) :
    ∀ m ∈ o.nodes, f.Holds m := by
  cases o with
  | node head os =>
    rw [n.outline_eq] at ho
    obtain ⟨rfl, hos⟩ := Outline.node.inj ho
    intro m hm
    obtain rfl | hm := List.mem_cons.mp hm
    · exact hn
    · refine holds_of_nodesOfAll os (fun o ho => ?_) m hm
      obtain ⟨c, hc, rfl⟩ := List.mem_map.mp (hos ▸ ho)
      exact ⟨c, rfl, hn.child hc⟩
termination_by structural o

theorem holds_of_nodesOfAll (os : List Outline) (h : ∀ o ∈ os, ∃ n, n.outline = o ∧ f.Holds n) :
    ∀ m ∈ nodesOfAll os, f.Holds m := by
  cases os with
  | nil => nofun
  | cons o os =>
    intro m hm
    obtain ⟨n, hn, hf⟩ := h o List.mem_cons_self
    obtain hm | hm := List.mem_append.mp hm
    · exact holds_of_nodes o hn hf m hm
    · exact holds_of_nodesOfAll os (fun o ho => h o (List.mem_cons_of_mem _ ho)) m hm
termination_by structural os

end

/-- The walk over a file meets the nodes of the file and no others. -/
theorem mem_nodes_iff {n : Node} : n ∈ f.nodes ↔ f.Holds n := by
  refine ⟨holds_of_nodesOfAll f.outlines (fun o ho => ?_) n, fun h => h.nodes_subset ?_⟩
  · obtain ⟨d, hd, rfl⟩ | ⟨d, hd, rfl⟩ := mem_outlines ho
    · exact ⟨.func d, rfl, .func hd⟩
    · exact ⟨.gen d, rfl, .gen hd⟩
  · rw [n.nodes_outline]
    exact List.mem_cons_self

end SourceFile

/-! ## Values that tell what has them -/

section

variable {α β : Type} {xs : List α} {a b : α} {c : β}

theorem eq_of_nodup_flatMap {f : α → List β} (h : (xs.flatMap f).Nodup) (ha : a ∈ xs) (hb : b ∈ xs)
    (hfa : c ∈ f a) (hfb : c ∈ f b) : a = b := by
  have apart := (List.nodup_flatMap.mp h).2
  have : Std.Symm (Function.onFun List.Disjoint f) := ⟨fun _ _ => List.disjoint_symm⟩
  by_contra hab
  exact apart.forall ha hb hab hfa hfb

theorem eq_of_nodup_filterMap {f : α → Option β} (h : (xs.filterMap f).Nodup) (ha : a ∈ xs)
    (hb : b ∈ xs) (hfa : f a = some c) (hfb : f b = some c) : a = b := by
  rw [List.filterMap_eq_flatMap_toList] at h
  exact eq_of_nodup_flatMap h ha hb (Option.mem_toList.mpr hfa) (Option.mem_toList.mpr hfb)

end

end AccessDepth
