import AccessDepth.Proofs.Enclosing
import AccessDepth.Proofs.Plan.Definitions

/-!
# AccessDepth.Proofs.Depth.Places

Where the depth pass records what stands in a file.

* `Node.marksAt` — what is recorded of a node and of everything below it.
* `Node.ownMarks` — what is recorded of the node alone: of its parts inside the function that it is, and
  of the node itself around that.
* `Node.mem_marksAt` — what is recorded of a node is its own, or that of a node right below it.
* `SourceFile.mem_marks` — so what is recorded of a file is what its nodes have inside the functions
  that enclose them.
-/

namespace AccessDepth

open Depth
open Plan (Around)

/-! ## Nodes -/

/-- How a part is recorded. A signature has a type. -/
def Part.mark (a : Around) (type : Option TypeRef) : Part → Mark
  | .name i => .name a i
  | .literal l => .literal a l
  | .signature span => .signature a span type
  | .body span => .block a span

section

variable (a : Around) (type : Option TypeRef)

@[simp] theorem Part.mark_name (i : Ident) : (Part.name i).mark a type = .name a i := rfl

@[simp] theorem Part.mark_literal (l : BasicLit) : (Part.literal l).mark a type = .literal a l := rfl

@[simp] theorem Part.mark_signature (span : Span) :
    (Part.signature span).mark a type = .signature a span type := rfl

@[simp] theorem Part.mark_body (span : Span) : (Part.body span).mark a type = .block a span := rfl

end

namespace Node

def functionType (p : Package) : Node → Option TypeRef
  | .expr e => e.type
  | .func d => p.typeOfName d.name
  | .stmt _ | .gen _ => none

/-- How the node itself is recorded. Declarations are not. -/
def mark? (a : Around) : Node → Option Mark
  | .expr e => some (.expr a e)
  | .stmt (.block b) => some (.block a b.span)
  | .stmt s => some (.stmt a s)
  | .func _ | .gen _ => none

/-- What is recorded of a node alone: of its parts inside the function that it is, and of the node. -/
def ownMarks (p : Package) (a : Around) (n : Node) : List Mark :=
  n.parts.map (·.mark (Definitions.below a n) (n.functionType p)) ++ (n.mark? a).toList

/-- What is recorded of a node and of everything below it. -/
def marksAt (p : Package) (a : Around) : Node → List Mark
  | .expr e => exprMarks a e
  | .stmt s => stmtMarks a s
  | .gen d => genDeclMarks a d
  | .func d => funcDeclMarks p a.path d

end Node

namespace Depth

/-! ## Lists -/

section

variable {a : Around} {m : Mark}

theorem nameMarks_eq (is : List Ident) : nameMarks a is = is.map (.name a) := by
  induction is with
  | nil => rfl
  | cons i is ih => rw [nameMarks, ih, List.map_cons, List.singleton_append]

theorem optionalNameMarks_eq (i : Option Ident) :
    optionalNameMarks a i = i.toList.map (.name a) := by
  cases i <;> rfl

theorem optionalLiteralMarks_eq (l : Option BasicLit) :
    optionalLiteralMarks a l = l.toList.map (.literal a) := by
  cases l <;> rfl

theorem exprsMarks_eq (es : List Expr) : exprsMarks a es = es.flatMap (exprMarks a) := by
  induction es with
  | nil => rfl
  | cons e es ih => rw [exprsMarks, ih, List.flatMap_cons]

theorem optionalExprMarks_eq (e : Option Expr) :
    optionalExprMarks a e = e.toList.flatMap (exprMarks a) := by
  cases e <;> simp [optionalExprMarks]

theorem stmtsMarks_eq (ss : List Stmt) : stmtsMarks a ss = ss.flatMap (stmtMarks a) := by
  induction ss with
  | nil => rfl
  | cons s ss ih => rw [stmtsMarks, ih, List.flatMap_cons]

theorem optionalStmtMarks_eq (s : Option Stmt) :
    optionalStmtMarks a s = s.toList.flatMap (stmtMarks a) := by
  cases s <;> simp [optionalStmtMarks]

theorem blockMarks_eq (b : Block) :
    blockMarks a b = b.stmts.flatMap (stmtMarks a) ++ [.block a b.span] := by
  obtain ⟨span, body⟩ := b
  rw [blockMarks, stmtsMarks_eq]

/-! ## Fields, signatures and declarations -/

/-- What is recorded of syntax without functions of its own is what is recorded of some parts and of
some expressions. -/
def Consists (a : Around) (marks : List Mark) (parts : List Part) (es : List Expr) : Prop :=
  ∀ type m, m ∈ marks ↔ m ∈ parts.map (·.mark a type) ∨ m ∈ es.flatMap (exprMarks a)

variable {marks marks' : List Mark} {parts parts' : List Part} {es es' : List Expr}

theorem Consists.append (h : Consists a marks parts es) (h' : Consists a marks' parts' es') :
    Consists a (marks ++ marks') (parts ++ parts') (es ++ es') := by
  intro type m
  rw [List.mem_append, h type m, h' type m, List.map_append, List.flatMap_append, List.mem_append,
    List.mem_append, or_or_or_comm]

theorem consists_nil : Consists a [] [] [] := by simp [Consists]

theorem consists_names (is : List Ident) : Consists a (nameMarks a is) (is.map .name) [] := by
  simp [Consists, nameMarks_eq, Part.mark]

theorem consists_optionalName (i : Option Ident) :
    Consists a (optionalNameMarks a i) (i.toList.map .name) [] := by
  simp [Consists, optionalNameMarks_eq, Part.mark]

theorem consists_optionalLiteral (l : Option BasicLit) :
    Consists a (optionalLiteralMarks a l) (l.toList.map .literal) [] := by
  simp [Consists, optionalLiteralMarks_eq, Part.mark]

theorem consists_expr (e : Expr) : Consists a (exprMarks a e) [] [e] := by
  simp [Consists]

theorem consists_exprs (es : List Expr) : Consists a (exprsMarks a es) [] es := by
  simp [Consists, exprsMarks_eq]

theorem consists_optionalExpr (e : Option Expr) :
    Consists a (optionalExprMarks a e) [] e.toList := by
  simp [Consists, optionalExprMarks_eq]

theorem consists_fieldList (l : FieldList) : Consists a (fieldListMarks a l) l.parts l.types := by
  obtain ⟨span, fs⟩ := l
  induction fs with
  | nil => exact consists_nil
  | cons f fs ih =>
    obtain ⟨_, names, type, tag⟩ := f
    have here := ((consists_names names).append (consists_expr type)).append
      (consists_optionalLiteral (a := a) tag)
    simpa [fieldListMarks, fieldsMarks, FieldList.parts, Field.parts, FieldList.types] using
      here.append ih

theorem consists_optionalFieldList (l : Option FieldList) :
    Consists a (optionalFieldListMarks a l) (FieldList.optionParts l)
      (l.toList.flatMap FieldList.types) := by
  cases l with
  | none => exact consists_nil
  | some l => simpa [optionalFieldListMarks, FieldList.optionParts] using consists_fieldList l

theorem consists_funcType (t : FuncType) : Consists a (funcTypeMarks a t) t.parts t.types := by
  obtain ⟨span, typeParams, params, results⟩ := t
  exact ((consists_optionalFieldList typeParams).append (consists_fieldList params)).append
    (consists_optionalFieldList results)

theorem consists_specs (ss : List Spec) :
    Consists a (specsMarks a ss) (ss.flatMap Spec.parts) (ss.flatMap Spec.exprs) := by
  induction ss with
  | nil => exact consists_nil
  | cons s ss ih =>
    cases s with
    | «import» span name path =>
      have path' : Consists a [.literal a path] [.literal path] [] := by simp [Consists, Part.mark]
      exact ((consists_optionalName name).append path').append ih
    | value span names type values =>
      have here := ((consists_names names).append (consists_optionalExpr type)).append
        (consists_exprs (a := a) values)
      simpa [specsMarks, Spec.parts, Spec.exprs] using here.append ih
    | type span name typeParams isAlias type =>
      have name' : Consists a [.name a name] [.name name] [] := by simp [Consists, Part.mark]
      have here := (name'.append (consists_optionalFieldList typeParams)).append (consists_expr type)
      simpa [specsMarks, Spec.parts, Spec.exprs] using here.append ih

end

end Depth

namespace Node

variable {p : Package} {a : Around} {m : Mark}

theorem below_eq (n : Node) : Definitions.below a n = ⟨a.path, n.inside a.functions⟩ := by
  cases n with
  | expr e =>
    obtain ⟨span, type, node⟩ := e
    cases node <;> simp [Definitions.below, inside, function?, Around.enter]
  | _ => simp [Definitions.below, inside, function?, Around.enter]

/-- What is recorded of a node is its own, or that of a node right below it. Function declarations
stand at the top of a file. -/
theorem mem_marksAt (n : Node) (top : ∀ d, n = .func d → a.functions = []) :
    m ∈ n.marksAt p a ↔
      m ∈ n.ownMarks p a ∨ m ∈ n.children.flatMap (marksAt p (Definitions.below a n)) := by
  cases n with
  | expr e =>
    obtain ⟨span, type, node⟩ := e
    have signature (b : Around) (t : FuncType) := consists_funcType (a := b) t type m
    have fields (l : FieldList) := consists_fieldList (a := a) l type m
    cases node <;>
      simp [-List.mem_map, -List.mem_flatMap, marksAt, ownMarks, exprMarks, nodeMarks, parts,
        ExprNode.parts, mark?, children, ExprNode.children, functionType, Definitions.below,
        exprsMarks_eq, optionalExprMarks_eq, blockMarks_eq, List.flatMap_map, signature, fields]
    all_goals tauto
  | stmt s =>
    cases s <;>
      simp [-List.mem_map, -List.mem_flatMap, marksAt, ownMarks, stmtMarks, parts, Stmt.parts, mark?,
        children, Stmt.children, functionType, Definitions.below, exprsMarks_eq, optionalExprMarks_eq,
        stmtsMarks_eq, optionalStmtMarks_eq, blockMarks_eq, optionalNameMarks_eq, List.flatMap_map,
        Function.comp_def]
    all_goals tauto
  | gen d =>
    obtain ⟨span, tok, ss⟩ := d
    have specs := consists_specs (a := a) ss none m
    simpa [marksAt, ownMarks, genDeclMarks, parts, mark?, children, functionType, Definitions.below,
      List.flatMap_map] using specs
  | func d =>
    obtain ⟨span, recv, name, t, body⟩ := d
    obtain ⟨path, fs⟩ := a
    obtain rfl : fs = [] := top _ rfl
    have receiver (b : Around) := consists_optionalFieldList (a := b) recv (p.typeOfName name) m
    have signature (b : Around) := consists_funcType (a := b) t (p.typeOfName name) m
    cases body <;>
      simp [-List.mem_map, -List.mem_flatMap, marksAt, ownMarks, funcDeclMarks, parts, FuncDecl.parts,
        mark?, children, functionType, Definitions.below, receiver, signature, Around.top,
        blockMarks_eq, List.flatMap_map]
    all_goals tauto

end Node

/-! ## Files -/

namespace SourceFile

variable {p : Package} {f : SourceFile} {m : Mark} {fs : List Position} {n : Node}

theorem mem_declsMarks {path : Path} {ds : List Decl} :
    m ∈ declsMarks p path ds ↔ (∃ d, .func d ∈ ds ∧ m ∈ (Node.func d).marksAt p (.top path)) ∨
      ∃ d, .gen d ∈ ds ∧ m ∈ (Node.gen d).marksAt p (.top path) := by
  induction ds with
  | nil => simp [declsMarks]
  | cons d ds ih =>
    cases d <;> simp [declsMarks, ih, Node.marksAt, or_and_right, exists_or, Around.top,
      or_assoc, or_left_comm]

theorem Encloses.mem_marksAt (h : f.Encloses fs n) :
    m ∈ n.marksAt p ⟨f.path, fs⟩ ↔ m ∈ n.ownMarks p ⟨f.path, fs⟩ ∨
      ∃ c ∈ n.children, m ∈ c.marksAt p ⟨f.path, n.inside fs⟩ := by
  rw [n.mem_marksAt fun d hd => (hd ▸ h).func_eq_nil, n.below_eq, List.mem_flatMap]

theorem Encloses.marksAt_subset (h : f.Encloses fs n) :
    n.marksAt p ⟨f.path, fs⟩ ⊆ f.marks p := by
  induction h with
  | func hd => exact fun m hm => List.mem_cons_of_mem _ (mem_declsMarks.mpr (.inl ⟨_, hd, hm⟩))
  | gen hd => exact fun m hm => List.mem_cons_of_mem _ (mem_declsMarks.mpr (.inr ⟨_, hd, hm⟩))
  | child hn hc ih => exact fun m hm => ih (hn.mem_marksAt.mpr (.inr ⟨_, hc, hm⟩))

theorem Encloses.of_marksAt (h : f.Encloses fs n) (hm : m ∈ n.marksAt p ⟨f.path, fs⟩) :
    ∃ gs c, f.Encloses gs c ∧ m ∈ c.ownMarks p ⟨f.path, gs⟩ := by
  induction n using Node.induction generalizing fs with
  | h n ih =>
    obtain hm | ⟨c, hc, hm⟩ := h.mem_marksAt.mp hm
    · exact ⟨fs, n, h, hm⟩
    · exact ih c hc (h.child hc) hm

/-- What is recorded of a file is the name of its package and what its nodes have, each inside the
functions that enclose it. -/
theorem mem_marks :
    m ∈ f.marks p ↔ m = .name (.top f.path) f.package ∨
      ∃ fs n, f.Encloses fs n ∧ m ∈ n.ownMarks p ⟨f.path, fs⟩ := by
  constructor
  · intro hm
    obtain hm | hm := List.mem_cons.mp hm
    · exact .inl hm
    · obtain ⟨d, hd, hm⟩ | ⟨d, hd, hm⟩ := mem_declsMarks.mp hm
      · exact .inr ((Encloses.func hd).of_marksAt hm)
      · exact .inr ((Encloses.gen hd).of_marksAt hm)
  · rintro (rfl | ⟨fs, n, h, hm⟩)
    · exact List.mem_cons_self
    · exact h.marksAt_subset (h.mem_marksAt.mpr (.inl hm))

theorem mem_ownMarks {a : Around} :
    m ∈ n.ownMarks p a ↔ (∃ x ∈ n.parts, x.mark (Definitions.below a n) (n.functionType p) = m) ∨
      n.mark? a = some m := by
  simp [Node.ownMarks]

theorem heading_of_mark? {a : Around} (h : n.mark? a = some m) :
    m.around = a ∧ n.heading? = some m.heading := by
  cases n with
  | func | gen => cases h
  | expr e =>
    cases h
    exact ⟨rfl, rfl⟩
  | stmt s =>
    cases s <;>
    · cases h
      exact ⟨rfl, rfl⟩

theorem mark?_of_heading {a : Around} {h : Heading} (hn : n.heading? = some h) :
    ∃ m, n.mark? a = some m ∧ m.around = a ∧ m.heading = h := by
  cases n with
  | func | gen => cases hn
  | expr e =>
    cases hn
    exact ⟨_, rfl, rfl, rfl⟩
  | stmt s =>
    cases hn
    cases s <;> exact ⟨_, rfl, rfl, rfl⟩

theorem mark_part (a : Around) (type : Option TypeRef) (x : Part) :
    (x.mark a type).around = a ∧ (x.mark a type).heading = x.heading := by
  cases x <;> exact ⟨rfl, rfl⟩

/-- What is recorded of a file is what stands in it, each inside the functions around it. -/
theorem places_iff {h : Heading} :
    f.Places fs h ↔ ∃ m ∈ f.marks p, m.around = ⟨f.path, fs⟩ ∧ m.heading = h := by
  constructor
  · intro hp
    cases hp with
    | package => exact ⟨_, mem_marks.mpr (.inl rfl), rfl, rfl⟩
    | node hn hh =>
      obtain ⟨m, hm, around, heading⟩ := mark?_of_heading (a := ⟨f.path, fs⟩) hh
      exact ⟨m, mem_marks.mpr (.inr ⟨fs, _, hn, mem_ownMarks.mpr (.inr hm)⟩), around, heading⟩
    | @part gs n x hn hx =>
      let a : Around := ⟨f.path, gs⟩
      obtain ⟨around, heading⟩ := mark_part (Definitions.below a n) (n.functionType p) x
      exact ⟨_, mem_marks.mpr (.inr ⟨gs, n, hn, mem_ownMarks.mpr (.inl ⟨x, hx, rfl⟩)⟩),
        around.trans n.below_eq, heading⟩
  · rintro ⟨m, hm, around, rfl⟩
    obtain rfl | ⟨gs, n, hn, hm⟩ := mem_marks.mp hm
    · cases around
      exact .package
    · obtain ⟨x, hx, rfl⟩ | hm := mem_ownMarks.mp hm
      · obtain ⟨place, heading⟩ := mark_part (Definitions.below ⟨f.path, gs⟩ n) (n.functionType p) x
        cases n.below_eq.symm.trans (place.symm.trans around)
        exact heading ▸ .part hn hx
      · obtain ⟨place, hh⟩ := heading_of_mark? hm
        cases place.symm.trans around
        exact .node hn hh

end SourceFile
end AccessDepth
