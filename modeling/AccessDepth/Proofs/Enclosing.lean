import AccessDepth.Proofs.Tree

/-!
# AccessDepth.Proofs.Enclosing

The functions around the nodes of a file.

* `Node.function?` — where a function stands: a declaration at its name, a literal at its start.
* `SourceFile.Encloses` — a node stands in a file inside some functions, from the outermost one on.
  `SourceFile.Places` — something with a row of its own does.
* `Node.induction` — what holds of a node because it holds of the nodes right below holds of every node.
* `SourceFile.placed` — the nodes of a file with the functions around them, in the order of the walk.
  `SourceFile.mem_placed` — these are the functions that enclose them.
-/

namespace AccessDepth

open Outline (nodesOfAll)

namespace Node

/-- Where a node stands if it is a function: a declaration at its name, a literal at its start. -/
def function? : Node → Option Position
  | .func d => some d.name.span.start
  | .expr ⟨span, _, .funcLit ..⟩ => some span.start
  | _ => none

/-- The functions around what is below a node, if `fs` are those around the node. A declaration is
around its receiver, name, signature and body, and a literal around its signature and body. -/
def inside (n : Node) (fs : List Position) : List Position := fs ++ n.function?.toList

end Node

/-- A node stands in a file inside some functions, from the outermost one on. -/
inductive SourceFile.Encloses (f : SourceFile) : List Position → Node → Prop
  | func {d : FuncDecl} : .func d ∈ f.decls → f.Encloses [] (.func d)
  | gen {d : GenDecl} : .gen d ∈ f.decls → f.Encloses [] (.gen d)
  | child {fs : List Position} {n c : Node} :
    f.Encloses fs n → c ∈ n.children → f.Encloses (n.inside fs) c

/-- Something with a row of its own stands in a file inside some functions: the name of the package,
a node, or a part of a node. -/
inductive SourceFile.Places (f : SourceFile) : List Position → Heading → Prop
  | package : f.Places [] (.expr .ident f.package.span)
  | node {fs : List Position} {n : Node} {h : Heading} :
    f.Encloses fs n → n.heading? = some h → f.Places fs h
  | part {fs : List Position} {n : Node} {x : Part} :
    f.Encloses fs n → x ∈ n.parts → f.Places (n.inside fs) x.heading

/-! ## Walks with the functions around -/

namespace Outline

mutual

/-- Every node of an outline with the functions around it, each before the nodes below it. -/
def placed (fs : List Position) : Outline → List (List Position × Node)
  | .node head children => (fs, head) :: placedAll (head.inside fs) children
termination_by structural o => o

def placedAll (fs : List Position) : List Outline → List (List Position × Node)
  | [] => []
  | o :: os => placed fs o ++ placedAll fs os
termination_by structural os => os

end

theorem placedAll_eq (fs : List Position) (os : List Outline) :
    placedAll fs os = os.flatMap (placed fs) := by
  induction os with
  | nil => rfl
  | cons o os ih => rw [placedAll, ih, List.flatMap_cons]

mutual

theorem map_placed (fs : List Position) (o : Outline) : (o.placed fs).map (·.2) = o.nodes := by
  cases o with
  | node head children =>
    rw [placed, nodes, List.map_cons, map_placedAll (head.inside fs) children]
termination_by structural o

theorem map_placedAll (fs : List Position) (os : List Outline) :
    (placedAll fs os).map (·.2) = nodesOfAll os := by
  cases os with
  | nil => rfl
  | cons o os => rw [placedAll, nodesOfAll, List.map_append, map_placed fs o, map_placedAll fs os]
termination_by structural os

end

end Outline

namespace Node

theorem placed_outline (n : Node) (fs : List Position) :
    n.outline.placed fs =
      (fs, n) :: n.children.flatMap fun c => c.outline.placed (n.inside fs) := by
  rw [n.outline_eq, Outline.placed, Outline.placedAll_eq, List.flatMap_map]

/-- What holds of a node because it holds of the nodes right below it holds of every node. -/
theorem induction {P : Node → Prop} (h : ∀ n : Node, (∀ c ∈ n.children, P c) → P n) (n : Node) :
    P n := by
  refine (measure fun n : Node => n.outline.nodes.length).wf.induction n fun n ih => ?_
  refine h n fun c hc => ih c ?_
  obtain ⟨cs, cs', split⟩ := List.append_of_mem hc
  have longer : c.outline.nodes.length < n.outline.nodes.length := by
    rw [n.nodes_outline, Outline.nodesOfAll_eq, List.flatMap_map, split, List.flatMap_append,
      List.flatMap_cons]
    simp only [List.length_cons, List.length_append]
    omega
  exact longer

end Node

namespace SourceFile

/-- The nodes of a file with the functions around them, in the order of the walk. -/
def placed (f : SourceFile) : List (List Position × Node) := Outline.placedAll [] f.outlines

variable {f : SourceFile} {fs : List Position} {n : Node}

theorem map_placed (f : SourceFile) : f.placed.map (·.2) = f.nodes :=
  Outline.map_placedAll [] f.outlines

theorem Encloses.holds (h : f.Encloses fs n) : f.Holds n := by
  induction h with
  | func hd => exact .func hd
  | gen hd => exact .gen hd
  | child _ hc ih => exact ih.child hc

theorem Holds.encloses (h : f.Holds n) : ∃ fs, f.Encloses fs n := by
  induction h with
  | func hd => exact ⟨[], .func hd⟩
  | gen hd => exact ⟨[], .gen hd⟩
  | child _ hc ih =>
    obtain ⟨fs, h⟩ := ih
    exact ⟨_, h.child hc⟩

theorem Encloses.func_eq_nil {d : FuncDecl} (h : f.Encloses fs (.func d)) : fs = [] := by
  generalize hn : Node.func d = n at h
  cases h with
  | func => rfl
  | gen => cases hn
  | @child gs m c _ hc =>
    subst hn
    cases m with
    | expr e =>
      obtain ⟨span, type, node⟩ := e
      cases node <;> simp [Node.children, ExprNode.children] at hc
    | stmt s => cases s <;> simp [Node.children, Stmt.children] at hc
    | func | gen => simp [Node.children] at hc

theorem Encloses.functions (h : f.Encloses fs n) :
    ∀ g ∈ n.inside fs, ∃ gs m, f.Encloses gs m ∧ m.function? = some g := by
  have own {fs : List Position} {n : Node} (h : f.Encloses fs n) (g : Position)
      (hg : g ∈ n.function?.toList) : ∃ gs m, f.Encloses gs m ∧ m.function? = some g :=
    ⟨fs, n, h, Option.mem_toList.mp hg⟩
  induction h with
  | func hd => exact own (.func hd)
  | gen hd => exact own (.gen hd)
  | child hn hc ih =>
    intro g hg
    obtain hg | hg := List.mem_append.mp hg
    · exact ih g hg
    · exact own (hn.child hc) g hg

theorem Places.functions {h : Heading} (hp : f.Places fs h) :
    ∀ g ∈ fs, ∃ gs m, f.Encloses gs m ∧ m.function? = some g := by
  cases hp with
  | package => nofun
  | node hn => exact fun g hg => hn.functions g (List.mem_append_left _ hg)
  | part hn => exact hn.functions

theorem Encloses.placed_subset (h : f.Encloses fs n) : n.outline.placed fs ⊆ f.placed := by
  have declared {d : Decl} (hd : d ∈ f.decls) {o : Outline} (ho : o ∈ d.outlines) :
      o.placed [] ⊆ f.placed := by
    intro x hx
    rw [placed, Outline.placedAll_eq]
    exact List.mem_flatMap.mpr ⟨o, List.mem_flatMap.mpr ⟨d, hd, ho⟩, hx⟩
  induction h with
  | func hd | gen hd => exact declared hd (List.mem_singleton_self _)
  | @child fs n c _ hc ih =>
    intro x hx
    refine ih ?_
    rw [n.placed_outline]
    exact List.mem_cons_of_mem _ (List.mem_flatMap.mpr ⟨c, hc, hx⟩)

theorem Encloses.of_placed {x : List Position × Node} (h : f.Encloses fs n)
    (hx : x ∈ n.outline.placed fs) : f.Encloses x.1 x.2 := by
  induction n using Node.induction generalizing fs with
  | h n ih =>
    rw [n.placed_outline] at hx
    obtain rfl | hx := List.mem_cons.mp hx
    · exact h
    · obtain ⟨c, hc, hx⟩ := List.mem_flatMap.mp hx
      exact ih c hc (h.child hc) hx

/-- The walk meets the nodes of the file inside the functions that enclose them. -/
theorem mem_placed : (fs, n) ∈ f.placed ↔ f.Encloses fs n := by
  constructor
  · intro hx
    rw [placed, Outline.placedAll_eq] at hx
    obtain ⟨o, ho, hx⟩ := List.mem_flatMap.mp hx
    obtain ⟨d, hd, rfl⟩ | ⟨d, hd, rfl⟩ := mem_outlines ho
    · exact (Encloses.func hd).of_placed hx
    · exact (Encloses.gen hd).of_placed hx
  · intro h
    refine h.placed_subset ?_
    rw [n.placed_outline]
    exact List.mem_cons_self

end SourceFile
end AccessDepth
