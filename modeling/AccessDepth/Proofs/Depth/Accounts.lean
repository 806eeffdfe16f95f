import AccessDepth.Proofs.Depth.Walk
import Mathlib.Data.List.Perm.Basic

/-!
# AccessDepth.Proofs.Depth.Accounts

The depth pass records what the walk meets.

* `Accounts` — what is recorded of a piece of syntax has the headings of the parts and the nodes there,
  and each node comes after everything below it.
* `accounts_file` — so it is with a file.
-/

namespace AccessDepth
namespace Depth

/-- What is recorded of a piece of syntax is what is there: its own parts, and the nodes with theirs.
A node comes after everything that is part of it or below it. -/
structure Accounts (marks : List Mark) (parts : List Part) (nodes : List Node) : Prop where
  headings : (marks.map Mark.heading).Perm (parts.map Part.heading ++ nodes.flatMap Node.headings)
  parts : ∀ x ∈ parts ++ nodes.flatMap Node.parts, ∃ m ∈ marks, m.part? = some x
  nodes : ∀ n ∈ nodes, n.heading? ≠ none → ∃ before below m after,
    marks = before ++ (below ++ m :: after) ∧ m.Stands n ∧
      (below.map Mark.heading).Perm n.headingsBelow

theorem Mark.heading_of_part {m : Mark} {x : Part} (h : m.part? = some x) :
    m.heading = x.heading := by
  cases m <;> cases h <;> rfl

theorem Mark.Stands.heading {m : Mark} {n : Node} (h : m.Stands n) :
    n.heading? = some m.heading := by
  cases h <;> rfl

variable {marks marks' : List Mark} {parts parts' : List Part} {nodes nodes' : List Node}

theorem Accounts.append (h : Accounts marks parts nodes) (h' : Accounts marks' parts' nodes') :
    Accounts (marks ++ marks') (parts ++ parts') (nodes ++ nodes') where
  headings := by
    rw [List.perm_iff_count]
    intro x
    have here := h.headings.count_eq x
    have there := h'.headings.count_eq x
    simp only [List.map_append, List.flatMap_append, List.count_append] at here there ⊢
    omega
  parts x hx := by
    simp only [List.mem_append, List.flatMap_append] at hx
    have either : x ∈ parts ++ nodes.flatMap Node.parts ∨
        x ∈ parts' ++ nodes'.flatMap Node.parts := by
      simp only [List.mem_append]
      tauto
    obtain hx | hx := either
    · obtain ⟨m, hm, hp⟩ := h.parts x hx
      exact ⟨m, List.mem_append_left _ hm, hp⟩
    · obtain ⟨m, hm, hp⟩ := h'.parts x hx
      exact ⟨m, List.mem_append_right _ hm, hp⟩
  nodes n hn row := by
    obtain hn | hn := List.mem_append.mp hn
    · obtain ⟨before, below, m, after, rfl, stands, headings⟩ := h.nodes n hn row
      exact ⟨before, below, m, after ++ marks', by simp, stands, headings⟩
    · obtain ⟨before, below, m, after, rfl, stands, headings⟩ := h'.nodes n hn row
      exact ⟨marks ++ before, below, m, after, by simp, stands, headings⟩

/-- A node is accounted for by its row, after what is part of it or below it. -/
theorem Accounts.node {m : Mark} {n : Node} (h : Accounts marks n.parts n.below) (hm : m.Stands n) :
    Accounts (marks ++ [m]) [] (n :: n.below) where
  headings := by
    rw [List.perm_iff_count]
    intro x
    have below := h.headings.count_eq x
    simp only [List.map_append, List.map_nil, List.map_cons, List.flatMap_cons, List.count_append,
      Node.headings, hm.heading, Option.toList_some, List.nil_append] at below ⊢
    omega
  parts x hx := by
    obtain ⟨m', hm', hp⟩ := h.parts x hx
    exact ⟨m', List.mem_append_left _ hm', hp⟩
  nodes n' hn' row := by
    obtain rfl | hn' := List.mem_cons.mp hn'
    · exact ⟨[], marks, m, [], by simp, hm, h.headings⟩
    · obtain ⟨before, below, m', after, rfl, stands, headings⟩ := h.nodes n' hn' row
      exact ⟨before, below, m', after ++ [m], by simp, stands, headings⟩

theorem accounts_composes (path : Path) : Composes path Accounts where
  nil := by
    constructor <;> simp
  append := Accounts.append
  part := by
    intro m x _ hx
    constructor
    · simp [Mark.heading_of_part hx]
    · intro y hy
      obtain rfl := List.mem_singleton.mp hy
      exact ⟨m, List.mem_singleton_self m, hx⟩
    · intro n hn
      cases hn
  expr _ h := h.node .expr
  stmt _ hm h := h.node hm
  decl := by
    intro n marks hn h
    constructor
    · simpa [Node.headings, hn] using h.headings
    · exact h.parts
    · intro n' hn' row
      obtain rfl | hn' := List.mem_cons.mp hn'
      · exact absurd hn row
      · exact h.nodes n' hn' row

/-- What is recorded of a file is what the walk meets in it. -/
theorem accounts_file (p : Package) (f : SourceFile) :
    Accounts (f.marks p) [.name f.package] f.nodes :=
  (accounts_composes f.path).file p

end Depth
end AccessDepth
