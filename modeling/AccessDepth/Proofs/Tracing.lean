import AccessDepth.Proofs.Effects
import AccessDepth.Proofs.Tree
import Mathlib.Data.List.Infix
import Mathlib.Data.List.Sort

/-!
# AccessDepth.Proofs.Tracing

What a walk over a file meets, and in which order.

* `Node.at?`, `SourceFile.at?` — the node at a place. A place is the number of a declaration of the
  file, then the number of a child at each node on the way down. Places are compared number by number:
  a place comes before those below it, and those before the next sibling.
* `Node.induct` — induction from the children of a node to the node.
* `Covered` — a place stands below a node with one of some tags.
* `Outline.visits` — the nodes that a walk meets which stops at some tags, with their places.
* `SourceFile.visited`, `SourceFile.visits_sorted` — over a file these are the nodes at places that are
  not covered, in the order of the places.
* `Outline.visitAll_eq_note` — the walk notes one after the other.
* `SourceFile.trace_exact` — the trace of a walk that stops at some tags and fails at others.
-/

namespace AccessDepth

/-! ## Places -/

namespace Node

/-- The node at a place below a node. -/
def at? (n : Node) : List Nat → Option Node
  | [] => some n
  | i :: p => n.children[i]?.bind fun c => c.at? p

/-- Something holds of every node if it holds of a node whenever it holds of the children. -/
theorem induct {P : Node → Prop} (h : ∀ n, (∀ c ∈ n.children, P c) → P n) (n : Node) : P n := by
  generalize ho : n.outline = o
  induction hs : sizeOf o using Nat.strongRecOn generalizing n o with
  | ind size ih =>
    refine h n fun c hc => ih _ ?_ c c.outline rfl rfl
    have smaller := List.sizeOf_lt_of_mem (List.mem_map_of_mem (f := outline) hc)
    rw [← hs, ← ho, n.outline_eq, Outline.node.sizeOf_spec]
    omega

end Node

def Decl.node? : Decl → Option Node
  | .bad _ => none
  | .func d => some (.func d)
  | .gen d => some (.gen d)

namespace SourceFile

def roots (f : SourceFile) : List Node := f.decls.filterMap Decl.node?

/-- The node at a place of a file. -/
def at? (f : SourceFile) : List Nat → Option Node
  | [] => none
  | i :: p => f.roots[i]?.bind fun n => n.at? p

theorem outlines_eq (f : SourceFile) : f.outlines = f.roots.map Node.outline := by
  unfold outlines roots
  induction f.decls with
  | nil => rfl
  | cons d ds ih =>
    rw [List.flatMap_cons, ih]
    cases d <;> rfl

end SourceFile

/-- A place stands below a node with one of some tags. -/
def Covered (tree : List Nat → Option Node) (tags : List String) (p : List Nat) : Prop :=
  ∃ q n, q <+: p ∧ q ≠ p ∧ tree q = some n ∧ n.tag ∈ tags

instance (tree : List Nat → Option Node) (tags : List String) (p : List Nat) :
    Decidable (Covered tree tags p) :=
  decidable_of_iff (∃ q ∈ p.inits, q ≠ p ∧ ∃ n ∈ tree q, n.tag ∈ tags) <| by
    simp only [Covered, List.mem_inits, Option.mem_def]
    grind

section

variable {tree : List Nat → Option Node} {tags : List String} {i : Nat} {p : List Nat}

theorem not_covered_nil : ¬ Covered tree tags [] := by
  rintro ⟨q, n, hq, hne, -⟩
  exact hne (List.prefix_nil.mp hq)

theorem covered_cons : Covered tree tags (i :: p) ↔
    (∃ n, tree [] = some n ∧ n.tag ∈ tags) ∨ Covered (fun q => tree (i :: q)) tags p := by
  constructor
  · rintro ⟨q, n, hq, hne, hn, ht⟩
    obtain rfl | ⟨q, rfl, below⟩ := List.prefix_cons_iff.mp hq
    · exact .inl ⟨n, hn, ht⟩
    · exact .inr ⟨q, n, below, fun h => hne (h ▸ rfl), hn, ht⟩
  · rintro (⟨n, hn, ht⟩ | ⟨q, n, hq, hne, hn, ht⟩)
    · exact ⟨[], n, List.nil_prefix, by simp, hn, ht⟩
    · exact ⟨i :: q, n, List.cons_prefix_cons.mpr ⟨rfl, hq⟩, by simpa using hne, hn, ht⟩

end

/-! ## Visits -/

namespace Outline

section

variable (stop : List String)

mutual

/-- The nodes that a walk meets which stops at some tags, with their places, in source order. -/
def visits : Outline → List (List Nat × Node)
  | .node head children =>
    ([], head) :: if head.tag ∈ stop then [] else visitsOfAll 0 children
termination_by structural o => o

def visitsOfAll : Nat → List Outline → List (List Nat × Node)
  | _, [] => []
  | i, o :: os => (visits o).map (fun e => (i :: e.1, e.2)) ++ visitsOfAll (i + 1) os
termination_by structural _ os => os

end

end

variable {stop fail : List String}

theorem mem_visitsOfAll {os : List Outline} {i : Nat} {p : List Nat} {n : Node} :
    (p, n) ∈ visitsOfAll stop i os ↔
      ∃ j o q, os[j]? = some o ∧ p = (i + j) :: q ∧ (q, n) ∈ visits stop o := by
  induction os generalizing i with
  | nil => simp [visitsOfAll]
  | cons o os ih =>
    rw [visitsOfAll, List.mem_append, ih]
    constructor
    · rintro (hp | ⟨j, o', q, ho, rfl, hq⟩)
      · obtain ⟨⟨q, m⟩, hq, hp⟩ := List.mem_map.mp hp
        cases hp
        exact ⟨0, o, q, rfl, rfl, hq⟩
      · exact ⟨j + 1, o', q, ho, by rw [Nat.add_assoc, Nat.add_comm 1], hq⟩
    · rintro ⟨j, o', q, ho, rfl, hq⟩
      cases j with
      | zero =>
        cases ho
        exact .inl (List.mem_map.mpr ⟨(q, n), hq, rfl⟩)
      | succ j => exact .inr ⟨j, o', q, ho, by rw [Nat.add_assoc, Nat.add_comm 1], hq⟩

theorem not_mem_visitsOfAll {os : List Outline} {i : Nat} {n : Node} :
    ([], n) ∉ visitsOfAll stop i os := by
  intro h
  obtain ⟨j, o, q, -, hq, -⟩ := mem_visitsOfAll.mp h
  cases hq

theorem visitsOfAll_sorted {os : List Outline} {i : Nat}
    (h : ∀ o ∈ os, (visits stop o).Pairwise fun a b => a.1 < b.1) :
    (visitsOfAll stop i os).Pairwise fun a b => a.1 < b.1 := by
  induction os generalizing i with
  | nil => exact .nil
  | cons o os ih =>
    obtain ⟨first, rest⟩ := List.forall_mem_cons.mp h
    refine List.pairwise_append.mpr ⟨?_, ih rest, ?_⟩
    · exact List.pairwise_map.mpr (first.imp fun hab => List.cons_lt_cons_iff.mpr (.inr ⟨rfl, hab⟩))
    · rintro a ha ⟨q, m⟩ hb
      obtain ⟨e, -, rfl⟩ := List.mem_map.mp ha
      obtain ⟨j, -, q, -, rfl, -⟩ := mem_visitsOfAll.mp hb
      exact List.cons_lt_cons_iff.mpr (.inl (by omega))

/-! ## The walk -/

def note (fail : List String) (n : Node) : Tracing Unit := traceHook [] fail n (pure ())

theorem note_ok {n : Node} (h : n.tag ∉ fail) (met : List Node) :
    note fail n met = .ok () (met ++ [n]) := by
  unfold note traceHook
  rw [if_neg h, if_neg List.not_mem_nil]
  rfl

theorem note_error {n : Node} (h : n.tag ∈ fail) (met : List Node) :
    note fail n met = .error (.internal ("stopped at " ++ n.tag)) (met ++ [n]) := by
  unfold note traceHook
  rw [if_pos h]
  rfl

theorem traceHook_eq (n : Node) (below : Tracing Unit) :
    traceHook stop fail n below =
      note fail n >>= fun _ => if n.tag ∈ stop then pure () else below := by
  funext met
  unfold note traceHook
  by_cases hf : n.tag ∈ fail
  · rw [if_pos hf, if_pos hf]
    rfl
  · rw [if_neg hf, if_neg hf, if_neg List.not_mem_nil]
    rfl

mutual

theorem visit_eq_note (o : Outline) : o.visit (traceHook stop fail) =
    forM (o.visits stop) fun e => note fail e.2 := by
  cases o with
  | node head children =>
    unfold visit visits
    rw [traceHook_eq, List.forM_cons]
    split
    · rfl
    · rw [visitAll_eq_note 0 children]
termination_by structural o

/-- A walk notes the nodes that it meets, one after the other. -/
theorem visitAll_eq_note (i : Nat) (os : List Outline) : visitAll (traceHook stop fail) os =
    forM (visitsOfAll stop i os) fun e => note fail e.2 := by
  cases os with
  | nil => rfl
  | cons o os =>
    unfold visitAll visitsOfAll
    rw [visit_eq_note o, visitAll_eq_note (i + 1) os, List.forM_append, List.forM_map]
termination_by structural os

end

theorem forM_note_ok {es : List (List Nat × Node)} (h : ∀ e ∈ es, e.2.tag ∉ fail)
    (met : List Node) :
    (forM es fun e => note fail e.2) met = .ok () (met ++ es.map (·.2)) := by
  induction es generalizing met with
  | nil =>
    rw [List.map_nil, List.append_nil]
    rfl
  | cons e es ih =>
    obtain ⟨he, hes⟩ := List.forall_mem_cons.mp h
    rw [List.forM_cons, bind_of_ok (note_ok he met), ih hes, List.append_assoc]
    rfl

theorem forM_note_error {before after : List (List Nat × Node)} {e : List Nat × Node}
    (h : ∀ b ∈ before, b.2.tag ∉ fail) (he : e.2.tag ∈ fail) (met : List Node) :
    (forM (before ++ e :: after) fun e => note fail e.2) met =
      .error (.internal ("stopped at " ++ e.2.tag)) (met ++ (before ++ [e]).map (·.2)) := by
  rw [List.forM_append, bind_of_ok (forM_note_ok h met), List.forM_cons,
    bind_of_error (note_error he _), List.append_assoc, List.map_append]
  rfl

end Outline

/-! ## What is met -/

namespace Node

variable {stop : List String}

/-- The places of the nodes that are visited ascend. -/
theorem visits_sorted (n : Node) : (n.outline.visits stop).Pairwise fun a b => a.1 < b.1 := by
  induction n using Node.induct with
  | h n ih =>
    rw [n.outline_eq, Outline.visits]
    refine List.pairwise_cons.mpr ⟨?_, ?_⟩
    · split
      · nofun
      · rintro ⟨p, m⟩ hp
        obtain ⟨j, -, q, -, rfl, -⟩ := Outline.mem_visitsOfAll.mp hp
        exact List.nil_lt_cons _ _
    · split
      · exact .nil
      · refine Outline.visitsOfAll_sorted fun o ho => ?_
        obtain ⟨c, hc, rfl⟩ := List.mem_map.mp ho
        exact ih c hc

/-- A node is visited exactly where it stands and is not covered. -/
def Visited (stop : List String) (visits : List (List Nat × Node))
    (tree : List Nat → Option Node) : Prop :=
  ∀ p m, (p, m) ∈ visits ↔ tree p = some m ∧ ¬ Covered tree stop p

/-- Where that holds below each of some nodes, it holds below all of them. -/
theorem mem_visitsOfAll_iff {ns : List Node}
    (h : ∀ n ∈ ns, Visited stop (n.outline.visits stop) n.at?) {i : Nat} {p : List Nat} {m : Node} :
    (i :: p, m) ∈ Outline.visitsOfAll stop 0 (ns.map outline) ↔
      ns[i]?.bind (·.at? p) = some m ∧ ¬ Covered (fun q => ns[i]?.bind (·.at? q)) stop p := by
  rw [Outline.mem_visitsOfAll]
  simp only [Nat.zero_add, List.getElem?_map, List.cons.injEq]
  cases hc : ns[i]? with
  | none =>
    simp only [Option.bind_none, reduceCtorEq, false_and, iff_false]
    rintro ⟨j, o, q, ho, ⟨rfl, -⟩, -⟩
    rw [hc] at ho
    cases ho
  | some c =>
    simp only [Option.bind_some]
    rw [← h c (List.mem_of_getElem? hc) p m]
    constructor
    · rintro ⟨j, o, q, ho, ⟨rfl, rfl⟩, hq⟩
      rw [hc] at ho
      cases ho
      exact hq
    · intro hp
      exact ⟨i, c.outline, p, by rw [hc]; rfl, ⟨rfl, rfl⟩, hp⟩

theorem visited (n : Node) : Visited stop (n.outline.visits stop) n.at? := by
  induction n using Node.induct with
  | h n ih =>
    intro p m
    have here : (∃ m, n.at? [] = some m ∧ m.tag ∈ stop) ↔ n.tag ∈ stop := by simp [at?]
    rw [n.outline_eq, Outline.visits, List.mem_cons]
    cases p with
    | nil =>
      have below : ([], m) ∉ Outline.visitsOfAll stop 0 (n.children.map outline) :=
        Outline.not_mem_visitsOfAll
      by_cases hs : n.tag ∈ stop <;> simp [at?, hs, below, not_covered_nil, eq_comm]
    | cons i p =>
      rw [covered_cons, here]
      by_cases hs : n.tag ∈ stop
      · simp [hs]
      · simpa [hs, at?] using mem_visitsOfAll_iff ih

end Node

namespace SourceFile

variable {stop fail : List String} (f : SourceFile)

/-- The nodes that a walk over a file meets which stops at some tags, with their places. -/
def visits (stop : List String) : List (List Nat × Node) := Outline.visitsOfAll stop 0 f.outlines

theorem visits_sorted : (f.visits stop).Pairwise fun a b => a.1 < b.1 := by
  unfold visits
  rw [outlines_eq]
  refine Outline.visitsOfAll_sorted fun o ho => ?_
  obtain ⟨n, -, rfl⟩ := List.mem_map.mp ho
  exact n.visits_sorted

theorem visited : Node.Visited stop (f.visits stop) f.at? := by
  intro p m
  unfold visits
  rw [outlines_eq]
  cases p with
  | nil => simp [at?, Outline.not_mem_visitsOfAll]
  | cons i p =>
    rw [Node.mem_visitsOfAll_iff fun n _ => n.visited, covered_cons]
    simp [at?]

theorem mem_visits_nil {p : List Nat} {n : Node} : (p, n) ∈ f.visits [] ↔ f.at? p = some n := by
  rw [f.visited p n]
  simp [Covered]

theorem visits_eq_filter :
    f.visits stop = (f.visits []).filter fun e => ¬ Covered f.at? stop e.1 := by
  let before (a b : List Nat × Node) : Prop := a.1 < b.1
  have : Std.Irrefl before := ⟨fun a => List.lt_irrefl a.1⟩
  have : Std.Antisymm before := ⟨fun a b h h' => absurd h' (List.lt_asymm h)⟩
  refine f.visits_sorted.eq_of_mem_iff (f.visits_sorted.filter _) fun ⟨p, n⟩ => ?_
  rw [f.visited p n, List.mem_filter, mem_visits_nil]
  simp

theorem visitAll_eq_note : Outline.visitAll (traceHook stop fail) f.outlines =
    forM (f.visits stop) fun e => Outline.note fail e.2 := Outline.visitAll_eq_note 0 f.outlines

theorem trace_ok (h : ∀ e ∈ f.visits stop, e.2.tag ∉ fail) :
    f.trace stop fail = ((f.visits stop).map (·.2), .ok ()) := by
  unfold trace
  rw [visitAll_eq_note, Outline.forM_note_ok h]
  rfl

theorem trace_error {before after : List (List Nat × Node)} {e : List Nat × Node}
    (hv : f.visits stop = before ++ e :: after) (h : ∀ b ∈ before, b.2.tag ∉ fail)
    (he : e.2.tag ∈ fail) :
    f.trace stop fail =
      ((before ++ [e]).map (·.2), .error (.internal ("stopped at " ++ e.2.tag))) := by
  unfold trace
  rw [visitAll_eq_note, hv, Outline.forM_note_error h he]
  rfl

/-- The trace of a walk over a file. There is a list of all nodes of the file, each with its place and
each once, in the order of the places: a node before those below it, and siblings in source order. A
walk that stops nowhere meets that list; one that stops at some tags meets what is left of it without
the nodes below such a tag. If a tag is forbidden, the walk ends with the failure of the first node
that has it, which is the last one it meets; without such a node it succeeds and meets them all. -/
theorem trace_exact (stop fail : List String) :
    ∃ events : List (List Nat × Node),
      events.Pairwise (fun a b => a.1 < b.1) ∧
      (∀ p n, (p, n) ∈ events ↔ f.at? p = some n) ∧
      f.trace [] [] = (events.map (·.2), .ok ()) ∧
      ∃ met, met = (events.filter fun e => ¬ Covered f.at? stop e.1) ∧
        f.trace stop [] = (met.map (·.2), .ok ()) ∧
        ((∀ e ∈ met, e.2.tag ∉ fail) ∧ f.trace stop fail = (met.map (·.2), .ok ()) ∨
          ∃ before e after, met = before ++ e :: after ∧ (∀ b ∈ before, b.2.tag ∉ fail) ∧
            e.2.tag ∈ fail ∧ f.trace stop fail =
              ((before ++ [e]).map (·.2), .error (.internal ("stopped at " ++ e.2.tag)))) := by
  refine ⟨f.visits [], f.visits_sorted, fun p n => f.mem_visits_nil, f.trace_ok (by simp),
    f.visits stop, f.visits_eq_filter, f.trace_ok (by simp), ?_⟩
  by_cases clean : ∀ e ∈ f.visits stop, e.2.tag ∉ fail
  · exact .inl ⟨clean, f.trace_ok clean⟩
  · refine .inr ?_
    have found : ((f.visits stop).find? fun e => e.2.tag ∈ fail).isSome := by
      simpa [List.find?_isSome] using clean
    obtain ⟨e, he⟩ := Option.isSome_iff_exists.mp found
    obtain ⟨forbidden, before, after, hv, first⟩ := List.find?_eq_some_iff_append.mp he
    have first : ∀ b ∈ before, b.2.tag ∉ fail := by simpa using first
    have forbidden : e.2.tag ∈ fail := by simpa using forbidden
    exact ⟨before, e, after, hv, first, forbidden, f.trace_error hv first forbidden⟩

end SourceFile
end AccessDepth
