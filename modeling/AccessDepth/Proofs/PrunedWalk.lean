import AccessDepth.Proofs.Tree

/-!
# AccessDepth.Proofs.PrunedWalk

Walks that stop at some nodes and look at nothing below them.

* `Outline.ends` — the nodes at which such a walk over an outline stops, in source order.
* `Outline.Prunes` — a hook does something at the nodes where the walk stops, and nothing at the others.
* `Outline.visitAll_eq` — a walk with such a hook is the hook at the nodes where it stops, one after the
  other.
* `SourceFile.Meets` — a node of a file is met before the walk stops. `SourceFile.mem_ends_iff` — these
  are the nodes at which the walk over the file stops.
-/

namespace AccessDepth

namespace Outline

/-! ## Where a walk stops -/

section

variable (stop : Node → Bool)

mutual

/-- The nodes at which a walk over an outline stops, in source order. -/
def ends : Outline → List Node
  | .node head children => if stop head then [head] else endsOfAll children
termination_by structural o => o

def endsOfAll : List Outline → List Node
  | [] => []
  | o :: os => ends o ++ endsOfAll os
termination_by structural os => os

end

end

theorem endsOfAll_eq (stop : Node → Bool) (os : List Outline) :
    endsOfAll stop os = os.flatMap (ends stop) := by
  induction os with
  | nil => rfl
  | cons o os ih => rw [endsOfAll, ih, List.flatMap_cons]

variable {stop : Node → Bool} {m : Type → Type} [Monad m] [LawfulMonad m]
  {hook : Node → m Unit → m Unit}

/-- A hook does something at the nodes where the walk stops, and goes on below the others. -/
structure Prunes (stop : Node → Bool) (hook : Node → m Unit → m Unit) : Prop where
  stops : ∀ n below, stop n = true → hook n below = hook n (pure ())
  goes : ∀ n below, stop n = false → hook n below = below

mutual

theorem visit_eq (h : Prunes stop hook) (o : Outline) :
    o.visit hook = (o.ends stop).forM fun n => hook n (pure ()) := by
  cases o with
  | node head children =>
    unfold visit ends
    cases hs : stop head with
    | true => simpa using h.stops head _ hs
    | false => simpa using (h.goes head _ hs).trans (visitAll_eq h children)
termination_by structural o

/-- A walk is the hook at the nodes where it stops. -/
theorem visitAll_eq (h : Prunes stop hook) (os : List Outline) :
    visitAll hook os = (endsOfAll stop os).forM fun n => hook n (pure ()) := by
  cases os with
  | nil => rfl
  | cons o os =>
    unfold visitAll endsOfAll
    rw [visit_eq h o, visitAll_eq h os]
    simp
termination_by structural os

end

end Outline

namespace SourceFile

/-- A node of a file is met by a walk: it stands below none at which the walk stops. -/
inductive Meets (f : SourceFile) (stop : Node → Bool) : Node → Prop
  | func {d : FuncDecl} : .func d ∈ f.decls → f.Meets stop (.func d)
  | gen {d : GenDecl} : .gen d ∈ f.decls → f.Meets stop (.gen d)
  | child {n c : Node} : f.Meets stop n → stop n = false → c ∈ n.children → f.Meets stop c

/-- The nodes at which a walk over a file stops, in source order. -/
def ends (f : SourceFile) (stop : Node → Bool) : List Node := Outline.endsOfAll stop f.outlines

variable {f : SourceFile} {stop : Node → Bool}

theorem Meets.holds {n : Node} (h : f.Meets stop n) : f.Holds n := by
  induction h with
  | func hd => exact .func hd
  | gen hd => exact .gen hd
  | child _ _ hc ih => exact ih.child hc

/-- Where the walk over a node that is met stops, the walk over the file stops. -/
theorem Meets.ends_subset {n : Node} (h : f.Meets stop n) :
    n.outline.ends stop ⊆ f.ends stop := by
  have declared {d : Decl} (hd : d ∈ f.decls) {o : Outline} (ho : o ∈ d.outlines) :
      o.ends stop ⊆ f.ends stop := by
    intro m hm
    rw [ends, Outline.endsOfAll_eq]
    exact List.mem_flatMap.mpr ⟨o, List.mem_flatMap.mpr ⟨d, hd, ho⟩, hm⟩
  induction h with
  | func hd | gen hd => exact declared hd (List.mem_singleton_self _)
  | @child n c _ goes hc ih =>
    intro m hm
    refine ih ?_
    rw [n.outline_eq, Outline.ends, goes, Outline.endsOfAll_eq]
    exact List.mem_flatMap.mpr ⟨_, List.mem_map_of_mem hc, hm⟩

mutual

theorem meets_of_ends (o : Outline) {n : Node} (ho : n.outline = o) (hn : f.Meets stop n) :
    ∀ m ∈ o.ends stop, f.Meets stop m ∧ stop m = true := by
  cases o with
  | node head os =>
    rw [n.outline_eq] at ho
    obtain ⟨rfl, hos⟩ := Outline.node.inj ho
    intro m hm
    unfold Outline.ends at hm
    cases hs : stop n with
    | true =>
      rw [hs] at hm
      obtain rfl := List.mem_singleton.mp hm
      exact ⟨hn, hs⟩
    | false =>
      rw [hs] at hm
      refine meets_of_endsOfAll os (fun o ho => ?_) m hm
      obtain ⟨c, hc, rfl⟩ := List.mem_map.mp (hos ▸ ho)
      exact ⟨c, rfl, hn.child hs hc⟩
termination_by structural o

theorem meets_of_endsOfAll (os : List Outline)
    (h : ∀ o ∈ os, ∃ n, n.outline = o ∧ f.Meets stop n) :
    ∀ m ∈ Outline.endsOfAll stop os, f.Meets stop m ∧ stop m = true := by
  cases os with
  | nil => nofun
  | cons o os =>
    intro m hm
    obtain ⟨n, hn, hf⟩ := h o List.mem_cons_self
    obtain hm | hm := List.mem_append.mp hm
    · exact meets_of_ends o hn hf m hm
    · exact meets_of_endsOfAll os (fun o ho => h o (List.mem_cons_of_mem _ ho)) m hm
termination_by structural os

end

/-- The walk over a file stops at those of the nodes that it meets where it is to stop. -/
theorem mem_ends_iff {n : Node} : n ∈ f.ends stop ↔ f.Meets stop n ∧ stop n = true := by
  refine ⟨meets_of_endsOfAll f.outlines (fun o ho => ?_) n, fun ⟨h, hs⟩ => h.ends_subset ?_⟩
  · obtain ⟨d, hd, rfl⟩ | ⟨d, hd, rfl⟩ := mem_outlines ho
    · exact ⟨.func d, rfl, .func hd⟩
    · exact ⟨.gen d, rfl, .gen hd⟩
  · rw [n.outline_eq, Outline.ends, hs]
    exact List.mem_singleton_self n

end SourceFile
end AccessDepth
