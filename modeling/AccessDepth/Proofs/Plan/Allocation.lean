import AccessDepth.Analysis.Allocation
import AccessDepth.Proofs.Plan.Definitions

/-!
# AccessDepth.Proofs.Plan.Allocation

The allocation passes as code, and that the passes do what their code does.

* `Allocation.made?`, `sized?` — what the passes record at a node, if they look at nothing below it.
* `Allocation.outlineCode` — the code of either pass.
* `Allocation.containers_follows`, `sizes_follows` — the passes over a file.
-/

namespace AccessDepth

open Plan (Around Item Op Machine Setting Follows)
open Definitions (At Does Fits)

namespace Allocation

/-! ## Code -/

section

variable (p : Package)

def isBuiltin (fn : Expr) (name : String) : Bool :=
  match fn.unparen.node with
  | .ident n object => n = name && (p.objects.get? object).all fun o => o.kind = .builtin
  | _ => false

/-- What is recorded at a call of `make`. -/
def made? : Node → Option (List Item)
  | .expr ⟨span, _, .call fn args _⟩ =>
    if isBuiltin p fn "make" then
      some ((args.head?.bind containerOf?).toList.map fun container =>
        .makeSite span.start container ((capacity? args).getD unknown))
    else none
  | _ => none

def allocItems (span : Span) (builtin : String) : Option (String × Int) → List Item
  | some (typeName, size) => [.sizedAlloc span.start builtin typeName size]
  | none => []

/-- What is recorded at a call of `make` or `new`. -/
def sized? : Node → Option (List Item)
  | .expr ⟨span, _, .call fn args _⟩ =>
    if isBuiltin p fn "make" then some (allocItems span "make" (madeSlice? p.types args))
    else if isBuiltin p fn "new" then some (allocItems span "new" (newAllocation? p.types args))
    else none
  | _ => none

end

section

variable (items? : Node → Option (List Item)) (a : Around)

mutual

/-- Records the items of a node, or goes on below it. -/
def outlineCode : Outline → List Op
  | .node head children =>
    match items? head with
    | some items => items.map (.record a)
    | none => outlinesCode children
termination_by structural o => o

def outlinesCode : List Outline → List Op
  | [] => []
  | o :: os => outlineCode o ++ outlinesCode os
termination_by structural os => os

end

end

end Allocation

/-- The pass over a file that records the containers that are made. -/
def SourceFile.containersCode (p : Package) (f : SourceFile) : List Op :=
  .file f.path :: Allocation.outlinesCode (Allocation.made? p) (.top f.path) f.outlines

/-- The pass over a file that records the sizes of allocations. -/
def SourceFile.sizesCode (p : Package) (f : SourceFile) : List Op :=
  .file f.path :: Allocation.outlinesCode (Allocation.sized? p) (.top f.path) f.outlines

namespace Allocation

/-! ## The passes -/

section

variable {σ : Setting} {p : Package} {w : Scope} {a : Around} {s : Session}

theorem callsBuiltin_eq (hw : w.package = p) (fn : Expr) (name : String) :
    callsBuiltin w fn name = isBuiltin p fn name := by
  subst hw
  rfl

/-- A hook records the items of some nodes, and at the others goes on below. -/
def Hooks (σ : Setting) (p : Package) (w : Scope) (a : Around)
    (items? : Node → Option (List Item)) (hook : Node → Analyze Unit → Analyze Unit) : Prop :=
  ∀ n rest, match items? n with
  | some items => Does σ p w a (items.map (.record a)) (hook n rest) fun _ _ => True
  | none => ∀ s, At σ p w a s → hook n rest s = rest s

theorem makeSite_does (hσ : Fits σ) (position : Position) (container : ContainerKind)
    (capacity : Int) :
    Does σ p w a [.record a (.makeSite position container capacity)]
      (Analyze.commit (recordMakeSite ⟨w.file, position, container, capacity⟩) >>= fun _ => pure ())
      fun _ _ => True := by
  intro s here
  exact (Plan.follows_commit (w := .makeSite _) here.good here.file rfl rfl (hσ _)).map
    fun _ _ h => ⟨h.2, trivial⟩

theorem sizedAlloc_does (hσ : Fits σ) (position : Position) (builtin typeName : String)
    (size : Int) :
    Does σ p w a [.record a (.sizedAlloc position builtin typeName size)]
      (Analyze.commit (recordSizedAlloc ⟨w.file, position, builtin, typeName, size⟩) >>=
        fun _ => pure ())
      fun _ _ => True := by
  intro s here
  exact (Plan.follows_commit (w := .sizedAlloc _) here.good here.file rfl rfl (hσ _)).map
    fun _ _ h => ⟨h.2, trivial⟩

theorem makeHook_hooks (hσ : Fits σ) (hw : w.package = p) :
    Hooks σ p w a (made? p) (makeHook w) := by
  intro n rest
  cases n with
  | expr e =>
    obtain ⟨span, type, node⟩ := e
    cases node with
    | call fn args spread =>
      unfold made? makeHook
      simp only [callsBuiltin_eq hw]
      cases isBuiltin p fn "make" with
      | false => exact fun _ _ => rfl
      | true =>
        cases args.head?.bind containerOf? with
        | none => exact Definitions.does_nil
        | some container => exact makeSite_does hσ _ _ _
    | _ => exact fun _ _ => rfl
  | stmt | func | gen => exact fun _ _ => rfl

theorem recordAlloc_does (hσ : Fits σ) (span : Span) (builtin : String)
    (found : Option (String × Int)) :
    Does σ p w a ((allocItems span builtin found).map (.record a))
      (recordAlloc w span builtin found) fun _ _ => True := by
  cases found with
  | none => exact Definitions.does_nil
  | some found => exact sizedAlloc_does hσ _ _ _ _

theorem sizedHook_hooks (hσ : Fits σ) (hw : w.package = p) :
    Hooks σ p w a (sized? p) (sizedHook w) := by
  intro n rest
  cases n with
  | expr e =>
    obtain ⟨span, type, node⟩ := e
    cases node with
    | call fn args spread =>
      unfold sized? sizedHook
      simp only [callsBuiltin_eq hw, hw]
      cases isBuiltin p fn "make" with
      | true => exact recordAlloc_does hσ _ _ _
      | false =>
        cases isBuiltin p fn "new" with
        | true => exact recordAlloc_does hσ _ _ _
        | false => exact fun _ _ => rfl
    | _ => exact fun _ _ => rfl
  | stmt | func | gen => exact fun _ _ => rfl

mutual

theorem visit_follows {items? : Node → Option (List Item)}
    {hook : Node → Analyze Unit → Analyze Unit} (hh : Hooks σ p w a items? hook) (o : Outline) :
    Does σ p w a (outlineCode items? a o) (o.visit hook) fun _ _ => True := by
  cases o with
  | node head children =>
    unfold outlineCode Outline.visit
    have here := hh head (Outline.visitAll hook children)
    cases hi : items? head with
    | some items =>
      rw [hi] at here
      exact here
    | none =>
      rw [hi] at here
      intro s hs
      have rest := visitAll_follows hh children s hs
      simp only [Follows, here s hs] at rest ⊢
      exact rest
termination_by structural o

theorem visitAll_follows {items? : Node → Option (List Item)}
    {hook : Node → Analyze Unit → Analyze Unit} (hh : Hooks σ p w a items? hook)
    (os : List Outline) :
    Does σ p w a (outlinesCode items? a os) (Outline.visitAll hook os) fun _ _ => True := by
  cases os with
  | nil => exact Definitions.does_nil
  | cons o os =>
    intro s here
    unfold outlinesCode Outline.visitAll
    exact (visit_follows hh o).bind here fun _ s₁ here₁ _ => visitAll_follows hh os s₁ here₁
termination_by structural os

end

/-- A pass with such a hook does what its code does. -/
theorem follows_outlines {items? : Node → Option (List Item)}
    {hook : Scope → Node → Analyze Unit → Analyze Unit}
    (hh : ∀ w a, w.package = p → Hooks σ p w a items? (hook w)) (hσ : Fits σ) {f : SourceFile}
    (hf : σ.known f.path) (hg : σ.Good s) :
    Follows σ s [] (.file f.path :: outlinesCode items? (.top f.path) f.outlines)
      (Scope.ofFile p f >>= fun w => Outline.visitAll (hook w) f.outlines)
      fun _ m => m.types = [] := by
  rw [← List.singleton_append]
  refine (Plan.follows_ofFile hg hf (hσ _)).bind fun w s₁ types₁ hg₁ hr₁ h₁ => ?_
  obtain ⟨hw, hfile, rfl⟩ : _ ∧ _ ∧ types₁ = [] := h₁
  have here₁ : At σ p w (.top f.path) s₁ := by
    rw [hw]
    exact ⟨hg₁, rfl, rfl, hfile, rfl, nofun⟩
  exact (visitAll_follows (hh w _ here₁.package) f.outlines s₁ here₁).mono fun _ m h => h.1

theorem containers_follows (hσ : Fits σ) {f : SourceFile} (hf : σ.known f.path)
    (hg : σ.Good s) :
    Follows σ s [] (f.containersCode p) (containers p f) fun _ m => m.types = [] :=
  follows_outlines (fun _ _ hw => makeHook_hooks hσ hw) hσ hf hg

theorem sizes_follows (hσ : Fits σ) {f : SourceFile} (hf : σ.known f.path) (hg : σ.Good s) :
    Follows σ s [] (f.sizesCode p) (sizes p f) fun _ m => m.types = [] :=
  follows_outlines (fun _ _ hw => sizedHook_hooks hσ hw) hσ hf hg

end
end Allocation
end AccessDepth
