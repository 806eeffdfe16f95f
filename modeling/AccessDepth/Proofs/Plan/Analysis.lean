import AccessDepth.Analysis
import AccessDepth.Proofs.Plan.DepthFollows
import AccessDepth.Proofs.Plan.Operations

/-!
# AccessDepth.Proofs.Plan.Analysis

Analyzing a package as code.

* `Package.code` — what a mode does to a store, pass by pass and file by file. It is read off the
  package and the root of the corpus.
* `Package.code_of` — every operation of it belongs to a pass over one of the files.
* `analyze_follows` — the analysis does what its code does, on any session whose caches agree.
* `run_of_analyze` — so one that succeeds has run its code.
-/

namespace AccessDepth

open Plan (Op Machine Setting Follows)

def Mode.codes (p : Package) (root : Path) : Mode → List (SourceFile → List Op)
  | .defs => [SourceFile.definitionsCode p]
  | .depth => [SourceFile.depthCode p root]
  | .all => [SourceFile.definitionsCode p, SourceFile.depthCode p root]
  | .make => [SourceFile.containersCode p]
  | .allocSizes => [SourceFile.sizesCode p]

def Plan.passCode (files : List SourceFile) (code : SourceFile → List Op) : List Op :=
  files.flatMap code

/-- What a mode does with a package. -/
def Package.code (p : Package) (root : Path) (m : Mode) : List Op :=
  (m.codes p root).flatMap (Plan.passCode p.usableFiles.1)

/-- Whether a package speaks of a path: as one of its files, or as the file of a declaration. -/
inductive Package.HasPath (p : Package) : Path → Prop
  | file {f : SourceFile} : f ∈ p.files → HasPath p f.path
  | decl {r : Option ObjectRef} {o : Object} {site : SourceSite} :
      p.objects.get? r = some o → o.decl = some site → HasPath p site.file

def Package.paths (p : Package) : List Path :=
  p.files.map (·.path) ++ p.objects.objects.toList.filterMap fun o => o.decl.map (·.file)

theorem Package.HasPath.mem_paths {p : Package} {path : Path} (h : p.HasPath path) :
    path ∈ p.paths := by
  cases h with
  | file hf => exact List.mem_append_left _ (List.mem_map_of_mem hf)
  | @decl r o site ho hd =>
    obtain ⟨n, -, hn⟩ := Option.bind_eq_some_iff.mp ho
    refine List.mem_append_right _ (List.mem_filterMap.mpr ⟨o, ?_, by rw [hd]; rfl⟩)
    exact Array.mem_toList_iff.mpr (Array.mem_of_getElem? hn)

theorem Package.hasPath_of_usable {p : Package} {f : SourceFile} (h : f ∈ p.usableFiles.1) :
    p.HasPath f.path :=
  .file (List.mem_filter.mp h).1

/-! ## Settings for the passes -/

namespace Plan.Setting

variable {σ : Setting}

/-- The setting in which the functions and variables of a store are kept. -/
def holding (σ : Setting) (s : Store) : Setting :=
  { σ with kept := fun t => t.functions = s.functions ∧ t.vars = s.vars }

theorem definitions_fits (hσ : ∀ t, σ.kept t) : Definitions.Fits σ := fun _ _ _ _ _ => hσ _

theorem depth_fits {p : Package} (hp : ∀ path, p.HasPath path → σ.known path) (s : Store) :
    Depth.Fits (σ.holding s) p where
  keeps := by
    intro o hf hv m m' hk h
    have same (u : Table) (hu : o.table ≠ u.owner) : m'.store.rows u = m.store.rows u :=
      (step_inserts h).rows_eq fun he => hu he.symm
    exact ⟨(same .functions hf).trans hk.1, (same .variables hv).trans hk.2⟩
  same hs ht := ⟨ht.1.trans hs.1.symm, ht.2.trans hs.2.symm⟩
  known ho hd := hp _ (.decl ho hd)

end Plan.Setting

/-- What a computation does does not depend on what is kept. -/
theorem Plan.Follows.release {α : Type} {σ : Setting} (hσ : ∀ t, σ.kept t) {store : Store}
    {s : Session} {types : List (Option TypeId)} {code : List Op} {a : Analyze α}
    {post : α → Machine → Prop} (h : Follows (σ.holding store) s types code a post) :
    Follows σ s types code a post := by
  have good {s' : Session} (hg : (σ.holding store).Good s') : σ.Good s' :=
    ⟨hg.root, hg.agrees, hσ _⟩
  unfold Follows at h ⊢
  cases ha : a s with
  | error f s' =>
    rw [ha] at h
    exact ⟨good h.1, h.2⟩
  | ok x s' =>
    rw [ha] at h
    exact ⟨good h.1, h.2⟩

/-! ## Passes -/

section

variable {σ : Setting} {p : Package} {files : List SourceFile}

/-- A pass does its code on each of some files, wherever it starts. -/
def PassFollows (σ : Setting) (files : List SourceFile) (pass : SourceFile → Analyze Unit)
    (code : SourceFile → List Op) : Prop :=
  ∀ f ∈ files, ∀ s, σ.Good s → Follows σ s [] (code f) (pass f) fun _ m => m.types = []

theorem passOver_follows {pass : SourceFile → Analyze Unit} {code : SourceFile → List Op}
    (h : PassFollows σ files pass code) {s : Session} (hg : σ.Good s) :
    Follows σ s [] (Plan.passCode files code) (passOver pass files) fun _ m => m.types = [] := by
  induction files generalizing s with
  | nil => exact Plan.follows_pure hg rfl
  | cons f fs ih =>
    unfold Plan.passCode passOver
    rw [List.flatMap_cons]
    refine (h f List.mem_cons_self s hg).bind fun _ s₁ types₁ hg₁ _ h₁ => ?_
    obtain rfl : types₁ = [] := h₁
    exact ih (fun f' hf => h f' (List.mem_cons_of_mem f hf)) hg₁

theorem makePasses_follows {passes : List (Package → SourceFile → Analyze Unit)}
    {codes : List (SourceFile → List Op)}
    (h : List.Forall₂ (fun pass code => PassFollows σ files (pass p) code) passes codes)
    {s : Session} (hg : σ.Good s) :
    Follows σ s [] (codes.flatMap (Plan.passCode files)) (makePasses p files passes)
      fun _ m => m.types = [] := by
  induction h generalizing s with
  | nil => exact Plan.follows_pure hg rfl
  | cons first _ ih =>
    unfold makePasses
    rw [List.flatMap_cons]
    refine (passOver_follows first hg).bind fun _ s₁ types₁ hg₁ _ h₁ => ?_
    obtain rfl : types₁ = [] := h₁
    exact ih hg₁

/-- Each pass of a mode does its code on the files that go through. -/
theorem mode_follows (hσ : ∀ t, σ.kept t) (hp : ∀ path, p.HasPath path → σ.known path)
    (m : Mode) :
    List.Forall₂ (fun pass code => PassFollows σ p.usableFiles.1 (pass p) code) m.passes
      (m.codes p σ.root) := by
  have fits := Setting.definitions_fits hσ
  have known {f : SourceFile} (hf : f ∈ p.usableFiles.1) : σ.known f.path :=
    hp _ (Package.hasPath_of_usable hf)
  have definitions : PassFollows σ p.usableFiles.1 (Definitions.run p) (·.definitionsCode p) :=
    fun f hf s hg => Definitions.run_follows fits (known hf) hg
  have depth : PassFollows σ p.usableFiles.1 (Depth.run p) (·.depthCode p σ.root) := by
    intro f hf s hg
    have held : (σ.holding s.store).Good s := ⟨hg.root, hg.agrees, rfl, rfl⟩
    exact (Depth.run_follows (Setting.depth_fits hp s.store) (known hf) held).release hσ
  cases m with
  | defs => exact .cons definitions .nil
  | depth => exact .cons depth .nil
  | all => exact .cons definitions (.cons depth .nil)
  | make => exact .cons (fun f hf s hg => Allocation.containers_follows fits (known hf) hg) .nil
  | allocSizes => exact .cons (fun f hf s hg => Allocation.sizes_follows fits (known hf) hg) .nil

/-- Analyzing a package does what its code does, and tells what is skipped. -/
theorem analyze_follows (hσ : ∀ t, σ.kept t) (hp : ∀ path, p.HasPath path → σ.known path)
    (m : Mode) {s : Session} (hg : σ.Good s) :
    Follows σ s [] (p.code σ.root m) (analyze p m) fun skips m' =>
      skips = p.usableFiles.2 ∧ m'.types = [] :=
  (makePasses_follows (mode_follows hσ hp m) hg).map fun _ _ h => ⟨rfl, h⟩

/-- An analysis that succeeds, on a session whose caches agree with the store, has run its code. -/
theorem run_of_analyze {m : Mode} {s s' : Session} {skips : List Skip} (ha : s.Coherent)
    (hs : SpelledAlike fun path => p.HasPath path ∨ s.store.HasPath path)
    (h : analyze p m s = .ok skips s') :
    ∃ types, Plan.run (p.code s.corpusRoot m) ⟨s.store, []⟩ = .ok ⟨s'.store, types⟩ := by
  let σ : Setting := ⟨s.corpusRoot, _, hs, fun _ => True⟩
  have known (path : Path) (hp : p.HasPath path) : σ.known path := .inl hp
  have agrees : s.Agrees σ.known := ha.agrees hs fun _ => .inr
  obtain ⟨types, whole, -⟩ :=
    (analyze_follows (fun _ => trivial) known m ⟨rfl, agrees, trivial⟩).run_of_ok h
  exact ⟨types, whole⟩

end

/-! ## Operations -/

def Mode.tables : Mode → List Table
  | .defs => Definitions.tables
  | .depth => Depth.tables
  | .all => Definitions.tables ++ Depth.tables
  | .make => [.makeSites]
  | .allocSizes => [.sizedAllocSites]

/-- Every operation belongs to a pass over a file that goes through. -/
theorem Package.code_of (p : Package) (root : Path) (m : Mode) :
    ∀ o ∈ p.code root m, ∃ f ∈ p.usableFiles.1, o.Of p f.path m.tables := by
  intro o ho
  obtain ⟨code, hc, ho⟩ := List.mem_flatMap.mp ho
  obtain ⟨f, hf, ho⟩ := List.mem_flatMap.mp ho
  refine ⟨f, hf, ?_⟩
  cases m with
  | defs =>
    obtain rfl := List.mem_singleton.mp hc
    exact f.definitionsCode_of p o ho
  | depth =>
    obtain rfl := List.mem_singleton.mp hc
    exact f.depthCode_of p root o ho
  | all =>
    simp only [Mode.codes, List.mem_cons, List.not_mem_nil, or_false] at hc
    obtain rfl | rfl := hc
    · exact (f.definitionsCode_of p o ho).mono (List.subset_append_left ..)
    · exact (f.depthCode_of p root o ho).mono (List.subset_append_right ..)
  | make =>
    obtain rfl := List.mem_singleton.mp hc
    exact f.containersCode_of p o ho
  | allocSizes =>
    obtain rfl := List.mem_singleton.mp hc
    exact f.sizesCode_of p o ho

theorem Package.code_closed {p : Package} (h : p.types.Closed) (root : Path) (m : Mode) :
    ∀ o ∈ p.code root m, o.Closed := by
  intro o ho
  obtain ⟨f, -, ho⟩ := p.code_of root m o ho
  exact ho.closed h

/-! ## A small package -/

/-- A file that declares a pointer and follows it: `var X *int`, `func f() { *X }`. -/
def SourceFile.sample : SourceFile where
  path := ⟨"corpus/a.go"⟩
  package := ⟨"a", ⟨1, 9, 1, 10⟩, none, none⟩
  decls :=
    [.gen ⟨⟨2, 1, 2, 11⟩, .var,
      [.value ⟨2, 5, 2, 11⟩ [⟨"X", ⟨2, 5, 2, 6⟩, some 1, some 0⟩]
        (some ⟨⟨2, 7, 2, 11⟩, some 1, .star ⟨⟨2, 8, 2, 11⟩, some 0, .ident "int" none⟩⟩) []]⟩,
    .func ⟨⟨3, 1, 5, 2⟩, none, ⟨"f", ⟨3, 6, 3, 7⟩, none, none⟩,
      ⟨⟨3, 1, 3, 9⟩, none, ⟨none, []⟩, none⟩,
      some ⟨⟨3, 10, 5, 2⟩,
        [.expr ⟨4, 2, 4, 4⟩
          ⟨⟨4, 2, 4, 4⟩, some 0, .star ⟨⟨4, 3, 4, 4⟩, some 1, .ident "X" (some 0)⟩⟩]⟩⟩]

def Package.sample : Package where
  dir := ⟨"corpus"⟩
  name := "a"
  files := [.sample]
  types := ⟨#[⟨"int", some 8, .basic .int⟩, ⟨"*int", some 8, .pointer 0⟩]⟩
  objects := ⟨#[⟨"X", .var, some ⟨⟨"corpus/a.go"⟩, ⟨2, 5⟩⟩, some 1⟩]⟩
  diagnostics := []

theorem Package.sample_closed : Package.sample.types.Closed := by
  intro e he id part hp r hr
  simp only [Package.sample, List.mem_toArray, List.mem_cons, List.not_mem_nil, or_false] at he
  obtain rfl | rfl := he
  · simp only [TypeShape.parts, BasicKind.layout, Option.toList_some, List.map_cons, List.map_nil,
      List.mem_singleton] at hp
    subst hp
    cases hr
  · simp only [TypeShape.parts, List.mem_singleton] at hp
    subst hp
    simp only [TypePart.types, List.mem_singleton] at hr
    subst hr
    rfl

theorem Package.path_of_sample {path : Path} (h : Package.sample.HasPath path) :
    path = ⟨"corpus/a.go"⟩ := by
  have paths : Package.sample.paths = [⟨"corpus/a.go"⟩, ⟨"corpus/a.go"⟩] := rfl
  simpa [paths] using h.mem_paths

/-- The package of the small file, with its variable declared in a library. -/
def Package.imported : Package :=
  { Package.sample with objects := ⟨#[⟨"X", .var, some ⟨⟨"lib/x.go"⟩, ⟨7, 5⟩⟩, some 1⟩]⟩ }

def Session.sample : Session := .start .initial ⟨"corpus"⟩ 4 4

theorem Session.sample_coherent : Session.sample.Coherent where
  types h := by cases h
  files h := by cases h

theorem Session.spelledAlike_of_single {p : Package}
    (h : ∀ path, p.HasPath path → path = ⟨"corpus/a.go"⟩) :
    SpelledAlike fun path => p.HasPath path ∨ Session.sample.store.HasPath path := by
  have apart : Path.same ⟨"corpus/a.go"⟩ ⟨"<unknown>"⟩ = false := by decide +kernel
  refine .of_two (fun path known => ?_) apart
  obtain hp | ⟨r, hr, ht⟩ := known
  · exact .inl (h path hp)
  · obtain rfl := List.mem_singleton.mp hr
    exact .inr (congrArg Path.mk ht.symm)

theorem Session.sample_spelledAlike :
    SpelledAlike fun path => Package.sample.HasPath path ∨ Session.sample.store.HasPath path :=
  Session.spelledAlike_of_single fun _ => Package.path_of_sample

theorem Package.sample_succeeds : ∃ skips s, analyze .sample .all .sample = .ok skips s :=
  ok_of_succeeds (by decide +kernel)

end AccessDepth
