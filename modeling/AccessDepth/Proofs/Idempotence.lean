import AccessDepth.Proofs.Plan.Analysis

/-!
# AccessDepth.Proofs.Idempotence

Analyzing again.

* `Contexts` — one store with any number of contexts, each with a root and caches of its own.
* `Contexts.call` — an analysis through one of them. It may fail, and its store may stop to take
  transactions.
* `Contexts.calls_agree` — through all calls, what the contexts have cached of the paths that are
  met is what is stored.
* `Contexts.call_again` — an analysis that has succeeded does nothing when it is made again through a
  context with the same root, whatever was analyzed since.
* `Contexts.call_elsewhere_adds` — through a context with another root it adds a file.
-/

namespace AccessDepth

open Plan (Op Machine Setting Follows)

/-- The root and the caches of a context. -/
structure Context where
  corpusRoot : Path
  types : Cache String TypeId
  files : Cache (List Path.Component) FileId

namespace Context

/-- A context that has cached nothing. -/
def IsNew (c : Context) : Prop := c.types.entries = [] ∧ c.files.entries = []

def session (c : Context) (store : Store) (writesLeft : Option Nat) : Session :=
  { c with store := store, writesLeft := writesLeft }

def ofSession (s : Session) : Context := ⟨s.corpusRoot, s.types, s.files⟩

theorem session_ofSession (s : Session) (writesLeft : Option Nat) :
    (ofSession s).session s.store writesLeft = { s with writesLeft := writesLeft } := rfl

end Context

/-- An analysis through a context, on a store that takes so many transactions. -/
structure Call (ι : Type) where
  context : ι
  package : Package
  mode : Mode
  writesLeft : Option Nat

/-- A store and the contexts that work on it. -/
structure Contexts (ι : Type) where
  store : Store
  context : ι → Context

namespace Contexts

variable {ι : Type} [DecidableEq ι]

def session (w : Contexts ι) (c : Call ι) : Session :=
  (w.context c.context).session w.store c.writesLeft

/-- Makes a call, which may fail. -/
def call (w : Contexts ι) (c : Call ι) : Contexts ι :=
  let s := (analyze c.package c.mode).leaves (w.session c)
  { store := s.store
    context := fun i => if i = c.context then .ofSession s else w.context i }

def calls (w : Contexts ι) (cs : List (Call ι)) : Contexts ι := cs.foldl call w

/-- Whether a call succeeds, telling what was skipped. -/
def Answers (w : Contexts ι) (c : Call ι) (skips : List Skip) : Prop :=
  ∃ s, analyze c.package c.mode (w.session c) = .ok skips s

/-- What the contexts have cached agrees with the store, for the paths that are met. -/
def Agree (w : Contexts ι) (known : Path → Prop) : Prop :=
  ∀ i writesLeft, ((w.context i).session w.store writesLeft).Agrees known

omit [DecidableEq ι] in
theorem agree_of_new {w : Contexts ι} (h : ∀ i, (w.context i).IsNew) (known : Path → Prop) :
    w.Agree known := by
  intro i writesLeft
  obtain ⟨ht, hf⟩ := h i
  exact {
    types := fun h => by simp [Context.session, Cache.find?, ht] at h
    files := fun _ h => by simp [Context.session, Cache.find?, hf] at h }

/-- What the contexts have cached is stored. -/
def Coherent (w : Contexts ι) : Prop :=
  ∀ i writesLeft, ((w.context i).session w.store writesLeft).Coherent

omit [DecidableEq ι] in
theorem coherent_of_new {w : Contexts ι} (h : ∀ i, (w.context i).IsNew) : w.Coherent := by
  intro i writesLeft
  obtain ⟨ht, hf⟩ := h i
  exact {
    types := fun h => by simp [Context.session, Cache.find?, ht] at h
    files := fun h => by simp [Context.session, Cache.find?, hf] at h }

section

variable {known : Path → Prop} (hs : SpelledAlike known) {w : Contexts ι} {c : Call ι}
include hs

omit [DecidableEq ι] in
theorem call_follows (ha : w.Agree known) (hc : ∀ path, c.package.HasPath path → known path) :
    Follows ⟨(w.session c).corpusRoot, known, hs, fun _ => True⟩ (w.session c) []
      (c.package.code (w.session c).corpusRoot c.mode) (analyze c.package c.mode) fun skips m =>
      skips = c.package.usableFiles.2 ∧ m.types = [] :=
  analyze_follows (fun _ => trivial) hc c.mode ⟨rfl, ha _ _, trivial⟩

/-- A call adds rows, and the caches still agree with the store. -/
theorem call_agree (ha : w.Agree known) (hc : ∀ path, c.package.HasPath path → known path) :
    w.store ≤ (w.call c).store ∧ (w.call c).Agree known ∧
      ∀ i, ((w.call c).context i).corpusRoot = (w.context i).corpusRoot := by
  obtain ⟨good, done, m, -, hr, hm⟩ := (call_follows hs ha hc).begun
  have grows : w.store ≤ (w.call c).store := by
    have le := Plan.run_le hr
    rwa [hm] at le
  refine ⟨grows, fun i writesLeft => ?_, fun i => ?_⟩
  · by_cases hi : i = c.context
    · simp only [call, hi, if_true, Context.session_ofSession]
      exact good.agrees.grow (le_refl _)
    · simp only [call, hi, if_false]
      exact (ha i writesLeft).grow grows
  · by_cases hi : i = c.context
    · simp only [call, hi, if_true, Context.ofSession]
      exact good.root
    · simp only [call, hi, if_false]

/-- Calls add rows, and the caches still agree with the store. -/
theorem calls_agree {cs : List (Call ι)} (ha : w.Agree known)
    (hc : ∀ c ∈ cs, ∀ path, c.package.HasPath path → known path) :
    w.store ≤ (w.calls cs).store ∧ (w.calls cs).Agree known ∧
      ∀ i, ((w.calls cs).context i).corpusRoot = (w.context i).corpusRoot := by
  induction cs generalizing w with
  | nil => exact ⟨le_refl _, ha, fun _ => rfl⟩
  | cons c cs ih =>
    obtain ⟨grows, agree, roots⟩ := call_agree hs ha (hc c List.mem_cons_self)
    obtain ⟨grows', agree', roots'⟩ := ih agree fun d hd => hc d (List.mem_cons_of_mem c hd)
    exact ⟨le_trans grows grows', agree', fun i => (roots' i).trans (roots i)⟩

end

/-- Contexts that start with empty caches make calls, one of which succeeds. At the end that
analysis is made again, through the same context or through another one of the same root: it succeeds
with the same result and changes nothing. -/
theorem call_again {w : Contexts ι} (hn : ∀ i, (w.context i).IsNew) {before after : List (Call ι)}
    {c : Call ι}
    (hs : SpelledAlike fun path => ∃ d ∈ before ++ c :: after, d.package.HasPath path)
    (hc : c.package.types.Closed) {skips : List Skip} (h : (w.calls before).Answers c skips)
    {i : ι} (hi : (w.context i).corpusRoot = (w.context c.context).corpusRoot) :
    let w' := w.calls (before ++ c :: after)
    let again : Call ι := { c with context := i, writesLeft := none }
    w'.Answers again skips ∧ (w'.call again).store = w'.store := by
  let known : Path → Prop := fun path => ∃ d ∈ before ++ c :: after, d.package.HasPath path
  have met : ∀ d ∈ before ++ c :: after, ∀ path, d.package.HasPath path → known path :=
    fun d hd path hp => ⟨d, hd, hp⟩
  have here : c ∈ before ++ c :: after := by simp
  obtain ⟨-, agree, roots⟩ := calls_agree (w := w) hs (agree_of_new hn known)
    fun d hd => met d (List.mem_append_left _ hd)
  obtain ⟨-, agree', roots'⟩ := calls_agree (w := w) hs (agree_of_new hn known) met
  obtain ⟨s, hs'⟩ := h
  obtain ⟨types, hr, rfl, rfl⟩ := (call_follows hs agree (met c here)).run_of_ok hs'
  have later : s.store ≤ (w.calls (before ++ c :: after)).store := by
    have left : ((w.calls before).call c).store = s.store := by
      simp only [call, Analyze.leaves, hs']
    obtain ⟨-, agreeNext, -⟩ := call_agree hs agree (met c here)
    have following : ∀ d ∈ after, ∀ path, d.package.HasPath path → known path :=
      fun d hd => met d (List.mem_append_right _ (List.mem_cons_of_mem c hd))
    obtain ⟨grows, -⟩ := calls_agree hs agreeNext following
    rw [left] at grows
    simpa [calls] using grows
  intro w' again
  have root : (w'.session again).corpusRoot = ((w.calls before).session c).corpusRoot :=
    (roots' i).trans (hi.trans (roots c.context).symm)
  have settled := Plan.run_settled (Package.code_closed hc _ c.mode) hr later
  rw [← root] at settled
  obtain ⟨x, t, ht, hstore, rfl, -⟩ :=
    (call_follows (w := w') (c := again) hs agree' (met c here)).ok_of_run rfl settled
  refine ⟨⟨t, ht⟩, ?_⟩
  have left : (w'.call again).store = t.store := by simp only [call, Analyze.leaves, ht]
  rw [left, hstore]

/-- The small package through two contexts: an analysis that succeeds through one of them, one that is
stopped after five transactions through the other, and the first one again through the other. -/
theorem call_sample_again :
    let w : Contexts Bool := ⟨.initial, fun _ => ⟨⟨"corpus"⟩, .empty 4, .empty 1⟩⟩
    let c : Call Bool := ⟨false, .sample, .all, none⟩
    let w' := w.calls [c, ⟨true, .sample, .make, some 5⟩]
    let again : Call Bool := { c with context := true }
    ∃ skips, (w.calls []).Answers c skips ∧ w'.Answers again skips ∧
      (w'.call again).store = w'.store := by
  intro w c w' again
  have spelled : SpelledAlike fun path =>
      ∃ d ∈ [] ++ c :: [⟨true, .sample, .make, some 5⟩], d.package.HasPath path := by
    have only {path : Path}
        (h : ∃ d ∈ [] ++ c :: [⟨true, .sample, .make, some 5⟩], d.package.HasPath path) :
        path = ⟨"corpus/a.go"⟩ := by
      obtain ⟨d, hd, hp⟩ := h
      simp only [List.nil_append, List.mem_cons, List.not_mem_nil, or_false] at hd
      obtain rfl | rfl := hd <;> exact Package.path_of_sample hp
    intro p q hp hq _
    rw [only hp, only hq]
  obtain ⟨skips, s, h⟩ : ∃ skips s, analyze .sample .all (w.session c) = .ok skips s :=
    ok_of_succeeds (by decide +kernel)
  have new (i : Bool) : (w.context i).IsNew := ⟨rfl, rfl⟩
  exact ⟨skips, ⟨s, h⟩, call_again new spelled Package.sample_closed ⟨s, h⟩ (i := true) rfl⟩

/-- The small package with its variable declared in a library, through a context of the corpus and
then through one of the library: now the declaration is inside, and its file gets a row. -/
theorem call_elsewhere_adds :
    let w : Contexts Bool :=
      ⟨.initial, fun i => ⟨⟨if i then "lib" else "corpus"⟩, .empty 4, .empty 4⟩⟩
    let c : Call Bool := ⟨false, .imported, .all, none⟩
    (∀ i, (w.context i).IsNew) ∧ SpelledAlike c.package.HasPath ∧ c.package.types.Closed ∧
      (∃ skips, w.Answers c skips) ∧
      ∃ r ∈ ((w.calls [c]).call { c with context := true }).store.files,
        r ∉ (w.calls [c]).store.files := by
  intro w c
  have paths : Package.imported.paths = [⟨"corpus/a.go"⟩, ⟨"lib/x.go"⟩] := rfl
  have spelled : SpelledAlike Package.imported.HasPath := by
    have apart : Path.same ⟨"corpus/a.go"⟩ ⟨"lib/x.go"⟩ = false := by decide +kernel
    exact .of_two (fun path hp => by simpa [paths] using hp.mem_paths) apart
  have adds : ∃ r ∈ ((w.calls [c]).call { c with context := true }).store.files,
      r ∉ (w.calls [c]).store.files := by decide +kernel
  exact ⟨fun _ => ⟨rfl, rfl⟩, spelled, Package.sample_closed, ok_of_succeeds (by decide +kernel), adds⟩

end Contexts
end AccessDepth
