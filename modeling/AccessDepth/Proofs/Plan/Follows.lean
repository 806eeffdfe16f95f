import AccessDepth.Proofs.Effects
import AccessDepth.Proofs.Paths
import AccessDepth.Proofs.Plan.Effect

/-!
# AccessDepth.Proofs.Plan.Follows

Computations on a session that do what code does.

* `Analyze.fileId_of_cached`, `storedFile_of_cached`, … — what looking into the caches comes to.
* `Session.Coherent` — what is cached is stored, a file under some spelling of its path.
* `Session.Agrees` — a file is stored under each spelling of its path that is met.
* `Follows` — a computation makes the operations of some code one after the other. Where it fails it
  has made the first ones, and the code fails too, unless the store took no more transactions.
* `Follows.bind` — one computation after another follows the code of both.
* `follows_fileId`, `follows_definition`, `follows_variableAt`, `follows_typeId`, `follows_commit` —
  what the passes are made of.
-/

namespace AccessDepth

def Analyze.leaves {α : Type} (a : Analyze α) (s : Session) : Session :=
  match a s with
  | .ok _ s' => s'
  | .error _ s' => s'

/-! ## Looking into the caches -/

namespace Analyze

variable {s : Session} {path : Path}

@[simp] theorem cachedFile_apply (path : Path) (s : Session) :
    cachedFile path s = .ok (s.files.find? path.components)
      { s with files := (s.files.get path.components).2 } := by
  rw [← Cache.get_fst]
  rfl

@[simp] theorem cachedType_apply (name : String) (s : Session) :
    cachedType name s = .ok (s.types.find? name)
      { s with types := (s.types.get name).2 } := by
  rw [← Cache.get_fst]
  rfl

theorem fileId_of_cached {id : FileId} (h : s.files.find? path.components = some id) :
    fileId path s = .ok id { s with files := (s.files.get path.components).2 } := by
  rw [fileId, bind_of_ok (cachedFile_apply path s), h]
  rfl

theorem fileId_of_uncached (h : s.files.find? path.components = none) :
    fileId path s =
      (commit (recordFile path) >>= fun id => cacheFile path id >>= fun _ => pure id)
        { s with files := (s.files.get path.components).2 } := by
  rw [fileId, bind_of_ok (cachedFile_apply path s), h]

theorem storedFile_of_outside (hi : s.inCorpus path = false) :
    storedFile path s = .ok none s := by
  simp [storedFile, Bind.bind, EStateM.bind, pure, EStateM.pure, hi]

theorem storedFile_of_cached {id : FileId} (hi : s.inCorpus path = true)
    (hc : s.files.find? path.components = some id) :
    storedFile path s = .ok (some id) { s with files := (s.files.get path.components).2 } := by
  simp [storedFile, Bind.bind, EStateM.bind, pure, EStateM.pure, hi, hc]

theorem storedFile_of_unstored (hi : s.inCorpus path = true)
    (hc : s.files.find? path.components = none) (hf : s.store.fileNamed? path.text = none) :
    storedFile path s = .ok none { s with files := (s.files.get path.components).2 } := by
  simp [storedFile, Bind.bind, EStateM.bind, pure, EStateM.pure, hi, hc, hf]

theorem storedFile_of_stored {id : FileId} (hi : s.inCorpus path = true)
    (hc : s.files.find? path.components = none) (hf : s.store.fileNamed? path.text = some id) :
    storedFile path s = .ok (some id)
      { s with files := ((s.files.get path.components).2).put path.components id } := by
  simp [storedFile, cacheFile, Bind.bind, EStateM.bind, pure, EStateM.pure, hi, hc, hf]

end Analyze

/-- Whether paths that are equal as paths are spelled the same. -/
def SpelledAlike (known : Path → Prop) : Prop :=
  ∀ p q, known p → known q → p.same q = true → p = q

theorem SpelledAlike.of_two {known : Path → Prop} {a b : Path}
    (only : ∀ p, known p → p = a ∨ p = b) (apart : a.same b = false) : SpelledAlike known := by
  intro p q hp hq same
  rcases only p hp with rfl | rfl <;> rcases only q hq with rfl | rfl
  · rfl
  · cases same.symm.trans apart
  · cases same.symm.trans ((Path.same_comm p q).trans apart)
  · rfl

/-- What a session has cached is stored, under the same type name, or under the path that has these
components among some paths. -/
structure Session.Agrees (known : Path → Prop) (s : Session) : Prop where
  types : ∀ {name id}, s.types.find? name = some id → s.store.typeNamed? name = some id
  files : ∀ {p id}, known p → s.files.find? p.components = some id →
    s.store.fileNamed? p.text = some id

theorem Session.agrees_start (known : Path → Prop) (store : Store) (root : Path)
    (typeCapacity fileCapacity : Nat) :
    (Session.start store root typeCapacity fileCapacity).Agrees known where
  types h := by cases h
  files _ h := by cases h

theorem Session.Agrees.grow {known : Path → Prop} {s : Session} (h : s.Agrees known) {t : Store}
    (hle : s.store ≤ t) {left : Option Nat} :
    ({ s with store := t, writesLeft := left } : Session).Agrees known where
  types hf := Store.typeNamed?_of_le hle (h.types hf)
  files hp hf := Store.fileNamed?_of_le hle (h.files hp hf)

/-- Whether a path is the text of a file row. -/
def Store.HasPath (s : Store) (path : Path) : Prop := ∃ r ∈ s.files, r.path = path.text

theorem Store.hasPath_of_fileNamed? {s : Store} {path : Path} {id : FileId}
    (h : s.fileNamed? path.text = some id) : s.HasPath path := by
  obtain ⟨r, hr, -⟩ := Option.map_eq_some_iff.mp h
  exact ⟨r, List.mem_of_find?_eq_some hr, by simpa using List.find?_some hr⟩

/-- What is cached is stored: a type under its name, a file under some spelling of its path. -/
structure Session.Coherent (s : Session) : Prop where
  types : ∀ {name id}, s.types.find? name = some id → s.store.typeNamed? name = some id
  files : ∀ {components id}, s.files.find? components = some id →
    ∃ path : Path, path.components = components ∧ s.store.fileNamed? path.text = some id

theorem Session.Coherent.agrees {s : Session} (h : s.Coherent) {known : Path → Prop}
    (hs : SpelledAlike known) (hk : ∀ path, s.store.HasPath path → known path) :
    s.Agrees known where
  types := h.types
  files := by
    intro p id hp hf
    obtain ⟨q, hc, hq⟩ := h.files hf
    have same : p = q := hs p q hp (hk q (Store.hasPath_of_fileNamed? hq)) (by simp [Path.same, hc])
    rw [same, hq]

def SourceSite.within (root : Path) (site : SourceSite) : Option SourceSite :=
  if site.file.startsWith root then some site else none

namespace Plan

/-- What computations are looked at under: the root of the corpus, the paths that are met, and what
is kept of the store. -/
structure Setting where
  root : Path
  known : Path → Prop
  spelled : SpelledAlike known
  kept : Store → Prop

namespace Setting

structure Good (σ : Setting) (s : Session) : Prop where
  root : s.corpusRoot = σ.root
  agrees : s.Agrees σ.known
  kept : σ.kept s.store

def Keeps (σ : Setting) (o : Op) : Prop :=
  ∀ ⦃m m'⦄, σ.kept m.store → o.step m = .ok m' → σ.kept m'.store

end Setting

variable {α β : Type} {σ : Setting} {s : Session} {types : List (Option TypeId)}

/-- From a session, a computation makes the operations of some code. -/
def Follows (σ : Setting) (s : Session) (types : List (Option TypeId)) (code : List Op)
    (a : Analyze α) (post : α → Machine → Prop) : Prop :=
  match a s with
  | .ok x s' =>
    σ.Good s' ∧ (s.writesLeft = none → s'.writesLeft = none) ∧
      ∃ types', run code ⟨s.store, types⟩ = .ok ⟨s'.store, types'⟩ ∧ post x ⟨s'.store, types'⟩
  | .error f s' =>
    σ.Good s' ∧
      (∃ done m', done <+: code ∧ run done ⟨s.store, types⟩ = .ok m' ∧ m'.store = s'.store) ∧
      (s.writesLeft = none ∨ f ≠ .store .closed → run code ⟨s.store, types⟩ = .error f)

/-! ## Putting computations together -/

theorem follows_pure {post : α → Machine → Prop} {x : α} (hg : σ.Good s)
    (hx : post x ⟨s.store, types⟩) : Follows σ s types [] (pure x) post :=
  ⟨hg, fun h => h, types, rfl, hx⟩

theorem Follows.mono {code : List Op} {a : Analyze α} {post post' : α → Machine → Prop}
    (h : Follows σ s types code a post) (hp : ∀ x m, post x m → post' x m) :
    Follows σ s types code a post' := by
  unfold Follows at h ⊢
  cases ha : a s with
  | error f s' =>
    rw [ha] at h
    exact h
  | ok x s' =>
    rw [ha] at h
    obtain ⟨hg, hw, types', hr, hx⟩ := h
    exact ⟨hg, hw, types', hr, hp _ _ hx⟩

/-- The next computation starts where the first one ended, after its code was run. -/
theorem Follows.bind {code code' : List Op} {a : Analyze α} {f : α → Analyze β}
    {mid : α → Machine → Prop} {post : β → Machine → Prop} (h : Follows σ s types code a mid)
    (hf : ∀ x s' types', σ.Good s' → run code ⟨s.store, types⟩ = .ok ⟨s'.store, types'⟩ →
      mid x ⟨s'.store, types'⟩ → Follows σ s' types' code' (f x) post) :
    Follows σ s types (code ++ code') (a >>= f) post := by
  unfold Follows at h
  cases ha : a s with
  | error e s' =>
    rw [ha] at h
    obtain ⟨hg, ⟨done, m', hd, hr, hm⟩, he⟩ := h
    simp only [Follows, bind_of_error ha]
    refine ⟨hg, ⟨done, m', hd.trans (List.prefix_append _ _), hr, hm⟩, fun hw => ?_⟩
    exact run_append_of_error (he hw)
  | ok x s' =>
    rw [ha] at h
    obtain ⟨hg, hw, types', hr, hx⟩ := h
    have next := hf x s' types' hg hr hx
    simp only [Follows, bind_of_ok ha] at next ⊢
    cases hfx : f x s' with
    | error e s'' =>
      rw [hfx] at next
      obtain ⟨hg', ⟨done, m', hd, hr', hm⟩, he⟩ := next
      refine ⟨hg', ⟨code ++ done, m', ?_, ?_, hm⟩, fun h => ?_⟩
      · exact (List.prefix_append_right_inj code).mpr hd
      · rw [run_append_of_ok hr, hr']
      · rw [run_append_of_ok hr, he (h.imp_left hw)]
    | ok y s'' =>
      rw [hfx] at next
      obtain ⟨hg', hw', types'', hr', hy⟩ := next
      refine ⟨hg', fun h => hw' (hw h), types'', ?_, hy⟩
      rw [run_append_of_ok hr, hr']

theorem Follows.quiet {code : List Op} {a : Analyze α} {f : α → Analyze β}
    {mid : α → Machine → Prop} {post : β → Machine → Prop} (h : Follows σ s types [] a mid)
    (hf : ∀ x s' types', σ.Good s' → run [] ⟨s.store, types⟩ = .ok ⟨s'.store, types'⟩ →
      mid x ⟨s'.store, types'⟩ → Follows σ s' types' code (f x) post) :
    Follows σ s types code (a >>= f) post :=
  h.bind hf

/-- Whatever comes of a computation, its code was run up to some operation. -/
theorem Follows.begun {code : List Op} {a : Analyze α} {post : α → Machine → Prop}
    (h : Follows σ s types code a post) :
    σ.Good (a.leaves s) ∧
      ∃ done m, done <+: code ∧ run done ⟨s.store, types⟩ = .ok m ∧ m.store = (a.leaves s).store := by
  unfold Follows at h
  unfold Analyze.leaves
  cases ha : a s with
  | error f s' =>
    rw [ha] at h
    exact ⟨h.1, h.2.1⟩
  | ok x s' =>
    rw [ha] at h
    obtain ⟨hg, -, types', hr, -⟩ := h
    exact ⟨hg, code, _, List.prefix_refl _, hr, rfl⟩

/-- A computation succeeds if its code does and the store takes any number of transactions. -/
theorem Follows.ok_of_run {code : List Op} {a : Analyze α} {post : α → Machine → Prop} {m : Machine}
    (h : Follows σ s types code a post) (hw : s.writesLeft = none)
    (hr : run code ⟨s.store, types⟩ = .ok m) :
    ∃ x s', a s = .ok x s' ∧ s'.store = m.store ∧ post x m := by
  unfold Follows at h
  cases ha : a s with
  | error f s' =>
    rw [ha] at h
    rw [h.2.2 (.inl hw)] at hr
    cases hr
  | ok x s' =>
    rw [ha] at h
    obtain ⟨-, -, types', hr', hx⟩ := h
    rw [hr'] at hr
    cases hr
    exact ⟨x, s', rfl, rfl, hx⟩

theorem Follows.closed_of_run {code : List Op} {a : Analyze α} {post : α → Machine → Prop} {f : Failure}
    {s' : Session} {m : Machine} (h : Follows σ s types code a post) (ha : a s = .error f s')
    (hr : run code ⟨s.store, types⟩ = .ok m) : f = .store .closed ∧ s.writesLeft ≠ none := by
  unfold Follows at h
  rw [ha] at h
  have fails (hf : s.writesLeft = none ∨ f ≠ .store .closed) : False := by
    rw [h.2.2 hf] at hr
    cases hr
  exact ⟨Decidable.not_not.mp fun hf => fails (.inr hf), fun hw => fails (.inl hw)⟩

theorem Follows.run_of_ok {code : List Op} {a : Analyze α} {post : α → Machine → Prop} {x : α}
    {s' : Session} (h : Follows σ s types code a post) (ha : a s = .ok x s') :
    ∃ types', run code ⟨s.store, types⟩ = .ok ⟨s'.store, types'⟩ ∧ post x ⟨s'.store, types'⟩ := by
  unfold Follows at h
  rw [ha] at h
  exact h.2.2

theorem Follows.unlimited {code : List Op} {a : Analyze α} {post : α → Machine → Prop} {x : α}
    {s' : Session} (h : Follows σ s types code a post) (ha : a s = .ok x s')
    (hw : s.writesLeft = none) : s'.writesLeft = none := by
  unfold Follows at h
  rw [ha] at h
  exact h.2.1 hw

theorem Follows.map {code : List Op} {a : Analyze α} {f : α → β} {mid : α → Machine → Prop}
    {post : β → Machine → Prop} (h : Follows σ s types code a mid)
    (hf : ∀ x m, mid x m → post (f x) m) :
    Follows σ s types code (a >>= fun x => pure (f x)) post := by
  have both : Follows σ s types (code ++ []) (a >>= fun x => pure (f x)) post :=
    h.bind fun x s' types' hg _ hx => follows_pure hg (hf x _ hx)
  rwa [List.append_nil] at both

theorem follows_get {code : List Op} {f : Session → Analyze β} {post : β → Machine → Prop}
    (h : Follows σ s types code (f s) post) : Follows σ s types code (get >>= f) post := h

/-! ## Rows -/

def withFiles (s : Session) (files : Cache (List Path.Component) FileId) : Session :=
  { s with files := files }

theorem good_get (hg : σ.Good s) (p : Path) : σ.Good (withFiles s (s.files.get p.components).2) where
  root := hg.root
  agrees := {
    types := hg.agrees.types
    files := fun hp hf => hg.agrees.files hp (by simpa [withFiles, Cache.find?_get] using hf) }
  kept := hg.kept

theorem good_put (hg : σ.Good s) {p : Path} (hp : σ.known p) {id : FileId}
    (hid : s.store.fileNamed? p.text = some id) :
    σ.Good (withFiles s (s.files.put p.components id)) where
  root := hg.root
  agrees := {
    types := hg.agrees.types
    files := by
      intro q id' hq hf
      obtain ⟨hc, rfl⟩ | hf := Cache.find?_put hf
      · have same : q = p := σ.spelled q p hq hp (by simpa [Path.same] using hc)
        exact same ▸ hid
      · exact hg.agrees.files hq hf }
  kept := hg.kept

/-- Making a transaction is the operation that records the same rows. -/
theorem follows_commit {t : Transaction α} {around : Around} {item : Item} {w : Write}
    {file : FileId} (hg : σ.Good s) (hf : s.store.fileNamed? around.path.text = some file)
    (hw : item.write? s.store file types around = some w) (ht : w.record = discard t)
    (keeps : σ.Keeps (.record around item)) :
    Follows σ s types [.record around item] (Analyze.commit t)
      fun x m => t s.store = .ok (x, m.store) ∧ m.types = [] := by
  have hrec : item.record around types s.store = (discard t : Transaction Unit) s.store := by
    rw [Item.record_of_write? hf hw, ht]
  unfold Follows Analyze.commit
  by_cases ho : s.isOpen = true
  · simp only [ho, if_true]
    cases hs : t s.store with
    | error v =>
      have hd : (discard t : Transaction Unit) s.store = .error v := by
        simp [discard, Functor.discard, Functor.mapConst, StateT.map, bind, Except.bind, hs]
      have fails : run [.record around item] ⟨s.store, types⟩ = .error (.store (.violation v)) := by
        simp only [run_singleton, Op.step, hrec, hd]
      exact ⟨hg, ⟨[], _, List.nil_prefix, rfl, rfl⟩, fun _ => fails⟩
    | ok r =>
      obtain ⟨x, s₁⟩ := r
      have hd := discard_ok.mpr ⟨x, hs⟩
      have step : (Op.record around item).step ⟨s.store, types⟩ = .ok ⟨s₁, []⟩ := by
        simp only [Op.step, hrec, hd]
      have grows : s.store ≤ s₁ := (step_inserts step).le
      refine ⟨⟨hg.root, hg.agrees.grow grows, keeps hg.kept step⟩, fun h => ?_, [], ?_, rfl, rfl⟩
      · simp [Session.committed, h]
      · rw [run_singleton]
        exact step
  · simp only [ho]
    refine ⟨hg, ⟨[], _, List.nil_prefix, rfl, rfl⟩, fun h => absurd ?_ ho⟩
    simp [Session.isOpen, h.resolve_right (absurd rfl)]

/-- Asking for the row of a file is the operation that adds it. -/
theorem follows_fileId {p : Path} (hg : σ.Good s) (hp : σ.known p) (keeps : σ.Keeps (.file p)) :
    Follows σ s types [.file p] (Analyze.fileId p)
      fun id m => m.store.fileNamed? p.text = some id ∧ m.types = types := by
  have asked := good_get hg p
  cases hc : s.files.find? p.components with
  | some id =>
    have hid := hg.agrees.files hp hc
    simp only [Follows, Analyze.fileId_of_cached hc]
    refine ⟨asked, fun h => h, types, ?_, hid, rfl⟩
    simp only [run_singleton, Op.step, recordFile_of_found hid]
  | none =>
    let s₀ := withFiles s (s.files.get p.components).2
    have hx : Analyze.fileId p s =
        (Analyze.commit (recordFile p) >>= fun id => Analyze.cacheFile p id >>= fun _ => pure id)
          s₀ := Analyze.fileId_of_uncached hc
    unfold Follows
    rw [hx]
    simp only [Bind.bind, EStateM.bind, Analyze.commit]
    by_cases ho : s₀.isOpen = true
    · simp only [ho, if_true]
      cases hr : recordFile p s₀.store with
      | error v =>
        have fails : run [.file p] ⟨s.store, types⟩ = .error (.store (.violation v)) := by
          have hr' : recordFile p s.store = .error v := hr
          simp only [run_singleton, Op.step, hr']
        exact ⟨asked, ⟨[], _, List.nil_prefix, rfl, rfl⟩, fun _ => fails⟩
      | ok r =>
        obtain ⟨id, s₁⟩ := r
        have step : (Op.file p).step ⟨s.store, types⟩ = .ok ⟨s₁, types⟩ := by
          have hr' : recordFile p s.store = .ok (id, s₁) := hr
          simp only [Op.step, hr']
        have hid := fileNamed?_of_recordFile hr
        have grown : σ.Good (s₀.committed s₁) :=
          ⟨hg.root, asked.agrees.grow (step_inserts step).le, keeps hg.kept step⟩
        refine ⟨good_put grown hp hid, fun h => ?_, types, ?_, hid, rfl⟩
        · simp [Session.committed, s₀, withFiles, h]
        · rw [run_singleton]
          exact step
    · simp only [ho]
      refine ⟨asked, ⟨[], _, List.nil_prefix, rfl, rfl⟩, fun h => absurd ?_ ho⟩
      simp [Session.isOpen, s₀, withFiles, h.resolve_right (absurd rfl)]

def mention : Option SourceSite → List Op
  | none => []
  | some site => [.file site.file]

def Located (s : Store) (site : Option SourceSite) (found : Option (FileId × Position)) : Prop :=
  match site with
  | none => found = none
  | some site => ∃ f, found = some (f, site.position) ∧ s.fileNamed? site.file.text = some f

theorem follows_definition {site : SourceSite} (hg : σ.Good s) (hp : σ.known site.file)
    (keeps : σ.Keeps (.file site.file)) :
    Follows σ s types (mention (site.within σ.root)) (Analyze.definition site)
      fun x m => Located m.store (site.within σ.root) x ∧ m.types = types := by
  refine follows_get ?_
  unfold SourceSite.within Session.inCorpus
  rw [hg.root]
  split
  · refine (follows_fileId hg hp keeps).map fun f m hf => ?_
    exact ⟨⟨f, rfl, hf.1⟩, hf.2⟩
  · exact follows_pure hg ⟨rfl, rfl⟩

theorem follows_withFiles {a : Analyze α} {post : α → Machine → Prop} (x : α)
    (files : Cache (List Path.Component) FileId) (ha : a s = .ok x (withFiles s files))
    (hg : σ.Good (withFiles s files)) (hx : post x ⟨s.store, types⟩) :
    Follows σ s types [] a post := by
  simp only [Follows, ha]
  exact ⟨hg, fun h => h, types, rfl, hx⟩

/-- Looking for the row of a file of the corpus is no operation. -/
theorem follows_storedFile {p : Path} (hg : σ.Good s) (hp : σ.known p) :
    Follows σ s types [] (Analyze.storedFile p) fun x m =>
      m = ⟨s.store, types⟩ ∧
        x = if p.startsWith σ.root then s.store.fileNamed? p.text else none := by
  have asked := good_get hg p
  have inside : s.inCorpus p = p.startsWith σ.root := by rw [Session.inCorpus, hg.root]
  rw [← inside]
  cases hi : s.inCorpus p with
  | false =>
    exact follows_withFiles none s.files (Analyze.storedFile_of_outside hi) hg ⟨rfl, by simp⟩
  | true =>
    cases hc : s.files.find? p.components with
    | some id =>
      have hid := hg.agrees.files hp hc
      exact follows_withFiles (some id) _ (Analyze.storedFile_of_cached hi hc) asked
        ⟨rfl, by simp [hid]⟩
    | none =>
      cases hf : s.store.fileNamed? p.text with
      | none =>
        exact follows_withFiles none _ (Analyze.storedFile_of_unstored hi hc hf) asked
          ⟨rfl, by simp⟩
      | some id =>
        exact follows_withFiles (some id) _ (Analyze.storedFile_of_stored hi hc hf)
          (good_put asked hp hf) ⟨rfl, by simp⟩

/-- Looking for the variable at a site is no operation. -/
theorem follows_variableAt {site : SourceSite} (hg : σ.Good s) (hp : σ.known site.file) :
    Follows σ s types [] (Analyze.variableAt site) fun x m =>
      m = ⟨s.store, types⟩ ∧ x = (site.within σ.root).bind s.store.variableOf? := by
  refine (follows_storedFile hg hp).quiet ?_
  rintro x s' types' hg' - ⟨hm, rfl⟩
  obtain ⟨hs, rfl⟩ := Machine.mk.inj hm
  have hv : (site.within σ.root).bind s.store.variableOf? =
      (if site.file.startsWith σ.root then s.store.fileNamed? site.file.text else none).bind
        (s.store.variableAt? · site.position) := by
    unfold SourceSite.within
    split <;> rfl
  rw [hv]
  cases (if site.file.startsWith σ.root then s.store.fileNamed? site.file.text else none) with
  | none => exact follows_pure hg' ⟨hm, rfl⟩
  | some f => exact follows_get (follows_pure hg' ⟨hm, by rw [hs]; rfl⟩)

/-! ## Types -/

/-- From a session, a computation finds or records what it finds or records without caches. Where it
fails it leaves the store as it was; it may fail by itself if the store takes no more
transactions. -/
def Interns (σ : Setting) (s : Session) (a : Analyze TypeId) (u : Uncached TypeId) : Prop :=
  match a s with
  | .ok id s' =>
    u s.store = .ok (id, s'.store) ∧ s'.corpusRoot = s.corpusRoot ∧ s'.Agrees σ.known ∧
      (s.writesLeft = none → s'.writesLeft = none)
  | .error f s' =>
    s'.store = s.store ∧ σ.Good s' ∧ (s.writesLeft = none → s'.writesLeft = none) ∧
      (u s.store = .error f ∨ (f = .store .closed ∧ s.isOpen = false))

theorem interns_internType (hg : σ.Good s) (table : TypeTable) (r : TypeRef) :
    Interns σ s (Analyze.internType table r) (Uncached.intern table (table.size + 1) r) := by
  have coherent : (⟨s.store, s.types, []⟩ : InterningState).Coherent :=
    ⟨hg.agrees.types, fun e he => by cases he⟩
  have simulates := Interning.intern_simulates table (table.size + 1) r coherent
  unfold Interns Analyze.internType
  by_cases ho : s.isOpen = true
  · simp only [ho, if_true]
    unfold Interning.Simulates at simulates
    cases hi : Interning.intern table (table.size + 1) r ⟨s.store, s.types, []⟩ with
    | error f j =>
      rw [hi] at simulates
      obtain ⟨hu, hc⟩ := simulates
      refine ⟨rfl, ⟨hg.root, ⟨fun hf => ?_, hg.agrees.files⟩, hg.kept⟩, fun h => h, .inl hu⟩
      exact hg.agrees.types ((hc _).symm.trans hf)
    | ok id j =>
      rw [hi] at simulates
      obtain ⟨hu, hj, -⟩ := simulates
      refine ⟨hu, rfl, ⟨fun hf => ?_, fun hp hf => ?_⟩, fun h => by simp [Session.committed, h]⟩
      · obtain hm | hc := Cache.find?_putAll hf
        · exact hj.pending _ (List.mem_reverse.mp hm)
        · exact hj.cache hc
      · exact Store.fileNamed?_of_le (Uncached.intern_inserts hu).le (hg.agrees.files hp hf)
  · simp only [ho]
    exact ⟨rfl, hg, fun h => h, .inr ⟨rfl, trivial⟩⟩

theorem good_cachedType (hg : σ.Good s) (name : String) :
    σ.Good { s with types := (s.types.get name).2 } where
  root := hg.root
  agrees := {
    types := fun hf => hg.agrees.types (by simpa [Cache.find?_get] using hf)
    files := hg.agrees.files }
  kept := hg.kept

theorem typeId_of_name {table : TypeTable} {r : TypeRef} {name : String}
    (hn : table.name? r = some name) (s : Session) :
    Analyze.typeId table (some r) s =
      match s.types.find? name with
      | some id => .ok id { s with types := (s.types.get name).2 }
      | none => Analyze.internType table r { s with types := (s.types.get name).2 } := by
  cases hc : s.types.find? name <;>
    simp [Analyze.typeId, hn, Bind.bind, EStateM.bind, hc, pure, EStateM.pure]

theorem interns_typeId (hg : σ.Good s) (table : TypeTable) (r : TypeRef) :
    Interns σ s (Analyze.typeId table (some r)) (Uncached.intern table (table.size + 1) r) := by
  cases hn : table.name? r with
  | none =>
    have he : table.get? r = none := Option.map_eq_none_iff.mp hn
    have hx : Analyze.typeId table (some r) s = .error .nilType s := by
      simp only [Analyze.typeId, hn]
      rfl
    simp only [Interns, hx]
    refine ⟨trivial, hg, fun h => h, .inl ?_⟩
    simp only [Uncached.intern, he]
    rfl
  | some name =>
    obtain ⟨e, he, rfl⟩ := Option.map_eq_some_iff.mp hn
    have asked := good_cachedType hg e.name
    have hx := typeId_of_name hn s
    cases hc : s.types.find? e.name with
    | some id =>
      rw [hc] at hx
      simp only [Interns, hx]
      refine ⟨?_, trivial, asked.agrees, fun h => h⟩
      exact Uncached.intern_of_stored he (hg.agrees.types hc)
    | none =>
      have next := interns_internType asked table r
      rw [hc] at hx
      unfold Interns at next ⊢
      rw [hx]
      exact next

/-- Asking for the row of a type is the operation that looks it up. -/
theorem follows_typeId {table : TypeTable} {ref : Option TypeRef} (hg : σ.Good s)
    (keeps : σ.Keeps (.type table ref)) :
    Follows σ s types [.type table ref] (Analyze.typeIdIfResolved table ref)
      fun id m => m.types = types ++ [id] := by
  have found (id : Option TypeId) (s' : Session)
      (hu : Uncached.typeId table ref s.store = .ok (id, s'.store)) :
      run [.type table ref] ⟨s.store, types⟩ = .ok ⟨s'.store, types ++ [id]⟩ := by
    simp only [run_singleton, Op.step, hu]
  have failed {f : Failure} (hu : Uncached.typeId table ref s.store = .error f) :
      run [.type table ref] ⟨s.store, types⟩ = .error f := by
    simp only [run_singleton, Op.step, hu]
  unfold Follows Analyze.typeIdIfResolved
  cases ref with
  | none => exact ⟨hg, fun h => h, _, found none s rfl, rfl⟩
  | some r =>
    have interns := interns_typeId hg table r
    unfold Interns at interns
    cases ha : Analyze.typeId table (some r) s with
    | ok id s' =>
      rw [ha] at interns
      obtain ⟨hu, hr, hag, hw⟩ := interns
      have hu' : Uncached.typeId table (some r) s.store = .ok (some id, s'.store) := by
        simp only [Uncached.typeId, hu]
      have hrun := found _ s' hu'
      exact ⟨⟨hr.trans hg.root, hag, keeps hg.kept (by rwa [run_singleton] at hrun)⟩, hw, _, hrun, rfl⟩
    | error f s' =>
      rw [ha] at interns
      obtain ⟨hs, hg', hw, hu | ⟨rfl, hc⟩⟩ := interns
      · cases f with
        | nilType =>
          have hu' : Uncached.typeId table (some r) s.store = .ok (none, s'.store) := by
            simp only [Uncached.typeId, hu, hs]
          exact ⟨hg', hw, _, found _ s' hu', rfl⟩
        | store | file | exported | settings | internal =>
          refine ⟨hg', ⟨[], _, List.nil_prefix, rfl, hs.symm⟩, fun _ => failed ?_⟩
          simp only [Uncached.typeId, hu]
      · refine ⟨hg', ⟨[], _, List.nil_prefix, rfl, hs.symm⟩, fun h => absurd hc ?_⟩
        simp [Session.isOpen, h.resolve_right (absurd rfl)]

/-! ## Files -/

theorem follows_ofFile {p : Package} {f : SourceFile} (hg : σ.Good s) (hp : σ.known f.path)
    (keeps : σ.Keeps (.file f.path)) :
    Follows σ s types [.file f.path] (Scope.ofFile p f) fun w m =>
      w = { package := p, path := f.path, file := w.file, enclosing := ⟨none, none⟩ } ∧
        m.store.fileNamed? f.path.text = some w.file ∧ m.types = types :=
  (follows_fileId hg hp keeps).map fun _ _ h => ⟨rfl, h.1, h.2⟩

end Plan
end AccessDepth
