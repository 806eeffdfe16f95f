import AccessDepth.Proofs.Caches
import AccessDepth.Proofs.Queries

/-!
# AccessDepth.Proofs.FileCache

The cache of the files is not seen in any answer, as long as equal paths are spelled the same.

* `Session.FilesAgree` — what is cached of the paths that are asked for is stored under their text.
  `FilesAgree.later` — so it stays, whatever is forgotten.
* `Analyze.fileId_eq`, `storedFile_eq` — then a file has the row that the store alone gives it.
* `Analyze.Unseen` — a computation does the same with another cache of the files.
* `Steps.unseen` — so do all steps.
* `Session.asks_anyCapacity` — queries are answered in the same way with caches of any two sizes.
-/

namespace AccessDepth

open Session (Later)

namespace Session

variable {known : Path → Prop} {s s' : Session}

def FilesAgree (known : Path → Prop) (s : Session) : Prop :=
  ∀ path id, known path → s.files.find? path.components = some id →
    s.store.fileNamed? path.text = some id

theorem FilesAgree.later (hs : SpelledAlike known) (h : s.FilesAgree known)
    (l : Later known s s') : s'.FilesAgree known := by
  intro path id hk hf
  rcases l.files hf with hf | ⟨p, hp, hc, stored⟩
  · exact Store.fileNamed?_of_le l.le (h path id hk hf)
  · have same : path = p := hs path p hk hp (by simp [Path.same, hc])
    rw [same]
    exact stored

theorem filesAgree_start (known : Path → Prop) (store : Store) (root : Path) (types files : Nat) :
    (start store root types files).FilesAgree known := by
  intro path id hk hf
  cases hf

end Session

namespace Analyze

variable {known : Path → Prop} {s : Session} {path : Path}

/-! ## Files -/

/-- The row of a file is the one that the store alone gives it. -/
theorem fileId_eq (h : s.FilesAgree known) (hw : s.writesLeft = none) (hk : known path) :
    ∃ id store c, recordFile path s.store = .ok (id, store) ∧
      fileId path s = .ok id { s with store := store, files := c } := by
  cases hc : s.files.find? path.components with
  | some id =>
    exact ⟨id, s.store, _, recordFile_of_found (h path id hk hc), fileId_of_cached hc⟩
  | none =>
    obtain ⟨id, store, hr⟩ := recordFile_succeeds path s.store
    refine ⟨id, store, ((s.files.get path.components).2).put path.components id, hr, ?_⟩
    rw [fileId_of_uncached hc]
    simp [Bind.bind, EStateM.bind, commit, Session.isOpen, hw, hr, cacheFile, pure, EStateM.pure,
      Session.committed]

/-- A file has the row that is stored under its text. -/
theorem storedFile_eq (h : s.FilesAgree known) (hk : known path) :
    ∃ c, storedFile path s =
      .ok (if s.inCorpus path then s.store.fileNamed? path.text else none)
        { s with files := c } := by
  cases hi : s.inCorpus path with
  | false => exact ⟨s.files, storedFile_of_outside hi⟩
  | true =>
    cases hc : s.files.find? path.components with
    | some id =>
      rw [if_pos rfl, h path id hk hc]
      exact ⟨_, storedFile_of_cached hi hc⟩
    | none =>
      cases hf : s.store.fileNamed? path.text with
      | none => exact ⟨_, storedFile_of_unstored hi hc hf⟩
      | some id => exact ⟨_, storedFile_of_stored hi hc hf⟩

/-! ## Another cache -/

variable {α β : Type} {c : Cache (List Path.Component) FileId}

/-- What comes of a computation, with another cache of the files. -/
def refiled (c : Cache (List Path.Component) FileId) :
    EStateM.Result Failure Session α → EStateM.Result Failure Session α
  | .ok x s => .ok x { s with files := c }
  | .error f s => .error f { s with files := c }

/-- With another cache of the files, a computation ends in the same way and leaves the same but for
that cache. -/
def Unseen (a : Analyze α) (s : Session) (c : Cache (List Path.Component) FileId) : Prop :=
  ∃ c', a { s with files := c } = refiled c' (a s)

theorem unseen_commit (t : Transaction α) : Unseen (commit t) s c := by
  refine ⟨c, ?_⟩
  unfold commit
  have opened : Session.isOpen { s with files := c } = s.isOpen := rfl
  rw [opened]
  cases s.isOpen with
  | false => rfl
  | true => cases t s.store <;> rfl

theorem internType_withFiles (table : TypeTable) (r : TypeRef) (s : Session)
    (c : Cache (List Path.Component) FileId) :
    internType table r { s with files := c } = refiled c (internType table r s) := by
  unfold internType
  have opened : Session.isOpen { s with files := c } = s.isOpen := rfl
  rw [opened]
  cases s.isOpen with
  | false => rfl
  | true =>
    simp only [if_true]
    cases Interning.intern table (table.size + 1) r ⟨s.store, s.types, []⟩ <;> rfl

theorem unseen_typeId (table : TypeTable) (ref : Option TypeRef) :
    Unseen (typeId table ref) s c := by
  refine ⟨c, ?_⟩
  cases ref with
  | none => rfl
  | some r =>
    unfold typeId
    simp only
    cases table.name? r with
    | none => rfl
    | some name =>
      simp only [Bind.bind, EStateM.bind, cachedType_apply]
      cases s.types.find? name with
      | some id => rfl
      | none =>
        exact internType_withFiles table r { s with types := (s.types.get name).2 } c

/-- Steps do the same with any cache of the files that agrees with the store. -/
theorem Steps.unseen {P : Table → Prop} {a : Analyze α} (hs : SpelledAlike known)
    (h : Steps P known a) (hw : s.writesLeft = none) (hf : s.FilesAgree known)
    (hc : Session.FilesAgree known { s with files := c }) : Unseen a s c := by
  induction h generalizing s c with
  | ret x => exact ⟨c, rfl⟩
  | @bind α β a f ha _ ih ihf =>
    obtain ⟨c₁, same⟩ := ih hw hf hc
    have later := ha.later s
    have later' := ha.later { s with files := c }
    unfold Unseen
    simp only [Bind.bind, EStateM.bind]
    unfold Ends at later later'
    cases ho : a s with
    | error e s₁ =>
      rw [ho] at same
      rw [same]
      exact ⟨c₁, rfl⟩
    | ok x s₁ =>
      rw [ho] at same later
      rw [same] at later'
      rw [same]
      exact ihf x (later.unlimited hw) (hf.later hs later) (hc.later hs later')
  | commit => exact unseen_commit _
  | type table ref => exact unseen_typeId table ref
  | @ifResolved table ref _ ih =>
    obtain ⟨c₁, same⟩ := ih hw hf hc
    refine ⟨c₁, ?_⟩
    unfold typeIdIfResolved
    rw [same]
    cases typeId table ref s with
    | ok id s' => rfl
    | error f s' => cases f <;> rfl
  | file path hk =>
    obtain ⟨id, store, c₁, hr, he⟩ := fileId_eq hf hw hk
    obtain ⟨id', store', c₂, hr', he'⟩ := fileId_eq hc hw hk
    cases hr.symm.trans hr'
    refine ⟨c₂, ?_⟩
    rw [he, he']
    rfl
  | definition site hk =>
    obtain ⟨id, store, c₁, hr, he⟩ := fileId_eq hf hw hk
    obtain ⟨id', store', c₂, hr', he'⟩ := fileId_eq hc hw hk
    cases hr.symm.trans hr'
    unfold Unseen Analyze.definition
    simp only [Bind.bind, EStateM.bind, get_apply]
    have inside : Session.inCorpus { s with files := c } site.file = s.inCorpus site.file := rfl
    rw [inside]
    cases s.inCorpus site.file with
    | false => exact ⟨c, rfl⟩
    | true => exact ⟨c₂, by simp [he, he', EStateM.bind, pure, EStateM.pure, refiled]⟩
  | varAt site hk =>
    obtain ⟨c₁, he⟩ := storedFile_eq hf hk
    obtain ⟨c₂, he'⟩ := storedFile_eq hc hk
    refine ⟨c₂, ?_⟩
    unfold variableAt
    simp only [Bind.bind, EStateM.bind, he, he']
    have inside : Session.inCorpus { s with files := c } site.file = s.inCorpus site.file := rfl
    rw [inside]
    cases (if s.inCorpus site.file then s.store.fileNamed? site.file.text else none) <;> rfl
  | funcAt w position => exact ⟨c, rfl⟩

end Analyze

/-! ## Queries -/

namespace Session

variable {known : Path → Prop} {s : Session} {c : Cache (List Path.Component) FileId}

/-- Queries are answered in the same way with any cache that agrees with the store. -/
theorem asks_unseen (hs : SpelledAlike known) {qs : List Query}
    (hq : ∀ q ∈ qs, ∀ path, q.HasPath path → known path) (hw : s.writesLeft = none)
    (hf : s.FilesAgree known) (hc : FilesAgree known { s with files := c }) :
    (asks { s with files := c } qs).1 = (s.asks qs).1 ∧
      (asks { s with files := c } qs).2.store = (s.asks qs).2.store := by
  induction qs generalizing s c with
  | nil => exact ⟨rfl, rfl⟩
  | cons q qs ih =>
    have steps := q.run_steps (hq q List.mem_cons_self)
    obtain ⟨c₁, same⟩ := steps.unseen hs hw hf hc
    have later := (steps.later s).leaves
    have later' := (steps.later { s with files := c }).leaves
    rw [← Query.answer_leaves] at later later'
    have next : q.answer { s with files := c } =
        ((q.answer s).1, { (q.answer s).2 with files := c₁ }) := by
      unfold Query.answer
      rw [same]
      cases q.run s <;> rfl
    rw [next] at later'
    obtain ⟨answers, store⟩ := ih (fun r hr => hq r (List.mem_cons_of_mem q hr))
      (later.unlimited hw) (hf.later hs later) (hc.later hs later')
    simp only [asks, next]
    exact ⟨congrArg _ answers, store⟩

/-- Queries that start with empty caches are answered in the same way and leave the same store,
whatever the store holds and however many files are cached at most, if equal paths among those that
they speak of are spelled the same. -/
theorem asks_anyCapacity {qs : List Query} (hs : SpelledAlike fun path => ∃ q ∈ qs, q.HasPath path)
    (store : Store) (root : Path) (types files files' : Nat) :
    let a := (start store root types files).asks qs
    let b := (start store root types files').asks qs
    a.1 = b.1 ∧ a.2.store = b.2.store :=
  asks_unseen (s := start store root types files') (c := .empty files) hs
    (fun q hq _ hp => ⟨q, hq, hp⟩) rfl (filesAgree_start _ store root types files')
    (filesAgree_start _ store root types files)

/-- Two files are asked for, one of them is analyzed, and a variable of it is looked up. -/
theorem asks_sample_anyCapacity :
    let qs : List Query := [.file ⟨"corpus/b.go"⟩, .analysis .sample .all, .file ⟨"corpus/b.go"⟩,
      .varAt ⟨⟨"corpus/a.go"⟩, ⟨2, 5⟩⟩]
    let a := (start .initial ⟨"corpus"⟩ 4 1).asks qs
    let b := (start .initial ⟨"corpus"⟩ 4 2).asks qs
    a.1 = b.1 ∧ a.2.store = b.2.store := by
  have apart : Path.same ⟨"corpus/a.go"⟩ ⟨"corpus/b.go"⟩ = false := by decide +kernel
  refine asks_anyCapacity (.of_two (fun path h => ?_) apart) .initial ⟨"corpus"⟩ 4 1 2
  obtain ⟨q, hq, hp⟩ := h
  simp only [List.mem_cons, List.not_mem_nil, or_false] at hq
  rcases hq with rfl | rfl | rfl | rfl
  · cases hp
    exact .inr rfl
  · cases hp with
    | analysis hp => exact .inl (Package.path_of_sample hp)
  · cases hp
    exact .inr rfl
  · cases hp
    exact .inl rfl

/-- A file that is spelled in two ways has one row if its first spelling is still cached, and two
rows if it was forgotten. -/
theorem file_split_by_forgetting :
    let qs : List Query := [.file ⟨"corpus/a.go"⟩, .file ⟨"corpus/b.go"⟩, .file ⟨"corpus//a.go"⟩]
    ((start .initial ⟨"corpus"⟩ 4 1).asks qs).1 =
        [.ok (.file ⟨2⟩), .ok (.file ⟨3⟩), .ok (.file ⟨4⟩)] ∧
      ((start .initial ⟨"corpus"⟩ 4 2).asks qs).1 =
        [.ok (.file ⟨2⟩), .ok (.file ⟨3⟩), .ok (.file ⟨2⟩)] :=
  ⟨by rfl, by rfl⟩

end Session
end AccessDepth
