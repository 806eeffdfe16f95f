import AccessDepth.Proofs.Interning.Rows
import AccessDepth.Proofs.Plan.Follows
import AccessDepth.Proofs.Store.Sound

/-!
# AccessDepth.Proofs.Session

What the steps of a pass do to a session, however the paths are spelled.

* `Analyze.Ends` — where a computation ends: with a result in some session, or with a failure in
  another one.
* `Session.Ready` — the store keeps the rules of the schema, and what is cached is stored.
* `Session.LeadsTo` — a ready session comes to another one by rows that are added to some tables.
* `Session.Halts` — why the row of a file or of a type cannot be had.
* `Store.IsFile`, `Store.IsVariable` — a row stands for a path or for a site. More than one row may
  stand for a path that is spelled in several ways.
* `commit_ends`, `fileId_ends`, `typeIdIfResolved_ends`, … — one for each step.
-/

namespace AccessDepth

namespace Analyze

variable {α β : Type} {a : Analyze α} {s : Session} {post post' : α → Session → Prop}
  {fail fail' : Failure → Session → Prop}

/-- Where a computation ends. -/
def Ends (a : Analyze α) (s : Session) (post : α → Session → Prop)
    (fail : Failure → Session → Prop) : Prop :=
  match a s with
  | .ok x s' => post x s'
  | .error f s' => fail f s'

theorem ends_pure {x : α} (h : post x s) : Ends (pure x) s post fail := h

theorem Ends.mono (h : a.Ends s post fail) (hp : ∀ x s', post x s' → post' x s')
    (hf : ∀ f s', fail f s' → fail' f s') : a.Ends s post' fail' := by
  unfold Ends at h ⊢
  cases ha : a s with
  | ok x s' =>
    rw [ha] at h
    exact hp x s' h
  | error f s' =>
    rw [ha] at h
    exact hf f s' h

theorem Ends.bind {f : α → Analyze β} {next : β → Session → Prop} (h : a.Ends s post fail)
    (hf : ∀ x s', post x s' → (f x).Ends s' next fail) : (a >>= f).Ends s next fail := by
  unfold Ends at h
  cases ha : a s with
  | ok x s' =>
    rw [ha] at h
    simpa only [Ends, bind_of_ok ha] using hf x s' h
  | error e s' =>
    rw [ha] at h
    simpa only [Ends, bind_of_error ha] using h

theorem ends_get {f : Session → Analyze β} {next : β → Session → Prop}
    (h : (f s).Ends s next fail) : (get >>= f : Analyze β).Ends s next fail := h

theorem Ends.of_ok {x : α} {s' : Session} (h : a.Ends s post fail) (ha : a s = .ok x s') :
    post x s' := by
  simpa only [Ends, ha] using h

theorem Ends.and (h : a.Ends s post fail) (h' : a.Ends s post' fail') :
    a.Ends s (fun x s' => post x s' ∧ post' x s') fun f s' => fail f s' ∧ fail' f s' := by
  unfold Ends at *
  cases ha : a s with
  | ok x s' =>
    rw [ha] at h h'
    exact ⟨h, h'⟩
  | error f s' =>
    rw [ha] at h h'
    exact ⟨h, h'⟩

theorem Ends.told (h : a.Ends s post fail) :
    a.Ends s (fun x s' => post x s' ∧ a s = .ok x s') fail := by
  unfold Ends at h ⊢
  cases ha : a s with
  | ok x s' =>
    rw [ha] at h
    exact ⟨h, rfl⟩
  | error f s' =>
    rw [ha] at h
    exact h

theorem Ends.exists_ok (h : a.Ends s post fun _ _ => False) : ∃ x s', a s = .ok x s' ∧ post x s' := by
  unfold Ends at h
  cases ha : a s with
  | ok x s' =>
    rw [ha] at h
    exact ⟨x, s', rfl, h⟩
  | error f s' =>
    rw [ha] at h
    exact h.elim

theorem Ends.leaves {P : Session → Prop} (h : a.Ends s (fun _ => P) fun _ => P) :
    P (a.leaves s) := by
  unfold Ends at h
  unfold Analyze.leaves
  cases ha : a s <;> simpa only [ha] using h

end Analyze

/-! ## Rows that stand for places -/

namespace Store

/-- A row is one of the rows that stand for a path. -/
def IsFile (s : Store) (file : FileId) (path : Path) : Prop :=
  ∃ r ∈ s.files, r.id = file ∧ (Path.mk r.path).components = path.components

/-- A variable is recorded at a site. -/
def IsVariable (s : Store) (v : VariableId) (site : SourceSite) : Prop :=
  ∃ r ∈ s.vars, r.id = v ∧ r.position = site.position ∧ s.IsFile r.file site.file

variable {s t : Store}

theorem IsFile.of_le {file : FileId} {path : Path} (h : s.IsFile file path) (hle : s ≤ t) :
    t.IsFile file path := by
  obtain ⟨r, hr, he⟩ := h
  exact ⟨r, (hle .files).subset hr, he⟩

theorem IsVariable.of_le {v : VariableId} {site : SourceSite} (h : s.IsVariable v site)
    (hle : s ≤ t) : t.IsVariable v site := by
  obtain ⟨r, hr, hv, hp, hf⟩ := h
  exact ⟨r, (hle .variables).subset hr, hv, hp, hf.of_le hle⟩

theorem isFile_of_fileNamed? {path p : Path} {file : FileId}
    (h : s.fileNamed? p.text = some file) (hc : p.components = path.components) :
    s.IsFile file path := by
  obtain ⟨r, hr, rfl⟩ := Option.map_eq_some_iff.mp h
  have same := List.find?_some hr
  simp only [beq_iff_eq] at same
  exact ⟨r, List.mem_of_find?_eq_some hr, rfl, by rw [same]; exact hc⟩

theorem IsFile.components (h : s.Sound) {file : FileId} {path path' : Path}
    (hf : s.IsFile file path) (hf' : s.IsFile file path') : path.components = path'.components := by
  obtain ⟨r, hr, hn, hc⟩ := hf
  obtain ⟨r', hr', hn', hc'⟩ := hf'
  have number : Row.number .files r = Row.number .files r' := by
    simp only [Row.number, hn, hn']
  cases h.eq_of_number (u := .files) rfl hr hr' number
  exact hc.symm.trans hc'

/-- The row that a reference has among the types. One that has none leads out of its table, there or
further on. -/
def FitsType (s : Store) (t : TypeTable) (ref : Option TypeRef) : Option TypeId → Prop
  | some id => ref.bind (s.typeOf? t) = some id
  | none => t.Closed → ref.bind t.name? = none

theorem FitsType.of_le {table : TypeTable} {ref : Option TypeRef} {id : Option TypeId}
    (h : s.FitsType table ref id) (hle : s ≤ t) : t.FitsType table ref id := by
  cases id with
  | none => exact h
  | some id =>
    obtain ⟨r, rfl, hr⟩ := Option.bind_eq_some_iff.mp h
    exact typeOf?_of_le hle hr

end Store

/-! ## Sessions -/

namespace Session

/-- The store keeps the rules, and what is cached is stored. -/
structure Ready (s : Session) : Prop where
  sound : s.store.Sound
  coherent : s.Coherent

/-- A session comes to a ready one by rows that are added to some tables. -/
structure LeadsTo (P : Table → Prop) (s s' : Session) : Prop where
  ready : s'.Ready
  root : s'.corpusRoot = s.corpusRoot
  inserts : Inserts P s.store s'.store
  unlimited : s.writesLeft = none → s'.writesLeft = none

/-- Why a session does not have a row for a file or for a type: the store takes no more transactions,
or the type cannot be interned. -/
inductive Halts (s : Session) : Failure → Prop
  | closed : s.writesLeft ≠ none → Halts s (.store .closed)
  | type {table : TypeTable} {r : TypeRef} {f : Failure} :
      Uncached.intern table (table.size + 1) r s.store = .error f → f ≠ .nilType → Halts s f

variable {P Q : Table → Prop} {s s' s'' : Session}

theorem LeadsTo.refl (h : s.Ready) : LeadsTo P s s := ⟨h, rfl, .refl _, fun h => h⟩

theorem LeadsTo.trans (h : LeadsTo P s s') (h' : LeadsTo P s' s'') : LeadsTo P s s'' where
  ready := h'.ready
  root := h'.root.trans h.root
  inserts := h.inserts.trans h'.inserts
  unlimited hw := h'.unlimited (h.unlimited hw)

theorem LeadsTo.mono (h : LeadsTo P s s') (hP : ∀ u, P u → Q u) : LeadsTo Q s s' :=
  ⟨h.ready, h.root, h.inserts.mono hP, h.unlimited⟩

theorem Coherent.grow (h : s.Coherent) {t : Store} (hle : s.store ≤ t) (left : Option Nat) :
    ({ s with store := t, writesLeft := left } : Session).Coherent where
  types hf := Store.typeNamed?_of_le hle (h.types hf)
  files hf := by
    obtain ⟨path, hc, hp⟩ := h.files hf
    exact ⟨path, hc, Store.fileNamed?_of_le hle hp⟩

theorem Coherent.isFile (h : s.Coherent) {path : Path} {id : FileId}
    (hf : s.files.find? path.components = some id) : s.store.IsFile id path := by
  obtain ⟨p, hc, hp⟩ := h.files hf
  exact Store.isFile_of_fileNamed? hp hc

theorem Ready.putFile (h : s.Ready) {path : Path} {id : FileId}
    (hp : s.store.fileNamed? path.text = some id) :
    Ready { s with files := s.files.put path.components id } where
  sound := h.sound
  coherent := {
    types := h.coherent.types
    files := by
      intro components id' hf
      obtain ⟨rfl, rfl⟩ | hf := Cache.find?_put hf
      · exact ⟨path, rfl, hp⟩
      · exact h.coherent.files hf }

theorem Ready.getFile (h : s.Ready) (path : Path) :
    Ready { s with files := (s.files.get path.components).2 } where
  sound := h.sound
  coherent := {
    types := h.coherent.types
    files := fun hf => h.coherent.files (by simpa [Cache.find?_get] using hf) }

end Session

/-! ## Steps -/

/-- A file without a row can always get one. -/
theorem recordFile_succeeds (path : Path) (s : Store) :
    ∃ id s', recordFile path s = .ok (id, s') := by
  cases hf : s.fileNamed? path.text with
  | some id => exact ⟨id, s, recordFile_of_found hf⟩
  | none =>
    let r : FileRow := ⟨⟨s.nextNumber .files⟩, path.text⟩
    have free : s.keyTaken .files r = false := by
      rw [Bool.eq_false_iff]
      intro taken
      obtain ⟨r', hr', hk⟩ := Store.keyTaken_iff.mp taken
      have other := List.find?_eq_none.mp (Option.map_eq_none_iff.mp hf) r' hr'
      simp only [Row.key, List.cons.injEq, Cell.text.injEq, and_true] at hk
      exact other (by simpa [r] using hk)
    have inserted : s.insert .files r = .ok (s.push .files r) :=
      Store.insert_eq_ok.mpr ⟨rfl, free, rfl, rfl⟩
    refine ⟨⟨s.nextNumber .files⟩, s.push .files r, ?_⟩
    have created : Transaction.create .files (fun id => (⟨id, path.text⟩ : FileRow)) s = .ok _ :=
      Transaction.create_ok.mpr ⟨rfl, inserted⟩
    rw [recordFile_eq, Transaction.ensure_of_created hf created rfl]

namespace Analyze

variable {α : Type} {P : Table → Prop} {s : Session}

open Session (Ready LeadsTo Halts)

/-- A transaction adds its rows, or fails and leaves the session as it was. -/
theorem commit_ends {t : Transaction α} (h : s.Ready)
    (ht : ∀ x s', t s.store = .ok (x, s') → Inserts P s.store s') :
    (commit t).Ends s
      (fun x s' => t s.store = .ok (x, s'.store) ∧ LeadsTo P s s' ∧ s' = s.committed s'.store)
      fun f s' => s' = s ∧ (f = .store .closed ∧ s.writesLeft ≠ none ∨
        ∃ v, t s.store = .error v ∧ f = .store (.violation v)) := by
  unfold Ends commit
  by_cases ho : s.isOpen = true
  · simp only [ho, if_true]
    cases hs : t s.store with
    | error v => exact ⟨rfl, .inr ⟨v, rfl, rfl⟩⟩
    | ok r =>
      obtain ⟨x, s₁⟩ := r
      have inserts := ht x s₁ hs
      refine ⟨rfl, ⟨⟨inserts.sound h.sound, h.coherent.grow inserts.le _⟩, rfl, inserts, ?_⟩, rfl⟩
      intro hw
      simp [Session.committed, hw]
  · simp only [ho]
    refine ⟨rfl, .inl ⟨rfl, fun hw => ho ?_⟩⟩
    simp [Session.isOpen, hw]

/-- A file gets a row that stands for its path. -/
theorem fileId_ends (h : s.Ready) (path : Path) :
    (fileId path).Ends s
      (fun id s' => LeadsTo (·.owner = .files) s s' ∧ s'.store.IsFile id path)
      fun f s' => LeadsTo (·.owner = .files) s s' ∧ s.Halts f := by
  unfold fileId
  have asked : (cachedFile path).Ends s
      (fun x s' => s' = { s with files := (s.files.get path.components).2 } ∧
        x = s.files.find? path.components)
      fun f s' => LeadsTo (·.owner = .files) s s' ∧ s.Halts f :=
    ⟨rfl, Cache.get_fst ..⟩
  refine asked.bind ?_
  rintro x s₁ ⟨rfl, rfl⟩
  have ready := h.getFile path
  have first : LeadsTo (·.owner = .files) s { s with files := (s.files.get path.components).2 } :=
    ⟨ready, rfl, .refl _, fun hw => hw⟩
  cases hc : s.files.find? path.components with
  | some id => exact ends_pure ⟨first, h.coherent.isFile hc⟩
  | none =>
    refine Ends.bind (((commit_ends ready fun _ _ => recordFile_inserts).mono (fun _ _ h => h) ?_)) ?_
    · rintro f s' ⟨rfl, ⟨rfl, hw⟩ | ⟨v, hv, -⟩⟩
      · exact ⟨first, .closed hw⟩
      · obtain ⟨id, s', hs⟩ := recordFile_succeeds path s.store
        cases hv.symm.trans hs
    · rintro id s₂ ⟨hr, second, -⟩
      have named := fileNamed?_of_recordFile hr
      have put : LeadsTo (·.owner = .files) s₂
          { s₂ with files := s₂.files.put path.components id } :=
        ⟨second.ready.putFile named, rfl, .refl _, fun hw => hw⟩
      exact ⟨(first.trans second).trans put, Store.isFile_of_fileNamed? named rfl⟩

/-- A site of the corpus is located in a row for its file. -/
theorem definition_ends (h : s.Ready) (site : SourceSite) :
    (definition site).Ends s
      (fun x s' => LeadsTo (·.owner = .files) s s' ∧
        match site.within s.corpusRoot with
        | none => x = none
        | some site => ∃ file, x = some (file, site.position) ∧ s'.store.IsFile file site.file)
      fun f s' => LeadsTo (·.owner = .files) s s' ∧ s.Halts f := by
  refine ends_get ?_
  unfold SourceSite.within Session.inCorpus
  split
  · refine (fileId_ends h site.file).bind ?_
    rintro file s' ⟨hl, hf⟩
    exact ends_pure ⟨hl, file, rfl, hf⟩
  · exact ends_pure ⟨.refl h, rfl⟩

/-- Looking for the row of a file adds nothing. What is found stands for the path. -/
theorem storedFile_ends (h : s.Ready) (path : Path) :
    (storedFile path).Ends s
      (fun x s' => LeadsTo (fun _ => False) s s' ∧ s'.store = s.store ∧
        ∀ id, x = some id → path.startsWith s.corpusRoot = true ∧ s.store.IsFile id path)
      fun _ _ => False := by
  refine ends_get ?_
  cases hi : s.inCorpus path with
  | false => exact ends_pure ⟨.refl h, rfl, fun id hid => by cases hid⟩
  | true =>
    have asked : (cachedFile path).Ends s
        (fun x s' => s' = { s with files := (s.files.get path.components).2 } ∧
          x = s.files.find? path.components) fun _ _ => False := ⟨rfl, Cache.get_fst ..⟩
    refine asked.bind ?_
    rintro x s₁ ⟨rfl, rfl⟩
    have ready := h.getFile path
    have first : LeadsTo (fun _ => False) s
        { s with files := (s.files.get path.components).2 } := ⟨ready, rfl, .refl _, fun hw => hw⟩
    cases hc : s.files.find? path.components with
    | some id =>
      refine ends_pure ⟨first, rfl, fun id' hid => ?_⟩
      cases hid
      exact ⟨hi, h.coherent.isFile hc⟩
    | none =>
      refine ends_get ?_
      cases hf : s.store.fileNamed? path.text with
      | none => exact ends_pure ⟨first, rfl, fun id hid => by cases hid⟩
      | some id =>
        refine ⟨first.trans ⟨ready.putFile hf, rfl, .refl _, fun hw => hw⟩, rfl, fun id' hid => ?_⟩
        cases hid
        exact ⟨hi, Store.isFile_of_fileNamed? hf rfl⟩

/-- A variable that is found for a site is recorded there. -/
theorem variableAt_ends (h : s.Ready) (site : SourceSite) :
    (variableAt site).Ends s
      (fun x s' => LeadsTo (fun _ => False) s s' ∧ s'.store = s.store ∧
        ∀ v, x = some v → site.within s.corpusRoot = some site ∧ s.store.IsVariable v site)
      fun _ _ => False := by
  refine (storedFile_ends h site.file).bind ?_
  rintro x s₁ ⟨hl, hs, hx⟩
  cases x with
  | none => exact ends_pure ⟨hl, hs, fun v hv => by cases hv⟩
  | some file =>
    obtain ⟨inside, hf⟩ := hx file rfl
    refine ends_get (ends_pure ⟨hl, hs, fun v hv => ⟨if_pos inside, ?_⟩⟩)
    rw [hs] at hv
    obtain ⟨r, hr, rfl⟩ := Option.map_eq_some_iff.mp hv
    have place := List.find?_some hr
    simp only [Bool.and_eq_true, beq_iff_eq] at place
    exact ⟨r, List.mem_of_find?_eq_some hr, rfl, place.2, place.1 ▸ hf⟩

/-- Looking a type up does not touch what is cached of the files. -/
theorem typeId_files (table : TypeTable) (r : Option TypeRef) (s : Session) :
    ((typeId table r).leaves s).files = s.files := by
  have interned (r : TypeRef) (s : Session) : ((internType table r).leaves s).files = s.files := by
    unfold leaves internType
    by_cases ho : s.isOpen = true
    · simp only [ho, if_true]
      cases Interning.intern table (table.size + 1) r ⟨s.store, s.types, []⟩ <;> rfl
    · simp only [ho]
      rfl
  cases r with
  | none => rfl
  | some r =>
    unfold typeId
    simp only
    cases table.name? r with
    | none => rfl
    | some name =>
      simp only [leaves, bind_of_ok (cachedType_apply name s)]
      cases s.types.find? name with
      | none => exact interned r { s with types := (s.types.get name).2 }
      | some id => rfl

/-- A type that resolves gets its row. -/
theorem typeIdIfResolved_ends (h : s.Ready) (table : TypeTable) (ref : Option TypeRef) :
    (typeIdIfResolved table ref).Ends s
      (fun x s' => LeadsTo (·.owner = .types) s s' ∧ s'.store.FitsType table ref x)
      fun f s' => LeadsTo (·.owner = .types) s s' ∧ s.Halts f := by
  unfold Ends typeIdIfResolved
  cases ref with
  | none => exact ⟨.refl h, fun _ => rfl⟩
  | some r =>
    let σ : Plan.Setting := ⟨s.corpusRoot, fun _ => False, fun _ _ hp => hp.elim, fun _ => True⟩
    have good : σ.Good s := ⟨rfl, ⟨h.coherent.types, fun hp => hp.elim⟩, trivial⟩
    have interns := Plan.interns_typeId good table r
    have files := typeId_files table (some r) s
    unfold Plan.Interns at interns
    unfold leaves at files
    have later {s' : Session} (hs : s'.files = s.files) (hr : s'.corpusRoot = s.corpusRoot)
        (hag : s'.Agrees σ.known) (inserts : Inserts (·.owner = .types) s.store s'.store)
        (hw : s.writesLeft = none → s'.writesLeft = none) : LeadsTo (·.owner = .types) s s' := by
      refine ⟨⟨inserts.sound h.sound, hag.types, fun hf => ?_⟩, hr, inserts, hw⟩
      rw [hs] at hf
      obtain ⟨path, hc, hp⟩ := h.coherent.files hf
      exact ⟨path, hc, Store.fileNamed?_of_le inserts.le hp⟩
    cases ha : typeId table (some r) s with
    | ok id s' =>
      rw [ha] at interns files
      obtain ⟨hu, hr, hag, hw⟩ := interns
      obtain ⟨e, he, hn⟩ := Uncached.typeNamed?_of_intern hu
      refine ⟨later files hr hag (Uncached.intern_inserts hu) hw, ?_⟩
      simp [Store.FitsType, Store.typeOf?, TypeTable.name?, he, hn]
    | error f s' =>
      rw [ha] at interns files
      obtain ⟨hs, hg, hw, hu⟩ := interns
      have first := later files hg.root hg.agrees (by rw [hs]; exact .refl _) hw
      obtain hu | ⟨rfl, hc⟩ := hu
      · cases f with
        | nilType =>
          refine ⟨first, fun hc => ?_⟩
          cases hg : table.get? r with
          | none => simp [TypeTable.name?, hg]
          | some e => exact absurd rfl (Uncached.intern_error hc (by simp [hg]) hu)
        | store | file | exported | settings | internal =>
          exact ⟨first, .type hu (by simp)⟩
      · exact ⟨first, .closed fun h => by simp [Session.isOpen, h] at hc⟩

end Analyze
end AccessDepth
