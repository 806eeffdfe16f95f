import AccessDepth.Proofs.Steps

/-!
# AccessDepth.Proofs.Caches

What is cached after some steps, whatever was cached before them. Nothing is assumed of the caches:
what they hold need not be stored.

* `Interning.intern_grows`, `intern_tells` — interning notes what it finds or records in the store. The
  row that it tells was known, or is stored.
* `Session.Later` — rows were added, and what is cached by now was cached before or is stored.
* `typeId_later`, `fileId_later`, … — so it is after each step.
* `Steps.later` — so it is after steps, whether they succeed or fail.
-/

namespace AccessDepth

/-! ## Interning -/

namespace Interning

open InterningState (SameCache)

variable {α β : Type} {i j k : InterningState}

/-- A computation notes only what is stored. A failure leaves the cache with its answers. -/
def Grows (a : Interning α) : Prop :=
  ∀ i, match a i with
    | .ok _ j => Grown i j
    | .error _ j => SameCache i j

theorem grows_pure (x : α) : Grows (pure x) := fun i => .refl i

theorem grows_throw (f : Failure) : Grows (throw f : Interning α) := fun _ _ => rfl

theorem Grows.bind {a : Interning α} {f : α → Interning β} (h : Grows a)
    (hf : ∀ x, Grows (f x)) : Grows (a >>= f) := by
  intro i
  have first := h i
  simp only [Bind.bind, EStateM.bind]
  cases ha : a i with
  | error e j =>
    rw [ha] at first
    exact first
  | ok x j =>
    rw [ha] at first
    have rest := hf x j
    simp only
    cases hx : f x j with
    | error e k =>
      rw [hx] at rest
      exact fun n => (rest n).trans (first.same n)
    | ok y k =>
      rw [hx] at rest
      exact first.trans rest

theorem grows_write {t : Transaction α} (ht : ∀ {s x s'}, t s = .ok (x, s') → s ≤ s') :
    Grows (write t) := by
  intro i
  unfold write
  cases hs : t i.store with
  | error v => exact fun _ => rfl
  | ok r => exact ⟨ht hs, fun _ h => .inl h, fun _ => rfl⟩

theorem grows_insert (row : AnyRow) : Grows (write (.insert row.table row.row)) :=
  grows_write fun h => Store.le_of_insert (Transaction.insert_ok.mp h)

/-- A row that can be added under a name is the one that is found under it. -/
theorem reserve_tells {e : TypeEntry} {id : TypeId} (h : reserve e i = .ok id j) :
    Grown i j ∧ j.store.typeNamed? e.name = some id := by
  obtain ⟨id', k, hw, h⟩ := bind_eq_ok.mp h
  obtain ⟨_, _, hn, hp⟩ := bind_eq_ok.mp h
  cases hn
  cases hp
  unfold write at hw
  split at hw
  · rename_i hc
    cases hw
    obtain ⟨-, hi⟩ := Transaction.create_ok.mp hc
    obtain ⟨-, free, -, rfl⟩ := Store.insert_eq_ok.mp hi
    have missing : i.store.typeNamed? e.name = none := by
      rw [Bool.eq_false_iff, ne_eq, Store.keyTaken_iff] at free
      refine Option.map_eq_none_iff.mpr (List.find?_eq_none.mpr fun r hr named => free ⟨r, hr, ?_⟩)
      have hn : r.name = e.name := by simpa using named
      simp [Row.key, hn]
    have stored : (i.store.push .types (e.row id)).typeNamed? e.name = some id :=
      Store.typeNamed?_push missing
    refine ⟨⟨Store.le_push i.store .types _, ?_, fun _ => rfl⟩, stored⟩
    intro x hx
    rcases List.mem_cons.mp hx with rfl | hx
    · exact .inr stored
    · exact .inl hx
  · cases hw

theorem reserve_grows (e : TypeEntry) : Grows (reserve e) := by
  intro i
  cases h : reserve e i with
  | ok id j => exact (reserve_tells h).1
  | error f j =>
    have first : Grows (write (.create .types e.row)) :=
      grows_write fun h => Store.le_of_insert (Transaction.create_ok.mp h).2
    have tried : reserve e i = (write (.create .types e.row) >>= fun id =>
      note e.name id >>= fun _ => pure id) i := rfl
    have here := first i
    simp only [tried, Bind.bind, EStateM.bind] at h
    cases hw : write (.create .types e.row) i with
    | ok id k =>
      rw [hw] at h
      cases h
    | error f k =>
      rw [hw] at h here
      cases h
      exact here

theorem complete_grows {type : TypeRef → Interning TypeId} (ht : ∀ r, Grows (type r))
    (parts : List TypePart) : Grows (complete type parts) := by
  induction parts with
  | nil => exact grows_pure ()
  | cons part parts ih =>
    cases part with
    | plain row => exact (grows_insert row).bind fun _ => ih
    | one t row => exact (ht t).bind fun _ => (grows_insert _).bind fun _ => ih
    | two t u row =>
      exact (ht t).bind fun _ => (ht u).bind fun _ => (grows_insert _).bind fun _ => ih

theorem intern_grows (table : TypeTable) (depth : Nat) (r : TypeRef) :
    Grows (intern table depth r) := by
  induction depth generalizing r with
  | zero => exact grows_throw _
  | succ depth ih =>
    unfold intern
    cases table.get? r with
    | none => exact grows_throw _
    | some e =>
      have asks : Grows (known e.name) := by
        intro i
        obtain ⟨x, j, hk, grown, -⟩ := known_tells e.name i
        rw [hk]
        exact grown
      refine asks.bind fun x => ?_
      cases x with
      | some id => exact grows_pure id
      | none =>
        refine (reserve_grows e).bind fun id => ?_
        exact (complete_grows ih _).bind fun _ => grows_pure id

/-- The row that interning tells was noted or cached before, or is stored under the name. -/
theorem intern_tells {table : TypeTable} {depth : Nat} {r : TypeRef} {id : TypeId}
    (h : intern table depth r i = .ok id j) :
    ∃ e, table.get? r = some e ∧ (i.pending.lookup e.name = some id ∨
      i.cache.find? e.name = some id ∨ j.store.typeNamed? e.name = some id) := by
  cases depth with
  | zero => cases h
  | succ depth =>
    unfold intern at h
    cases he : table.get? r with
    | none =>
      rw [he] at h
      cases h
    | some e =>
      simp only [he] at h
      refine ⟨e, rfl, ?_⟩
      obtain ⟨x, k, hk, grown, same, told⟩ := known_tells e.name i
      obtain ⟨x', k', hk', h⟩ := bind_eq_ok.mp h
      cases hk.symm.trans hk'
      cases x with
      | some id' =>
        cases h
        rw [same]
        exact told
      | none =>
        obtain ⟨id', l, hr, h⟩ := bind_eq_ok.mp h
        obtain ⟨_, m, hc, h⟩ := bind_eq_ok.mp h
        cases h
        have later := complete_grows (intern_grows table depth) (e.shape.parts id) l
        rw [hc] at later
        exact .inr (.inr (Store.typeNamed?_of_le later.le (reserve_tells hr).2))

end Interning

/-! ## Sessions -/

namespace Session

variable {known : Path → Prop} {s s' s'' : Session}

/-- Rows were added. What is cached by now was cached before or is stored, a file under one of the
paths that were asked for. -/
structure Later (known : Path → Prop) (s s' : Session) : Prop where
  root : s'.corpusRoot = s.corpusRoot
  le : s.store ≤ s'.store
  unlimited : s.writesLeft = none → s'.writesLeft = none
  types : ∀ {name id}, s'.types.find? name = some id →
    s.types.find? name = some id ∨ s'.store.typeNamed? name = some id
  files : ∀ {components id}, s'.files.find? components = some id →
    s.files.find? components = some id ∨
      ∃ path, known path ∧ path.components = components ∧ s'.store.fileNamed? path.text = some id

theorem Later.refl (known : Path → Prop) (s : Session) : Later known s s :=
  ⟨rfl, le_refl _, fun h => h, .inl, .inl⟩

theorem Later.trans (h : Later known s s') (h' : Later known s' s'') : Later known s s'' where
  root := h'.root.trans h.root
  le := le_trans h.le h'.le
  unlimited hw := h'.unlimited (h.unlimited hw)
  types hf := by
    rcases h'.types hf with hf | stored
    · exact (h.types hf).imp_right (Store.typeNamed?_of_le h'.le)
    · exact .inr stored
  files hf := by
    rcases h'.files hf with hf | stored
    · refine (h.files hf).imp_right fun ⟨path, hk, hc, stored⟩ => ⟨path, hk, hc, ?_⟩
      exact Store.fileNamed?_of_le h'.le stored
    · exact .inr stored

theorem later_getFile (known : Path → Prop) (s : Session) (path : Path) :
    Later known s { s with files := (s.files.get path.components).2 } :=
  ⟨rfl, le_refl _, fun h => h, .inl, fun h => .inl (by rwa [Cache.find?_get] at h)⟩

theorem later_putFile {path : Path} {id : FileId} (hk : known path)
    (hp : s.store.fileNamed? path.text = some id) :
    Later known s { s with files := s.files.put path.components id } where
  root := rfl
  le := le_refl _
  unlimited h := h
  types := .inl
  files hf := by
    rcases Cache.find?_put hf with ⟨rfl, rfl⟩ | hf
    · exact .inr ⟨path, hk, rfl, hp⟩
    · exact .inl hf

theorem later_committed {store : Store} (h : s.store ≤ store) :
    Later known s (s.committed store) where
  root := rfl
  le := h
  unlimited hw := by simp [committed, hw]
  types := .inl
  files := .inl

end Session

namespace Analyze

open Session (Later)

variable {α : Type} {known : Path → Prop} {s : Session}

theorem commit_later {t : Transaction α} (ht : ∀ {x s'}, t s.store = .ok (x, s') → s.store ≤ s') :
    (commit t).Ends s (fun x s' => t s.store = .ok (x, s'.store) ∧ Later known s s')
      fun _ s' => s' = s := by
  unfold Ends commit
  by_cases ho : s.isOpen = true
  · simp only [ho, if_true]
    cases hs : t s.store with
    | error v => rfl
    | ok r => exact ⟨rfl, Session.later_committed (ht hs)⟩
  · simp only [ho]
    rfl

/-- The row that is told for a file was cached, or is stored. -/
theorem fileId_later {path : Path} (hk : known path) : (fileId path).Ends s
    (fun id s' => Later known s s' ∧
      (s.files.find? path.components = some id ∨ s'.store.fileNamed? path.text = some id))
    fun _ s' => Later known s s' := by
  unfold fileId
  have asked : (cachedFile path).Ends s
      (fun x s' => s' = { s with files := (s.files.get path.components).2 } ∧
        x = s.files.find? path.components) fun _ s' => Later known s s' := ⟨rfl, Cache.get_fst ..⟩
  refine asked.bind ?_
  rintro x s₁ ⟨rfl, rfl⟩
  have first := Session.later_getFile known s path
  cases hc : s.files.find? path.components with
  | some id => exact ends_pure ⟨first, .inl rfl⟩
  | none =>
    have recorded := @commit_later _ known { s with files := (s.files.get path.components).2 }
      (recordFile path) fun h => (recordFile_inserts h).le
    refine (recorded.mono (fun _ _ h => h) ?_).bind ?_
    · rintro f s' rfl
      exact first
    · rintro id s₂ ⟨hr, second⟩
      have named := fileNamed?_of_recordFile hr
      exact ⟨(first.trans second).trans (Session.later_putFile hk named), .inr named⟩

theorem definition_later {site : SourceSite} (hk : known site.file) :
    (definition site).Ends s (fun _ s' => Later known s s') fun _ s' => Later known s s' := by
  refine ends_get ?_
  split
  · exact (fileId_later hk).bind fun _ _ h => ends_pure h.1
  · exact ends_pure (.refl known s)

theorem variableAt_later {site : SourceSite} (hk : known site.file) :
    (variableAt site).Ends s (fun _ s' => Later known s s') fun _ s' => Later known s s' := by
  have found : (storedFile site.file).Ends s (fun _ s' => Later known s s')
      fun _ s' => Later known s s' := by
    refine ends_get ?_
    split
    · have asked : (cachedFile site.file).Ends s (fun _ s' => Later known s s')
          fun _ s' => Later known s s' := Session.later_getFile known s site.file
      refine asked.bind fun x s₁ first => ?_
      cases x with
      | some id => exact ends_pure first
      | none =>
        refine ends_get ?_
        cases hf : s₁.store.fileNamed? site.file.text with
        | none => exact ends_pure first
        | some id => exact first.trans (Session.later_putFile hk hf)
    · exact ends_pure (.refl known s)
  refine found.bind fun x s₁ later => ?_
  cases x with
  | none => exact ends_pure later
  | some file => exact ends_get (ends_pure later)

/-- The row that is told for a type was cached, or is stored. -/
theorem typeId_later (table : TypeTable) (ref : Option TypeRef) : (typeId table ref).Ends s
    (fun id s' => Later known s s' ∧ ∃ name, ref.bind table.name? = some name ∧
      (s.types.find? name = some id ∨ s'.store.typeNamed? name = some id))
    fun _ s' => Later known s s' := by
  cases ref with
  | none => exact Session.Later.refl known s
  | some r =>
    unfold typeId
    simp only [Option.bind_some]
    cases hn : table.name? r with
    | none => exact Session.Later.refl known s
    | some name =>
      have first : Later known s { s with types := (s.types.get name).2 } :=
        ⟨rfl, le_refl _, fun h => h, fun h => .inl (by rwa [Cache.find?_get] at h), .inl⟩
      have asked : (cachedType name).Ends s
          (fun x s' => s' = { s with types := (s.types.get name).2 } ∧ x = s.types.find? name)
          fun _ s' => Later known s s' := ⟨rfl, Cache.get_fst ..⟩
      refine asked.bind ?_
      rintro x s₁ ⟨rfl, rfl⟩
      cases hc : s.types.find? name with
      | some id => exact ends_pure ⟨first, name, rfl, .inl hc⟩
      | none =>
        unfold Ends internType
        by_cases ho : s.isOpen = true
        · have opened : Session.isOpen { s with types := (s.types.get name).2 } = true := ho
          simp only [opened, if_true]
          have grown := Interning.intern_grows table (table.size + 1) r
            ⟨s.store, (s.types.get name).2, []⟩
          cases hi : Interning.intern table (table.size + 1) r
            ⟨s.store, (s.types.get name).2, []⟩ with
          | error f t =>
            rw [hi] at grown
            refine ⟨rfl, le_refl _, fun h => h, fun h => .inl ?_, .inl⟩
            rwa [grown, Cache.find?_get] at h
          | ok id t =>
            rw [hi] at grown
            obtain ⟨e, he, told⟩ := Interning.intern_tells hi
            obtain rfl : e.name = name := by
              simpa [TypeTable.name?, he] using hn
            refine ⟨⟨rfl, grown.le, fun h => by simp [Session.committed, h], fun h => ?_, .inl⟩,
              e.name, rfl, ?_⟩
            · rcases Cache.find?_putAll h with h | h
              · rcases grown.pending _ (List.mem_reverse.mp h) with h | stored
                · cases h
                · exact .inr stored
              · rw [grown.same, Cache.find?_get] at h
                exact .inl h
            · rcases told with told | told | told
              · cases told
              · rw [Cache.find?_get, hc] at told
                cases told
              · exact .inr told
        · have closed : ¬ Session.isOpen { s with types := (s.types.get name).2 } = true := ho
          simp only [closed]
          exact first

/-- Whatever steps do, what is cached afterwards was cached before or is stored. -/
theorem Steps.later {P : Table → Prop} {a : Analyze α} (h : Steps P known a) (s : Session) :
    a.Ends s (fun _ s' => Later known s s') fun _ s' => Later known s s' := by
  induction h generalizing s with
  | ret x => exact ends_pure (.refl known s)
  | bind _ _ ih ihf =>
    refine (ih s).bind fun x s₁ first => ?_
    exact (ihf x s₁).mono (fun _ _ h => first.trans h) fun _ _ h => first.trans h
  | commit ht =>
    refine (commit_later fun h => (ht _ _ _ h).le).mono (fun _ _ h => h.2) ?_
    rintro f s' rfl
    exact .refl known s'
  | type table ref => exact (typeId_later table ref).mono (fun _ _ h => h.1) fun _ _ h => h
  | ifResolved _ ih => exact ends_ifResolved_iff.mpr (ih s)
  | file path hk => exact (fileId_later hk).mono (fun _ _ h => h.1) fun _ _ h => h
  | definition site hk => exact definition_later hk
  | varAt site hk => exact variableAt_later hk
  | funcAt w position => exact ends_get (ends_pure (.refl known s))

end Analyze
end AccessDepth
