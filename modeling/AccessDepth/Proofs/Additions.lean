import AccessDepth.Proofs.Caches

/-!
# AccessDepth.Proofs.Additions

To which tables steps add rows, whatever is cached. Nothing is assumed of the session.

* `Interning.adds_intern` — interning adds rows of types only.
* `Steps.adds` — steps that add rows to some tables add rows to no others, whether they succeed or fail.
-/

namespace AccessDepth

/-! ## Interning -/

namespace Interning

variable {α β : Type}

def Adds (a : Interning α) : Prop :=
  ∀ i x j, a i = .ok x j → Inserts (·.owner = .types) i.store j.store

theorem adds_pure (x : α) : Adds (pure x) := by
  rintro i _ _ ⟨⟩
  exact .refl _

theorem adds_throw (f : Failure) : Adds (throw f : Interning α) := by
  rintro _ _ _ ⟨⟩

theorem Adds.bind {a : Interning α} {f : α → Interning β} (h : Adds a) (hf : ∀ x, Adds (f x)) :
    Adds (a >>= f) := by
  intro i y k hb
  obtain ⟨x, j, ha, hx⟩ := bind_eq_ok.mp hb
  exact (h i x j ha).trans (hf x j y k hx)

theorem adds_write {t : Transaction α}
    (ht : ∀ {s x s'}, t s = .ok (x, s') → Inserts (·.owner = .types) s s') : Adds (write t) := by
  intro i x j h
  unfold write at h
  split at h
  · rename_i hw
    cases h
    exact ht hw
  · cases h

theorem adds_part {id : TypeId} {row : AnyRow} (h : row.CompletesType id) :
    Adds (write (.insert row.table row.row)) :=
  adds_write fun hi => h.inserts (Transaction.insert_ok.mp hi)

theorem adds_reserve (e : TypeEntry) : Adds (reserve e) := by
  refine (adds_write fun h => ?_).bind fun id => ?_
  · obtain ⟨hid, hi⟩ := Transaction.create_ok.mp h
    exact .one rfl (fun _ => congrArg RowId.value hid) hi
  · rintro i _ _ ⟨⟩
    exact .refl _

theorem adds_complete {type : TypeRef → Interning TypeId} (ht : ∀ r, Adds (type r)) {id : TypeId}
    {parts : List TypePart} (hp : ∀ part ∈ parts, part.Rows (AnyRow.CompletesType id)) :
    Adds (complete type parts) := by
  induction parts with
  | nil => exact adds_pure ()
  | cons part parts ih =>
    have here := hp part List.mem_cons_self
    have rest := ih fun q hq => hp q (List.mem_cons_of_mem part hq)
    cases part with
    | plain row => exact (adds_part here).bind fun _ => rest
    | one t row => exact (ht t).bind fun a => (adds_part (here a)).bind fun _ => rest
    | two t u row =>
      exact (ht t).bind fun a => (ht u).bind fun b => (adds_part (here a b)).bind fun _ => rest

theorem adds_known (name : String) : Adds (known name) := by
  intro i x j h
  obtain ⟨x', j', hk, -, same, -⟩ := known_tells name i
  cases hk.symm.trans h
  rw [same]
  exact .refl _

/-- Interning adds to the tables of types only, whatever is cached. -/
theorem adds_intern (table : TypeTable) (depth : Nat) (r : TypeRef) :
    Adds (intern table depth r) := by
  induction depth generalizing r with
  | zero => exact adds_throw _
  | succ depth ih =>
    unfold intern
    cases table.get? r with
    | none => exact adds_throw _
    | some e =>
      refine (adds_known e.name).bind fun found => ?_
      cases found with
      | some id => exact adds_pure id
      | none =>
        refine (adds_reserve e).bind fun id => ?_
        exact (adds_complete ih (e.shape.parts_rows id)).bind fun _ => adds_pure id

end Interning

/-! ## Steps -/

namespace Analyze

variable {P : Table → Prop} {known : Path → Prop} {α β : Type} {a : Analyze α}

/-- A computation only adds rows to some tables, whether it succeeds or fails. -/
def Adds (P : Table → Prop) (a : Analyze α) : Prop :=
  ∀ s, a.Ends s (fun _ s' => Inserts P s.store s'.store) fun _ s' => Inserts P s.store s'.store

def Reads (a : Analyze α) : Prop :=
  ∀ s, a.Ends s (fun _ s' => s'.store = s.store) fun _ s' => s'.store = s.store

theorem Reads.adds (h : Reads a) : Adds P a := fun s =>
  (h s).mono (fun _ s' he => he ▸ .refl s'.store) fun _ s' he => he ▸ .refl s'.store

theorem Adds.bind {f : α → Analyze β} (h : Adds P a) (hf : ∀ x, Adds P (f x)) :
    Adds P (a >>= f) := fun s =>
  (h s).bind fun x s₁ first =>
    (hf x s₁).mono (fun _ _ rest => first.trans rest) fun _ _ rest => first.trans rest

theorem adds_commit {t : Transaction α} (ht : ∀ s x s', t s = .ok (x, s') → Inserts P s s') :
    Adds P (commit t) := by
  intro s
  refine (@commit_later _ (fun _ => False) s t fun h => (ht _ _ _ h).le).mono ?_ ?_
  · rintro x s' ⟨hc, -⟩
    exact ht _ _ _ hc
  · rintro f s' rfl
    exact .refl _

theorem adds_typeId (hP : ∀ u, u.owner = .types → P u) (table : TypeTable)
    (ref : Option TypeRef) : Adds P (typeId table ref) := by
  have interned (r : TypeRef) : Adds P (internType table r) := by
    intro s
    unfold Ends internType
    by_cases ho : s.isOpen = true
    · simp only [ho, if_true]
      cases hi : Interning.intern table (table.size + 1) r ⟨s.store, s.types, []⟩ with
      | error f t => exact .refl _
      | ok id t => exact (Interning.adds_intern table _ r _ _ _ hi).mono hP
    · simp only [ho]
      exact .refl _
  cases ref with
  | none => exact fun s => .refl s.store
  | some r =>
    unfold typeId
    simp only
    cases table.name? r with
    | none => exact fun s => .refl s.store
    | some name =>
      have asks : Reads (cachedType name) := fun _ => rfl
      refine asks.adds.bind fun x => ?_
      cases x with
      | some id => exact fun s => .refl s.store
      | none => exact interned r

theorem adds_fileId (hP : ∀ u, u.owner = .files → P u) (path : Path) : Adds P (fileId path) := by
  have asks : Reads (cachedFile path) := fun _ => rfl
  refine asks.adds.bind fun x => ?_
  cases x with
  | some id => exact fun s => .refl s.store
  | none =>
    refine (adds_commit fun _ _ _ h => (recordFile_inserts h).mono hP).bind fun id => ?_
    have notes : Reads (cacheFile path id) := fun _ => rfl
    exact notes.adds.bind fun _ s => .refl s.store

theorem reads_variableAt (site : SourceSite) : Reads (variableAt site) := by
  have found : Reads (storedFile site.file) := by
    intro s
    refine ends_get ?_
    split
    · have asks : (cachedFile site.file).Ends s (fun _ s' => s'.store = s.store)
          fun _ s' => s'.store = s.store := rfl
      refine asks.bind fun x s₁ first => ?_
      cases x with
      | some id => exact ends_pure first
      | none =>
        refine ends_get ?_
        split
        · exact first
        · exact ends_pure first
    · exact ends_pure rfl
  intro s
  refine (found s).bind fun x s₁ first => ?_
  cases x with
  | none => exact ends_pure first
  | some file => exact ends_get (ends_pure first)

/-- Steps that add rows to some tables add rows to no others. -/
theorem Steps.adds (h : Steps P known a) : Adds P a := by
  induction h with
  | ret x => exact fun s => .refl s.store
  | bind _ _ ih ihf => exact ih.bind ihf
  | commit ht => exact adds_commit ht
  | type table ref hP => exact adds_typeId hP table ref
  | ifResolved _ ih => exact fun s => ends_ifResolved_iff.mpr (ih s)
  | file path _ hP => exact adds_fileId hP path
  | definition site _ hP =>
    refine fun s => ends_get ?_
    split
    · exact (adds_fileId hP site.file).bind (fun _ s => ends_pure (.refl s.store)) s
    · exact ends_pure (.refl _)
  | varAt site => exact (reads_variableAt site).adds
  | funcAt w position => exact fun s => ends_get (ends_pure (.refl _))

end Analyze
end AccessDepth
