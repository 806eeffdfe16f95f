import AccessDepth.Proofs.Interning.Termination

/-!
# AccessDepth.Proofs.Interning.Resolution

A type resolves or fails as a whole.

* `TypeTable.LeadsOut` — from a type, references lead out of the table through entries that are not
  stored.
* `Uncached.intern_missing` — interning stops at a missing type only where references lead out.
* `TypeTable.Encodes.staysInside` — from a type that was interned they do not.
* `Uncached.intern_resolves` — in a sound store interning fails exactly where references lead out.
* `Analyze.typeId_resolves` — so does a request to a session, and then it changes no row and no answer
  of the cache.
* `Analyze.typeId_ofTuple` — the elements of a tuple are not among these references.
-/

namespace AccessDepth

/-- A type is outside the table, or its name is not stored and one of its references leads out.
`follow` tells which references of a structure are followed. -/
inductive TypeTable.LeadsOut (follow : TypeShape → List TypeRef) (t : TypeTable) (s : Store) :
    TypeRef → Prop
  | outside {r} : t.get? r = none → LeadsOut follow t s r
  | child {r e c} : t.get? r = some e → s.typeNamed? e.name = none → c ∈ follow e.shape →
      LeadsOut follow t s c → LeadsOut follow t s r

section

variable {t : TypeTable} {s s' : Store} {r : TypeRef}

theorem TypeTable.LeadsOut.of_le {follow : TypeShape → List TypeRef} (hle : s ≤ s')
    (h : t.LeadsOut follow s' r) : t.LeadsOut follow s r := by
  induction h with
  | outside he => exact .outside he
  | child he hn hc _ ih => exact .child he (Store.typeNamed?_eq_none_of_le hle hn) hc ih

/-- From a type that was interned no reference leads out. -/
theorem TypeTable.Encodes.staysInside (distinct : (t.entries.toList.map (·.name)).Nodup)
    (h : t.Encodes [r] s s') : ¬ t.LeadsOut TypeShape.references s r := by
  intro leads
  have inside {q : TypeRef} (leads : t.LeadsOut TypeShape.references s q) :
      s'.typeOf? t q ≠ some (s'.numberOf t q) := by
    induction leads with
    | outside he => simp [Store.typeOf?, TypeTable.name?, he]
    | child he hn hc _ ih =>
      intro hq
      simp only [Store.typeOf?, TypeTable.name?, he, Option.map_some, Option.bind_some] at hq
      exact ih (references_stored distinct h (Array.mem_of_getElem? he) hn (by rw [hq]; simp) _ hc)
  exact inside leads (h.stored r (List.mem_singleton_self r))

end

namespace Uncached

variable {t : TypeTable} {s s' : Store}

/-- If the parts of a type stop at a missing type, one of their types did, in a store with more
rows. -/
theorem complete_missing {type : TypeRef → Uncached TypeId}
    (grows : ∀ {r s a s'}, type r s = .ok (a, s') → s ≤ s') {parts : List TypePart}
    (h : complete type parts s = .error .nilType) :
    ∃ part ∈ parts, ∃ r ∈ part.types, ∃ s', s ≤ s' ∧ type r s' = .error .nilType := by
  induction parts generalizing s with
  | nil => cases h
  | cons part parts ih =>
    obtain ⟨r, hr, s₁, began, failed⟩ | other | ⟨s₁, row, s₂, fills, hi, h⟩ := complete_cons_error h
    · refine ⟨part, List.mem_cons_self, r, hr, s₁, ?_, failed⟩
      obtain rfl | ⟨r', a, ha⟩ := began
      · exact le_rfl
      · exact grows ha
    · exact absurd rfl other
    · obtain ⟨q, hq, r, hr, s', le, failed⟩ := ih h
      have types : s ≤ s₁ := by
        cases fills with
        | plain => exact le_rfl
        | one ha => exact grows ha
        | two ha hb => exact le_trans (grows ha) (grows hb)
      exact ⟨q, List.mem_cons_of_mem part hq, r, hr, s',
        le_trans (le_trans types (Store.le_of_insert hi)) le, failed⟩

/-- Interning stops at a missing type only where references lead out. -/
theorem intern_missing {depth : Nat} {r : TypeRef} (h : intern t depth r s = .error .nilType) :
    t.LeadsOut TypeShape.references s r := by
  induction depth generalizing r s with
  | zero => cases h
  | succ depth ih =>
    obtain outside | ⟨e, he, hn, other | ⟨id, s₁, hr, h⟩⟩ := intern_succ_error h
    · exact .outside outside
    · exact absurd rfl other
    · obtain ⟨part, hp, c, hc, s', le, failed⟩ :=
        complete_missing (fun ha => (intern_inserts ha).le) h
      exact .child he hn ((TypeShape.mem_references id).mpr ⟨part, hp, hc⟩)
        ((ih failed).of_le (le_trans (reserve_inserts hr).le le))

/-- In a sound store a type is interned unless references lead out, which is what stops it then. -/
theorem intern_resolves (distinct : (t.entries.toList.map (·.name)).Nodup) (hs : s.Sound)
    {depth : Nat} (hd : t.unstored s < depth) (r : TypeRef) :
    (t.LeadsOut TypeShape.references s r ∧ intern t depth r s = .error .nilType) ∨
      ¬ t.LeadsOut TypeShape.references s r ∧
        ∃ a s', intern t depth r s = .ok (a, s') ∧ s'.typeOf? t r = some a := by
  obtain ⟨a, s', ha⟩ | missing := intern_ends hs hd r
  · obtain ⟨encodes, found⟩ := intern_encodes hs ha
    exact .inr ⟨encodes.staysInside distinct, a, s', ha, found⟩
  · exact .inl ⟨intern_missing missing, missing⟩

end Uncached

/-! ## Requests -/

/-- A request in a sound store with a cache that agrees with it. It fails for a missing type only
where references lead out of the table, and then leaves the store, and what the cache binds, as they
were. If the store takes a transaction it fails there, and elsewhere tells the row that the type has
from then on. -/
theorem Analyze.typeId_resolves (t : TypeTable) (r : TypeRef) (s : Session)
    (distinct : (t.entries.toList.map (·.name)).Nodup) (sound : s.store.Sound)
    (coherent : ∀ name id, s.types.find? name = some id → s.store.typeNamed? name = some id) :
    (∀ s', typeId t (some r) s = .error .nilType s' →
      t.LeadsOut TypeShape.references s.store r ∧ s' = { s with types := s'.types } ∧
        ∀ name, s'.types.find? name = s.types.find? name) ∧
    (s.isOpen = true → t.LeadsOut TypeShape.references s.store r →
      ∃ s', typeId t (some r) s = .error .nilType s') ∧
    (s.isOpen = true → ¬ t.LeadsOut TypeShape.references s.store r →
      ∃ id s', typeId t (some r) s = .ok id s' ∧ s'.store.typeOf? t r = some id) := by
  rw [typeId_eq]
  unfold Session.answer
  cases hn : t.name? r with
  | none =>
    have outside : t.LeadsOut TypeShape.references s.store r := .outside (Option.map_eq_none_iff.mp hn)
    refine ⟨fun s' h => ?_, fun _ _ => ⟨s, rfl⟩, fun _ inside => absurd outside inside⟩
    cases h
    exact ⟨outside, rfl, fun _ => rfl⟩
  | some name =>
    obtain ⟨e, he, rfl⟩ := Option.map_eq_some_iff.mp hn
    cases hc : s.types.find? e.name with
    | some id =>
      have stored := coherent _ _ hc
      simp only [Cache.get, hc]
      refine ⟨fun s' h => (by cases h), fun _ leads => ?_, fun _ _ => ⟨id, _, rfl, ?_⟩⟩
      · cases leads with
        | outside he' => cases he.symm.trans he'
        | child he' hn' =>
          cases he.symm.trans he'
          cases stored.symm.trans hn'
      · simp [Store.typeOf?, hn, stored]
    | none =>
      simp only [Cache.get, hc]
      cases ho : s.isOpen with
      | false => exact ⟨fun s' h => (by cases h), by simp, by simp⟩
      | true =>
        have memory : (⟨s.store, s.types, []⟩ : InterningState).Coherent :=
          ⟨fun hf => coherent _ _ hf, fun e he => by cases he⟩
        have simulates := Interning.intern_simulates t (t.size + 1) r memory
        have resolves := Uncached.intern_resolves distinct sound
          (Nat.lt_succ_of_le (t.unstored_le_size s.store)) r
        unfold Interning.Simulates at simulates
        simp only [if_true]
        cases hi : Interning.intern t (t.size + 1) r ⟨s.store, s.types, []⟩ with
        | ok id i =>
          rw [hi] at simulates
          obtain ⟨hu, -, -⟩ := simulates
          obtain ⟨-, failed⟩ | ⟨inside, a, s', ha, found⟩ := resolves
          · cases hu.symm.trans failed
          · cases hu.symm.trans ha
            exact ⟨fun s' h => (by cases h), fun _ leads => absurd leads inside,
              fun _ _ => ⟨id, _, rfl, found⟩⟩
        | error f i =>
          rw [hi] at simulates
          obtain ⟨hu, same⟩ := simulates
          obtain ⟨leads, failed⟩ | ⟨-, a, s', ha, -⟩ := resolves
          · cases hu.symm.trans failed
            refine ⟨fun s' h => ?_, fun _ _ => ⟨_, rfl⟩, fun _ inside => absurd leads inside⟩
            cases h
            exact ⟨leads, rfl, same⟩
          · cases hu.symm.trans ha

/-- A slice of a type outside the table, in a new store. -/
theorem Analyze.typeId_sliceOfMissing_resolves :
    let t : TypeTable := ⟨#[⟨"[]ghost", none, .slice 99⟩]⟩
    let s : Session := .start .initial ⟨"corpus"⟩ 4 4
    t.LeadsOut TypeShape.references s.store 0 ∧
      (∃ s', typeId t (some 0) s = .error .nilType s') ∧
      ∀ s', typeId t (some 0) s = .error .nilType s' → s'.store = .initial := by
  intro t s
  have leads : t.LeadsOut TypeShape.references s.store 0 :=
    .child (e := ⟨"[]ghost", none, .slice 99⟩) (c := 99) rfl (by decide) (by decide) (.outside rfl)
  have resolves := typeId_resolves t 0 s (by decide) Store.initial_sound
    fun _ _ h => by simp [s, Session.start] at h
  refine ⟨leads, resolves.2.1 rfl leads, fun s' h => ?_⟩
  exact congrArg Session.store (resolves.1 s' h).2.1

/-- The types that a structure is made of: what it refers to, and the elements of a tuple. -/
def TypeShape.components : TypeShape → List TypeRef
  | .tuple elems => elems
  | shape => shape.references

/-- The elements of a tuple are not followed: a tuple gets its row although they are outside the
table. -/
theorem Analyze.typeId_ofTuple :
    ∃ (t : TypeTable) (r : TypeRef) (s : Session),
      (t.entries.toList.map (·.name)).Nodup ∧ s.store.Sound ∧
        (∀ name id, s.types.find? name = some id → s.store.typeNamed? name = some id) ∧
        s.isOpen = true ∧ t.LeadsOut TypeShape.components s.store r ∧
        ∃ id s', typeId t (some r) s = .ok id s' := by
  refine ⟨⟨#[⟨"(ghost, ghost)", none, .tuple [7, 7]⟩]⟩, 0, .start .initial ⟨"corpus"⟩ 4 4, by decide,
    Store.initial_sound, fun _ _ h => by simp [Session.start] at h, rfl, ?_, ?_⟩
  · exact .child (e := ⟨"(ghost, ghost)", none, .tuple [7, 7]⟩) (c := 7) rfl (by decide) (by decide)
      (.outside rfl)
  · exact ⟨⟨1⟩, _, rfl⟩

end AccessDepth
