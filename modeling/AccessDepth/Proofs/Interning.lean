import AccessDepth.Analysis.Interning
import AccessDepth.Proofs.Cache
import AccessDepth.Proofs.Effects
import AccessDepth.Proofs.Store.Growth

/-!
# AccessDepth.Proofs.Interning

Interning without a memory.

* `Uncached.intern` — interning that looks every name up in the store.
* `Interning.known_tells` — a name that is known was met before, or is cached, or is stored.
* `InterningState.Coherent` — the cache and the names met before agree with the store.
* `Interning.intern_simulates` — from a coherent state, interning does what it does without a memory.
* `Uncached.intern_succ`, `complete_cons` — what interning a type can do, and completing its parts.
  `intern_succ_error`, `complete_cons_error` tell where they stop.
* `Uncached.intern_inserts`, `typeNamed?_of_intern`, `intern_of_stored` — interning adds rows to the
  tables of types only, and leaves the type under its name.
* `TypeTable.Closed` — no reference leads out of a table. In such a table interning never stops at a
  missing entry.
-/

namespace AccessDepth

/-! ## Without a memory -/

/-- Interning that remembers nothing but the store. -/
abbrev Uncached := StateT Store (Except Failure)

namespace Uncached

def write {α : Type} (t : Transaction α) : Uncached α := fun s =>
  match t s with
  | .ok r => .ok r
  | .error v => .error (.store (.violation v))

def reserve (e : TypeEntry) : Uncached TypeId :=
  write (.create .types fun id =>
    { id := id, kind := e.shape.kind, name := e.name, length := e.shape.length? })

def complete (type : TypeRef → Uncached TypeId) : List TypePart → Uncached Unit
  | [] => pure ()
  | .plain row :: parts => do
    write (.insert row.table row.row)
    complete type parts
  | .one t row :: parts => do
    let r := row (← type t)
    write (.insert r.table r.row)
    complete type parts
  | .two t u row :: parts => do
    let t ← type t
    let u ← type u
    write (.insert (row t u).table (row t u).row)
    complete type parts

/-- As `Interning.intern`, with every name looked up in the store. -/
def intern (table : TypeTable) : Nat → TypeRef → Uncached TypeId
  | 0, _ => throw (.internal "type table exhausted")
  | depth + 1, r =>
    match table.get? r with
    | none => throw .nilType
    | some e => fun s =>
      match s.typeNamed? e.name with
      | some id => .ok (id, s)
      | none => (do
          let id ← reserve e
          complete (intern table depth) (e.shape.parts id)
          pure id : Uncached TypeId) s

variable {α β : Type} {s s' : Store}

theorem bind_of_error {a : Uncached α} {f : α → Uncached β} {e : Failure} (h : a s = .error e) :
    (a >>= f) s = .error e := by
  simp [bind, StateT.bind, Except.bind, h]

theorem bind_of_ok {a : Uncached α} {f : α → Uncached β} {x : α} (h : a s = .ok (x, s')) :
    (a >>= f) s = f x s' := by
  simp [bind, StateT.bind, Except.bind, h]

theorem write_ok {t : Transaction α} {r : α × Store} : write t s = .ok r ↔ t s = .ok r := by
  unfold write
  cases t s <;> simp

end Uncached

/-! ## The memory agrees with the store -/

/-- Everything that is remembered is stored under its name. -/
structure InterningState.Coherent (i : InterningState) : Prop where
  cache : ∀ {name id}, i.cache.find? name = some id → i.store.typeNamed? name = some id
  pending : ∀ e ∈ i.pending, i.store.typeNamed? e.1 = some e.2

namespace InterningState

/-- The same answers from the cache. -/
def SameCache (i j : InterningState) : Prop := ∀ name, j.cache.find? name = i.cache.find? name

theorem Coherent.grow {i : InterningState} (h : i.Coherent) {s : Store} (hs : i.store ≤ s) :
    ({ i with store := s } : InterningState).Coherent where
  cache hc := Store.typeNamed?_of_le hs (h.cache hc)
  pending e he := Store.typeNamed?_of_le hs (h.pending e he)

theorem Coherent.note {i : InterningState} (h : i.Coherent) {name : String} {id : TypeId}
    (hs : i.store.typeNamed? name = some id) :
    ({ i with pending := (name, id) :: i.pending } : InterningState).Coherent where
  cache := h.cache
  pending e he := by
    obtain rfl | he := List.mem_cons.mp he
    · exact hs
    · exact h.pending e he

end InterningState

namespace Interning

variable {α β : Type} {i j k : InterningState}

open InterningState (SameCache)

/-- From a state, a computation does what another one does that remembers nothing. The cache gives
the same answers afterwards, also when the computation fails. -/
def Simulates (i : InterningState) (a : Interning α) (b : Uncached α) : Prop :=
  match a i with
  | .ok x j => b i.store = .ok (x, j.store) ∧ j.Coherent ∧ SameCache i j
  | .error f j => b i.store = .error f ∧ SameCache i j

theorem simulates_pure (h : i.Coherent) (x : α) : Simulates i (pure x) (pure x) :=
  ⟨rfl, h, fun _ => rfl⟩

theorem simulates_throw (f : Failure) :
    Simulates i (throw f : Interning α) (throw f : Uncached α) :=
  ⟨rfl, fun _ => rfl⟩

theorem Simulates.bind {a : Interning α} {b : Uncached α} {f : α → Interning β}
    {g : α → Uncached β} (h : Simulates i a b)
    (hf : ∀ x j, j.Coherent → b i.store = .ok (x, j.store) → Simulates j (f x) (g x)) :
    Simulates i (a >>= f) (b >>= g) := by
  unfold Simulates at h
  cases ha : a i with
  | error e j =>
    rw [ha] at h
    obtain ⟨hb, hc⟩ := h
    simp only [Simulates, bind_of_error ha]
    exact ⟨Uncached.bind_of_error hb, hc⟩
  | ok x j =>
    rw [ha] at h
    obtain ⟨hb, hj, hc⟩ := h
    have hg := hf x j hj hb
    simp only [Simulates, bind_of_ok ha, Uncached.bind_of_ok hb] at hg ⊢
    cases hfx : f x j with
    | error e k =>
      rw [hfx] at hg
      exact ⟨hg.1, fun n => (hg.2 n).trans (hc n)⟩
    | ok y k =>
      rw [hfx] at hg
      exact ⟨hg.1, hg.2.1, fun n => (hg.2.2 n).trans (hc n)⟩

theorem Simulates.of_eq {a a' : Interning α} {b b' : Uncached α} (h : Simulates j a b)
    (hc : SameCache i j) (ha : a' i = a j) (hb : b' i.store = b j.store) : Simulates i a' b' := by
  unfold Simulates at h ⊢
  rw [ha, hb]
  cases hx : a j with
  | error f k =>
    rw [hx] at h
    exact ⟨h.1, fun n => (h.2 n).trans (hc n)⟩
  | ok x k =>
    rw [hx] at h
    exact ⟨h.1, h.2.1, fun n => (h.2.2 n).trans (hc n)⟩

theorem simulates_write (h : i.Coherent) {t : Transaction α}
    (grows : ∀ {r s}, t i.store = .ok (r, s) → i.store ≤ s) :
    Simulates i (write t) (Uncached.write t) := by
  unfold Simulates write Uncached.write
  cases ht : t i.store with
  | error v => exact ⟨rfl, fun _ => rfl⟩
  | ok r =>
    obtain ⟨x, s⟩ := r
    exact ⟨rfl, h.grow (grows ht), fun _ => rfl⟩

/-! ### What is known -/

/-- Rows were added. What is noted by now was noted before or is stored. -/
structure Grown (i j : InterningState) : Prop where
  le : i.store ≤ j.store
  pending : ∀ e ∈ j.pending, e ∈ i.pending ∨ j.store.typeNamed? e.1 = some e.2
  same : SameCache i j

theorem Grown.refl (i : InterningState) : Grown i i := ⟨le_refl _, fun _ h => .inl h, fun _ => rfl⟩

theorem Grown.trans (h : Grown i j) (h' : Grown j k) : Grown i k where
  le := le_trans h.le h'.le
  pending e he := by
    rcases h'.pending e he with he | stored
    · exact (h.pending e he).imp_right (Store.typeNamed?_of_le h'.le)
    · exact .inr stored
  same n := (h'.same n).trans (h.same n)

/-- How a name is known: it was noted, it is cached, or it is stored. -/
theorem known_tells (name : String) (i : InterningState) :
    ∃ x j, known name i = .ok x j ∧ Grown i j ∧ j.store = i.store ∧
      match x with
      | some id => i.pending.lookup name = some id ∨ i.cache.find? name = some id ∨
          i.store.typeNamed? name = some id
      | none => i.store.typeNamed? name = none := by
  have same : SameCache i { i with cache := (i.cache.get name).2 } := fun n => Cache.find?_get ..
  have hg := Cache.get_fst i.cache name
  cases hp : i.pending.lookup name with
  | some id =>
    refine ⟨some id, i, ?_, .refl i, rfl, .inl rfl⟩
    simp only [known, Bind.bind, EStateM.bind, get_apply, pure, EStateM.pure, hp]
  | none =>
    cases hc : i.cache.find? name with
    | some id =>
      rw [hc] at hg
      refine ⟨some id, { i with cache := (i.cache.get name).2 }, ?_,
        ⟨le_refl _, fun _ h => .inl h, same⟩, rfl, .inr (.inl rfl)⟩
      simp only [known, Bind.bind, EStateM.bind, get_apply, modify_apply, pure, EStateM.pure, hp, hg]
    | none =>
      rw [hc] at hg
      cases hs : i.store.typeNamed? name with
      | none =>
        refine ⟨none, { i with cache := (i.cache.get name).2 }, ?_,
          ⟨le_refl _, fun _ h => .inl h, same⟩, rfl, rfl⟩
        simp only [known, Bind.bind, EStateM.bind, get_apply, modify_apply, pure, EStateM.pure, hp,
          hg, hs]
      | some id =>
        refine ⟨some id,
          { i with cache := (i.cache.get name).2, pending := (name, id) :: i.pending }, ?_,
          ⟨le_refl _, ?_, same⟩, rfl, .inr (.inr rfl)⟩
        · simp only [known, Bind.bind, EStateM.bind, get_apply, modify_apply, pure, EStateM.pure, hp,
            hg, hs, note]
        · intro e he
          rcases List.mem_cons.mp he with rfl | he
          · exact .inr hs
          · exact .inl he

/-- A coherent state knows the names that are stored, and no others. -/
theorem known_eq (h : i.Coherent) (name : String) :
    ∃ j, known name i = .ok (i.store.typeNamed? name) j ∧ j.store = i.store ∧ j.Coherent ∧
      SameCache i j := by
  obtain ⟨x, j, hk, grown, same, told⟩ := known_tells name i
  have stored : x = i.store.typeNamed? name := by
    cases x with
    | none => exact told.symm
    | some id =>
      rcases told with noted | cached | stored
      · obtain ⟨before, after, hm, -⟩ := List.lookup_eq_some_iff.mp noted
        exact (h.pending (name, id) (by simp [hm])).symm
      · exact (h.cache cached).symm
      · exact stored.symm
  refine ⟨j, stored ▸ hk, same, ⟨fun hc => ?_, fun e he => ?_⟩, grown.same⟩
  · rw [grown.same] at hc
    rw [same]
    exact h.cache hc
  · rcases grown.pending e he with he | stored
    · exact same ▸ h.pending e he
    · exact stored

theorem simulates_reserve (h : i.Coherent) {e : TypeEntry}
    (hs : i.store.typeNamed? e.name = none) : Simulates i (reserve e) (Uncached.reserve e) := by
  let row (id : TypeId) : TypeRow :=
    { id := id, kind := e.shape.kind, name := e.name, length := e.shape.length? }
  have hw : Simulates i (write (.create .types row)) (Uncached.write (.create .types row)) := by
    refine simulates_write h fun hc => ?_
    exact Store.le_of_insert (Transaction.create_ok.mp hc).2
  unfold Simulates at hw ⊢
  simp only [reserve, Uncached.reserve, Bind.bind, EStateM.bind]
  cases hi : write (.create .types row) i with
  | error f j =>
    rw [hi] at hw
    exact hw
  | ok id j =>
    rw [hi] at hw
    obtain ⟨hu, hj, hc⟩ := hw
    obtain ⟨-, hins⟩ := Transaction.create_ok.mp (Uncached.write_ok.mp hu)
    have hn : j.store.typeNamed? e.name = some id := by
      rw [Store.eq_push_of_insert hins]
      exact Store.typeNamed?_push hs
    exact ⟨hu, hj.note hn, hc⟩

theorem simulates_complete {type : TypeRef → Interning TypeId} {type' : TypeRef → Uncached TypeId}
    (ht : ∀ r j, j.Coherent → Simulates j (type r) (type' r)) (parts : List TypePart)
    (h : i.Coherent) : Simulates i (complete type parts) (Uncached.complete type' parts) := by
  have insert (row : AnyRow) {k : InterningState} (hk : k.Coherent) :
      Simulates k (write (.insert row.table row.row)) (Uncached.write (.insert row.table row.row)) :=
    simulates_write hk fun hi => Store.le_of_insert (Transaction.insert_ok.mp hi)
  induction parts generalizing i with
  | nil => exact simulates_pure h ()
  | cons part parts ih =>
    cases part with
    | plain row => exact (insert row h).bind fun _ j hj _ => ih hj
    | one t row =>
      refine (ht t i h).bind fun id j hj _ => ?_
      exact (insert (row id) hj).bind fun _ k hk _ => ih hk
    | two t u row =>
      refine (ht t i h).bind fun id j hj _ => ?_
      refine (ht u j hj).bind fun id' k hk _ => ?_
      exact (insert (row id id') hk).bind fun _ l hl _ => ih hl

/-- The memory of interning changes nothing but how often the store is asked. -/
theorem intern_simulates (table : TypeTable) (depth : Nat) (r : TypeRef) (h : i.Coherent) :
    Simulates i (intern table depth r) (Uncached.intern table depth r) := by
  induction depth generalizing i r with
  | zero => exact simulates_throw _
  | succ depth ih =>
    unfold intern Uncached.intern
    cases table.get? r with
    | none => exact simulates_throw _
    | some e =>
      obtain ⟨j, hk, hst, hj, hc⟩ := known_eq h e.name
      cases hs : i.store.typeNamed? e.name with
      | some id =>
        refine (simulates_pure hj id).of_eq hc ?_ ?_
        · simp only [Bind.bind, EStateM.bind, hk, hs]
        · simp only [hs, hst]
          rfl
      | none =>
        have hr : Simulates j (do
            let id ← reserve e
            complete (intern table depth) (e.shape.parts id)
            pure id) (do
            let id ← Uncached.reserve e
            Uncached.complete (Uncached.intern table depth) (e.shape.parts id)
            pure id) := by
          refine (simulates_reserve hj (by rw [hst, hs])).bind fun id k hk _ => ?_
          refine (simulates_complete (fun r j hj => ih r hj) _ hk).bind fun _ l hl _ => ?_
          exact simulates_pure hl id
        refine hr.of_eq hc ?_ ?_
        · simp only [Bind.bind, EStateM.bind, hk, hs]
        · simp only [hs, hst]

end Interning

/-! ## What is added -/

namespace TypePart

def Rows (P : AnyRow → Prop) : TypePart → Prop
  | .plain row => P row
  | .one _ row => ∀ id, P (row id)
  | .two _ _ row => ∀ id id', P (row id id')

end TypePart

def AnyRow.CompletesType (id : TypeId) (r : AnyRow) : Prop :=
  r.table.owner = .types ∧ r.table.isNumbered = false ∧ Row.number r.table r.row = id.value

theorem AnyRow.CompletesType.inserts {id : TypeId} {row : AnyRow} {s s' : Store}
    (h : row.CompletesType id) (hi : s.insert row.table row.row = .ok s') :
    Inserts (·.owner = .types) s s' := by
  obtain ⟨owner, unnumbered, -⟩ := h
  exact .one owner (fun hn => absurd (unnumbered.symm.trans hn) (by simp)) hi

/-- The parts of a type are rows below its own. -/
theorem TypeShape.parts_rows (shape : TypeShape) (id : TypeId) :
    ∀ part ∈ shape.parts id, part.Rows (AnyRow.CompletesType id) := by
  intro part hp
  cases shape with
  | basic b =>
    obtain ⟨signed, -, rfl⟩ := List.mem_map.mp hp
    exact ⟨rfl, rfl, rfl⟩
  | array | slice | pointer | chan | named =>
    obtain rfl := List.mem_singleton.mp hp
    exact fun _ => ⟨rfl, rfl, rfl⟩
  | map =>
    obtain rfl := List.mem_singleton.mp hp
    exact fun _ _ => ⟨rfl, rfl, rfl⟩
  | struct fields =>
    obtain ⟨f, -, rfl⟩ := List.mem_map.mp hp
    exact fun _ => ⟨rfl, rfl, rfl⟩
  | interface methods embedded =>
    obtain hp | hp := List.mem_append.mp hp
    · obtain ⟨m, -, rfl⟩ := List.mem_map.mp hp
      exact fun _ => ⟨rfl, rfl, rfl⟩
    · obtain ⟨t, -, rfl⟩ := List.mem_map.mp hp
      exact fun _ => ⟨rfl, rfl, rfl⟩
  | signature s =>
    obtain rfl | hp := List.mem_cons.mp hp
    · exact ⟨rfl, rfl, rfl⟩
    · obtain ⟨g, -, hp⟩ := List.mem_flatMap.mp hp
      obtain ⟨p, -, rfl⟩ := List.mem_map.mp hp
      exact fun _ => ⟨rfl, rfl, rfl⟩
  | typeParam | tuple => simp [parts] at hp
  | union terms =>
    obtain ⟨t, -, rfl⟩ := List.mem_map.mp hp
    exact fun _ => ⟨rfl, rfl, rfl⟩

namespace Uncached

variable {s s' : Store} {table : TypeTable} {f : Failure}

theorem reserve_ok {e : TypeEntry} {id : TypeId} (h : reserve e s = .ok (id, s')) :
    id = ⟨s.nextNumber .types⟩ ∧
      s.insert .types { id := id, kind := e.shape.kind, name := e.name, length := e.shape.length? } =
        .ok s' :=
  Transaction.create_ok.mp (write_ok.mp h)

theorem typeNamed?_of_reserve {e : TypeEntry} {id : TypeId} (hs : s.typeNamed? e.name = none)
    (h : reserve e s = .ok (id, s')) : s'.typeNamed? e.name = some id := by
  obtain ⟨-, hi⟩ := reserve_ok h
  rw [Store.eq_push_of_insert hi]
  exact Store.typeNamed?_push hs

theorem write_error {α : Type} {t : Transaction α} (h : write t s = .error f) : f ≠ .nilType := by
  unfold write at h
  cases ht : t s with
  | ok r =>
    rw [ht] at h
    cases h
  | error v =>
    rw [ht] at h
    cases h
    simp

theorem bind_error {α β : Type} {a : Uncached α} {g : α → Uncached β}
    (h : (a >>= g) s = .error f) :
    a s = .error f ∨ ∃ x s', a s = .ok (x, s') ∧ g x s' = .error f := by
  cases ha : a s with
  | error e =>
    rw [bind_of_error ha] at h
    cases h
    exact .inl rfl
  | ok r =>
    obtain ⟨x, s'⟩ := r
    rw [bind_of_ok ha] at h
    exact .inr ⟨x, s', rfl, h⟩

/-! ### What interning can do -/

/-- The types of a part get their rows, and with them the row of the part is known. -/
inductive Fills (type : TypeRef → Uncached TypeId) : TypePart → Store → Store → AnyRow → Prop
  | plain {row s} : Fills type (.plain row) s s row
  | one {r row s s' a} : type r s = .ok (a, s') → Fills type (.one r row) s s' (row a)
  | two {r u row s s' s'' a b} : type r s = .ok (a, s') → type u s' = .ok (b, s'') →
      Fills type (.two r u row) s s'' (row a b)

section

variable {type : TypeRef → Uncached TypeId} {part : TypePart} {parts : List TypePart}

theorem Fills.rows {row : AnyRow} {P : AnyRow → Prop} (h : Fills type part s s' row)
    (hp : part.Rows P) : P row := by
  cases h with
  | plain => exact hp
  | one => exact hp _
  | two => exact hp _ _

/-- Once the types of the first part are there its row is added, and the other parts follow. -/
theorem complete_cons (h : complete type (part :: parts) s = .ok ((), s')) :
    ∃ s₁ row s₂, Fills type part s s₁ row ∧ s₁.insert row.table row.row = .ok s₂ ∧
      complete type parts s₂ = .ok ((), s') := by
  cases part with
  | plain row =>
    obtain ⟨_, s₁, h₁, h⟩ := Transaction.bind_ok.mp h
    exact ⟨s, row, s₁, .plain, Transaction.insert_ok.mp (write_ok.mp h₁), h⟩
  | one r row =>
    obtain ⟨a, s₁, ha, h⟩ := Transaction.bind_ok.mp h
    obtain ⟨_, s₂, h₂, h⟩ := Transaction.bind_ok.mp h
    exact ⟨s₁, row a, s₂, .one ha, Transaction.insert_ok.mp (write_ok.mp h₂), h⟩
  | two r u row =>
    obtain ⟨a, s₁, ha, h⟩ := Transaction.bind_ok.mp h
    obtain ⟨b, s₂, hb, h⟩ := Transaction.bind_ok.mp h
    obtain ⟨_, s₃, h₃, h⟩ := Transaction.bind_ok.mp h
    exact ⟨s₂, row a b, s₃, .two ha hb, Transaction.insert_ok.mp (write_ok.mp h₃), h⟩

/-- Parts stop at a type of the first one, or where its row is added, or after that. -/
theorem complete_cons_error (h : complete type (part :: parts) s = .error f) :
    (∃ r ∈ part.types, ∃ s₁, (s₁ = s ∨ ∃ r' a, type r' s = .ok (a, s₁)) ∧ type r s₁ = .error f) ∨
      f ≠ .nilType ∨ ∃ s₁ row s₂, Fills type part s s₁ row ∧
        s₁.insert row.table row.row = .ok s₂ ∧ complete type parts s₂ = .error f := by
  have later {s₁ : Store} {row : AnyRow} (fills : Fills type part s s₁ row) (h : (do
        write (.insert row.table row.row)
        complete type parts : Uncached Unit) s₁ = .error f) :
      f ≠ .nilType ∨ ∃ s₁ row s₂, Fills type part s s₁ row ∧
        s₁.insert row.table row.row = .ok s₂ ∧ complete type parts s₂ = .error f := by
    obtain h | ⟨_, s₂, hw, h⟩ := bind_error h
    · exact .inl (write_error h)
    · exact .inr ⟨s₁, row, s₂, fills, Transaction.insert_ok.mp (write_ok.mp hw), h⟩
  cases part with
  | plain row => exact .inr (later .plain h)
  | one r row =>
    obtain h | ⟨a, s₁, ha, h⟩ := bind_error h
    · exact .inl ⟨r, List.mem_cons_self, s, .inl rfl, h⟩
    · exact .inr (later (.one ha) h)
  | two r u row =>
    obtain h | ⟨a, s₁, ha, h⟩ := bind_error h
    · exact .inl ⟨r, List.mem_cons_self, s, .inl rfl, h⟩
    · obtain h | ⟨b, s₂, hb, h⟩ := bind_error h
      · exact .inl ⟨u, List.mem_cons_of_mem r List.mem_cons_self, s₁, .inr ⟨r, a, ha⟩, h⟩
      · exact .inr (later (.two ha hb) h)

end

section

variable {depth : Nat} {r : TypeRef}

/-- A type that is interned was stored under its name, or it gets its row and then those of its
parts. -/
theorem intern_succ {id : TypeId} (h : intern table (depth + 1) r s = .ok (id, s')) :
    ∃ e, table.get? r = some e ∧ (s.typeNamed? e.name = some id ∧ s' = s ∨
      s.typeNamed? e.name = none ∧ ∃ s₁, reserve e s = .ok (id, s₁) ∧
        complete (intern table depth) (e.shape.parts id) s₁ = .ok ((), s')) := by
  unfold intern at h
  cases he : table.get? r with
  | none =>
    rw [he] at h
    cases h
  | some e =>
    simp only [he] at h
    refine ⟨e, rfl, ?_⟩
    cases hs : s.typeNamed? e.name with
    | some found =>
      simp only [hs] at h
      cases h
      exact .inl ⟨rfl, rfl⟩
    | none =>
      simp only [hs] at h
      obtain ⟨a, s₁, h₁, h⟩ := Transaction.bind_ok.mp h
      obtain ⟨_, s₂, h₂, h⟩ := Transaction.bind_ok.mp h
      cases h
      exact .inr ⟨rfl, s₁, h₁, h₂⟩

/-- Interning stops at a missing entry, or where the row of the type is added, or at its parts. -/
theorem intern_succ_error (h : intern table (depth + 1) r s = .error f) :
    table.get? r = none ∨ ∃ e, table.get? r = some e ∧ s.typeNamed? e.name = none ∧
      (f ≠ .nilType ∨ ∃ id s₁, reserve e s = .ok (id, s₁) ∧
        complete (intern table depth) (e.shape.parts id) s₁ = .error f) := by
  unfold intern at h
  cases he : table.get? r with
  | none => exact .inl rfl
  | some e =>
    simp only [he] at h
    cases hs : s.typeNamed? e.name with
    | some found =>
      simp only [hs] at h
      cases h
    | none =>
      simp only [hs] at h
      refine .inr ⟨e, rfl, hs, ?_⟩
      obtain h | ⟨id, s₁, h₁, h⟩ := bind_error h
      · exact .inl (write_error h)
      · obtain h | ⟨_, _, -, h⟩ := bind_error h
        · exact .inr ⟨id, s₁, h₁, h⟩
        · cases h

end

/-! ### What interning adds -/

theorem reserve_inserts {e : TypeEntry} {id : TypeId} (h : reserve e s = .ok (id, s')) :
    Inserts (·.owner = .types) s s' := by
  obtain ⟨own, hi⟩ := reserve_ok h
  exact .one rfl (fun _ => congrArg RowId.value own) hi

theorem complete_inserts {type : TypeRef → Uncached TypeId} {id : TypeId}
    (ht : ∀ {r s id s'}, type r s = .ok (id, s') → Inserts (·.owner = .types) s s')
    {parts : List TypePart} (hp : ∀ part ∈ parts, part.Rows (AnyRow.CompletesType id))
    (h : complete type parts s = .ok ((), s')) : Inserts (·.owner = .types) s s' := by
  induction parts generalizing s with
  | nil =>
    cases h
    exact .refl _
  | cons part parts ih =>
    obtain ⟨s₁, row, s₂, fills, hi, hc⟩ := complete_cons h
    have own := fills.rows (hp part List.mem_cons_self)
    have types : Inserts (·.owner = .types) s s₁ := by
      cases fills with
      | plain => exact .refl _
      | one ha => exact ht ha
      | two ha hb => exact (ht ha).trans (ht hb)
    exact (types.trans (own.inserts hi)).trans (ih (fun q hq => hp q (List.mem_cons_of_mem part hq)) hc)

/-- Interning adds to the tables of types only. -/
theorem intern_inserts {depth : Nat} {r : TypeRef} {id : TypeId}
    (h : intern table depth r s = .ok (id, s')) : Inserts (·.owner = .types) s s' := by
  induction depth generalizing r s id s' with
  | zero => cases h
  | succ depth ih =>
    obtain ⟨e, -, ⟨-, rfl⟩ | ⟨-, s₁, h₁, h₂⟩⟩ := intern_succ h
    · exact .refl _
    · exact (reserve_inserts h₁).trans (complete_inserts ih (e.shape.parts_rows _) h₂)

/-- An interned type is stored under its name. -/
theorem typeNamed?_of_intern {depth : Nat} {r : TypeRef} {id : TypeId}
    (h : intern table depth r s = .ok (id, s')) :
    ∃ e, table.get? r = some e ∧ s'.typeNamed? e.name = some id := by
  cases depth with
  | zero => cases h
  | succ depth =>
    obtain ⟨e, he, ⟨found, rfl⟩ | ⟨hs, s₁, h₁, h₂⟩⟩ := intern_succ h
    · exact ⟨e, he, found⟩
    · have grows := (complete_inserts intern_inserts (e.shape.parts_rows _) h₂).le
      exact ⟨e, he, Store.typeNamed?_of_le grows (typeNamed?_of_reserve hs h₁)⟩

/-- A type that is stored under its name is found, and nothing is added. -/
theorem intern_of_stored {depth : Nat} {r : TypeRef} {e : TypeEntry} {id : TypeId}
    (he : table.get? r = some e) (hs : s.typeNamed? e.name = some id) :
    intern table (depth + 1) r s = .ok (id, s) := by
  unfold intern
  simp only [he, hs]

end Uncached

/-! ## Closed tables -/

/-- No reference of an entry leads out of the table. -/
def TypeTable.Closed (t : TypeTable) : Prop :=
  ∀ e ∈ t.entries, ∀ id, ∀ part ∈ e.shape.parts id, ∀ r ∈ part.types, (t.get? r).isSome = true

namespace Uncached

variable {s : Store} {table : TypeTable} {f : Failure}

theorem complete_error {type : TypeRef → Uncached TypeId} {parts : List TypePart}
    (ht : ∀ part ∈ parts, ∀ r ∈ part.types, ∀ {s}, type r s = .error f → f ≠ .nilType)
    (h : complete type parts s = .error f) : f ≠ .nilType := by
  induction parts generalizing s with
  | nil => cases h
  | cons part parts ih =>
    obtain ⟨r, hr, s₁, -, h⟩ | other | ⟨_, _, _, -, -, h⟩ := complete_cons_error h
    · exact ht part List.mem_cons_self r hr h
    · exact other
    · exact ih (fun q hq => ht q (List.mem_cons_of_mem part hq)) h

/-- In a closed table interning never stops at a missing entry. -/
theorem intern_error (hc : table.Closed) {depth : Nat} {r : TypeRef}
    (hr : (table.get? r).isSome = true) (h : intern table depth r s = .error f) :
    f ≠ .nilType := by
  induction depth generalizing r s with
  | zero =>
    cases h
    simp
  | succ depth ih =>
    obtain missing | ⟨e, he, -, other | ⟨id, s₁, -, h⟩⟩ := intern_succ_error h
    · rw [missing] at hr
      cases hr
    · exact other
    · have hm : e ∈ table.entries := Array.mem_of_getElem? he
      exact complete_error (fun part hp u hu s h => ih (hc e hm id part hp u hu) h) h

end Uncached
end AccessDepth
