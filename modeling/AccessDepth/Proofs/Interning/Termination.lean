import AccessDepth.Proofs.Interning.Success
import AccessDepth.Proofs.Plan.Follows

/-!
# AccessDepth.Proofs.Interning.Termination

Interning ends in every table.

* `Interning.Attempt` — that the row of an entry is about to be added, and what is stored then.
* `Interning.Walk`, `Interning.Parts` — interning without a bound on its depth: the attempts in their
  order, and the result.
* `Interning.Walk.deterministic` — a type has one walk at most.
* `Interning.Attempts` — no name is attempted that is stored or was attempted before.
* `Interning.Walk.lawful` — every walk is such a course of attempts.
* `Interning.exists_walk` — every type has a walk, and interning finds its result.
* `Analyze.typeId_terminates` — both, for a request to a session.
-/

namespace AccessDepth

/-- The names of the rows of types, in order. -/
def Store.typeNames (s : Store) : List String := s.types.map (·.name)

theorem Store.notMem_typeNames {s : Store} {name : String} :
    name ∉ s.typeNames ↔ s.typeNamed? name = none := by
  simp [typeNamed?_eq_none, typeNames]

namespace Interning

/-- The structure of an entry is looked at, and its row is about to be added. -/
structure Attempt where
  entry : TypeEntry
  /-- What is stored at this point of the transaction. -/
  store : Store

/-- The name of the row. -/
def Attempt.name (a : Attempt) : String := a.entry.name

def recorded (id : TypeId) :
    EStateM.Result Failure InterningState Unit → EStateM.Result Failure InterningState TypeId
  | .ok _ i => .ok id i
  | .error f i => .error f i

mutual

/-- How a type is interned, however deep that goes: the attempts in order, and the result. -/
inductive Walk (t : TypeTable) :
    TypeRef → InterningState → List Attempt → EStateM.Result Failure InterningState TypeId → Prop
  | outside {r i} : t.get? r = none → Walk t r i [] (.error .nilType i)
  | known {r i e id j} : t.get? r = some e → known e.name i = .ok (some id) j →
      Walk t r i [] (.ok id j)
  | refused {r i e j f k} : t.get? r = some e → known e.name i = .ok none j →
      reserve e j = .error f k → Walk t r i [⟨e, j.store⟩] (.error f k)
  | entered {r i e j id k as x} : t.get? r = some e → known e.name i = .ok none j →
      reserve e j = .ok id k → Parts t (e.shape.parts id) k as x →
      Walk t r i (⟨e, j.store⟩ :: as) (recorded id x)

/-- How the parts of a type are recorded. A part whose first type has its row is a part with one type
less. -/
inductive Parts (t : TypeTable) :
    List TypePart → InterningState → List Attempt → EStateM.Result Failure InterningState Unit → Prop
  | nil {i} : Parts t [] i [] (.ok () i)
  | refused {row parts i f j} : write (.insert row.table row.row) i = .error f j →
      Parts t (.plain row :: parts) i [] (.error f j)
  | plain {row parts i j as x} : write (.insert row.table row.row) i = .ok () j →
      Parts t parts j as x → Parts t (.plain row :: parts) i as x
  | oneFails {r row parts i as f j} : Walk t r i as (.error f j) →
      Parts t (.one r row :: parts) i as (.error f j)
  | one {r f parts i as a j bs x} : Walk t r i as (.ok a j) →
      Parts t (.plain (f a) :: parts) j bs x → Parts t (.one r f :: parts) i (as ++ bs) x
  | twoFails {r u row parts i as f j} : Walk t r i as (.error f j) →
      Parts t (.two r u row :: parts) i as (.error f j)
  | two {r u f parts i as a j bs x} : Walk t r i as (.ok a j) →
      Parts t (.one u (f a) :: parts) j bs x → Parts t (.two r u f :: parts) i (as ++ bs) x

end

variable {t : TypeTable}

/-! ## One walk at most -/

mutual

/-- The table and the state fix the attempts and the result. -/
theorem Walk.deterministic {r : TypeRef} {i : InterningState} {as : List Attempt}
    {x : EStateM.Result Failure InterningState TypeId} (h : Walk t r i as x) :
    ∀ {bs y}, Walk t r i bs y → as = bs ∧ x = y := by
  intro bs y h'
  match h with
  | .outside he => cases h' <;> simp_all
  | .known he hk => cases h' <;> simp_all
  | .refused he hk hr => cases h' <;> simp_all
  | .entered he hk hr hp =>
    cases h' with
    | entered he' hk' hr' hp' =>
      obtain rfl := Option.some.inj (he.symm.trans he')
      cases hk.symm.trans hk'
      cases hr.symm.trans hr'
      obtain ⟨rfl, rfl⟩ := Parts.deterministic hp hp'
      exact ⟨rfl, rfl⟩
    | outside | known | refused => simp_all

theorem Parts.deterministic {parts : List TypePart} {i : InterningState} {as : List Attempt}
    {x : EStateM.Result Failure InterningState Unit} (h : Parts t parts i as x) :
    ∀ {bs y}, Parts t parts i bs y → as = bs ∧ x = y := by
  intro bs y h'
  match h with
  | .nil => cases h'; exact ⟨rfl, rfl⟩
  | .refused hw => cases h' <;> simp_all
  | .plain hw hp =>
    cases h' with
    | refused hw' => simp_all
    | plain hw' hp' =>
      cases hw.symm.trans hw'
      exact Parts.deterministic hp hp'
  | .oneFails hw =>
    cases h' with
    | oneFails hw' =>
      obtain ⟨rfl, h⟩ := Walk.deterministic hw hw'
      cases h
      exact ⟨rfl, rfl⟩
    | one hw' => cases (Walk.deterministic hw hw').2
  | .one hw hp =>
    cases h' with
    | oneFails hw' => cases (Walk.deterministic hw hw').2
    | one hw' hp' =>
      obtain ⟨rfl, h⟩ := Walk.deterministic hw hw'
      cases h
      obtain ⟨rfl, rfl⟩ := Parts.deterministic hp hp'
      exact ⟨rfl, rfl⟩
  | .twoFails hw =>
    cases h' with
    | twoFails hw' =>
      obtain ⟨rfl, h⟩ := Walk.deterministic hw hw'
      cases h
      exact ⟨rfl, rfl⟩
    | two hw' => cases (Walk.deterministic hw hw').2
  | .two hw hp =>
    cases h' with
    | twoFails hw' => cases (Walk.deterministic hw hw').2
    | two hw' hp' =>
      obtain ⟨rfl, h⟩ := Walk.deterministic hw hw'
      cases h
      obtain ⟨rfl, rfl⟩ := Parts.deterministic hp hp'
      exact ⟨rfl, rfl⟩

end

/-! ## Every walk is lawful -/

/-- Entries of the table are attempted, each when what is stored has these names and those of the
attempts before it, and not its own. -/
def Attempts (t : TypeTable) : List String → List Attempt → Prop
  | _, [] => True
  | names, a :: as => a.entry ∈ t.entries ∧ a.store.typeNamed? a.name = none ∧
      a.store.typeNames = names ∧ Attempts t (names ++ [a.name]) as

theorem Attempts.append {names : List String} {as bs : List Attempt} (h : Attempts t names as)
    (h' : Attempts t (names ++ as.map (·.name)) bs) : Attempts t names (as ++ bs) := by
  induction as generalizing names with
  | nil => simpa using h'
  | cons a as ih =>
    obtain ⟨mem, free, stored, rest⟩ := h
    exact ⟨mem, free, stored, ih rest (by simpa using h')⟩

theorem Attempts.split {names : List String} {before after : List Attempt} {a : Attempt}
    (h : Attempts t names (before ++ a :: after)) :
    a.entry ∈ t.entries ∧ a.store.typeNamed? a.name = none ∧
      a.store.typeNames = names ++ before.map (·.name) := by
  induction before generalizing names with
  | nil =>
    obtain ⟨mem, free, stored, -⟩ := h
    exact ⟨mem, free, by simpa using stored⟩
  | cons b before ih =>
    obtain ⟨-, -, -, rest⟩ := h
    simpa using ih rest

/-- No name is attempted twice, and none that is stored. -/
theorem Attempts.nodup {names : List String} {as : List Attempt} (h : Attempts t names as) :
    (as.map (·.name)).Nodup ∧ ∀ a ∈ as, a.name ∉ names := by
  induction as generalizing names with
  | nil => simp
  | cons a as ih =>
    obtain ⟨-, free, stored, rest⟩ := h
    obtain ⟨nodup, apart⟩ := ih rest
    have free' : a.name ∉ names := stored ▸ Store.notMem_typeNames.mpr free
    refine ⟨List.nodup_cons.mpr ⟨fun hm => ?_, nodup⟩, fun b hb => ?_⟩
    · obtain ⟨b, hb, he⟩ := List.mem_map.mp hm
      exact apart b hb (by simp [he])
    · obtain rfl | hb := List.mem_cons.mp hb
      · exact free'
      · exact fun hn => apart b hb (List.mem_append_left _ hn)

/-- The attempts of a computation, and that their names are all the names that it adds. -/
structure Lawful {α : Type} (t : TypeTable) (i : InterningState) (as : List Attempt)
    (x : EStateM.Result Failure InterningState α) : Prop where
  attempts : Attempts t i.store.typeNames as
  stored : ∀ {a j}, x = .ok a j → i.store ≤ j.store ∧
    j.store.typeNames = i.store.typeNames ++ as.map (·.name)

section

variable {α β : Type} {i j k : InterningState} {as bs : List Attempt}

theorem write_eq_ok {w : Transaction α} {a : α} (h : write w i = .ok a j) :
    w i.store = .ok (a, j.store) := by
  unfold write at h
  cases hw : w i.store with
  | ok r =>
    obtain ⟨b, s⟩ := r
    rw [hw] at h
    cases h
    rfl
  | error v =>
    rw [hw] at h
    cases h

theorem known_none {name : String} (h : known name i = .ok none j) :
    j.store = i.store ∧ i.store.typeNamed? name = none := by
  obtain ⟨x, k, hk, -, same, told⟩ := known_tells name i
  cases hk.symm.trans h
  exact ⟨same, told⟩

theorem known_some {name : String} {id : TypeId} (h : known name i = .ok (some id) j) :
    j.store = i.store := by
  obtain ⟨x, k, hk, -, same, -⟩ := known_tells name i
  cases hk.symm.trans h
  exact same

theorem reserve_ok {e : TypeEntry} {id : TypeId} (h : reserve e i = .ok id j) :
    i.store ≤ j.store ∧ j.store.typeNames = i.store.typeNames ++ [e.name] := by
  obtain ⟨a, k, hw, h⟩ := bind_eq_ok.mp h
  obtain ⟨-, hi⟩ := Transaction.create_ok.mp (write_eq_ok hw)
  obtain ⟨_, _, hn, h⟩ := bind_eq_ok.mp h
  cases hn
  cases h
  refine ⟨Store.le_of_insert hi, ?_⟩
  have rows := Store.rows_push_self i.store .types (e.row id)
  rw [Store.typeNames, Store.eq_push_of_insert hi]
  exact (congrArg (List.map TypeRow.name) rows).trans (List.map_append ..)

theorem insertPart_ok {id : TypeId} {row : AnyRow} (hr : row.CompletesType id)
    (h : write (.insert row.table row.row) i = .ok () j) :
    i.store ≤ j.store ∧ j.store.typeNames = i.store.typeNames := by
  have hi := Transaction.insert_ok.mp (write_eq_ok h)
  have other : row.table ≠ .types := fun he => by
    have numbered := hr.2.1
    rw [he] at numbered
    cases numbered
  refine ⟨Store.le_of_insert hi, ?_⟩
  rw [Store.typeNames, Store.eq_push_of_insert hi]
  exact congrArg (List.map TypeRow.name) (Store.rows_push_of_ne i.store row.row other.symm)

theorem Lawful.append {a : α} {x : EStateM.Result Failure InterningState β}
    (h : Lawful t i as (.ok a j)) (h' : Lawful t j bs x) : Lawful t i (as ++ bs) x := by
  obtain ⟨le, names⟩ := h.stored rfl
  refine ⟨h.attempts.append (names ▸ h'.attempts), fun hx => ?_⟩
  obtain ⟨le', names'⟩ := h'.stored hx
  exact ⟨le_trans le le', by rw [names', names, List.map_append, List.append_assoc]⟩

theorem Lawful.of_silent {x : EStateM.Result Failure InterningState α}
    (h : ∀ {a j}, x = .ok a j → i.store ≤ j.store ∧ j.store.typeNames = i.store.typeNames) :
    Lawful t i [] x :=
  ⟨trivial, fun hx => by simpa using h hx⟩

end

mutual

theorem Walk.lawful {r : TypeRef} {i : InterningState} {as : List Attempt}
    {x : EStateM.Result Failure InterningState TypeId} (h : Walk t r i as x) : Lawful t i as x := by
  match h with
  | .outside _ => exact .of_silent fun hx => by cases hx
  | .known _ hk =>
    refine .of_silent fun hx => ?_
    cases hx
    simp [known_some hk]
  | .refused he hk _ =>
    obtain ⟨same, free⟩ := known_none hk
    refine ⟨⟨Array.mem_of_getElem? he, ?_, ?_, trivial⟩, fun hx => by cases hx⟩
    · exact same ▸ free
    · exact congrArg Store.typeNames same
  | .entered (e := e) (x := x) he hk hr hp =>
    obtain ⟨same, free⟩ := known_none hk
    obtain ⟨le, names⟩ := reserve_ok hr
    have parts := Parts.lawful (fun part hp => (e.shape.parts_rows _ part hp)) hp
    rw [same] at le names
    refine ⟨⟨Array.mem_of_getElem? he, same ▸ free, congrArg Store.typeNames same, ?_⟩, fun hx => ?_⟩
    · exact names ▸ parts.attempts
    · cases x with
      | error => cases hx
      | ok =>
        cases hx
        obtain ⟨le', names'⟩ := parts.stored rfl
        exact ⟨le_trans le le', by simp [names', names, Attempt.name]⟩

theorem Parts.lawful {parts : List TypePart} {i : InterningState} {as : List Attempt}
    {x : EStateM.Result Failure InterningState Unit} {id : TypeId}
    (own : ∀ part ∈ parts, part.Rows (AnyRow.CompletesType id)) (h : Parts t parts i as x) :
    Lawful t i as x := by
  match h with
  | .nil =>
    refine .of_silent fun hx => ?_
    cases hx
    exact ⟨le_refl _, rfl⟩
  | .refused _ => exact .of_silent fun hx => by cases hx
  | .plain hw hp =>
    obtain ⟨here, rest⟩ := List.forall_mem_cons.mp own
    have inserted : Lawful t i [] (.ok () _) := .of_silent fun hx => by
      cases hx
      exact insertPart_ok here hw
    exact inserted.append (Parts.lawful rest hp)
  | .oneFails hw | .twoFails hw => exact ⟨(Walk.lawful hw).attempts, fun hx => by cases hx⟩
  | .one (f := f) (a := a) hw hp =>
    obtain ⟨here, rest⟩ := List.forall_mem_cons.mp own
    have left : (TypePart.plain (f a)).Rows (AnyRow.CompletesType id) := here a
    exact (Walk.lawful hw).append (Parts.lawful (List.forall_mem_cons.mpr ⟨left, rest⟩) hp)
  | .two (u := u) (f := f) (a := a) hw hp =>
    obtain ⟨here, rest⟩ := List.forall_mem_cons.mp own
    have left : (TypePart.one u (f a)).Rows (AnyRow.CompletesType id) := here a
    exact (Walk.lawful hw).append (Parts.lawful (List.forall_mem_cons.mpr ⟨left, rest⟩) hp)

end

/-! ## Every type has a walk -/

/-- The parts of a type are recorded if the types that they refer to have walks. -/
theorem exists_parts {type : TypeRef → Interning TypeId} {k : Nat}
    (ht : ∀ {r i}, t.unstored i.store < k → ∃ as, Walk t r i as (type r i)) {id : TypeId}
    {parts : List TypePart} (own : ∀ part ∈ parts, part.Rows (AnyRow.CompletesType id))
    {i : InterningState} (hk : t.unstored i.store < k) :
    ∃ as, Parts t parts i as (complete type parts i) := by
  induction parts generalizing i with
  | nil => exact ⟨[], .nil⟩
  | cons part parts ih =>
    obtain ⟨here, rest⟩ := List.forall_mem_cons.mp own
    have plain {row : AnyRow} (hr : row.CompletesType id) {i : InterningState}
        (hk : t.unstored i.store < k) :
        ∃ as, Parts t (.plain row :: parts) i as (complete type (.plain row :: parts) i) := by
      cases hw : write (.insert row.table row.row) i with
      | error f j =>
        exact ⟨[], by rw [complete, bind_of_error hw]; exact .refused hw⟩
      | ok _ j =>
        obtain ⟨as, hp⟩ := ih rest (i := j)
          (Nat.lt_of_le_of_lt (TypeTable.unstored_mono (insertPart_ok hr hw).1) hk)
        exact ⟨as, by rw [complete, bind_of_ok hw]; exact .plain hw hp⟩
    have one {r : TypeRef} {row : TypeId → AnyRow} (hr : ∀ a, (row a).CompletesType id)
        {i : InterningState} (hk : t.unstored i.store < k) :
        ∃ as, Parts t (.one r row :: parts) i as (complete type (.one r row :: parts) i) := by
      obtain ⟨as, hw⟩ := ht hk (r := r)
      cases hx : type r i with
      | error f j =>
        rw [hx] at hw
        exact ⟨as, by rw [complete, bind_of_error hx]; exact .oneFails hw⟩
      | ok a j =>
        rw [hx] at hw
        obtain ⟨le, -⟩ := hw.lawful.stored rfl
        obtain ⟨bs, hp⟩ := plain (hr a) (Nat.lt_of_le_of_lt (TypeTable.unstored_mono le) hk)
        exact ⟨as ++ bs, by rw [complete, bind_of_ok hx]; exact .one hw hp⟩
    cases part with
    | plain row => exact plain here hk
    | one r row => exact one here hk
    | two r u row =>
      obtain ⟨as, hw⟩ := ht hk (r := r)
      cases hx : type r i with
      | error f j =>
        rw [hx] at hw
        exact ⟨as, by rw [complete, bind_of_error hx]; exact .twoFails hw⟩
      | ok a j =>
        rw [hx] at hw
        obtain ⟨le, -⟩ := hw.lawful.stored rfl
        obtain ⟨bs, hp⟩ := one (here a) (Nat.lt_of_le_of_lt (TypeTable.unstored_mono le) hk)
        exact ⟨as ++ bs, by rw [complete, bind_of_ok hx]; exact .two hw hp⟩

/-- Each attempt that succeeds leaves fewer names to attempt, so that no depth above their number is
used up: what is computed is the result of a walk. -/
theorem exists_walk {depth : Nat} {r : TypeRef} {i : InterningState}
    (h : t.unstored i.store < depth) : ∃ as, Walk t r i as (intern t depth r i) := by
  induction depth generalizing r i with
  | zero => omega
  | succ depth ih =>
    unfold intern
    cases he : t.get? r with
    | none => exact ⟨[], .outside he⟩
    | some e =>
      obtain ⟨x, j, hk, -, -⟩ := known_tells e.name i
      simp only [bind_of_ok hk]
      cases x with
      | some id => exact ⟨[], .known he hk⟩
      | none =>
        obtain ⟨same, free⟩ := known_none hk
        simp only
        cases hr : reserve e j with
        | error f k => exact ⟨[⟨e, j.store⟩], by rw [bind_of_error hr]; exact .refused he hk hr⟩
        | ok id k =>
          obtain ⟨le, names⟩ := reserve_ok hr
          have stored : (k.store.typeNamed? e.name).isSome = true := by
            rw [Option.isSome_iff_ne_none, Ne, ← Store.notMem_typeNames, names]
            simp
          have fewer := TypeTable.unstored_lt (same ▸ le) (Array.mem_of_getElem? he) free stored
          obtain ⟨as, hp⟩ := exists_parts ih (e.shape.parts_rows id) (i := k) (by omega)
          refine ⟨⟨e, j.store⟩ :: as, ?_⟩
          rw [bind_of_ok hr]
          have walk := Walk.entered he hk hr hp
          cases hx : complete (intern t depth) (e.shape.parts id) k with
          | error f l =>
            rw [bind_of_error hx]
            rw [hx] at walk
            exact walk
          | ok _ l =>
            rw [bind_of_ok hx]
            rw [hx] at walk
            exact walk

end Interning

/-! ## Requests -/

/-- What a request for a type answers, given the result of its walk. There is none if the type is
outside the table or in the cache, or if the store takes no transaction. -/
def Session.answer (s : Session) (t : TypeTable) (r : TypeRef)
    (walked : EStateM.Result Failure InterningState TypeId) :
    EStateM.Result Failure Session TypeId :=
  match t.name? r with
  | none => .error .nilType s
  | some name =>
    match s.types.get name with
    | (some id, types) => .ok id { s with types := types }
    | (none, _) =>
      if s.isOpen then
        match walked with
        | .ok id i => .ok id { s.committed i.store with types := i.cache.putAll i.pending.reverse }
        | .error f i => .error f { s with types := i.cache }
      else .error (.store .closed) s

theorem Analyze.typeId_eq (t : TypeTable) (r : TypeRef) (s : Session) :
    typeId t (some r) s =
      s.answer t r (Interning.intern t (t.size + 1) r ⟨s.store, s.types, []⟩) := by
  cases hn : t.name? r with
  | none =>
    simp only [typeId, Session.answer, hn]
    rfl
  | some name =>
    rw [Plan.typeId_of_name hn]
    cases hc : s.types.find? name with
    | some id => simp only [Session.answer, hn, hc, Cache.get]
    | none =>
      simp only [Session.answer, hn, hc, Cache.get]
      rfl

/-- A request for a type has one walk, and answers with its result. The walk makes finitely many
attempts to add the row of a type, each for an entry of the table. At every attempt, what is stored
has the names that were stored before the request and those attempted before, and not this one; so no
name is attempted twice, and none that was stored. -/
theorem Analyze.typeId_terminates (t : TypeTable) (r : TypeRef) (s : Session) :
    (∃ as x, Interning.Walk t r ⟨s.store, s.types, []⟩ as x) ∧
      ∀ as x, Interning.Walk t r ⟨s.store, s.types, []⟩ as x →
        Analyze.typeId t (some r) s = s.answer t r x ∧
        (as.map (·.name)).Nodup ∧
        (∀ before a after, as = before ++ a :: after →
          a.entry ∈ t.entries ∧ a.store.typeNamed? a.name = none ∧
            a.store.typeNames = s.store.typeNames ++ before.map (·.name)) ∧
        ∀ id i, x = .ok id i → i.store.typeNames = s.store.typeNames ++ as.map (·.name) := by
  have deep : t.unstored s.store < t.size + 1 := Nat.lt_succ_of_le (t.unstored_le_size s.store)
  obtain ⟨found, walk⟩ :=
    Interning.exists_walk (t := t) (r := r) (i := ⟨s.store, s.types, []⟩) deep
  refine ⟨⟨found, _, walk⟩, fun as x h => ?_⟩
  obtain ⟨rfl, rfl⟩ := walk.deterministic h
  have lawful := h.lawful
  refine ⟨typeId_eq t r s, lawful.attempts.nodup.1, ?_, fun id i hx => (lawful.stored hx).2⟩
  rintro before a after rfl
  exact lawful.attempts.split

end AccessDepth
