import AccessDepth.Proofs.Idempotence
import AccessDepth.Proofs.Store.Content

/-!
# AccessDepth.Proofs.Interners

Types asked for through several caches.

* `Contexts.request`, `requests` — one request for the row of a type, and one after the other. A
  request may fail, also because the store refuses its transaction.
* `TypeRequest.outcome` — what a request yields if the store alone is asked. It does not depend on the
  context.
* `Contexts.request_yields` — a request yields the cached row, or that outcome.
* `Contexts.requests_agree` — each name has one row, and the caches make no difference.
-/

namespace AccessDepth

/-- A request for the row of a type of a table. The store may refuse its transaction. -/
structure TypeRequest (ι : Type) where
  context : ι
  table : TypeTable
  type : Option TypeRef
  refused : Bool

namespace TypeRequest

variable {ι : Type}

def name? (q : TypeRequest ι) : Option String := q.type.bind q.table.name?

def writesLeft (q : TypeRequest ι) : Option Nat := if q.refused then some 0 else none

/-- What a request yields, and leaves, if nothing is cached. -/
def outcome (q : TypeRequest ι) (s : Store) : Except Failure TypeId × Store :=
  match q.type, q.name? with
  | some r, some _ =>
    if q.refused then (.error (.store .closed), s) else
    match Uncached.intern q.table (q.table.size + 1) r s with
    | .ok (id, s') => (.ok id, s')
    | .error f => (.error f, s)
  | _, _ => (.error .nilType, s)

theorem outcome_ok {q : TypeRequest ι} {s s' : Store} {id : TypeId} (h : q.outcome s = (.ok id, s')) :
    q.refused = false ∧ ∃ name, q.name? = some name ∧ s'.typeNamed? name = some id := by
  unfold outcome at h
  split at h
  · rename_i r name ht hn
    cases hq : q.refused with
    | true => simp [hq] at h
    | false =>
      simp only [hq] at h
      cases hu : Uncached.intern q.table (q.table.size + 1) r s with
      | error f => simp [hu] at h
      | ok x =>
        simp only [hu] at h
        cases h
        obtain ⟨e, he, hid⟩ := Uncached.typeNamed?_of_intern hu
        refine ⟨rfl, e.name, ?_, hid⟩
        rw [name?, ht, Option.bind_some, TypeTable.name?, he, Option.map_some]
  · cases h

theorem outcome_of_stored {q : TypeRequest ι} {s : Store} {name : String} {id : TypeId}
    (free : q.refused = false) (hn : q.name? = some name) (h : s.typeNamed? name = some id) :
    q.outcome s = (.ok id, s) := by
  obtain ⟨r, ht, hname⟩ := Option.bind_eq_some_iff.mp hn
  obtain ⟨e, he, rfl⟩ := Option.map_eq_some_iff.mp hname
  have hu : Uncached.intern q.table (q.table.size + 1) r s = .ok (id, s) :=
    Uncached.intern_of_stored he h
  simp [outcome, ht, hn, free, hu]

theorem outcome_inserts (q : TypeRequest ι) (s : Store) :
    Inserts (·.owner = .types) s (q.outcome s).2 := by
  unfold outcome
  split
  · split
    · exact .refl _
    · split
      · rename_i hu
        exact Uncached.intern_inserts hu
      · exact .refl _
  · exact .refl _

def outcomes (s : Store) : List (TypeRequest ι) → List (Except Failure TypeId) × Store
  | [] => ([], s)
  | q :: qs =>
    let (a, s) := q.outcome s
    let (as, s) := outcomes s qs
    (a :: as, s)

end TypeRequest

def Store.NamesType (s : Store) (name : String) (id : TypeId) : Prop :=
  ∃ row, s.types.filter (fun r => r.name = name) = [row] ∧ row.id = id

theorem Store.Sound.namesType {s : Store} (hs : s.Sound) {name : String} {id : TypeId}
    (h : s.typeNamed? name = some id) : s.NamesType name id := by
  obtain ⟨row, hf, rfl⟩ := Option.map_eq_some_iff.mp h
  have hm : row ∈ s.types := List.mem_of_find?_eq_some hf
  have hn : row.name = name := by simpa using List.find?_some hf
  refine ⟨row, ?_, rfl⟩
  have rows : s.types.Nodup := (hs.keys .types).of_map
  have same : (s.types.filter fun r => r.name = name).Perm [row] := by
    refine (List.perm_ext_iff_of_nodup (rows.filter _) (List.nodup_singleton row)).mpr fun r => ?_
    simp only [List.mem_filter, decide_eq_true_eq, List.mem_singleton]
    constructor
    · rintro ⟨hr, rfl⟩
      exact hs.eq_of_key (u := .types) hr hm (by simp [Row.key, hn])
    · rintro rfl
      exact ⟨hm, hn⟩
  exact List.perm_singleton.mp same

namespace Contexts

variable {ι : Type} [DecidableEq ι]

/-- The contexts after one of them has left a session. -/
def leave (w : Contexts ι) (i : ι) (s : Session) : Contexts ι where
  store := s.store
  context j := if j = i then .ofSession s else w.context j

/-- Asks for the row of a type. -/
def request (w : Contexts ι) (q : TypeRequest ι) : Except Failure TypeId × Contexts ι :=
  match Analyze.typeId q.table q.type ((w.context q.context).session w.store q.writesLeft) with
  | .ok id s => (.ok id, w.leave q.context s)
  | .error f s => (.error f, w.leave q.context s)

/-- Makes requests one after the other, with something done to the contexts before each of them. -/
def requests (before : Contexts ι → Contexts ι) (w : Contexts ι) :
    List (TypeRequest ι) → List (Except Failure TypeId) × Contexts ι
  | [] => ([], w)
  | q :: qs =>
    let (a, w) := (before w).request q
    let (as, w) := requests before w qs
    (a :: as, w)

def forget (w : Contexts ι) : Contexts ι :=
  { w with context := fun i =>
      { w.context i with types := .empty (w.context i).types.capacity } }

/-- A request with its refusal only if that was felt. One that a cache answers makes no
transaction. -/
def felt (q : TypeRequest ι) (answer : Except Failure TypeId) : TypeRequest ι :=
  { q with refused := q.refused && !answer.isOk }

/-! ## One request -/

/-- What is cached of the types is stored. No path is met when types are asked for. -/
abbrev TypesAgree (w : Contexts ι) : Prop := w.Agree fun _ => False

/-- The row that the cache of a context has for a request. -/
def cached? (w : Contexts ι) (q : TypeRequest ι) : Option TypeId :=
  q.name?.bind (w.context q.context).types.find?

/-- What a request yields, and leaves in the store: the cached row, or what the store alone gives. -/
def result (w : Contexts ι) (q : TypeRequest ι) : Except Failure TypeId × Store :=
  match w.cached? q with
  | some id => (.ok id, w.store)
  | none => q.outcome w.store

/-- A request yields its result, and what is cached afterwards is stored. -/
structure Yields (w : Contexts ι) (q : TypeRequest ι) : Prop where
  result : ((w.request q).1, (w.request q).2.store) = w.result q
  agree : (w.request q).2.TypesAgree
  grows : w.store ≤ (w.request q).2.store

section

variable {w : Contexts ι} (ha : w.TypesAgree) {q : TypeRequest ι}
include ha

theorem agree_leave {i : ι} {s : Session} (hle : w.store ≤ s.store)
    (hs : s.Agrees fun _ => False) : (w.leave i s).TypesAgree := by
  intro j writesLeft
  by_cases hj : j = i
  · simp only [leave, hj, if_true, Context.session_ofSession]
    exact hs.grow (le_refl _)
  · simp only [leave, hj, if_false]
    exact (ha j writesLeft).grow hle

theorem yields_of_ok {id : TypeId} {s : Session}
    (h : Analyze.typeId q.table q.type ((w.context q.context).session w.store q.writesLeft) =
      .ok id s)
    (hr : w.result q = (.ok id, s.store)) (hs : s.Agrees fun _ => False)
    (hle : w.store ≤ s.store) : w.Yields q := by
  have left : w.request q = (.ok id, w.leave q.context s) := by simp only [request, h]
  constructor <;> rw [left]
  · exact hr.symm
  · exact agree_leave ha hle hs
  · exact hle

theorem yields_of_error {f : Failure} {s : Session}
    (h : Analyze.typeId q.table q.type ((w.context q.context).session w.store q.writesLeft) =
      .error f s)
    (hr : w.result q = (.error f, w.store)) (hs : s.Agrees fun _ => False)
    (hstore : s.store = w.store) : w.Yields q := by
  have left : w.request q = (.error f, w.leave q.context s) := by simp only [request, h]
  have hle : w.store ≤ s.store := hstore ▸ le_refl _
  constructor <;> rw [left]
  · rw [hr, ← hstore]
    rfl
  · exact agree_leave ha hle hs
  · exact hle

theorem request_yields (q : TypeRequest ι) : w.Yields q := by
  let σ : Plan.Setting :=
    ⟨(w.context q.context).corpusRoot, fun _ => False, fun _ _ hp => hp.elim, fun _ => True⟩
  let s := (w.context q.context).session w.store q.writesLeft
  have good : σ.Good s := ⟨rfl, ha q.context q.writesLeft, trivial⟩
  have missing (hn : q.name? = none)
      (hx : Analyze.typeId q.table q.type s = .error .nilType s) : w.Yields q := by
    refine yields_of_error ha hx ?_ good.agrees rfl
    cases ht : q.type <;> simp [result, cached?, hn, TypeRequest.outcome, ht]
  cases ht : q.type with
  | none =>
    refine missing ?_ ?_
    · rw [TypeRequest.name?, ht, Option.bind_none]
    · rw [ht]
      rfl
  | some r =>
    have hn : q.name? = q.table.name? r := by rw [TypeRequest.name?, ht, Option.bind_some]
    cases hname : q.table.name? r with
    | none =>
      refine missing (hn.trans hname) ?_
      simp only [Analyze.typeId, ht, hname]
      rfl
    | some name =>
      have asked := Plan.good_cachedType good name
      have hx := Plan.typeId_of_name hname s
      rw [← ht] at hx
      have hc : w.cached? q = s.types.find? name := by
        rw [cached?, hn, hname, Option.bind_some]
        rfl
      cases hf : s.types.find? name with
      | some id =>
        rw [hf] at hx hc
        exact yields_of_ok ha hx (by simp only [result, hc]; rfl) asked.agrees (le_refl _)
      | none =>
        rw [hf] at hx hc
        have hr : w.result q = q.outcome w.store := by simp only [result, hc]
        simp only [TypeRequest.outcome, ht, hn, hname] at hr
        cases hq : q.refused with
        | true =>
          have closed : s.writesLeft = some 0 := by
            simp [s, Context.session, TypeRequest.writesLeft, hq]
          rw [hq, if_pos rfl] at hr
          rw [Analyze.internType, if_neg (by simp [Session.isOpen, closed])] at hx
          exact yields_of_error ha hx hr asked.agrees rfl
        | false =>
          have unbounded : s.writesLeft = none := by
            simp [s, Context.session, TypeRequest.writesLeft, hq]
          have interns := Plan.interns_internType asked q.table r
          unfold Plan.Interns at interns
          cases hi : Analyze.internType q.table r { s with types := (s.types.get name).2 } with
          | ok id s' =>
            rw [hi] at interns hx
            obtain ⟨hu, -, agrees, -⟩ := interns
            change Uncached.intern q.table (q.table.size + 1) r w.store = .ok (id, s'.store) at hu
            refine yields_of_ok ha hx ?_ agrees (Uncached.intern_inserts hu).le
            simpa [hq, hu] using hr
          | error f s' =>
            rw [hi] at interns hx
            obtain ⟨hs, left, -, hu | ⟨-, closed⟩⟩ := interns
            · change Uncached.intern q.table (q.table.size + 1) r w.store = .error f at hu
              refine yields_of_error ha hx ?_ left.agrees hs
              simpa [hq, hu] using hr
            · simp [Session.isOpen, unbounded] at closed

/-- The row of a request that succeeds is stored under the name that was asked for. -/
theorem name_of_request {id : TypeId} (h : (w.request q).1 = .ok id) :
    ∃ name, q.name? = some name ∧ (w.request q).2.store.typeNamed? name = some id := by
  have yields := request_yields ha q
  have hr := yields.result
  rw [h] at hr
  unfold result at hr
  cases hc : w.cached? q with
  | some id' =>
    rw [hc] at hr
    obtain ⟨hid, -⟩ := Prod.mk.inj hr
    cases hid
    obtain ⟨name, hn, hf⟩ := Option.bind_eq_some_iff.mp hc
    exact ⟨name, hn, Store.typeNamed?_of_le yields.grows ((ha _ none).types hf)⟩
  | none =>
    rw [hc] at hr
    exact (TypeRequest.outcome_ok hr.symm).2

omit [DecidableEq ι] in
/-- A request that a cache answers yields what the store alone gives if it does not refuse. -/
theorem result_of_felt (q : TypeRequest ι) : w.result q = (felt q (w.result q).1).outcome w.store := by
  unfold result
  cases hc : w.cached? q with
  | some id =>
    obtain ⟨name, hn, hf⟩ := Option.bind_eq_some_iff.mp hc
    have free : (felt q (.ok id)).refused = false := by simp [felt, Except.isOk, Except.toBool]
    exact (TypeRequest.outcome_of_stored free hn ((ha _ none).types hf)).symm
  | none =>
    have same : felt q (q.outcome w.store).1 = q := by
      cases ho : q.outcome w.store with
      | mk answer s =>
        cases answer with
        | error f => simp [felt, Except.isOk, Except.toBool]
        | ok id =>
          obtain ⟨free, -⟩ := TypeRequest.outcome_ok ho
          change { q with refused := q.refused && false } = q
          rw [free, Bool.false_and, ← free]
    exact (congrArg (TypeRequest.outcome · w.store) same).symm

end

omit [DecidableEq ι] in
theorem result_inserts (w : Contexts ι) (q : TypeRequest ι) :
    Inserts (·.owner = .types) w.store (w.result q).2 := by
  unfold result
  split
  · exact .refl _
  · exact TypeRequest.outcome_inserts q w.store

/-! ## Many requests -/

/-- Requests add rows to the tables of types, what is cached afterwards is stored, and each answer is
stored under the name that was asked for. -/
theorem requests_stored {w : Contexts ι} (ha : w.TypesAgree) (qs : List (TypeRequest ι)) :
    Inserts (·.owner = .types) w.store (w.requests id qs).2.store ∧
      (w.requests id qs).2.TypesAgree ∧
      List.Forall₂ (fun q a => ∀ type, a = .ok type → ∃ name, q.name? = some name ∧
        (w.requests id qs).2.store.typeNamed? name = some type) qs (w.requests id qs).1 := by
  induction qs generalizing w with
  | nil => exact ⟨.refl _, ha, .nil⟩
  | cons q qs ih =>
    have yields := request_yields ha q
    obtain ⟨inserts, agree, stored⟩ := ih yields.agree
    have first : Inserts (·.owner = .types) w.store (w.request q).2.store := by
      have := result_inserts w q
      rwa [← yields.result] at this
    refine ⟨first.trans inserts, agree, .cons (fun type h => ?_) stored⟩
    obtain ⟨name, hn, hid⟩ := name_of_request ha h
    exact ⟨name, hn, Store.typeNamed?_of_le inserts.le hid⟩

/-- Requests yield what the store alone gives if it refuses the transactions that it has refused. -/
theorem requests_eq_outcomes {w : Contexts ι} (ha : w.TypesAgree) (qs : List (TypeRequest ι)) :
    ((w.requests id qs).1, (w.requests id qs).2.store) =
      TypeRequest.outcomes w.store (qs.zipWith felt (w.requests id qs).1) := by
  induction qs generalizing w with
  | nil => rfl
  | cons q qs ih =>
    have yields := request_yields ha q
    have first : (felt q (w.request q).1).outcome w.store =
        ((w.request q).1, (w.request q).2.store) := by
      have := result_of_felt ha q
      rw [← yields.result] at this
      exact this.symm
    have next := ih yields.agree
    simp only [requests, id, List.zipWith_cons_cons, TypeRequest.outcomes, first] at next ⊢
    rw [← next]

/-- Where every cache is emptied before every request, the store alone is asked. -/
theorem requests_forget {w : Contexts ι} (ha : w.TypesAgree) (qs : List (TypeRequest ι)) :
    ((w.requests forget qs).1, (w.requests forget qs).2.store) = TypeRequest.outcomes w.store qs := by
  induction qs generalizing w with
  | nil => rfl
  | cons q qs ih =>
    have empty : w.forget.TypesAgree := fun _ _ =>
      { types := fun hf => by cases hf
        files := fun hp => hp.elim }
    have yields := request_yields empty q
    have first : (w.forget.request q).1 = (q.outcome w.store).1 ∧
        (w.forget.request q).2.store = (q.outcome w.store).2 := by
      have uncached : w.forget.cached? q = none := by
        unfold cached?
        cases q.name? <;> rfl
      have := yields.result
      rw [result, uncached] at this
      exact Prod.mk.inj this
    have next := ih yields.agree
    rw [first.2] at next
    simp only [requests, TypeRequest.outcomes, first.1]
    rw [← next]

/-- Contexts start with empty caches and make requests. Two that succeed yield the same row if and
only if the canonical names of their types are equal; what one yields, and what is cached of a name,
is the one row of the name. Without any cache the answers and the store in the end are the same, if
the store refuses the transactions that it has refused. -/
theorem requests_agree {w : Contexts ι} (hn : ∀ i, (w.context i).IsNew) (hs : w.store.Sound)
    (qs : List (TypeRequest ι)) :
    let made := w.requests id qs
    let calls := qs.zip made.1
    let uncached := w.requests forget (qs.zipWith felt made.1)
    made.1.length = qs.length ∧
      (∀ x ∈ calls, ∀ y ∈ calls, ∀ a b, x.2 = .ok a → y.2 = .ok b →
        (a = b ↔ x.1.name? = y.1.name?)) ∧
      (∀ x ∈ calls, ∀ a, x.2 = .ok a →
        ∃ name, x.1.name? = some name ∧ made.2.store.NamesType name a) ∧
      (∀ i name a, (made.2.context i).types.find? name = some a →
        made.2.store.NamesType name a) ∧
      uncached.1 = made.1 ∧ uncached.2.store = made.2.store := by
  have ha : w.TypesAgree := agree_of_new hn _
  obtain ⟨inserts, agree, stored⟩ := requests_stored ha qs
  have same := (requests_forget ha _).trans (requests_eq_outcomes ha qs).symm
  have sound := inserts.sound hs
  have named : ∀ x ∈ qs.zip (w.requests id qs).1, ∀ a, x.2 = .ok a →
      ∃ name, x.1.name? = some name ∧ (w.requests id qs).2.store.typeNamed? name = some a :=
    fun x hx a => (List.forall₂_iff_zip.mp stored).2 hx a
  refine ⟨stored.length_eq.symm, ?_, ?_, ?_, (Prod.mk.inj same).1, (Prod.mk.inj same).2⟩
  · intro x hx y hy a b hxa hyb
    obtain ⟨n, hnx, hna⟩ := named x hx a hxa
    obtain ⟨m, hny, hmb⟩ := named y hy b hyb
    rw [hnx, hny]
    constructor
    · rintro rfl
      have hx := Store.nameOf_typeNamed? sound hna
      rw [Store.nameOf_typeNamed? sound hmb] at hx
      cases hx
      rfl
    · intro hnm
      cases hnm
      exact Option.some.inj (hna.symm.trans hmb)
  · intro x hx a hxa
    obtain ⟨n, hnx, hna⟩ := named x hx a hxa
    exact ⟨n, hnx, sound.namesType hna⟩
  · intro i name a hf
    exact sound.namesType ((agree i none).types hf)

end Contexts

/-! ## A type that contains itself -/

/-- `type List struct{ Next *List }`, and a slice of something that is not in the table. -/
def TypeTable.sample : TypeTable :=
  ⟨#[⟨"List", some 8, .named (some "a") "List" 1⟩,
    ⟨"struct\x7bNext *List\x7d", some 8, .struct [⟨"Next", 2, false⟩]⟩,
    ⟨"*List", some 8, .pointer 0⟩,
    ⟨"[]?", none, .slice 4⟩]⟩

/-- Two contexts that cache one name each. -/
def Contexts.sample : Contexts Bool := ⟨.initial, fun _ => ⟨⟨"corpus"⟩, .empty 1, .empty 1⟩⟩

/-- Through one context the list is recorded, through the other its pointer is found, a request fails
by itself, and two are refused, the last one after the cache has answered. -/
def TypeRequest.samples : List (TypeRequest Bool) :=
  [⟨false, .sample, some 0, false⟩, ⟨true, .sample, some 2, false⟩,
    ⟨true, .sample, some 3, false⟩, ⟨true, .sample, some 1, true⟩, ⟨true, .sample, some 2, true⟩]

theorem Contexts.requests_agree_sample :
    (Contexts.sample.requests id TypeRequest.samples).1.map Except.isOk =
        [true, true, false, false, true] ∧
      ∀ x ∈ TypeRequest.samples.zip (Contexts.sample.requests id TypeRequest.samples).1, ∀ a, x.2 = .ok a →
        ∃ name, x.1.name? = some name ∧
          (Contexts.sample.requests id TypeRequest.samples).2.store.NamesType name a := by
  have new (i : Bool) : (Contexts.sample.context i).IsNew := ⟨rfl, rfl⟩
  exact ⟨by decide +kernel, (requests_agree new Store.initial_sound TypeRequest.samples).2.2.1⟩

end AccessDepth
