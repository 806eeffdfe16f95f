import AccessDepth.Proofs.Interning.Rows
import AccessDepth.Proofs.Store.Refusal

/-!
# AccessDepth.Proofs.Interning.Encoding

What is stored of a type.

* `Store.Fresh` — what was added to the tables of types has numbers of some kind.
* `TypeShape.references` — the types that a structure refers to.
* `TypeTable.Walked` — an entry is reached through entries that are not stored yet.
* `TypeEntry.Encoded` — below the row of an entry there are the rows of its parts, in order, and no
  others.
* `Uncached.intern_encodes` — interning adds rows of entries that it walks through, and each of them
  is encoded.
* `TypeTable.Encodes.names` — if no two entries share a name, it adds all of these.
-/

namespace AccessDepth

/-! ## Rows with new numbers -/

namespace Store

/-- The rows that were added to the tables of types have numbers with a property. -/
def Fresh (P : Int → Prop) (s s' : Store) : Prop :=
  ∀ u : Table, u.owner = .types →
    ∃ new, s'.rows u = s.rows u ++ new ∧ ∀ x ∈ new, P (Row.number u x)

def rowsOf (s : Store) (u : Table) (id : TypeId) : List (Row u) :=
  (s.rows u).filter fun x => Row.number u x = id.value

namespace Fresh

variable {P Q : Int → Prop} {s s' s'' : Store}

theorem refl (P : Int → Prop) (s : Store) : Fresh P s s :=
  fun u _ => ⟨[], (List.append_nil (s.rows u)).symm, fun _ hx => by cases hx⟩

theorem trans (h : Fresh P s s') (h' : Fresh P s' s'') : Fresh P s s'' := by
  intro u hu
  obtain ⟨new, rows, hn⟩ := h u hu
  obtain ⟨new', rows', hn'⟩ := h' u hu
  refine ⟨new ++ new', by rw [rows', rows, List.append_assoc], fun x hx => ?_⟩
  obtain hx | hx := List.mem_append.mp hx
  · exact hn x hx
  · exact hn' x hx

theorem mono (h : Fresh P s s') (hPQ : ∀ n, P n → Q n) : Fresh Q s s' := by
  intro u hu
  obtain ⟨new, rows, hn⟩ := h u hu
  exact ⟨new, rows, fun x hx => hPQ _ (hn x hx)⟩

theorem of_insert {u : Table} {r : Row u} (h : s.insert u r = .ok s') (hP : P (Row.number u r)) :
    Fresh P s s' := by
  intro v _
  rw [eq_push_of_insert h]
  by_cases e : v = u
  · subst e
    refine ⟨[r], rows_push_self .., fun x hx => ?_⟩
    rwa [List.mem_singleton.mp hx]
  · exact ⟨[], by rw [rows_push_of_ne s r e, List.append_nil], fun _ hx => by cases hx⟩

theorem number (h : Fresh P s s') {u : Table} (hu : u.owner = .types) {x : Row u}
    (hx : x ∈ s'.rows u) : x ∈ s.rows u ∨ P (Row.number u x) := by
  obtain ⟨new, rows, hn⟩ := h u hu
  rw [rows] at hx
  exact (List.mem_append.mp hx).imp_right (hn x)

theorem rowsOf_eq (h : Fresh P s s') {u : Table} (hu : u.owner = .types) {id : TypeId}
    (hid : ¬ P id.value) : s'.rowsOf u id = s.rowsOf u id := by
  obtain ⟨new, rows, hn⟩ := h u hu
  have none : new.filter (fun x => Row.number u x = id.value) = [] := by
    refine List.filter_eq_nil_iff.mpr fun x hx => ?_
    simp only [decide_eq_true_eq]
    intro he
    exact hid (he ▸ hn x hx)
  rw [rowsOf, rows, List.filter_append, none, List.append_nil]
  rfl

end Fresh
end Store

namespace AnyRow

def at? (u : Table) (r : AnyRow) : Option (Row u) :=
  if h : r.table = u then some (h ▸ r.row) else none

@[simp] theorem at?_self (u : Table) (x : Row u) : (⟨u, x⟩ : AnyRow).at? u = some x := by
  simp [at?]

theorem at?_of_ne {u v : Table} {x : Row v} (h : v ≠ u) : (⟨v, x⟩ : AnyRow).at? u = none := by
  simp [at?, h]

end AnyRow

theorem Store.rowsOf_insert {s s' : Store} {id : TypeId} {r : AnyRow} (hr : r.CompletesType id)
    (h : s.insert r.table r.row = .ok s') (u : Table) :
    s'.rowsOf u id = s.rowsOf u id ++ [r].filterMap (AnyRow.at? u) := by
  obtain ⟨v, x⟩ := r
  rw [rowsOf, eq_push_of_insert h]
  by_cases e : u = v
  · subst e
    have own : Row.number u x = id.value := hr.2.2
    simp [rows_push_self, rowsOf, own]
  · have other : ¬ v = u := fun h => e h.symm
    simp [rows_push_of_ne s x e, rowsOf, AnyRow.at?_of_ne other]

/-! ## The types that a structure refers to -/

/-- The types that a structure refers to, in order. Nothing is recorded of the elements of a tuple. -/
def TypeShape.references : TypeShape → List TypeRef
  | .array _ elem | .slice elem | .pointer elem | .chan _ elem => [elem]
  | .map key value => [key, value]
  | .struct fields => fields.map (·.type)
  | .interface methods embedded => methods.map (·.type) ++ embedded
  | .named _ _ underlying => [underlying]
  | .signature g => (g.receiver.toList ++ g.params ++ g.results ++ g.typeParams).map (·.type)
  | .union terms => terms.map (·.type)
  | .basic _ | .typeParam _ | .tuple _ => []

theorem map_numbered {α β : Type} (f : α → β) (n : Int) (xs : List α) :
    (numbered n xs).map (fun x => f x.2) = xs.map f := by
  induction xs generalizing n with
  | nil => rfl
  | cons x xs ih => simp [numbered, ih]

theorem numbered_types {α : Type} (n : Int) (xs : List α) (part : Int × α → TypePart)
    (type : α → TypeRef) (h : ∀ x, (part x).types = [type x.2]) :
    ((numbered n xs).map part).flatMap (·.types) = xs.map type := by
  rw [List.flatMap_map, ← map_numbered type n xs]
  simp only [h]
  exact List.flatMap_pure_eq_map ..

theorem signatureItems_types (id : TypeId) (role : SignatureRole) (ps : List SignatureParam) :
    ((numbered 0 ps).map fun (i, p) => TypePart.signatureItem id role i p).flatMap (·.types) =
      ps.map (·.type) := numbered_types 0 ps _ (·.type) fun _ => rfl

theorem TypeShape.parts_types (shape : TypeShape) (id : TypeId) :
    (shape.parts id).flatMap (·.types) = shape.references := by
  cases shape with
  | basic b => cases h : b.layout.signed <;> simp [parts, references, TypePart.types, h]
  | array | slice | pointer | map | chan | named | typeParam | tuple => rfl
  | struct fields => exact numbered_types 0 fields _ (·.type) fun _ => rfl
  | interface methods embedded =>
    rw [parts, List.flatMap_append, numbered_types 0 methods _ (·.type) fun _ => rfl,
      numbered_types methods.length embedded _ (fun t => t) fun _ => rfl, List.map_id']
    rfl
  | signature g =>
    simp only [parts, Signature.groups, List.flatMap_cons, List.flatMap_nil, List.flatMap_append,
      signatureItems_types, references, List.map_append, List.append_nil, List.append_assoc]
    rfl
  | union terms => exact numbered_types 0 terms _ (·.type) fun _ => rfl

theorem TypeShape.mem_references {shape : TypeShape} (id : TypeId) {r : TypeRef} :
    r ∈ shape.references ↔ ∃ part ∈ shape.parts id, r ∈ part.types := by
  rw [← shape.parts_types id, List.mem_flatMap]

/-! ## The rows of a type -/

def Store.numberOf (s : Store) (t : TypeTable) (r : TypeRef) : TypeId :=
  (s.typeOf? t r).getD .unknown

namespace TypePart

/-- The row that completes a type, where the types that it refers to have these rows. -/
def fill (of : TypeRef → TypeId) : TypePart → AnyRow
  | .plain row => row
  | .one r row => row (of r)
  | .two r u row => row (of r) (of u)

end TypePart

/-- An entry is reached from a type through entries whose names are not stored. -/
inductive TypeTable.Walked (t : TypeTable) (s : Store) : TypeRef → TypeEntry → Prop
  | self {r e} : t.get? r = some e → s.typeNamed? e.name = none → Walked t s r e
  | child {r e c e'} : t.get? r = some e → s.typeNamed? e.name = none →
      c ∈ e.shape.references → Walked t s c e' → Walked t s r e'

/-- A row is that of an entry. The types that the entry refers to have rows, and the rows that belong
to it are those of its parts, in order. -/
structure TypeEntry.Encoded (e : TypeEntry) (t : TypeTable) (s : Store) (row : TypeRow) : Prop where
  own : row = e.row row.id
  stored : ∀ r ∈ e.shape.references, s.typeOf? t r = some (s.numberOf t r)
  parts : ∀ u : Table, u.owner = .types → u ≠ .types →
    s.rowsOf u row.id = ((e.shape.parts row.id).map (TypePart.fill (s.numberOf t))).filterMap (AnyRow.at? u)

/-- What interning some types adds: rows of entries that it walks through, each of them with its
parts. -/
structure TypeTable.Encodes (t : TypeTable) (rs : List TypeRef) (s s' : Store) : Prop where
  inserts : Inserts (·.owner = .types) s s'
  fresh : s.Fresh (s.nextNumber .types ≤ ·) s'
  stored : ∀ r ∈ rs, s'.typeOf? t r = some (s'.numberOf t r)
  new : ∀ row ∈ s'.types, row ∈ s.types ∨ ∃ r ∈ rs, ∃ e, t.Walked s r e ∧ e.Encoded t s' row

section

variable {t : TypeTable} {s s' : Store} {r : TypeRef} {e : TypeEntry}

theorem Store.numberOf_of_le (h : s ≤ s') (hr : s.typeOf? t r = some (s.numberOf t r)) :
    s'.typeOf? t r = some (s'.numberOf t r) ∧ s'.numberOf t r = s.numberOf t r := by
  have later := typeOf?_of_le h hr
  have same : s'.numberOf t r = s.numberOf t r := by rw [numberOf, later, Option.getD_some]
  exact ⟨same ▸ later, same⟩

theorem Store.numberOf_eq {id : TypeId} (h : s.typeOf? t r = some id) : s.numberOf t r = id := by
  rw [numberOf, h, Option.getD_some]

theorem Store.typeNamed?_eq_none_of_le (h : s ≤ s') {name : String}
    (hn : s'.typeNamed? name = none) : s.typeNamed? name = none := by
  cases hs : s.typeNamed? name with
  | none => rfl
  | some id =>
    rw [typeNamed?_of_le h hs] at hn
    cases hn

theorem TypePart.fill_congr {of of' : TypeRef → TypeId} {part : TypePart}
    (h : ∀ r ∈ part.types, of r = of' r) : part.fill of = part.fill of' := by
  cases part with
  | plain => rfl
  | one r row => rw [fill, fill, h r (by simp [types])]
  | two r u row => rw [fill, fill, h r (by simp [types]), h u (by simp [types])]

theorem TypePart.fill_completes {of : TypeRef → TypeId} {id : TypeId} {part : TypePart}
    (h : part.Rows (AnyRow.CompletesType id)) : (part.fill of).CompletesType id := by
  cases part with
  | plain => exact h
  | one r row => exact h _
  | two r u row => exact h _ _

namespace TypeTable.Walked

theorem entry (h : t.Walked s r e) : s.typeNamed? e.name = none := by
  induction h with
  | self _ hn => exact hn
  | child _ _ _ _ ih => exact ih

theorem mem (h : t.Walked s r e) : e ∈ t.entries := by
  induction h with
  | self he _ => exact Array.mem_of_getElem? he
  | child _ _ _ _ ih => exact ih

theorem of_le (hle : s ≤ s') (h : t.Walked s' r e) : t.Walked s r e := by
  induction h with
  | self he hn => exact .self he (Store.typeNamed?_eq_none_of_le hle hn)
  | child he hn hc _ ih => exact .child he (Store.typeNamed?_eq_none_of_le hle hn) hc ih

end TypeTable.Walked

theorem TypeEntry.Encoded.of_fresh {row : TypeRow} {P : Int → Prop} (h : e.Encoded t s row)
    (hle : s ≤ s') (hf : s.Fresh P s') (hid : ¬ P row.id.value) : e.Encoded t s' row where
  own := h.own
  stored r hr := (Store.numberOf_of_le hle (h.stored r hr)).1
  parts u hu hne := by
    rw [hf.rowsOf_eq hu hid, h.parts u hu hne]
    congr 1
    refine List.map_congr_left fun part hp => TypePart.fill_congr fun r hr => ?_
    have hr' : r ∈ e.shape.references := (TypeShape.mem_references row.id).mpr ⟨part, hp, hr⟩
    exact (Store.numberOf_of_le hle (h.stored r hr')).2.symm

namespace TypeTable.Encodes

theorem nil (s : Store) : t.Encodes [] s s where
  inserts := .refl s
  fresh := .refl _ s
  stored _ hr := by cases hr
  new _ hrow := .inl hrow

theorem append {s'' : Store} {rs rs' : List TypeRef} (h : t.Encodes rs s s')
    (h' : t.Encodes rs' s' s'') : t.Encodes (rs ++ rs') s s'' where
  inserts := h.inserts.trans h'.inserts
  fresh := h.fresh.trans
    (h'.fresh.mono fun _ hn => Int.le_trans (Store.nextNumber_mono h.inserts.le .types) hn)
  stored r hr := by
    obtain hr | hr := List.mem_append.mp hr
    · exact (Store.numberOf_of_le h'.inserts.le (h.stored r hr)).1
    · exact h'.stored r hr
  new row hrow := by
    obtain hrow | ⟨r, hr, e, walked, encoded⟩ := h'.new row hrow
    · have old := Store.number_lt_nextNumber (u := .types) hrow
      refine (h.new row hrow).imp_right fun ⟨r, hr, e, walked, encoded⟩ => ?_
      exact ⟨r, List.mem_append_left _ hr, e, walked,
        encoded.of_fresh h'.inserts.le h'.fresh (Int.not_le.mpr old)⟩
    · exact .inr ⟨r, List.mem_append_right _ hr, e, walked.of_le h.inserts.le, encoded⟩

end TypeTable.Encodes

end

/-! ## Interning -/

namespace Uncached

variable {t : TypeTable} {s s' : Store}

structure Completes (t : TypeTable) (id : TypeId) (parts : List TypePart) (s s' : Store) : Prop where
  inserts : Inserts (·.owner = .types) s s'
  fresh : s.Fresh (fun n => n = id.value ∨ s.nextNumber .types ≤ n) s'
  stored : ∀ part ∈ parts, ∀ r ∈ part.types, s'.typeOf? t r = some (s'.numberOf t r)
  rows : ∀ u : Table, u.owner = .types → s'.rowsOf u id =
    s.rowsOf u id ++ (parts.map (TypePart.fill (s'.numberOf t))).filterMap (AnyRow.at? u)
  new : ∀ row ∈ s'.types, row ∈ s.types ∨
    ∃ part ∈ parts, ∃ r ∈ part.types, ∃ e, t.Walked s r e ∧ e.Encoded t s' row

section

variable {type : TypeRef → Uncached TypeId}
  (ht : ∀ {r s a s'}, s.Sound → type r s = .ok (a, s') →
    t.Encodes [r] s s' ∧ s'.typeOf? t r = some a)
include ht

theorem fills_encodes {part : TypePart} {row : AnyRow} (hs : s.Sound)
    (h : Fills type part s s' row) :
    t.Encodes part.types s s' ∧ row = part.fill (s'.numberOf t) := by
  cases h with
  | plain => exact ⟨.nil s, rfl⟩
  | one ha =>
    obtain ⟨encodes, found⟩ := ht hs ha
    exact ⟨encodes, by rw [TypePart.fill, Store.numberOf_eq found]⟩
  | two ha hb =>
    obtain ⟨first, found⟩ := ht hs ha
    obtain ⟨second, found'⟩ := ht (first.inserts.sound hs) hb
    refine ⟨first.append second, ?_⟩
    rw [TypePart.fill, Store.numberOf_eq (Store.typeOf?_of_le second.inserts.le found),
      Store.numberOf_eq found']

theorem complete_completes {id : TypeId} {parts : List TypePart} (hs : s.Sound)
    (hp : ∀ part ∈ parts, part.Rows (AnyRow.CompletesType id))
    (hid : id.value < s.nextNumber .types) (h : complete type parts s = .ok ((), s')) :
    Completes t id parts s s' := by
  induction parts generalizing s with
  | nil =>
    cases h
    exact {
      inserts := .refl _
      fresh := .refl _ _
      stored := fun _ hp => by cases hp
      rows := fun u _ => by simp
      new := fun _ hrow => .inl hrow }
  | cons part parts ih =>
    obtain ⟨s₁, row, s₂, hf, hi, hc⟩ := complete_cons h
    obtain ⟨encodes, rfl⟩ := fills_encodes ht hs hf
    have own : (part.fill (s₁.numberOf t)).CompletesType id :=
      TypePart.fill_completes (hp part List.mem_cons_self)
    have inserted := own.inserts hi
    have sound := inserted.sound (encodes.inserts.sound hs)
    have grows := Store.nextNumber_mono encodes.inserts.le .types
    have grows' := Store.nextNumber_mono inserted.le .types
    have rest := ih sound (fun q hq => hp q (List.mem_cons_of_mem part hq)) (by omega) hc
    have later := inserted.trans rest.inserts
    have following : s₁.Fresh (fun n => n = id.value ∨ s₁.nextNumber .types ≤ n) s' :=
      (Store.Fresh.of_insert hi (.inl own.2.2)).trans (rest.fresh.mono fun n hn => by omega)
    have stays : ∀ r ∈ part.types, s'.typeOf? t r = some (s'.numberOf t r) ∧
        s'.numberOf t r = s₁.numberOf t r :=
      fun r hr => Store.numberOf_of_le later.le (encodes.stored r hr)
    constructor
    · exact encodes.inserts.trans later
    · exact (encodes.fresh.mono fun _ => .inr).trans (following.mono fun n hn => by omega)
    · intro q hq r hr
      obtain rfl | hq := List.mem_cons.mp hq
      · exact (stays r hr).1
      · exact rest.stored q hq r hr
    · intro u hu
      have same : part.fill (s'.numberOf t) = part.fill (s₁.numberOf t) :=
        TypePart.fill_congr fun r hr => (stays r hr).2
      rw [rest.rows u hu, Store.rowsOf_insert own hi, encodes.fresh.rowsOf_eq hu (by omega),
        List.append_assoc, ← List.filterMap_append, List.singleton_append, List.map_cons, same]
    · intro row hrow
      obtain hrow | ⟨q, hq, r, hr, e, walked, encoded⟩ := rest.new row hrow
      · obtain hrow | own' := Store.mem_rows_of_insert (v := .types) hi hrow
        · refine or_iff_not_imp_left.mpr fun old => ?_
          obtain ⟨r, hr, e, walked, encoded⟩ := (encodes.new row hrow).resolve_left old
          have new := (encodes.fresh.number (u := .types) rfl hrow).resolve_left old
          have there := Store.number_lt_nextNumber (u := .types) hrow
          refine ⟨part, List.mem_cons_self, r, hr, e, walked, encoded.of_fresh later.le following ?_⟩
          change s.nextNumber .types ≤ row.id.value at new
          change row.id.value < s₁.nextNumber .types at there
          omega
        · have numbered := congrArg (fun x : AnyRow => x.table.isNumbered) own'
          cases numbered.trans own.2.1
      · exact .inr ⟨q, List.mem_cons_of_mem part hq, r, hr, e,
          walked.of_le (encodes.inserts.trans inserted).le, encoded⟩

end

theorem rowsOf_next (hs : s.Sound) {u : Table} (hu : u.owner = .types) (hne : u ≠ .types) :
    s.rowsOf u ⟨s.nextNumber .types⟩ = [] := by
  refine List.filter_eq_nil_iff.mpr fun x hx => ?_
  simp only [decide_eq_true_eq]
  intro he
  have child : u.isNumbered = false := by
    rw [Table.isNumbered, hu]
    exact decide_eq_false fun h => hne h.symm
  have refers := Row.owner_mem_references x child
  rw [hu, he] at refers
  exact hs.new_number hx refers

/-- Interning a type adds rows of entries that it walks through, and each of them is encoded. -/
theorem intern_encodes {depth : Nat} {r : TypeRef} {a : TypeId} (hs : s.Sound)
    (h : intern t depth r s = .ok (a, s')) : t.Encodes [r] s s' ∧ s'.typeOf? t r = some a := by
  induction depth generalizing r s a s' with
  | zero => cases h
  | succ depth ih =>
    obtain ⟨e, he, hid⟩ := typeNamed?_of_intern h
    have found : s'.typeOf? t r = some a := by simp [Store.typeOf?, TypeTable.name?, he, hid]
    refine ⟨?_, found⟩
    have stored : ∀ q ∈ [r], s'.typeOf? t q = some (s'.numberOf t q) := by
      intro q hq
      rw [List.mem_singleton.mp hq, found, Store.numberOf_eq found]
    have inserts := intern_inserts h
    obtain ⟨e', he', known | ⟨hn, s₁, h₁, h₂⟩⟩ := intern_succ h
    · obtain ⟨-, rfl⟩ := known
      exact ⟨inserts, .refl _ _, stored, fun _ hrow => .inl hrow⟩
    · obtain rfl : e = e' := Option.some.inj (he.symm.trans he')
      obtain ⟨own, hi⟩ := reserve_ok h₁
      have number : a.value = s.nextNumber .types := congrArg RowId.value own
      have first := reserve_inserts h₁
      have rows : s₁.rows .types = s.rows .types ++ [e.row a] := by
        rw [Store.eq_push_of_insert hi]
        exact Store.rows_push_self ..
      have there : a.value < s₁.nextNumber .types :=
        Store.number_lt_nextNumber (u := .types) (r := e.row a) (by simp [rows])
      have completes := complete_completes (t := t) (fun hs h => ih hs h) (first.sound hs)
        (e.shape.parts_rows a) there h₂
      refine ⟨inserts, ?_, stored, fun row hrow => ?_⟩
      · refine (Store.Fresh.of_insert hi (Int.le_of_eq number.symm)).trans ?_
        exact completes.fresh.mono fun n hn => by omega
      obtain hrow | ⟨part, hp, c, hc, e', walked, encoded⟩ := completes.new row hrow
      · change row ∈ s₁.rows .types at hrow
        rw [rows] at hrow
        refine (List.mem_append.mp hrow).imp_right fun hrow => ?_
        obtain rfl := List.mem_singleton.mp hrow
        refine ⟨r, List.mem_singleton_self r, e, .self he hn, rfl, fun c hc => ?_,
          fun u hu hne => ?_⟩
        · obtain ⟨part, hp, hc⟩ := (TypeShape.mem_references a).mp hc
          exact completes.stored part hp c hc
        · have before : s₁.rowsOf u a = [] := by
            rw [Store.rowsOf, Store.eq_push_of_insert hi, Store.rows_push_of_ne _ _ hne, own]
            exact rowsOf_next hs hu hne
          have all := completes.rows u hu
          rw [before, List.nil_append] at all
          exact all
      · have hc : c ∈ e.shape.references := (TypeShape.mem_references a).mpr ⟨part, hp, hc⟩
        exact .inr ⟨r, List.mem_singleton_self r, e', .child he hn hc (walked.of_le first.le),
          encoded⟩

end Uncached

/-! ## The names that are added -/

theorem Store.typeNamed?_eq_none {s : Store} {name : String} :
    s.typeNamed? name = none ↔ ∀ row ∈ s.types, row.name ≠ name := by
  simp [typeNamed?]

namespace TypeTable.Encodes

variable {t : TypeTable} {s s' : Store} {r : TypeRef}

theorem added (h : t.Encodes [r] s s') {name : String} (old : s.typeNamed? name = none)
    (new : s'.typeNamed? name ≠ none) :
    ∃ row e, t.Walked s r e ∧ e.name = name ∧ e.Encoded t s' row := by
  rw [Ne, Store.typeNamed?_eq_none] at new
  push Not at new
  obtain ⟨row, hrow, rfl⟩ := new
  obtain hrow | ⟨q, hq, e, walked, encoded⟩ := h.new row hrow
  · exact absurd rfl (Store.typeNamed?_eq_none.mp old row hrow)
  · rw [List.mem_singleton.mp hq] at walked
    exact ⟨row, e, walked, (congrArg TypeRow.name encoded.own).symm, encoded⟩

variable (distinct : (t.entries.toList.map (·.name)).Nodup) (h : t.Encodes [r] s s')
include distinct h

theorem references_stored {e : TypeEntry} (he : e ∈ t.entries) (old : s.typeNamed? e.name = none)
    (new : s'.typeNamed? e.name ≠ none) :
    ∀ c ∈ e.shape.references, s'.typeOf? t c = some (s'.numberOf t c) := by
  obtain ⟨row, e', walked, same, encoded⟩ := h.added old new
  obtain rfl := List.inj_on_of_nodup_map distinct he.val walked.mem.val same.symm
  exact encoded.stored

/-- If no two entries share a name, the names that interning adds are those of the entries that it
walks through. -/
theorem names (name : String) :
    (s.typeNamed? name = none ∧ s'.typeNamed? name ≠ none) ↔
      ∃ e, t.Walked s r e ∧ e.name = name := by
  constructor
  · rintro ⟨old, new⟩
    obtain ⟨-, e, walked, hn, -⟩ := h.added old new
    exact ⟨e, walked, hn⟩
  · rintro ⟨e, walked, rfl⟩
    refine ⟨walked.entry, ?_⟩
    have stored {q : TypeRef} {e : TypeEntry} (walked : t.Walked s q e)
        (hq : s'.typeOf? t q = some (s'.numberOf t q)) : s'.typeNamed? e.name ≠ none := by
      induction walked with
      | self he _ =>
        simp only [Store.typeOf?, TypeTable.name?, he, Option.map_some, Option.bind_some] at hq
        rw [hq]
        simp
      | child he hn hc _ ih =>
        simp only [Store.typeOf?, TypeTable.name?, he, Option.map_some, Option.bind_some] at hq
        exact ih (references_stored distinct h (Array.mem_of_getElem? he) hn (by rw [hq]; simp) _ hc)
    exact stored walked (h.stored r (List.mem_singleton_self r))

end TypeTable.Encodes

end AccessDepth
