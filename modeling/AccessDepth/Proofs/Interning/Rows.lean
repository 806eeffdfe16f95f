import AccessDepth.Proofs.Interning
import AccessDepth.Proofs.Store.Described

/-!
# AccessDepth.Proofs.Interning.Rows

Which rows interning adds.

* `TypeEntry.Has` — a row is one of an entry: its own, or one that completes it.
* `TypeEntry.Complete` — all rows of an entry are stored.
* `Uncached.intern_adds` — interning adds rows of entries that are reached only, and the entries
  whose names it adds are complete in the end.
* `TypeEntry.Alike` — entries with the same name and structure, whose types have the same names.
* `TypeEntry.Alike.tell` — stores say the same of them.
-/

namespace AccessDepth

def Store.typeOf? (s : Store) (t : TypeTable) (r : TypeRef) : Option TypeId :=
  (t.name? r).bind s.typeNamed?

theorem Store.typeOf?_of_le {s s' : Store} (h : s ≤ s') {t : TypeTable} {r : TypeRef} {id : TypeId}
    (hr : s.typeOf? t r = some id) : s'.typeOf? t r = some id := by
  obtain ⟨name, hn, hr⟩ := Option.bind_eq_some_iff.mp hr
  exact Option.bind_eq_some_iff.mpr ⟨name, hn, typeNamed?_of_le h hr⟩

theorem Store.mem_rows_of_insert {s s' : Store} {u v : Table} {r : Row u} {x : Row v}
    (h : s.insert u r = .ok s') (hx : x ∈ s'.rows v) :
    x ∈ s.rows v ∨ (⟨v, x⟩ : AnyRow) = ⟨u, r⟩ := by
  rw [Store.eq_push_of_insert h] at hx
  by_cases e : v = u
  · subst e
    rw [Store.rows_push_self] at hx
    obtain hx | hx := List.mem_append.mp hx
    · exact .inl hx
    · exact .inr (by rw [List.mem_singleton.mp hx])
  · exact .inl (Store.rows_push_of_ne s r e ▸ hx)

namespace TypePart

/-- The row that a part is recorded as, once the types that it refers to are stored. -/
def row? (t : TypeTable) (s : Store) : TypePart → Option AnyRow
  | .plain row => some row
  | .one r row => (s.typeOf? t r).map row
  | .two r r' row => (s.typeOf? t r).bind fun id => (s.typeOf? t r').map (row id)

theorem row?_of_le {s s' : Store} (h : s ≤ s') {t : TypeTable} {part : TypePart} {row : AnyRow}
    (hr : part.row? t s = some row) : part.row? t s' = some row := by
  cases part with
  | plain => exact hr
  | one r row =>
    obtain ⟨id, hid, rfl⟩ := Option.map_eq_some_iff.mp hr
    exact Option.map_eq_some_iff.mpr ⟨id, Store.typeOf?_of_le h hid, rfl⟩
  | two r r' row =>
    obtain ⟨id, hid, hr⟩ := Option.bind_eq_some_iff.mp hr
    obtain ⟨id', hid', rfl⟩ := Option.map_eq_some_iff.mp hr
    exact Option.bind_eq_some_iff.mpr ⟨id, Store.typeOf?_of_le h hid,
      Option.map_eq_some_iff.mpr ⟨id', Store.typeOf?_of_le h hid', rfl⟩⟩

end TypePart

namespace TypeEntry

def row (e : TypeEntry) (id : TypeId) : TypeRow :=
  { id := id, kind := e.shape.kind, name := e.name, length := e.shape.length? }

/-- Whether a row is one of an entry: its own, or one that completes it. -/
def Has (t : TypeTable) (e : TypeEntry) (s : Store) (r : AnyRow) : Prop :=
  ∃ id, s.typeNamed? e.name = some id ∧
    (r = ⟨.types, e.row id⟩ ∨ ∃ part ∈ e.shape.parts id, part.row? t s = some r)

/-- Whether all rows of an entry are stored. -/
def Complete (t : TypeTable) (e : TypeEntry) (s : Store) : Prop :=
  ∃ id, s.typeNamed? e.name = some id ∧ e.row id ∈ s.types ∧
    ∀ part ∈ e.shape.parts id, ∃ r, part.row? t s = some r ∧ r.row ∈ s.rows r.table

variable {t : TypeTable} {e : TypeEntry} {s s' : Store}

theorem Has.of_le {r : AnyRow} (h : e.Has t s r) (hle : s ≤ s') : e.Has t s' r := by
  obtain ⟨id, hid, hr⟩ := h
  refine ⟨id, Store.typeNamed?_of_le hle hid, hr.imp_right fun ⟨part, hp, hr⟩ => ?_⟩
  exact ⟨part, hp, TypePart.row?_of_le hle hr⟩

theorem Complete.of_le (h : e.Complete t s) (hle : s ≤ s') : e.Complete t s' := by
  obtain ⟨id, hid, hrow, hparts⟩ := h
  refine ⟨id, Store.typeNamed?_of_le hle hid, (hle .types).subset hrow, fun part hp => ?_⟩
  obtain ⟨r, hr, hm⟩ := hparts part hp
  exact ⟨r, TypePart.row?_of_le hle hr, (hle r.table).subset hm⟩

end TypeEntry

/-- With the name of an entry, some names hold those of the types that it refers to. -/
def TypeTable.Reaches (t : TypeTable) (names : String → Prop) : Prop :=
  ∀ e ∈ t.entries, names e.name → ∀ id, ∀ part ∈ e.shape.parts id, ∀ r ∈ part.types,
    ∀ name, t.name? r = some name → names name

/-! ## What is added -/

/-- What interning adds: rows of entries with some names, and every entry whose name is added is
complete. -/
structure TypeTable.Adds (t : TypeTable) (names : String → Prop) (s s' : Store) : Prop where
  le : s ≤ s'
  rows : ∀ u, ∀ r ∈ s'.rows u, r ∈ s.rows u ∨ ∃ e ∈ t.entries, names e.name ∧ e.Has t s' ⟨u, r⟩
  types : ∀ r ∈ s'.types, r ∈ s.types ∨ ∃ e ∈ t.entries, e.name = r.name ∧ e.Complete t s'

namespace TypeTable.Adds

variable {t : TypeTable} {names : String → Prop} {s s' s'' : Store}

theorem refl (s : Store) : t.Adds names s s where
  le := le_refl s
  rows _ _ hr := .inl hr
  types _ hr := .inl hr

theorem trans (h : t.Adds names s s') (h' : t.Adds names s' s'') : t.Adds names s s'' where
  le := le_trans h.le h'.le
  rows u r hr := by
    obtain hr | new := h'.rows u r hr
    · obtain hr | ⟨e, he, hn, has⟩ := h.rows u r hr
      · exact .inl hr
      · exact .inr ⟨e, he, hn, has.of_le h'.le⟩
    · exact .inr new
  types r hr := by
    obtain hr | new := h'.types r hr
    · obtain hr | ⟨e, he, hn, complete⟩ := h.types r hr
      · exact .inl hr
      · exact .inr ⟨e, he, hn, complete.of_le h'.le⟩
    · exact .inr new

theorem of_insert {e : TypeEntry} (he : e ∈ t.entries) (hn : names e.name) {row : AnyRow}
    (h : s.insert row.table row.row = .ok s') (has : e.Has t s row) (ht : row.table ≠ .types) :
    t.Adds names s s' where
  le := Store.le_of_insert h
  rows u r hr := by
    obtain hr | new := Store.mem_rows_of_insert h hr
    · exact .inl hr
    · exact .inr ⟨e, he, hn, (new ▸ has : e.Has t s ⟨u, r⟩).of_le (Store.le_of_insert h)⟩
  types r hr := by
    obtain hr | new := Store.mem_rows_of_insert (v := .types) h hr
    · exact .inl hr
    · exact absurd (congrArg AnyRow.table new).symm ht

end TypeTable.Adds

namespace Uncached

variable {t : TypeTable} {names : String → Prop} {s s' : Store}

theorem Fills.adds {type : TypeRef → Uncached TypeId} {part : TypePart} {row : AnyRow}
    (ht : ∀ r ∈ part.types, ∀ s a s',
      type r s = .ok (a, s') → t.Adds names s s' ∧ s'.typeOf? t r = some a)
    (h : Fills type part s s' row) : t.Adds names s s' ∧ part.row? t s' = some row := by
  cases h with
  | plain => exact ⟨.refl s, rfl⟩
  | one ha =>
    obtain ⟨first, ha⟩ := ht _ List.mem_cons_self _ _ _ ha
    exact ⟨first, by simp [TypePart.row?, ha]⟩
  | two ha hb =>
    obtain ⟨first, ha⟩ := ht _ List.mem_cons_self _ _ _ ha
    obtain ⟨second, hb⟩ := ht _ (List.mem_cons_of_mem _ List.mem_cons_self) _ _ _ hb
    have ha' := Store.typeOf?_of_le second.le ha
    exact ⟨first.trans second, by simp [TypePart.row?, ha', hb]⟩

/-- The parts of an entry that was reserved. What its types add is added, and then every part is
stored. -/
theorem complete_adds {type : TypeRef → Uncached TypeId} {e : TypeEntry} (he : e ∈ t.entries)
    (hn : names e.name) {id : TypeId}
    (ht : ∀ part ∈ e.shape.parts id, ∀ r ∈ part.types, ∀ s a s',
      type r s = .ok (a, s') → t.Adds names s s' ∧ s'.typeOf? t r = some a)
    {parts : List TypePart} (hp : parts ⊆ e.shape.parts id) (hid : s.typeNamed? e.name = some id)
    (h : complete type parts s = .ok ((), s')) :
    t.Adds names s s' ∧
      ∀ part ∈ parts, ∃ r, part.row? t s' = some r ∧ r.row ∈ s'.rows r.table := by
  induction parts generalizing s with
  | nil =>
    cases h
    exact ⟨.refl _, fun part hp => by cases hp⟩
  | cons part parts ih =>
    have here : part ∈ e.shape.parts id := hp List.mem_cons_self
    obtain ⟨s₁, row, s₂, fills, inserted, h₃⟩ := complete_cons h
    obtain ⟨first, hrow⟩ := fills.adds (ht part here)
    have hid₁ := Store.typeNamed?_of_le first.le hid
    have completes : row.table ≠ .types := by
      obtain ⟨-, unnumbered, -⟩ := fills.rows (e.shape.parts_rows id part here)
      intro he
      rw [he] at unnumbered
      cases unnumbered
    have second : t.Adds names s₁ s₂ :=
      .of_insert he hn inserted ⟨id, hid₁, .inr ⟨part, here, hrow⟩⟩ completes
    obtain ⟨third, stored⟩ := ih (fun q hq => hp (List.mem_cons_of_mem part hq))
      (Store.typeNamed?_of_le second.le hid₁) h₃
    refine ⟨first.trans (second.trans third), fun q hq => ?_⟩
    obtain rfl | hq := List.mem_cons.mp hq
    · refine ⟨row, TypePart.row?_of_le (le_trans second.le third.le) hrow, ?_⟩
      refine (third.le row.table).subset ?_
      rw [Store.eq_push_of_insert inserted, Store.rows_push_self]
      exact List.mem_append_right _ List.mem_cons_self
    · exact stored q hq

/-- Interning adds rows of entries that are reached, and the entries whose names it adds are complete
in the end. -/
theorem intern_adds (hreach : t.Reaches names) {depth : Nat} {r : TypeRef} {id : TypeId}
    (hr : ∀ name, t.name? r = some name → names name)
    (h : intern t depth r s = .ok (id, s')) :
    t.Adds names s s' ∧ s'.typeOf? t r = some id := by
  induction depth generalizing r s id s' with
  | zero => cases h
  | succ depth ih =>
    obtain ⟨e, he, hid⟩ := typeNamed?_of_intern h
    refine ⟨?_, by simp [Store.typeOf?, TypeTable.name?, he, hid]⟩
    obtain ⟨e', he', ⟨-, rfl⟩ | ⟨hs, s₁, h₁, h₂⟩⟩ := intern_succ h
    · exact .refl _
    · obtain rfl : e = e' := Option.some.inj (he.symm.trans he')
      obtain ⟨-, hi⟩ := reserve_ok h₁
      have hm : e ∈ t.entries := Array.mem_of_getElem? he
      have hn : names e.name := hr e.name (by simp [TypeTable.name?, he])
      have reserved := typeNamed?_of_reserve hs h₁
      obtain ⟨adds, stored⟩ := complete_adds hm hn
        (fun part hp u hu _ _ _ h => ih (hreach e hm hn id part hp u hu) h) (List.Subset.refl _)
        reserved h₂
      have own : e.row id ∈ s₁.types := by
        have rows : s₁.rows .types = s.rows .types ++ [e.row id] := by
          rw [Store.eq_push_of_insert hi]
          exact Store.rows_push_self ..
        exact (rows ▸ List.mem_append_right _ List.mem_cons_self : e.row id ∈ s₁.rows .types)
      have complete : e.Complete t s' :=
        ⟨id, Store.typeNamed?_of_le adds.le reserved, (adds.le .types).subset own,
          stored⟩
      refine ⟨le_trans (Store.le_of_insert hi) adds.le, fun u x hx => ?_, fun x hx => ?_⟩
      · obtain hx | new := adds.rows u x hx
        · obtain hx | new := Store.mem_rows_of_insert hi hx
          · exact .inl hx
          · exact .inr ⟨e, hm, hn, id, Store.typeNamed?_of_le adds.le reserved, .inl new⟩
        · exact .inr new
      · obtain hx | new := adds.types x hx
        · obtain hx | new := Store.mem_rows_of_insert (v := .types) hi hx
          · exact .inl hx
          · cases new
            exact .inr ⟨e, hm, rfl, complete⟩
        · exact .inr new

end Uncached

/-! ## Entries that agree -/

section

variable (t t' : TypeTable)

def TypeMember.Alike (m m' : TypeMember) : Prop :=
  m.name = m'.name ∧ t.name? m.type = t'.name? m'.type ∧ m.embedded = m'.embedded

def SignatureParam.Alike (p p' : SignatureParam) : Prop :=
  p.name = p'.name ∧ t.name? p.type = t'.name? p'.type

def UnionTerm.Alike (u u' : UnionTerm) : Prop :=
  t.name? u.type = t'.name? u'.type ∧ u.tilde = u'.tilde

/-- The same structure, with types of the same names. -/
def TypeShape.Alike : TypeShape → TypeShape → Prop
  | .basic b, .basic b' => b = b'
  | .array n r, .array n' r' => n = n' ∧ t.name? r = t'.name? r'
  | .slice r, .slice r' => t.name? r = t'.name? r'
  | .pointer r, .pointer r' => t.name? r = t'.name? r'
  | .map k v, .map k' v' => t.name? k = t'.name? k' ∧ t.name? v = t'.name? v'
  | .chan d r, .chan d' r' => d = d' ∧ t.name? r = t'.name? r'
  | .struct fs, .struct fs' => List.Forall₂ (TypeMember.Alike t t') fs fs'
  | .interface ms rs, .interface ms' rs' =>
    List.Forall₂ (TypeMember.Alike t t') ms ms' ∧
      List.Forall₂ (fun r r' => t.name? r = t'.name? r') rs rs'
  | .named p n r, .named p' n' r' => p = p' ∧ n = n' ∧ t.name? r = t'.name? r'
  | .signature s, .signature s' =>
    s.variadic = s'.variadic ∧
      List.Forall₂ (fun g g' => g.1 = g'.1 ∧ List.Forall₂ (SignatureParam.Alike t t') g.2 g'.2)
        s.groups s'.groups
  | .typeParam n, .typeParam n' => n = n'
  | .tuple rs, .tuple rs' => List.Forall₂ (fun r r' => t.name? r = t'.name? r') rs rs'
  | .union us, .union us' => List.Forall₂ (UnionTerm.Alike t t') us us'
  | _, _ => False

/-- The same name and the same structure. -/
def TypeEntry.Alike (e e' : TypeEntry) : Prop :=
  e.name = e'.name ∧ e.shape.Alike t t' e'.shape

end

section

variable {t t' : TypeTable} {s s' : Store} {id id' : TypeId}

/-- Parts of which two stores say the same once their types are stored. -/
def TypePart.Alike (t t' : TypeTable) (s s' : Store) : TypePart → TypePart → Prop
  | .plain row, .plain row' => s.tell row = s'.tell row'
  | .one r row, .one r' row' =>
    t.name? r = t'.name? r' ∧ ∀ a a' : TypeId,
      s.nameOf .types a.value = s'.nameOf .types a'.value → s.tell (row a) = s'.tell (row' a')
  | .two r u row, .two r' u' row' =>
    t.name? r = t'.name? r' ∧ t.name? u = t'.name? u' ∧ ∀ a b a' b' : TypeId,
      s.nameOf .types a.value = s'.nameOf .types a'.value →
        s.nameOf .types b.value = s'.nameOf .types b'.value →
          s.tell (row a b) = s'.tell (row' a' b')
  | _, _ => False

theorem forall₂_numbered {α β : Type} {R : α → β → Prop} {xs : List α} {ys : List β}
    (h : List.Forall₂ R xs ys) (n : Int) :
    List.Forall₂ (fun a b => a.1 = b.1 ∧ R a.2 b.2) (numbered n xs) (numbered n ys) := by
  induction h generalizing n with
  | nil => exact .nil
  | cons hr _ ih => exact .cons ⟨rfl, hr⟩ (ih (n + 1))

theorem TypePart.members_alike {ms ms' : List TypeMember}
    (h : List.Forall₂ (TypeMember.Alike t t') ms ms') (embedded : TypeMember → Bool)
    (he : ∀ m m', TypeMember.Alike t t' m m' → embedded m = embedded m')
    (hid : s.nameOf .types id.value = s'.nameOf .types id'.value) :
    List.Forall₂ (TypePart.Alike t t' s s')
      ((numbered 0 ms).map fun (i, m) => .member id i (embedded m) (some m.name) m.type)
      ((numbered 0 ms').map fun (i, m) => .member id' i (embedded m) (some m.name) m.type) := by
  rw [List.forall₂_map_left_iff, List.forall₂_map_right_iff]
  refine (forall₂_numbered h 0).imp fun m m' hm => ?_
  obtain ⟨hi, hm⟩ := hm
  refine ⟨hm.2.1, fun a a' ha => ?_⟩
  simp [Store.tell, Store.describe, Table.columns, Row.cells, Table.isNumbered, hid, ha, hi,
    he _ _ hm, hm.1]

/-- The parts of structures that are alike are alike, one by one. -/
theorem TypeShape.Alike.parts {shape shape' : TypeShape} (h : shape.Alike t t' shape')
    (hid : s.nameOf .types id.value = s'.nameOf .types id'.value) :
    List.Forall₂ (TypePart.Alike t t' s s') (shape.parts id) (shape'.parts id') := by
  cases shape <;> cases shape' <;> try exact h.elim
  case basic b b' =>
    obtain rfl : b = b' := h
    rw [TypeShape.parts, TypeShape.parts, List.forall₂_map_left_iff, List.forall₂_map_right_iff]
    refine List.forall₂_same.mpr fun signed _ => ?_
    simp [TypePart.Alike, Store.tell, Store.describe, Table.columns, Row.cells, Table.isNumbered, hid]
  case array n r n' r' =>
    obtain ⟨rfl, hr⟩ := h
    refine .cons ⟨hr, fun a a' ha => ?_⟩ .nil
    simp [Store.tell, Store.describe, Table.columns, Row.cells, Table.isNumbered, hid, ha]
  case slice r r' =>
    refine .cons ⟨h, fun a a' ha => ?_⟩ .nil
    simp [Store.tell, Store.describe, Table.columns, Row.cells, Table.isNumbered, hid, ha]
  case pointer r r' =>
    refine .cons ⟨h, fun a a' ha => ?_⟩ .nil
    simp [Store.tell, Store.describe, Table.columns, Row.cells, Table.isNumbered, hid, ha]
  case map k v k' v' =>
    refine .cons ⟨h.1, h.2, fun a b a' b' ha hb => ?_⟩ .nil
    simp [Store.tell, Store.describe, Table.columns, Row.cells, Table.isNumbered, hid, ha, hb]
  case chan d r d' r' =>
    obtain ⟨rfl, hr⟩ := h
    refine .cons ⟨hr, fun a a' ha => ?_⟩ .nil
    simp [Store.tell, Store.describe, Table.columns, Row.cells, Table.isNumbered, hid, ha]
  case struct fs fs' => exact TypePart.members_alike h (·.embedded) (fun _ _ hm => hm.2.2) hid
  case interface ms rs ms' rs' =>
    obtain ⟨hm, hr⟩ := h
    refine List.rel_append (TypePart.members_alike hm (fun _ => false) (fun _ _ _ => rfl) hid) ?_
    rw [List.forall₂_map_left_iff, List.forall₂_map_right_iff, hm.length_eq]
    refine (forall₂_numbered hr _).imp fun r r' hr => ⟨hr.2, fun a a' ha => ?_⟩
    simp [Store.tell, Store.describe, Table.columns, Row.cells, Table.isNumbered, hid, ha, hr.1]
  case named p n r p' n' r' =>
    obtain ⟨rfl, rfl, hr⟩ := h
    refine .cons ⟨hr, fun a a' ha => ?_⟩ .nil
    simp [Store.tell, Store.describe, Table.columns, Row.cells, Table.isNumbered, hid, ha]
  case signature g g' =>
    obtain ⟨hv, hg⟩ := h
    have generic : g.isGeneric = g'.isGeneric := by
      simp only [Signature.groups, List.forall₂_cons, true_and] at hg
      have typeParams := hg.2.2.2.1.length_eq
      cases ht : g.typeParams <;> cases ht' : g'.typeParams <;> simp_all [Signature.isGeneric]
    refine .cons ?_ ?_
    · simp [TypePart.Alike, Store.tell, Store.describe, Table.columns, Row.cells, Table.isNumbered,
        hid, hv, generic]
    · refine List.rel_flatMap hg fun x x' hx => ?_
      rw [List.forall₂_map_left_iff, List.forall₂_map_right_iff]
      refine (forall₂_numbered hx.2 0).imp fun p p' hp => ⟨hp.2.2, fun a a' ha => ?_⟩
      simp [Store.tell, Store.describe, Table.columns, Row.cells, Table.isNumbered, hid, ha, hp.1,
        hp.2.1, hx.1]
  case typeParam | tuple => exact .nil
  case union us us' =>
    rw [TypeShape.parts, TypeShape.parts, List.forall₂_map_left_iff, List.forall₂_map_right_iff]
    refine (forall₂_numbered h 0).imp fun u u' hu => ⟨hu.2.1, fun a a' ha => ?_⟩
    simp [Store.tell, Store.describe, Table.columns, Row.cells, Table.isNumbered, hid, ha, hu.1,
      hu.2.2]

theorem forall₂_mem {α β : Type} {R : α → β → Prop} {xs : List α} {ys : List β}
    (h : List.Forall₂ R xs ys) {x : α} (hx : x ∈ xs) : ∃ y ∈ ys, R x y := by
  induction h with
  | nil => cases hx
  | @cons a b as bs hr _ ih =>
    obtain rfl | hx := List.mem_cons.mp hx
    · exact ⟨b, List.mem_cons_self, hr⟩
    · obtain ⟨y, hy, hxy⟩ := ih hx
      exact ⟨y, List.mem_cons_of_mem b hy, hxy⟩

theorem Store.nameOf_typeOf? (hs : s.Sound) {r : TypeRef} {id : TypeId}
    (h : s.typeOf? t r = some id) : s.nameOf .types id.value = (t.name? r).map .type := by
  obtain ⟨name, hn, hid⟩ := Option.bind_eq_some_iff.mp h
  rw [nameOf_typeNamed? hs hid, hn, Option.map_some]

/-- The rows of parts that are alike say the same. -/
theorem TypePart.Alike.tell (hs : s.Sound) (hs' : s'.Sound) {part part' : TypePart} {r r' : AnyRow}
    (h : part.Alike t t' s s' part') (hr : part.row? t s = some r)
    (hr' : part'.row? t' s' = some r') : s.tell r = s'.tell r' := by
  have same {u u' : TypeRef} {a a' : TypeId} (hu : t.name? u = t'.name? u')
      (ha : s.typeOf? t u = some a) (ha' : s'.typeOf? t' u' = some a') :
      s.nameOf .types a.value = s'.nameOf .types a'.value := by
    rw [Store.nameOf_typeOf? hs ha, Store.nameOf_typeOf? hs' ha', hu]
  cases part with
  | plain row =>
    cases part' with
    | plain row' =>
      cases hr
      cases hr'
      exact h
    | one | two => exact h.elim
  | one u row =>
    cases part' with
    | one u' row' =>
      obtain ⟨a, ha, rfl⟩ := Option.map_eq_some_iff.mp hr
      obtain ⟨a', ha', rfl⟩ := Option.map_eq_some_iff.mp hr'
      exact h.2 a a' (same h.1 ha ha')
    | plain | two => exact h.elim
  | two u v row =>
    cases part' with
    | two u' v' row' =>
      obtain ⟨a, ha, hr⟩ := Option.bind_eq_some_iff.mp hr
      obtain ⟨b, hb, rfl⟩ := Option.map_eq_some_iff.mp hr
      obtain ⟨a', ha', hr'⟩ := Option.bind_eq_some_iff.mp hr'
      obtain ⟨b', hb', rfl⟩ := Option.map_eq_some_iff.mp hr'
      exact h.2.2 a b a' b' (same h.1 ha ha') (same h.2.1 hb hb')
    | plain | one => exact h.elim

theorem TypeShape.Alike.own {shape shape' : TypeShape} (h : shape.Alike t t' shape') :
    shape.kind = shape'.kind ∧ shape.length? = shape'.length? := by
  cases shape <;> cases shape' <;> try exact h.elim
  case basic =>
    cases h
    exact ⟨rfl, rfl⟩
  case array =>
    cases h.1
    exact ⟨rfl, rfl⟩
  all_goals exact ⟨rfl, rfl⟩

/-- Where an entry is complete, the same is said of it as of an entry that is alike. -/
theorem TypeEntry.Alike.tell (hs : s.Sound) (hs' : s'.Sound) {e e' : TypeEntry}
    (h : e.Alike t t' e') {r : AnyRow} (hr : e.Has t s r) (hc : e'.Complete t' s') :
    ∃ x ∈ s'.rows r.table, s'.describe r.table x = s.describe r.table r.row := by
  obtain ⟨id, hid, hr⟩ := hr
  obtain ⟨id', hid', hrow, hparts⟩ := hc
  have same : s.nameOf .types id.value = s'.nameOf .types id'.value := by
    rw [Store.nameOf_typeNamed? hs hid, Store.nameOf_typeNamed? hs' hid', h.1]
  obtain rfl | ⟨part, hp, hr⟩ := hr
  · refine ⟨e'.row id', hrow, ?_⟩
    obtain ⟨kind, length⟩ := h.2.own
    simp [Store.describe, Table.columns, Row.cells, Table.isNumbered, Table.owner, TypeEntry.row,
      kind, length, h.1]
  · obtain ⟨part', hp', alike⟩ := forall₂_mem (h.2.parts same) hp
    obtain ⟨⟨u, x⟩, hx, hm⟩ := hparts part' hp'
    obtain ⟨v, r⟩ := r
    have told := alike.tell hs hs' hr hx
    obtain rfl : v = u := congrArg Prod.fst told
    exact ⟨x, hm, (congrArg Prod.snd told).symm⟩

/-- Where an entry is complete, the types of an entry that is alike are stored. -/
theorem TypeEntry.Alike.reaches {e e' : TypeEntry} (h : e.Alike t t' e') (hc : e'.Complete t' s')
    {part : TypePart} (hp : part ∈ e.shape.parts id) {r : TypeRef} (hr : r ∈ part.types)
    {name : String} (hn : t.name? r = some name) : (s'.typeNamed? name).isSome = true := by
  have stored {r' : TypeRef} {a : TypeId} (ha : s'.typeOf? t' r' = some a)
      (same : t.name? r = t'.name? r') : (s'.typeNamed? name).isSome = true := by
    obtain ⟨name', hn', ha⟩ := Option.bind_eq_some_iff.mp ha
    obtain rfl : name = name' := Option.some.inj (hn.symm.trans (same.trans hn'))
    exact Option.isSome_of_eq_some ha
  obtain ⟨id', -, -, hparts⟩ := hc
  have parts : List.Forall₂ (TypePart.Alike t t' .initial .initial) (e.shape.parts id)
      (e'.shape.parts id') := h.2.parts rfl
  obtain ⟨part', hp', alike⟩ := forall₂_mem parts hp
  obtain ⟨row', hrow, -⟩ := hparts part' hp'
  cases part with
  | plain => cases hr
  | one u row =>
    cases part' with
    | one u' row' =>
      obtain rfl := List.mem_singleton.mp hr
      obtain ⟨a, ha, -⟩ := Option.map_eq_some_iff.mp hrow
      exact stored ha alike.1
    | plain | two => exact alike.elim
  | two u v row =>
    cases part' with
    | two u' v' row' =>
      obtain ⟨a, ha, hrow⟩ := Option.bind_eq_some_iff.mp hrow
      obtain ⟨b, hb, -⟩ := Option.map_eq_some_iff.mp hrow
      simp only [TypePart.types, List.mem_cons, List.not_mem_nil, or_false] at hr
      obtain rfl | rfl := hr
      · exact stored ha alike.1
      · exact stored hb alike.2.1
    | plain | one => exact alike.elim

end
end AccessDepth
