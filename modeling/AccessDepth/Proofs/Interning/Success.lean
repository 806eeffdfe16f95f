import AccessDepth.Proofs.Interning.Encoding
import AccessDepth.Proofs.Store.Record

/-!
# AccessDepth.Proofs.Interning.Success

In a sound store nothing stops interning but a missing type.

* `TypeShape.parts_place`, `parts_nodup`, `parts_links` — the rows that complete a type have places of
  their own, and refer to it and to the types of their parts.
* `TypeTable.unstored` — how many entries have names that are not stored. Each level of interning
  leaves fewer, so that the depth is never used up.
* `Uncached.intern_ends` — in a sound store a type is recorded, or a type is missing on the way.
* `Uncached.intern_succeeds` — every type of a closed table is recorded.
-/

namespace AccessDepth

/-! ## The places of the parts of a type -/

namespace TypePart

/-- The row of a part without the types of the part. -/
def blank : TypePart → AnyRow
  | .plain row => row
  | .one _ row => row .unknown
  | .two _ _ row => row .unknown .unknown

/-- Where the row of a part stands. It does not depend on the types of the part. -/
def place (part : TypePart) : Table × List Cell := part.blank.place

theorem Rows.blank {P : AnyRow → Prop} {part : TypePart} (h : part.Rows P) : P part.blank := by
  cases part with
  | plain row => exact h
  | one r row => exact h _
  | two r u row => exact h _ _

/-- The row of a part refers to a type, and to the types of the part. -/
def Links (id : TypeId) : TypePart → Prop
  | .plain row => ∀ ref ∈ Row.references row.table row.row, ref = .to id
  | .one _ row => ∀ a, ∀ ref ∈ Row.references (row a).table (row a).row, ref = .to id ∨ ref = .to a
  | .two _ _ row => ∀ a b, ∀ ref ∈ Row.references (row a b).table (row a b).row,
    ref = .to id ∨ ref = .to a ∨ ref = .to b

end TypePart

theorem Signature.groups_apart (s : Signature) : s.groups.Pairwise fun g g' => g.1 ≠ g'.1 := by
  simp [groups]

namespace TypeShape

variable (shape : TypeShape) (id : TypeId)

theorem parts_place : ∀ part ∈ shape.parts id, part.Rows fun r => r.place = part.place := by
  intro part hp
  cases shape with
  | basic b =>
    obtain ⟨signed, -, rfl⟩ := List.mem_map.mp hp
    rfl
  | array | slice | pointer | chan | named =>
    obtain rfl := List.mem_singleton.mp hp
    exact fun _ => rfl
  | map =>
    obtain rfl := List.mem_singleton.mp hp
    exact fun _ _ => rfl
  | struct fields =>
    obtain ⟨f, -, rfl⟩ := List.mem_map.mp hp
    exact fun _ => rfl
  | interface methods embedded =>
    obtain hp | hp := List.mem_append.mp hp
    · obtain ⟨m, -, rfl⟩ := List.mem_map.mp hp
      exact fun _ => rfl
    · obtain ⟨t, -, rfl⟩ := List.mem_map.mp hp
      exact fun _ => rfl
  | signature s =>
    obtain rfl | hp := List.mem_cons.mp hp
    · rfl
    · obtain ⟨g, -, hp⟩ := List.mem_flatMap.mp hp
      obtain ⟨p, -, rfl⟩ := List.mem_map.mp hp
      exact fun _ => rfl
  | typeParam | tuple => simp [parts] at hp
  | union terms =>
    obtain ⟨t, -, rfl⟩ := List.mem_map.mp hp
    exact fun _ => rfl

theorem parts_links : ∀ part ∈ shape.parts id, part.Links id := by
  intro part hp
  cases shape with
  | basic b =>
    obtain ⟨signed, -, rfl⟩ := List.mem_map.mp hp
    simp [TypePart.Links, Row.references_eq, Row.refs]
  | array | slice | pointer | chan | named =>
    obtain rfl := List.mem_singleton.mp hp
    simp [TypePart.Links, Row.references_eq, Row.refs]
  | map =>
    obtain rfl := List.mem_singleton.mp hp
    simp [TypePart.Links, Row.references_eq, Row.refs]
  | struct fields =>
    obtain ⟨f, -, rfl⟩ := List.mem_map.mp hp
    simp [TypePart.member, TypePart.Links, Row.references_eq, Row.refs]
  | interface methods embedded =>
    obtain hp | hp := List.mem_append.mp hp
    · obtain ⟨m, -, rfl⟩ := List.mem_map.mp hp
      simp [TypePart.member, TypePart.Links, Row.references_eq, Row.refs]
    · obtain ⟨t, -, rfl⟩ := List.mem_map.mp hp
      simp [TypePart.member, TypePart.Links, Row.references_eq, Row.refs]
  | signature s =>
    obtain rfl | hp := List.mem_cons.mp hp
    · simp [TypePart.Links, Row.references_eq, Row.refs]
    · obtain ⟨g, -, hp⟩ := List.mem_flatMap.mp hp
      obtain ⟨p, -, rfl⟩ := List.mem_map.mp hp
      simp [TypePart.signatureItem, TypePart.Links, Row.references_eq, Row.refs]
  | typeParam | tuple => simp [parts] at hp
  | union terms =>
    obtain ⟨t, -, rfl⟩ := List.mem_map.mp hp
    simp [TypePart.unionItem, TypePart.Links, Row.references_eq, Row.refs]

theorem nodup_numbered {α : Type} {part : Int × α → TypePart} (first : Int) (xs : List α)
    (h : ∀ x y, (part x).place = (part y).place → x.1 = y.1) :
    (((numbered first xs).map part).map TypePart.place).Nodup := by
  rw [List.map_map]
  exact nodup_map_of_key (numbered_nodup first xs) h

theorem signatureItems_nodup (id : TypeId) (role : SignatureRole) (params : List SignatureParam) :
    (((numbered 0 params).map fun (i, p) => TypePart.signatureItem id role i p).map
      TypePart.place).Nodup :=
  nodup_numbered 0 params fun x y he => by
    simpa [TypePart.signatureItem, TypePart.place, TypePart.blank, AnyRow.place, Row.key] using he

/-- No two parts have one place. -/
theorem parts_nodup : ((shape.parts id).map TypePart.place).Nodup := by
  cases shape with
  | basic b =>
    have one (x : Option Bool) : ((x.toList.map fun signed => TypePart.plain
        ⟨.typeInts, { type := id, signed := signed }⟩).map TypePart.place).Nodup := by
      cases x <;> simp
    exact one b.layout.signed
  | array | slice | pointer | chan | named | map => exact List.nodup_singleton _
  | struct fields =>
    exact nodup_numbered 0 fields fun x y he => by
      simpa [TypePart.member, TypePart.place, TypePart.blank, AnyRow.place, Row.key] using he
  | interface methods embedded =>
    unfold parts
    rw [List.map_append]
    refine (nodup_numbered 0 methods fun x y he => ?_).append
      (nodup_numbered methods.length embedded fun x y he => ?_) fun place left right => ?_
    · simpa [TypePart.member, TypePart.place, TypePart.blank, AnyRow.place, Row.key] using he
    · simpa [TypePart.member, TypePart.place, TypePart.blank, AnyRow.place, Row.key] using he
    · obtain ⟨_, hl, rfl⟩ := List.mem_map.mp left
      obtain ⟨_, hr, he⟩ := List.mem_map.mp right
      obtain ⟨x, hx, rfl⟩ := List.mem_map.mp hl
      obtain ⟨y, hy, rfl⟩ := List.mem_map.mp hr
      have same : y.1 = x.1 := by
        simpa [TypePart.member, TypePart.place, TypePart.blank, AnyRow.place, Row.key] using he
      have upper := (mem_numbered hx).2.1
      have lower := (mem_numbered hy).1
      omega
  | signature s =>
    unfold parts
    rw [List.map_cons]
    refine List.nodup_cons.mpr ⟨fun hm => ?_, ?_⟩
    · obtain ⟨_, hp, he⟩ := List.mem_map.mp hm
      obtain ⟨g, -, hp⟩ := List.mem_flatMap.mp hp
      obtain ⟨p, -, rfl⟩ := List.mem_map.mp hp
      cases congrArg Prod.fst he
    · rw [List.map_flatMap]
      refine List.nodup_flatMap.mpr ⟨fun g _ => signatureItems_nodup id g.1 g.2, s.groups_apart.imp ?_⟩
      intro g g' ne place left right
      obtain ⟨_, hl, rfl⟩ := List.mem_map.mp left
      obtain ⟨_, hr, he⟩ := List.mem_map.mp right
      obtain ⟨x, -, rfl⟩ := List.mem_map.mp hl
      obtain ⟨y, -, rfl⟩ := List.mem_map.mp hr
      have key : [Cell.ofId id, Cell.ofTerm g'.1, Cell.int y.1] =
          [Cell.ofId id, Cell.ofTerm g.1, Cell.int x.1] := (Prod.mk.inj he).2
      simp only [List.cons.injEq, true_and] at key
      exact ne (SignatureRole.ofTerm_inj key.1).symm
  | typeParam | tuple => exact .nil
  | union terms =>
    exact nodup_numbered 0 terms fun x y he => by
      simpa [TypePart.unionItem, TypePart.place, TypePart.blank, AnyRow.place, Row.key] using he

end TypeShape

/-! ## Rows that can be added -/

namespace Store

variable {s s' : Store}

theorem insert_of_has {r : AnyRow} (hc : Row.failedCondition? r.table r.row = none)
    (hv : s.Vacant r.table (Row.key r.table r.row))
    (hr : ∀ ref ∈ Row.references r.table r.row, s.has ref = true) :
    s.insert r.table r.row = .ok (s.push r.table r.row) := by
  obtain h | h := insert_ends hc hv
  · exact h
  · obtain ⟨ref, href, lacks⟩ := dangles_of_insert h
    rw [has_of_le (s.le_push _ _) (hr ref href)] at lacks
    cases lacks

theorem Fresh.vacant {P : Int → Prop} (h : Fresh P s s') {r : AnyRow} {id : TypeId}
    (hr : r.CompletesType id) (hid : ¬ P id.value)
    (hv : s.Vacant r.table (Row.key r.table r.row)) :
    s'.Vacant r.table (Row.key r.table r.row) := by
  intro x hx hk
  obtain hx | new := h.number hr.1 hx
  · exact hv x hx hk
  · obtain ⟨cells, key⟩ := Row.key_of_child x hr.2.1
    obtain ⟨cells', key'⟩ := Row.key_of_child r.row hr.2.1
    rw [key, key', hr.2.2] at hk
    exact hid (Cell.int.inj (List.cons.inj hk).1 ▸ new)

theorem has_typeNamed? {name : String} {id : TypeId} (h : s.typeNamed? name = some id) :
    s.has (.to id) = true := by
  obtain ⟨r, hr, rfl⟩ := Option.map_eq_some_iff.mp h
  exact has_iff.mpr ⟨r, List.mem_of_find?_eq_some hr, rfl⟩

theorem has_typeOf? {t : TypeTable} {r : TypeRef} {id : TypeId} (h : s.typeOf? t r = some id) :
    s.has (.to id) = true := by
  obtain ⟨name, -, hn⟩ := Option.bind_eq_some_iff.mp h
  exact has_typeNamed? hn

end Store

theorem AnyRow.CompletesType.condition {id : TypeId} {r : AnyRow} (h : r.CompletesType id) :
    Row.failedCondition? r.table r.row = none := by
  obtain ⟨owner, -, -⟩ := h
  obtain ⟨u, r⟩ := r
  cases u <;> first
    | rfl
    | cases owner

/-! ## Interning -/

/-- How many entries have names that are not stored. -/
def TypeTable.unstored (t : TypeTable) (s : Store) : Nat :=
  t.entries.toList.countP fun e => (s.typeNamed? e.name).isNone

namespace TypeTable

variable {t : TypeTable} {s s' : Store}

theorem unstored_le_size (t : TypeTable) (s : Store) : t.unstored s ≤ t.size := by
  rw [size, ← Array.length_toList]
  exact List.countP_le_length

theorem unstored_mono (h : s ≤ s') : t.unstored s' ≤ t.unstored s :=
  List.countP_mono_left fun e _ hn => by
    simp only [Option.isNone_iff_eq_none] at hn ⊢
    exact Store.typeNamed?_eq_none_of_le h hn

/-- Fewer names are not stored once one more is. -/
theorem unstored_lt (h : s ≤ s') {e : TypeEntry} (he : e ∈ t.entries)
    (hn : s.typeNamed? e.name = none) (hs : (s'.typeNamed? e.name).isSome = true) :
    t.unstored s' < t.unstored s := by
  obtain ⟨before, after, split⟩ := List.append_of_mem (Array.mem_toList_iff.mpr he)
  have stored : ¬ (s'.typeNamed? e.name).isNone = true := by
    simpa [Option.isSome_iff_ne_none] using hs
  have mono (l : List TypeEntry) : l.countP (fun e => (s'.typeNamed? e.name).isNone) ≤
      l.countP fun e => (s.typeNamed? e.name).isNone := List.countP_mono_left fun e _ hn => by
    simp only [Option.isNone_iff_eq_none] at hn ⊢
    exact Store.typeNamed?_eq_none_of_le h hn
  have first := mono before
  have second := mono after
  unfold unstored
  rw [split, List.countP_append, List.countP_append, List.countP_cons, List.countP_cons,
    if_neg stored, if_pos (by simp [hn])]
  omega

end TypeTable

namespace Uncached

variable {t : TypeTable} {s : Store}

/-- The types of a part get their rows, and the place of the row of the part stays free. Nothing but a
missing type stops this. -/
theorem complete_ends (type : TypeRef → Uncached TypeId) (id : TypeId) (parts : List TypePart)
    {k : Nat}
    (ht : ∀ {s r}, s.Sound → t.unstored s < k →
      (∃ a s', type r s = .ok (a, s') ∧ t.Encodes [r] s s' ∧ s'.has (.to a) = true) ∨
        type r s = .error .nilType)
    (hp : ∀ part ∈ parts, part.Rows (AnyRow.CompletesType id) ∧
      (part.Rows fun r => r.place = part.place) ∧ part.Links id)
    (hd : (parts.map TypePart.place).Nodup)
    (hv : ∀ part ∈ parts, s.Vacant part.place.1 part.place.2)
    (hs : s.Sound) (hk : t.unstored s < k) (hid : s.has (.to id) = true)
    (hn : id.value < s.nextNumber .types) :
    (∃ s', complete type parts s = .ok ((), s')) ∨ complete type parts s = .error .nilType := by
  induction parts generalizing s with
  | nil => exact .inl ⟨s, rfl⟩
  | cons part parts ih =>
    obtain ⟨completes, places, links⟩ := hp part List.mem_cons_self
    obtain ⟨new, distinct⟩ := List.nodup_cons.mp hd
    have here := hv part List.mem_cons_self
    have goesOn {s₁ : Store} {row : AnyRow} (inserts : Inserts (·.owner = .types) s s₁)
        (fresh : s.Fresh (s.nextNumber .types ≤ ·) s₁) (own : row.CompletesType id)
        (place : row.place = part.place)
        (there : ∀ ref ∈ Row.references row.table row.row, s₁.has ref = true) :
        (∃ s', (do
          write (.insert row.table row.row)
          complete type parts : Uncached Unit) s₁ = .ok ((), s')) ∨
        (do
          write (.insert row.table row.row)
          complete type parts : Uncached Unit) s₁ = .error .nilType := by
      have old : ¬ s.nextNumber .types ≤ id.value := by omega
      rw [← place] at here new
      have free := fresh.vacant own old here
      have inserted := Store.insert_of_has own.condition free there
      have all := inserts.trans (own.inserts inserted)
      rw [bind_of_ok (write_ok.mpr (Transaction.insert_ok.mpr inserted))]
      refine ih (fun q hq => hp q (List.mem_cons_of_mem part hq)) distinct (fun q hq => ?_)
        (all.sound hs) (Nat.lt_of_le_of_lt (TypeTable.unstored_mono all.le) hk)
        (Store.has_of_le all.le hid) (Int.lt_of_lt_of_le hn (Store.nextNumber_mono all.le _))
      have vacant := fresh.vacant (hp q (List.mem_cons_of_mem part hq)).1.blank old
        (hv q (List.mem_cons_of_mem part hq))
      exact vacant.push fun he => new (List.mem_map.mpr ⟨q, hq, he.symm⟩)
    cases part with
    | plain row =>
      exact goesOn (.refl s) (.refl _ s) completes places fun ref href => links ref href ▸ hid
    | one r row =>
      unfold complete
      obtain ⟨a, s₁, ha, encodes, stored⟩ | missing := ht (r := r) hs hk
      · rw [bind_of_ok ha]
        refine goesOn encodes.inserts encodes.fresh (completes a) (places a) fun ref href => ?_
        obtain rfl | rfl := links a ref href
        · exact Store.has_of_le encodes.inserts.le hid
        · exact stored
      · exact .inr (bind_of_error missing)
    | two r u row =>
      unfold complete
      obtain ⟨a, s₁, ha, first, stored⟩ | missing := ht (r := r) hs hk
      · rw [bind_of_ok ha]
        obtain ⟨b, s₂, hb, second, stored'⟩ | missing := ht (r := u) (first.inserts.sound hs)
          (Nat.lt_of_le_of_lt (TypeTable.unstored_mono first.inserts.le) hk)
        · rw [bind_of_ok hb]
          have both := first.append second
          refine goesOn both.inserts both.fresh (completes a b) (places a b) fun ref href => ?_
          obtain rfl | rfl | rfl := links a b ref href
          · exact Store.has_of_le both.inserts.le hid
          · exact Store.has_of_le second.inserts.le stored
          · exact stored'
        · exact .inr (bind_of_error missing)
      · exact .inr (bind_of_error missing)

/-- In a sound store a type gets its row unless a type is missing on the way. -/
theorem intern_ends {depth : Nat} (hs : s.Sound) (hd : t.unstored s < depth) (r : TypeRef) :
    (∃ a s', intern t depth r s = .ok (a, s')) ∨ intern t depth r s = .error .nilType := by
  induction depth generalizing s r with
  | zero => omega
  | succ depth ih =>
    unfold intern
    cases he : t.get? r with
    | none => exact .inr rfl
    | some e =>
      simp only
      cases hn : s.typeNamed? e.name with
      | some id => exact .inl ⟨id, s, rfl⟩
      | none =>
        have mem : e ∈ t.entries := Array.mem_of_getElem? he
        have vacant : s.Vacant .types (Row.key .types (e.row ⟨s.nextNumber .types⟩)) := by
          intro r hr hk
          have name : r.name = e.name := by simpa [Row.key, TypeEntry.row] using hk
          exact Store.typeNamed?_eq_none.mp hn r hr name
        have inserted : s.insert .types (e.row ⟨s.nextNumber .types⟩) =
            .ok (s.push .types (e.row ⟨s.nextNumber .types⟩)) :=
          Store.insert_of_has (r := ⟨.types, e.row ⟨s.nextNumber .types⟩⟩) rfl vacant
            (by simp [Row.references_eq, Row.refs])
        have reserved : reserve e s =
            .ok (⟨s.nextNumber .types⟩, s.push .types (e.row ⟨s.nextNumber .types⟩)) :=
          write_ok.mpr (Transaction.create_ok.mpr ⟨rfl, inserted⟩)
        have first : Inserts (·.owner = .types) s (s.push .types (e.row ⟨s.nextNumber .types⟩)) :=
          .one (u := .types) (r := e.row ⟨s.nextNumber .types⟩) rfl (fun _ => rfl) inserted
        have found := typeNamed?_of_reserve hn reserved
        have fewer := TypeTable.unstored_lt first.le mem hn (Option.isSome_of_eq_some found)
        have completed := complete_ends (t := t) (k := depth) (intern t depth)
          ⟨s.nextNumber .types⟩ (e.shape.parts ⟨s.nextNumber .types⟩)
          (fun {s r} hs hk => by
            obtain ⟨a, s', h⟩ | missing := ih hs hk r
            · obtain ⟨encodes, found⟩ := intern_encodes hs h
              exact .inl ⟨a, s', h, encodes, Store.has_typeOf? found⟩
            · exact .inr missing)
          (fun part hp => ⟨e.shape.parts_rows _ part hp, e.shape.parts_place _ part hp,
            e.shape.parts_links _ part hp⟩)
          (e.shape.parts_nodup _)
          (fun part hp => by
            have own := (e.shape.parts_rows _ part hp).blank
            have below : part.blank.table ≠ .types := fun h => by
              have unnumbered := own.2.1
              rw [h] at unnumbered
              cases unnumbered
            have missing : s.has ⟨part.blank.table.owner,
                Row.number part.blank.table part.blank.row⟩ = false := by
              rw [own.1, own.2.2]
              exact s.has_nextNumber .types
            exact (hs.vacant_of_child own.2.1 missing).push fun h => below (Prod.mk.inj h).1.symm)
          (first.sound hs) (by omega) (Store.has_typeNamed? found)
          (Store.number_lt_nextNumber (u := .types) (r := e.row ⟨s.nextNumber .types⟩)
            (by rw [Store.rows_push_self]; exact List.mem_append_right _ List.mem_cons_self))
        simp only
        rw [bind_of_ok reserved]
        obtain ⟨s', done⟩ | missing := completed
        · exact .inl ⟨⟨s.nextNumber .types⟩, s', bind_of_ok done⟩
        · exact .inr (bind_of_error missing)

/-- In a closed table every type gets its row. -/
theorem intern_succeeds (hc : t.Closed) {depth : Nat} {r : TypeRef} (hs : s.Sound)
    (hd : t.unstored s < depth) (hr : (t.get? r).isSome = true) :
    ∃ a s', intern t depth r s = .ok (a, s') :=
  (intern_ends hs hd r).resolve_right fun h => intern_error hc hr h rfl

end Uncached
end AccessDepth
