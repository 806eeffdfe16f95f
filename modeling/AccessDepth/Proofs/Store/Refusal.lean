import AccessDepth.Proofs.Store.Sound

/-!
# AccessDepth.Proofs.Store.Refusal

Why a store refuses rows.

* `Row.refs` — the rows that a row refers to, by its fields.
* `AnyRow.place`, `Store.Vacant` — the table and the key of a row; no row of a table has a key.
* `Transaction.Addable` — rows that meet their conditions, at vacant places of their own.
* `insertAll_ends`, `ensure_ends`, `createOrIgnore_ends` — such rows are added, unless one of them
  refers to a row that is not there.
-/

namespace AccessDepth

/-! ## What rows refer to -/

def Reference.to {t : Table} (id : RowId t) : Reference := ⟨t, id.value⟩

/-- The functions around a node that has them. -/
def Enclosing.refs (e : Enclosing) : List Reference :=
  (e.outermost.map .to).toList ++ (e.innermost.map .to).toList

/-- What a row refers to, by its fields. -/
def Row.refs : (t : Table) → Row t → List Reference
  | .files, _ | .types, _ => []
  | .typeInts, r => [.to r.type]
  | .typeArrays, r => [.to r.type, .to r.base]
  | .typeElems, r => [.to r.type, .to r.base]
  | .typeMaps, r => [.to r.type, .to (TypeMapRow.key r), .to (TypeMapRow.value r)]
  | .typeChans, r => [.to r.type, .to r.base]
  | .typeMembers, r => [.to r.type, .to r.member]
  | .typeNamed, r => [.to r.type, .to r.underlying]
  | .typeFuncs, r => [.to r.type]
  | .typeFuncSigs, r => [.to r.type, .to r.member]
  | .typeUnions, r => [.to r.type, .to r.term]
  | .functions, r => .to r.file :: ((r.parent.map .to).toList ++ (r.type.map .to).toList)
  | .functionSigs, r => .to r.function :: (r.type.map .to).toList
  | .variables, r => .to r.file :: ((r.type.map .to).toList ++ (r.function.map .to).toList)
  | .localVariables, r => [.to r.id]
  | .statements, r => .to r.file :: r.enclosing.refs
  | .assignOperands, r => [.to r.stmt, .to r.expr]
  | .returnResults, r => [.to r.stmt, .to r.expr]
  | .defers, r => [.to r.stmt, .to r.call]
  | .typeSwitches, r => [.to r.stmt, .to r.assertion]
  | .typeSwitchCases, r => .to r.stmt :: (r.type.map .to).toList
  | .expressions, r => (r.type.map .to).toList ++ .to r.file :: r.enclosing.refs
  | .identDetails, r => .to r.expr :: (r.definition.map fun d => .to d.1).toList
  | .selectorDetails, r => [.to r.expr, .to r.base]
  | .typeAssertDetails, r => [.to r.expr, .to r.base] ++ (r.type.map .to).toList
  | .callDetails, r => [.to r.expr, .to r.function] ++ (r.argument.map .to).toList
  | .accesses, r =>
    .to r.expr :: ((r.inner.map .to).toList ++ (r.baseVariable.map .to).toList)
  | .makeSites, r => [.to r.file]
  | .sizedAllocSites, r => [.to r.file]

def Column.reference? (c : Column) (cell : Cell) : Option Reference :=
  match c.target, cell with
  | some table, .int n => some ⟨table, n⟩
  | _, _ => none

namespace Column

variable (name : String) {t : Table}

@[simp] theorem reference?_plain (cell : Cell) : (plain name).reference? cell = none := by
  cases cell <;> rfl

@[simp] theorem reference?_key (cell : Cell) : (key name).reference? cell = none := by
  cases cell <;> rfl

@[simp] theorem reference?_ref (id : RowId t) :
    (ref name t).reference? (.ofId id) = some (.to id) := rfl

@[simp] theorem reference?_keyRef (id : RowId t) :
    (keyRef name t).reference? (.ofId id) = some (.to id) := rfl

@[simp] theorem reference?_ref_option (id : Option (RowId t)) :
    (ref name t).reference? (.ofOption .ofId id) = id.map .to := by
  cases id <;> rfl

@[simp] theorem reference?_ref_definition (d : Option (RowId t × Position)) :
    (ref name t).reference? (.ofOption (fun d => .ofId d.1) d) = d.map fun d => .to d.1 := by
  cases d <;> rfl

end Column

theorem Row.references_eq (t : Table) (r : Row t) : Row.references t r = Row.refs t r := by
  have each : Row.references t r =
      (t.columns.zip (cells t r)).filterMap fun c => c.1.reference? c.2 := rfl
  rw [each]
  cases t <;>
    simp [refs, Table.columns, cells, Cell.ofPosition, Cell.ofSpan, Cell.ofEnclosing,
      List.filterMap_eq_flatMap_toList, Enclosing.refs]

theorem SignatureRole.ofTerm_inj {role role' : SignatureRole}
    (h : Cell.ofTerm role = Cell.ofTerm role') : role = role' := by
  revert h
  cases role <;> cases role' <;> simp [Cell.ofTerm, Vocabulary.text]

/-! ## Refusals -/

/-- Where a row stands: its table and its key. -/
def AnyRow.place (r : AnyRow) : Table × List Cell := (r.table, Row.key r.table r.row)

def AnyRow.Dangles (s : Store) (r : AnyRow) : Prop :=
  ∃ ref ∈ Row.references r.table r.row, s.has ref = false

theorem Row.key_of_child {u : Table} (r : Row u) (hn : u.isNumbered = false) :
    ∃ cells, Row.key u r = .int (Row.number u r) :: cells := by
  cases u <;> first
    | (cases hn; done)
    | exact ⟨_, rfl⟩

theorem Row.owner_mem_references {u : Table} (r : Row u) (hn : u.isNumbered = false) :
    (⟨u.owner, Row.number u r⟩ : Reference) ∈ Row.references u r := by
  rw [references_eq]
  cases u <;> first
    | (cases hn; done)
    | simp [Table.owner, number, refs, Reference.to]

namespace Store

variable {s s' : Store}

/-- No row of a table has a key. -/
def Vacant (s : Store) (u : Table) (key : List Cell) : Prop := ∀ r ∈ s.rows u, Row.key u r ≠ key

theorem keyTaken_eq_false {u : Table} {r : Row u} :
    s.keyTaken u r = false ↔ s.Vacant u (Row.key u r) := by
  rw [Bool.eq_false_iff, Ne, keyTaken_iff]
  simp [Vacant]

theorem Vacant.push {u v : Table} {r : Row u} {key : List Cell} (h : s.Vacant v key)
    (hne : (u, Row.key u r) ≠ (v, key)) : (s.push u r).Vacant v key := by
  intro x hx hk
  by_cases he : v = u
  · subst he
    rw [rows_push_self] at hx
    obtain hx | hx := List.mem_append.mp hx
    · exact h x hx hk
    · obtain rfl := List.mem_singleton.mp hx
      exact hne (by rw [hk])
  · rw [rows_push_of_ne _ _ he] at hx
    exact h x hx hk

theorem Sound.vacant_of_child (hs : s.Sound) {u : Table} {r : Row u} (hn : u.isNumbered = false)
    (hr : s.has ⟨u.owner, Row.number u r⟩ = false) : s.Vacant u (Row.key u r) := by
  intro x hx hk
  obtain ⟨cells, key⟩ := Row.key_of_child x hn
  obtain ⟨cells', key'⟩ := Row.key_of_child r hn
  have number : Row.number u x = Row.number u r := by
    rw [key, key'] at hk
    exact Cell.int.inj (List.cons.inj hk).1
  have there := hs.references u x hx _ (Row.owner_mem_references x hn)
  rw [number, hr] at there
  cases there

theorem dangles_of_insert {r : AnyRow} (h : s.insert r.table r.row = .error .foreignKey) :
    r.Dangles (s.push r.table r.row) := by
  unfold Store.insert at h
  split at h
  · cases h
  · split at h
    · cases h
    · dsimp only at h
      split at h
      · cases h
      · rename_i hr
        obtain ⟨ref, href, lacks⟩ := List.all_eq_false.mp (Bool.eq_false_iff.mpr hr)
        exact ⟨ref, href, Bool.eq_false_iff.mpr lacks⟩

theorem insert_ends {r : AnyRow} (hc : Row.failedCondition? r.table r.row = none)
    (hv : s.Vacant r.table (Row.key r.table r.row)) :
    s.insert r.table r.row = .ok (s.push r.table r.row) ∨
      s.insert r.table r.row = .error .foreignKey := by
  have free := keyTaken_eq_false.mpr hv
  cases hr : (Row.references r.table r.row).all (s.push r.table r.row).has with
  | true => exact .inl (insert_eq_ok.mpr ⟨hc, free, hr, rfl⟩)
  | false => exact .inr (by simp [Store.insert, hc, free, hr])

end Store

theorem AnyRow.Dangles.of_le {s s' : Store} {r : AnyRow} (h : r.Dangles s') (hle : s ≤ s') :
    r.Dangles s := by
  obtain ⟨ref, href, lacks⟩ := h
  refine ⟨ref, href, Bool.eq_false_iff.mpr fun there => ?_⟩
  rw [Store.has_of_le hle there] at lacks
  cases lacks

namespace Transaction

variable {s : Store}

theorem insert_error {t : Table} {r : Row t} {v : Violation} :
    insert t r s = .error v ↔ s.insert t r = .error v := by
  rw [insert_apply]
  cases s.insert t r <;> simp [Except.map]

/-- Rows that meet their conditions, at vacant places of their own. -/
structure Addable (s : Store) (rs : List AnyRow) : Prop where
  conditions : ∀ r ∈ rs, Row.failedCondition? r.table r.row = none
  distinct : (rs.map AnyRow.place).Nodup
  vacant : ∀ r ∈ rs, s.Vacant r.table (Row.key r.table r.row)

theorem Addable.tail {r : AnyRow} {rs : List AnyRow} (h : Addable s (r :: rs)) :
    Addable (s.push r.table r.row) rs where
  conditions x hx := h.conditions x (List.mem_cons_of_mem r hx)
  distinct := (List.nodup_cons.mp h.distinct).2
  vacant x hx := by
    refine (h.vacant x (List.mem_cons_of_mem r hx)).push fun he => ?_
    exact (List.nodup_cons.mp h.distinct).1 (List.mem_map.mpr ⟨x, hx, he.symm⟩)

/-- Rows are added one after the other, unless one of them dangles. -/
theorem insertAll_ends {rs : List AnyRow} (h : Addable s rs) :
    insertAll rs s = .ok ((), s.pushAll rs) ∨
      insertAll rs s = .error .foreignKey ∧ ∃ r ∈ rs, r.Dangles s := by
  induction rs generalizing s with
  | nil => exact .inl rfl
  | cons r rs ih =>
    have grows := s.le_push r.table r.row
    obtain hi | hi :=
      s.insert_ends (h.conditions r List.mem_cons_self) (h.vacant r List.mem_cons_self)
    · have next : insertAll (r :: rs) s = insertAll rs (s.push r.table r.row) := by
        simp only [insertAll, bind, StateT.bind, Except.bind, insert_ok.mpr hi]
      rw [next]
      refine (ih h.tail).imp_right fun ⟨he, x, hx, dangles⟩ => ⟨he, x, ?_, dangles.of_le grows⟩
      exact List.mem_cons_of_mem r hx
    · refine .inr ⟨?_, r, List.mem_cons_self, (Store.dangles_of_insert hi).of_le grows⟩
      simp only [insertAll, bind, StateT.bind, Except.bind, insert_error.mpr hi]

section

variable {t : Table} {draft : RowId t → Row t}

/-- A row is added under a new number with its children, unless one of them dangles. -/
theorem ensure_ends {find : Store → Option (RowId t)} {children : RowId t → List AnyRow}
    (hs : s.Sound) (ht : t.isNumbered = true)
    (hc : Row.failedCondition? t (draft ⟨s.nextNumber t⟩) = none)
    (hf : find s = none → s.Vacant t (Row.key t (draft ⟨s.nextNumber t⟩)))
    (hb : ∀ r ∈ children ⟨s.nextNumber t⟩, r.table.owner = t ∧ r.table.isNumbered = false ∧
      Row.number r.table r.row = s.nextNumber t ∧ Row.failedCondition? r.table r.row = none)
    (distinct : ((children ⟨s.nextNumber t⟩).map AnyRow.place).Nodup) :
    (∃ r s', ensure t find draft children s = .ok (r, s')) ∨
      ensure t find draft children s = .error .foreignKey ∧
        ∃ r ∈ (⟨t, draft ⟨s.nextNumber t⟩⟩ : AnyRow) :: children ⟨s.nextNumber t⟩,
          r.Dangles (s.push t (draft ⟨s.nextNumber t⟩)) := by
  cases hfound : find s with
  | some id => exact .inl ⟨_, _, ensure_of_found hfound⟩
  | none =>
    obtain hi | hi := s.insert_ends (r := ⟨t, draft ⟨s.nextNumber t⟩⟩) hc (hf hfound)
    · have created := create_ok.mpr ⟨rfl, hi⟩
      have addable : Addable (s.push t (draft ⟨s.nextNumber t⟩)) (children ⟨s.nextNumber t⟩) := by
        refine ⟨fun r hr => (hb r hr).2.2.2, distinct, fun r hr => ?_⟩
        obtain ⟨owner, unnumbered, number, -⟩ := hb r hr
        have new := hs.vacant_of_child (r := r.row) unnumbered (by
          rw [owner, number]
          exact s.has_nextNumber t)
        refine new.push fun he => ?_
        have table : t = r.table := congrArg Prod.fst he
        rw [← table, ht] at unnumbered
        cases unnumbered
      obtain hall | ⟨hall, r, hr, dangles⟩ := insertAll_ends addable
      · exact .inl ⟨_, _, ensure_of_created hfound created hall⟩
      · refine .inr ⟨?_, r, List.mem_cons_of_mem _ hr, dangles⟩
        rw [ensure_apply, hfound]
        simp only [bind, StateT.bind, Except.bind, created, hall]
    · refine .inr ⟨?_, _, List.mem_cons_self, Store.dangles_of_insert hi⟩
      have refused : create t draft s = .error .foreignKey := by
        have same : create t draft s =
          (insert t (draft ⟨s.nextNumber t⟩) >>= fun _ => pure ⟨s.nextNumber t⟩) s := rfl
        rw [same]
        simp only [bind, StateT.bind, Except.bind, insert_error.mpr hi]
      rw [ensure_apply, hfound]
      simp only [bind, StateT.bind, Except.bind, refused]

/-- Adding a row or ignoring it fails only if it dangles. -/
theorem createOrIgnore_ends :
    (∃ isNew s', createOrIgnore t draft s = .ok (isNew, s')) ∨
      createOrIgnore t draft s = .error .foreignKey ∧
        AnyRow.Dangles (s.push t (draft ⟨s.nextNumber t⟩)) ⟨t, draft ⟨s.nextNumber t⟩⟩ := by
  rw [createOrIgnore_apply]
  cases hi : s.insert t (draft ⟨s.nextNumber t⟩) with
  | ok s' => exact .inl ⟨_, _, rfl⟩
  | error v =>
    cases v with
    | foreignKey => exact .inr ⟨rfl, Store.dangles_of_insert (r := ⟨t, draft ⟨s.nextNumber t⟩⟩) hi⟩
    | check | unique => exact .inl ⟨_, _, rfl⟩

end

end Transaction
end AccessDepth
