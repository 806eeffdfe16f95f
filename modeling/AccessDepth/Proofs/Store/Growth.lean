import AccessDepth.Store.Record
import Mathlib.Order.Defs.PartialOrder

/-!
# AccessDepth.Proofs.Store.Growth

Stores only grow.

* `s ≤ t` — every table of `t` begins with the rows that it has in `s`.
* `Store.insert_eq_ok` — what it takes to add a row, and what it does.
* `Inserts P s t` — `t` comes from `s` by adding rows to tables of a set.
* `Transaction.ensure_ok`, `create_ok`, `createOrIgnore_ok` — what a transaction that succeeds has
  done.
* A lookup by key finds in a grown store what it found before.
-/

namespace AccessDepth

namespace Store

/-- The rows of every table come first in the other store, in the same order. -/
instance : LE Store := ⟨fun s t => ∀ u, s.rows u <+: t.rows u⟩

instance : Preorder Store where
  le_refl _ _ := List.prefix_refl _
  le_trans _ _ _ h h' u := (h u).trans (h' u)

/-! ## Adding rows -/

variable {s s' t : Store} {u v : Table}

@[simp] theorem rows_withRows_self (s : Store) (u : Table) (rs : List (Row u)) :
    (s.withRows u rs).rows u = rs := by
  cases u <;> rfl

theorem rows_withRows_of_ne (s : Store) (rs : List (Row u)) (h : v ≠ u) :
    (s.withRows u rs).rows v = s.rows v := by
  cases u <;> cases v <;> first | rfl | exact absurd rfl h

@[simp] theorem rows_push_self (s : Store) (u : Table) (r : Row u) :
    (s.push u r).rows u = s.rows u ++ [r] := rows_withRows_self ..

theorem rows_push_of_ne (s : Store) (r : Row u) (h : v ≠ u) : (s.push u r).rows v = s.rows v :=
  rows_withRows_of_ne s _ h

theorem le_push (s : Store) (u : Table) (r : Row u) : s ≤ s.push u r := by
  intro v
  by_cases h : v = u
  · subst h
    simp
  · exact (rows_push_of_ne s r h).symm ▸ List.prefix_refl _

/-- A row is added exactly when it breaks no rule; then it comes last in its table. -/
theorem insert_eq_ok {r : Row u} :
    s.insert u r = .ok s' ↔
      Row.failedCondition? u r = none ∧ s.keyTaken u r = false ∧
        (Row.references u r).all (s.push u r).has = true ∧ s' = s.push u r := by
  unfold Store.insert
  cases hc : Row.failedCondition? u r with
  | some c => simp
  | none =>
    cases hk : s.keyTaken u r with
    | true => simp
    | false =>
      cases hr : (Row.references u r).all (s.push u r).has with
      | false => simp [hr]
      | true => simp [hr, eq_comm]

theorem eq_push_of_insert {r : Row u} (h : s.insert u r = .ok s') : s' = s.push u r :=
  (insert_eq_ok.mp h).2.2.2

theorem le_of_insert {r : Row u} (h : s.insert u r = .ok s') : s ≤ s' :=
  eq_push_of_insert h ▸ le_push s u r

theorem has_of_le (h : s ≤ t) {ref : Reference} (hs : s.has ref = true) : t.has ref = true := by
  simp only [has, List.any_eq_true] at hs ⊢
  obtain ⟨r, hr, he⟩ := hs
  exact ⟨r, (h ref.table).subset hr, he⟩

/-! ## Lookups by key -/

theorem find?_map_of_prefix {α β : Type} {p : α → Bool} {f : α → β} {l l' : List α} {b : β}
    (h : l <+: l') (hf : (l.find? p).map f = some b) : (l'.find? p).map f = some b := by
  obtain ⟨a, ha, rfl⟩ := Option.map_eq_some_iff.mp hf
  rw [h.find?_eq_some ha, Option.map_some]

theorem find?_map_concat {α β : Type} {p : α → Bool} {f : α → β} {l : List α} {a : α}
    (h : (l.find? p).map f = none) (hp : p a = true) : ((l ++ [a]).find? p).map f = some (f a) := by
  rw [List.find?_append, Option.map_eq_none_iff.mp h, Option.none_or, List.find?_cons_of_pos hp,
    Option.map_some]

theorem fileNamed?_of_le (h : s ≤ t) {path : String} {id : FileId}
    (hs : s.fileNamed? path = some id) : t.fileNamed? path = some id :=
  find?_map_of_prefix (h .files) hs

theorem typeNamed?_of_le (h : s ≤ t) {name : String} {id : TypeId}
    (hs : s.typeNamed? name = some id) : t.typeNamed? name = some id :=
  find?_map_of_prefix (h .types) hs

theorem functionAt?_of_le (h : s ≤ t) {file : FileId} {position : Position} {id : FunctionId}
    (hs : s.functionAt? file position = some id) : t.functionAt? file position = some id :=
  find?_map_of_prefix (h .functions) hs

theorem variableAt?_of_le (h : s ≤ t) {file : FileId} {position : Position} {id : VariableId}
    (hs : s.variableAt? file position = some id) : t.variableAt? file position = some id :=
  find?_map_of_prefix (h .variables) hs

theorem stmtAt?_of_le (h : s ≤ t) {file : FileId} {span : Span} {id : StmtId}
    (hs : s.stmtAt? file span = some id) : t.stmtAt? file span = some id :=
  find?_map_of_prefix (h .statements) hs

theorem exprAt?_of_le (h : s ≤ t) {file : FileId} {span : Span} {id : ExprId}
    (hs : s.exprAt? file span = some id) : t.exprAt? file span = some id :=
  find?_map_of_prefix (h .expressions) hs

theorem fileNamed?_push {r : FileRow} (h : s.fileNamed? r.path = none) :
    (s.push .files r).fileNamed? r.path = some r.id :=
  find?_map_concat h (by simp)

theorem typeNamed?_push {r : TypeRow} (h : s.typeNamed? r.name = none) :
    (s.push .types r).typeNamed? r.name = some r.id :=
  find?_map_concat h (by simp)

theorem functionAt?_push {r : FunctionRow} (h : s.functionAt? r.file r.position = none) :
    (s.push .functions r).functionAt? r.file r.position = some r.id :=
  find?_map_concat h (by simp)

theorem variableAt?_push {r : VariableRow} (h : s.variableAt? r.file r.position = none) :
    (s.push .variables r).variableAt? r.file r.position = some r.id :=
  find?_map_concat h (by simp)

theorem stmtAt?_push {r : StmtRow} (h : s.stmtAt? r.file r.span = none) :
    (s.push .statements r).stmtAt? r.file r.span = some r.id :=
  find?_map_concat h (by simp)

theorem exprAt?_push {r : ExprRow} (h : s.exprAt? r.file r.span = none) :
    (s.push .expressions r).exprAt? r.file r.span = some r.id :=
  find?_map_concat h (by simp)

end Store

/-! ## Insertions -/

/-- The table whose rows the rows of a table belong to. -/
def Table.owner : Table → Table
  | .files => .files
  | .types | .typeInts | .typeArrays | .typeElems | .typeMaps | .typeChans | .typeMembers
  | .typeNamed | .typeFuncs | .typeFuncSigs | .typeUnions => .types
  | .functions | .functionSigs => .functions
  | .variables | .localVariables => .variables
  | .statements | .assignOperands | .returnResults | .defers | .typeSwitches
  | .typeSwitchCases => .statements
  | .expressions | .identDetails | .selectorDetails | .typeAssertDetails | .callDetails
  | .accesses => .expressions
  | .makeSites => .makeSites
  | .sizedAllocSites => .sizedAllocSites

/-- Whether the rows of a table have numbers of their own. -/
def Table.isNumbered (t : Table) : Bool := t.owner = t

/-- Rows added one after the other, all to tables of a set; a row with a number of its own gets the
next one. -/
inductive Inserts (P : Table → Prop) : Store → Store → Prop
  | refl (s : Store) : Inserts P s s
  | step {s s' s'' : Store} {u : Table} {r : Row u} : Inserts P s s' → P u →
      (u.isNumbered = true → Row.number u r = s'.nextNumber u) → s'.insert u r = .ok s'' →
      Inserts P s s''

namespace Inserts

variable {P Q : Table → Prop} {s s' s'' : Store}

theorem trans (h : Inserts P s s') (h' : Inserts P s' s'') : Inserts P s s'' := by
  induction h' with
  | refl => exact h
  | step _ hu hn hi ih => exact ih.step hu hn hi

theorem one {u : Table} {r : Row u} (hu : P u)
    (hn : u.isNumbered = true → Row.number u r = s.nextNumber u) (h : s.insert u r = .ok s') :
    Inserts P s s' :=
  (refl s).step hu hn h

theorem mono (h : Inserts P s s') (hP : ∀ u, P u → Q u) : Inserts Q s s' := by
  induction h with
  | refl => exact refl _
  | step _ hu hn hi ih => exact ih.step (hP _ hu) hn hi

theorem le (h : Inserts P s s') : s ≤ s' := by
  induction h with
  | refl => exact le_refl _
  | step _ _ _ hi ih => exact le_trans ih (Store.le_of_insert hi)

theorem rows_eq (h : Inserts P s s') {v : Table} (hv : ¬ P v) : s'.rows v = s.rows v := by
  induction h with
  | refl => rfl
  | @step _ _ u r _ hu _ hi ih =>
    have hne : v ≠ u := by
      rintro rfl
      exact hv hu
    rw [Store.eq_push_of_insert hi, Store.rows_push_of_ne _ r hne, ih]

end Inserts

/-! ## Transactions -/

namespace Transaction

variable {α β : Type} {s s' : Store} {t : Table} {P : Table → Prop}

/-- A computation after another one succeeds if both do, whatever their failures are. -/
theorem bind_ok {ε : Type} {a : StateT Store (Except ε) α} {f : α → StateT Store (Except ε) β}
    {b : β} :
    (a >>= f) s = .ok (b, s') ↔ ∃ x s₁, a s = .ok (x, s₁) ∧ f x s₁ = .ok (b, s') := by
  cases h : a s with
  | error v => simp [bind, StateT.bind, Except.bind, h]
  | ok r =>
    obtain ⟨x, s₁⟩ := r
    have hb : (a >>= f) s = f x s₁ := by simp [bind, StateT.bind, Except.bind, h]
    rw [hb]
    constructor
    · intro hf
      exact ⟨x, s₁, rfl, hf⟩
    · rintro ⟨_, _, he, hf⟩
      cases he
      exact hf

theorem insert_apply (t : Table) (r : Row t) (s : Store) :
    insert t r s = (s.insert t r).map fun s' => ((), s') := by
  have tried : insert t r s =
      (s.insert t r >>= fun s' => pure (s', s)) >>= fun x => .ok ((), x.1) := rfl
  rw [tried]
  cases s.insert t r <;> rfl

theorem insert_ok {r : Row t} : insert t r s = .ok ((), s') ↔ s.insert t r = .ok s' := by
  rw [insert_apply]
  cases s.insert t r <;> simp [Except.map]

theorem create_ok {draft : RowId t → Row t} {id : RowId t} :
    create t draft s = .ok (id, s') ↔ id = ⟨s.nextNumber t⟩ ∧ s.insert t (draft id) = .ok s' := by
  have key : create t draft s =
      (insert t (draft ⟨s.nextNumber t⟩) >>= fun _ => pure ⟨s.nextNumber t⟩) s := rfl
  rw [key, bind_ok]
  constructor
  · rintro ⟨_, s₁, h, hp⟩
    cases hp
    exact ⟨rfl, insert_ok.mp h⟩
  · rintro ⟨rfl, h⟩
    exact ⟨(), s', insert_ok.mpr h, rfl⟩

/-- Rows that may come below another one: of tables of a set, without numbers of their own. -/
def Children (P : Table → Prop) (rs : List AnyRow) : Prop :=
  ∀ r ∈ rs, P r.table ∧ r.table.isNumbered = false

theorem insertAll_inserts {rs : List AnyRow} (hc : Children P rs)
    (h : insertAll rs s = .ok ((), s')) : Inserts P s s' := by
  induction rs generalizing s with
  | nil =>
    cases h
    exact .refl _
  | cons r rs ih =>
    obtain ⟨_, s₁, h₁, h₂⟩ := bind_ok.mp h
    obtain ⟨hP, hn⟩ := hc r List.mem_cons_self
    have first : Inserts P s s₁ :=
      .one hP (fun h => absurd (hn.symm.trans h) (by simp)) (insert_ok.mp h₁)
    exact first.trans (ih (fun r' hr => hc r' (List.mem_cons_of_mem r hr)) h₂)

/-- Either the row was there and nothing changed, or it was not and is the last one of its table,
with its children added after it. -/
theorem ensure_ok {find : Store → Option (RowId t)} {draft : RowId t → Row t}
    {children : RowId t → List AnyRow} {id : RowId t} {isNew : Bool}
    (h : ensure t find draft children s = .ok ((id, isNew), s')) :
    (find s = some id ∧ isNew = false ∧ s' = s) ∨
      (find s = none ∧ isNew = true ∧ id = ⟨s.nextNumber t⟩ ∧
        ∃ s₁, s.insert t (draft id) = .ok s₁ ∧ insertAll (children id) s₁ = .ok ((), s')) := by
  unfold ensure at h
  obtain ⟨_, s₀, h₀, h⟩ := bind_ok.mp h
  cases h₀
  cases hf : find s with
  | some found =>
    rw [hf] at h
    cases h
    exact .inl ⟨rfl, rfl, rfl⟩
  | none =>
    rw [hf] at h
    obtain ⟨_, s₁, h₁, h⟩ := bind_ok.mp h
    obtain ⟨_, s₂, h₂, h⟩ := bind_ok.mp h
    cases h
    obtain ⟨rfl, h₁⟩ := create_ok.mp h₁
    exact .inr ⟨rfl, rfl, rfl, s₁, h₁, h₂⟩

theorem ensure_apply (t : Table) (find : Store → Option (RowId t)) (draft : RowId t → Row t)
    (children : RowId t → List AnyRow) (s : Store) :
    ensure t find draft children s = (match find s with
      | some id => pure (id, false)
      | none => do
        let id ← create t draft
        insertAll (children id)
        pure (id, true) : Transaction (RowId t × Bool)) s := rfl

theorem ensure_of_found {find : Store → Option (RowId t)} {draft : RowId t → Row t}
    {children : RowId t → List AnyRow} {id : RowId t} (h : find s = some id) :
    ensure t find draft children s = .ok ((id, false), s) := by
  rw [ensure_apply, h]
  rfl

theorem ensure_of_created {find : Store → Option (RowId t)} {draft : RowId t → Row t}
    {children : RowId t → List AnyRow} {id : RowId t} {s₁ : Store} (hf : find s = none)
    (hc : create t draft s = .ok (id, s₁)) (hr : insertAll (children id) s₁ = .ok ((), s')) :
    ensure t find draft children s = .ok ((id, true), s') := by
  rw [ensure_apply, hf]
  exact bind_ok.mpr ⟨_, _, hc, bind_ok.mpr ⟨_, _, hr, rfl⟩⟩

theorem ensure_inserts {find : Store → Option (RowId t)} {draft : RowId t → Row t}
    {children : RowId t → List AnyRow} {r : RowId t × Bool} (ht : P t)
    (hd : ∀ id, Row.number t (draft id) = id.value) (hc : ∀ id, Children P (children id))
    (h : ensure t find draft children s = .ok (r, s')) : Inserts P s s' := by
  obtain ⟨-, -, rfl⟩ | ⟨-, -, hid, s₁, h₁, h₂⟩ := ensure_ok h
  · exact .refl _
  · have first : Inserts P s s₁ := .one ht (fun _ => by rw [hd, hid]) h₁
    exact first.trans (insertAll_inserts (hc _) h₂)

theorem createOrIgnore_apply (t : Table) (draft : RowId t → Row t) (s : Store) :
    createOrIgnore t draft s = (match s.insert t (draft ⟨s.nextNumber t⟩) with
      | .ok s' => do
        set s'
        pure true
      | .error .foreignKey => throw .foreignKey
      | .error _ => pure false : Transaction Bool) s := rfl

/-- A row is added under the next number, or the store is as it was because the key is taken or a
condition of the row fails. -/
theorem createOrIgnore_ok {draft : RowId t → Row t} {isNew : Bool}
    (h : createOrIgnore t draft s = .ok (isNew, s')) :
    (isNew = true ∧ s.insert t (draft ⟨s.nextNumber t⟩) = .ok s') ∨
      (isNew = false ∧ s' = s ∧
        ∃ v, v ≠ .foreignKey ∧ s.insert t (draft ⟨s.nextNumber t⟩) = .error v) := by
  unfold createOrIgnore at h
  obtain ⟨_, s₀, h₀, h⟩ := bind_ok.mp h
  cases h₀
  cases hi : s.insert t (draft ⟨s.nextNumber t⟩) with
  | ok s₁ =>
    rw [hi] at h
    cases h
    exact .inl ⟨rfl, rfl⟩
  | error v =>
    rw [hi] at h
    cases v with
    | foreignKey => cases h
    | check c =>
      cases h
      exact .inr ⟨rfl, rfl, _, by simp, rfl⟩
    | unique u =>
      cases h
      exact .inr ⟨rfl, rfl, _, by simp, rfl⟩

theorem createOrIgnore_inserts {draft : RowId t → Row t} {isNew : Bool} (ht : P t)
    (hd : ∀ id, Row.number t (draft id) = id.value)
    (h : createOrIgnore t draft s = .ok (isNew, s')) : Inserts P s s' := by
  obtain ⟨-, h⟩ | ⟨-, rfl, -⟩ := createOrIgnore_ok h
  · exact .one ht (fun _ => hd _) h
  · exact .refl _

end Transaction

end AccessDepth
