import AccessDepth.Proofs.Plan.Rows
import AccessDepth.Proofs.TypeRows

/-!
# AccessDepth.Proofs.StoreCalls

Calls of the store take place as a whole or not at all, and only add rows.

* `Store.keyNumber?` — the number of the row that has a key.
* `StoreCall` — a call for the row of a file, of a type or of a node.
* `StoreCall.Adds` — exactly the row of a call and what belongs to it is added.
* `StoreCall.Does` — a call that succeeds finds its key, or adds its row under it.
* `Contexts.performs` — this is what every call does, through any context.
* `Contexts.perform_atomic` — so it is through any sequence of calls, and a key keeps its number.
-/

namespace AccessDepth

open Transaction (ensure_ok createOrIgnore_ok)

/-! ## Rows by key -/

namespace Store

variable {s t : Store} {u : Table} {key : List Cell} {n : Int}

/-- The number of the row that has a key. -/
def keyNumber? (s : Store) (u : Table) (key : List Cell) : Option Int :=
  ((s.rows u).find? fun r => Row.key u r == key).map (Row.number u)

theorem keyNumber?_of_le (h : s ≤ t) (hs : s.keyNumber? u key = some n) :
    t.keyNumber? u key = some n :=
  find?_map_of_prefix (h u) hs

theorem keyNumber?_push {r : Row u} (h : s.keyNumber? u (Row.key u r) = none) :
    (s.push u r).keyNumber? u (Row.key u r) = some (Row.number u r) := by
  rw [keyNumber?, rows_push_self]
  exact find?_map_concat h (by simp)

theorem keyNumber?_isSome {r : Row u} :
    (s.keyNumber? u (Row.key u r)).isSome = s.keyTaken u r := by
  rw [Bool.eq_iff_iff, keyTaken_iff]
  simp [keyNumber?]

theorem map_value_find? {p : Row u → Bool} {id : Row u → RowId u}
    (hp : ∀ r, p r = true ↔ Row.key u r = key) (hid : ∀ r, (id r).value = Row.number u r) :
    (((s.rows u).find? p).map id).map (·.value) = s.keyNumber? u key := by
  have test : p = fun r => Row.key u r == key := funext fun r => Bool.eq_iff_iff.mpr (by simp [hp])
  rw [Option.map_map, keyNumber?, test]
  exact congrArg (Option.map · _) (funext hid)

theorem fileNamed?_value (path : String) :
    (s.fileNamed? path).map (·.value) = s.keyNumber? .files [.text path] :=
  map_value_find? (u := .files) (fun r => by simp [Row.key]) fun _ => rfl

theorem typeNamed?_value (name : String) :
    (s.typeNamed? name).map (·.value) = s.keyNumber? .types [.text name] :=
  map_value_find? (u := .types) (fun r => by simp [Row.key]) fun _ => rfl

variable {file : FileId}

theorem functionAt?_value (position : Position) : (s.functionAt? file position).map (·.value) =
    s.keyNumber? .functions (.ofId file :: Cell.ofPosition position) :=
  map_value_find? (u := .functions)
    (fun r => by simp [Row.key, Cell.ofId_inj, Cell.ofPosition_inj]) fun _ => rfl

theorem variableAt?_value (position : Position) : (s.variableAt? file position).map (·.value) =
    s.keyNumber? .variables (.ofId file :: Cell.ofPosition position) :=
  map_value_find? (u := .variables)
    (fun r => by simp [Row.key, Cell.ofId_inj, Cell.ofPosition_inj]) fun _ => rfl

theorem stmtAt?_value (span : Span) : (s.stmtAt? file span).map (·.value) =
    s.keyNumber? .statements (.ofId file :: Cell.ofSpan span) :=
  map_value_find? (u := .statements)
    (fun r => by simp [Row.key, Cell.ofId_inj, Cell.ofSpan_inj]) fun _ => rfl

theorem exprAt?_value (span : Span) : (s.exprAt? file span).map (·.value) =
    s.keyNumber? .expressions (.ofId file :: Cell.ofSpan span) :=
  map_value_find? (u := .expressions)
    (fun r => by simp [Row.key, Cell.ofId_inj, Cell.ofSpan_inj]) fun _ => rfl

end Store

/-! ## Calls -/

/-- A call for the row of a file, of a type or of a node. -/
inductive StoreCall where
  | file (path : Path)
  | type (table : TypeTable) (ref : Option TypeRef)
  | node (w : Plan.Write)

/-- What a call tells: the number of its row, and whether the row is new. Not every call tells
both. -/
structure Answer where
  number : Option Int
  isNew : Option Bool
  deriving DecidableEq, Repr

namespace StoreCall

def record : Plan.Write → Transaction Answer
  | .function f signature => do
    let (id, isNew) ← recordFunction f signature
    pure ⟨some id.value, some isNew⟩
  | .var v => do
    let (id, isNew) ← recordVariable v
    pure ⟨some id.value, some isNew⟩
  | .stmt n detail => do
    let (id, isNew) ← recordStmt n detail
    pure ⟨some id.value, some isNew⟩
  | .expr n detail access => do
    let (id, isNew) ← recordExpr n detail access
    pure ⟨some id.value, some isNew⟩
  | .makeSite n => do
    let isNew ← recordMakeSite n
    pure ⟨none, some isNew⟩
  | .sizedAlloc n => do
    let isNew ← recordSizedAlloc n
    pure ⟨none, some isNew⟩

def recordPath (path : Path) : Transaction Answer := do
  let id ← recordFile path
  pure ⟨some id.value, none⟩

def run : StoreCall → Analyze Answer
  | .file path => Analyze.commit (recordPath path)
  | .type table ref => do
    let id ← Analyze.typeId table ref
    pure ⟨some id.value, none⟩
  | .node w => Analyze.commit (record w)

def table : StoreCall → Table
  | .file _ => .files
  | .type .. => .types
  | .node w => w.table

/-- The key of the row. A type that does not resolve has none. -/
def key? : StoreCall → Option (List Cell)
  | .file path => some [.text path.text]
  | .type table ref => (ref.bind table.name?).map fun name => [.text name]
  | .node w => some (.ofId w.file :: w.place)

def answer (n : Int) (isNew : Bool) : StoreCall → Answer
  | .file _ | .type .. => ⟨some n, none⟩
  | .node (.makeSite _) | .node (.sizedAlloc _) => ⟨none, some isNew⟩
  | .node _ => ⟨some n, some isNew⟩

end StoreCall

/-- What a type adds: rows of entries that are reached and were not stored, each of them with the
rows below it that its structure requires. No other rows are added. -/
structure TypeTable.Extends (t : TypeTable) (r : TypeRef) (s s' : Store) : Prop where
  others : ∀ u : Table, u.owner ≠ .types → s'.rows u = s.rows u
  types : ∀ row ∈ s'.types, row ∈ s.types ∨ ∃ e, t.Walked s r e ∧ e.Describes t s' row
  below : ∀ u : Table, u.owner = .types → ∃ new, s'.rows u = s.rows u ++ new ∧
    ∀ x ∈ new, ∃ row ∈ s'.types, row ∉ s.types ∧ row.id.value = Row.number u x
  names : (t.entries.toList.map (·.name)).Nodup → ∀ name,
    (s.typeNamed? name = none ∧ s'.typeNamed? name ≠ none) ↔ ∃ e, t.Walked s r e ∧ e.name = name

namespace StoreCall

/-- Exactly the row of a call is added, under a number, and what belongs to it. -/
def Adds (s s' : Store) (n : Int) : StoreCall → Prop
  | .file path => s' = s.pushAll [⟨.files, { id := ⟨n⟩, path := path.text }⟩]
  | .type table ref => ∃ r, ref = some r ∧ table.Extends r s s'
  | .node w => s' = s.pushAll (w.rows n)

/-- An allocation by something that is neither `make` nor `new`. -/
def IsForeign : StoreCall → Prop
  | .node (.sizedAlloc n) => ¬ (n.builtin = "make" ∨ n.builtin = "new")
  | _ => False

/-- What a call that succeeds does. -/
inductive Does (c : StoreCall) (s : Store) : Store → Answer → Prop
  /-- The key was there, and nothing is added. -/
  | found {key n} : c.key? = some key → s.keyNumber? c.table key = some n →
      Does c s s (c.answer n false)
  /-- The key was not there, and the row is added under it. -/
  | added {s' key n} : c.key? = some key → s.keyNumber? c.table key = none →
      s'.keyNumber? c.table key = some n → c.Adds s s' n → Does c s s' (c.answer n true)
  /-- Nothing is added for an allocation that is no `make` and no `new`. -/
  | ignored {n} : c.IsForeign → Does c s s (c.answer n false)

end StoreCall

/-! ## Transactions -/

namespace Transaction

variable {s s' : Store} {u : Table} {key : List Cell} {P : Table → Prop}

theorem ensure_does {find : Store → Option (RowId u)} {draft : RowId u → Row u}
    {below : RowId u → List AnyRow} {id : RowId u} {isNew : Bool}
    (h : ensure u find draft below s = .ok ((id, isNew), s'))
    (hf : ∀ s, (find s).map (·.value) = s.keyNumber? u key)
    (hk : ∀ id, Row.key u (draft id) = key) (hn : ∀ id, Row.number u (draft id) = id.value)
    (hc : ∀ id, Children P (below id)) :
    (isNew = false ∧ s' = s ∧ s.keyNumber? u key = some id.value) ∨
      (isNew = true ∧ s.keyNumber? u key = none ∧ s'.keyNumber? u key = some id.value ∧
        s' = s.pushAll (⟨u, draft id⟩ :: below id)) := by
  obtain ⟨found, rfl, rfl⟩ | ⟨missing, rfl, -, s₁, h₁, h₂⟩ := ensure_ok h
  · exact .inl ⟨rfl, rfl, by rw [← hf, found, Option.map_some]⟩
  · have free : s.keyNumber? u key = none := by rw [← hf, missing, Option.map_none]
    have there : s₁.keyNumber? u key = some id.value := by
      rw [Store.eq_push_of_insert h₁, ← hn id, ← hk id]
      exact Store.keyNumber?_push (by rw [hk, free])
    refine .inr ⟨rfl, free, Store.keyNumber?_of_le (insertAll_inserts (hc id) h₂).le there, ?_⟩
    rw [insertAll_ok h₂, Store.eq_push_of_insert h₁]
    rfl

/-- What `createOrIgnore` does if it succeeds: the row is not added where its key is taken or one of
its own conditions fails. -/
theorem createOrIgnore_does {draft : RowId u → Row u} {isNew : Bool}
    (h : createOrIgnore u draft s = .ok (isNew, s'))
    (hk : ∀ id, Row.key u (draft id) = key) (hn : ∀ id, Row.number u (draft id) = id.value) :
    (isNew = false ∧ s' = s ∧ ∃ n, s.keyNumber? u key = some n) ∨
      (isNew = true ∧ s.keyNumber? u key = none ∧ s'.keyNumber? u key = some (s.nextNumber u) ∧
        s' = s.pushAll [⟨u, draft ⟨s.nextNumber u⟩⟩]) ∨
      (isNew = false ∧ s' = s ∧ ∃ id, Row.failedCondition? u (draft id) ≠ none) := by
  have taken (id : RowId u) : (s.keyNumber? u key).isSome = s.keyTaken u (draft id) := by
    rw [← hk id, Store.keyNumber?_isSome]
  obtain ⟨rfl, hi⟩ | ⟨rfl, rfl, v, hv, hi⟩ := createOrIgnore_ok h
  · obtain ⟨-, free, -, rfl⟩ := Store.insert_eq_ok.mp hi
    have missing : s.keyNumber? u key = none :=
      Option.isSome_eq_false_iff.mp ((taken _).trans free) |> Option.isNone_iff_eq_none.mp
    refine .inr (.inl ⟨rfl, missing, ?_, rfl⟩)
    rw [← hk ⟨s.nextNumber u⟩, Store.keyNumber?_push (by rw [hk, missing]), hn]
  · unfold Store.insert at hi
    cases hc : Row.failedCondition? u (draft ⟨s'.nextNumber u⟩) with
    | some c => exact .inr (.inr ⟨rfl, rfl, _, by rw [hc]; simp⟩)
    | none =>
      simp only [hc] at hi
      cases ht : s'.keyTaken u (draft ⟨s'.nextNumber u⟩) with
      | true => exact .inl ⟨rfl, rfl, Option.isSome_iff_exists.mp ((taken _).trans ht)⟩
      | false =>
        simp only [ht, Bool.false_eq_true, if_false] at hi
        split at hi <;> cases hi
        exact absurd rfl hv

theorem createOrIgnore_of_taken {draft : RowId u → Row u}
    (h : s.keyTaken u (draft ⟨s.nextNumber u⟩) = true) :
    createOrIgnore u draft s = .ok (false, s) := by
  rw [createOrIgnore_apply, Store.insert, h]
  cases Row.failedCondition? u (draft ⟨s.nextNumber u⟩) <;> rfl

end Transaction

namespace StoreCall

variable {s s' : Store}

/-- A call that is answered by `ensure` does what it should. -/
theorem does_of_ensure {c : StoreCall} {key : List Cell} {find : Store → Option (RowId c.table)}
    {draft : RowId c.table → Row c.table} {below : RowId c.table → List AnyRow}
    {id : RowId c.table} {isNew : Bool} {P : Table → Prop}
    (h : Transaction.ensure c.table find draft below s = .ok ((id, isNew), s'))
    (hc : c.key? = some key) (hf : ∀ s, (find s).map (·.value) = s.keyNumber? c.table key)
    (hk : ∀ id, Row.key c.table (draft id) = key)
    (hn : ∀ id, Row.number c.table (draft id) = id.value)
    (hb : ∀ id, Transaction.Children P (below id))
    (adds : c.Adds s (s.pushAll (⟨c.table, draft id⟩ :: below id)) id.value) :
    c.Does s s' (c.answer id.value isNew) := by
  obtain ⟨rfl, rfl, there⟩ | ⟨rfl, free, there, rfl⟩ :=
    Transaction.ensure_does h hf hk hn hb
  · exact .found hc there
  · exact .added hc free there adds

/-- Recording a node finds its row or adds it. -/
theorem record_does {w : Plan.Write} {a : Answer} (h : record w s = .ok (a, s')) :
    (StoreCall.node w).Does s s' a := by
  cases w with
  | function f signature =>
    obtain ⟨⟨id, isNew⟩, _, h, hp⟩ := Transaction.bind_ok.mp h
    cases hp
    exact does_of_ensure (c := .node (.function f signature)) h rfl
      (fun _ => Store.functionAt?_value f.position) (fun _ => rfl) (fun _ => rfl)
      (signature_inserted signature) rfl
  | var v =>
    obtain ⟨⟨id, isNew⟩, _, h, hp⟩ := Transaction.bind_ok.mp h
    cases hp
    exact does_of_ensure (c := .node (.var v)) h rfl
      (fun _ => Store.variableAt?_value v.position) (fun _ => rfl) (fun _ => rfl)
      v.children_inserted rfl
  | stmt n detail =>
    obtain ⟨⟨id, isNew⟩, _, h, hp⟩ := Transaction.bind_ok.mp h
    cases hp
    exact does_of_ensure (c := .node (.stmt n detail)) h rfl
      (fun _ => Store.stmtAt?_value n.span) (fun _ => rfl) (fun _ => rfl)
      detail.children_inserted rfl
  | expr n detail access =>
    obtain ⟨⟨id, isNew⟩, _, h, hp⟩ := Transaction.bind_ok.mp h
    cases hp
    exact does_of_ensure (c := .node (.expr n detail access)) h rfl
      (fun _ => Store.exprAt?_value n.span) (fun _ => rfl) (fun _ => rfl)
      (exprRows_inserted detail access) rfl
  | makeSite n =>
    obtain ⟨isNew, _, h, hp⟩ := Transaction.bind_ok.mp h
    cases hp
    obtain ⟨rfl, rfl, m, there⟩ | ⟨rfl, free, there, rfl⟩ | ⟨-, -, id, failed⟩ :=
      Transaction.createOrIgnore_does h
        (fun _ => show Row.key _ _ = .ofId n.file :: Cell.ofPosition n.position from rfl)
        fun _ => rfl
    · exact .found (c := .node (.makeSite n)) rfl there
    · exact .added (c := .node (.makeSite n)) rfl free there rfl
    · exact absurd rfl failed
  | sizedAlloc n =>
    obtain ⟨isNew, _, h, hp⟩ := Transaction.bind_ok.mp h
    cases hp
    obtain ⟨rfl, rfl, m, there⟩ | ⟨rfl, free, there, rfl⟩ | ⟨rfl, rfl, id, failed⟩ :=
      Transaction.createOrIgnore_does h
        (fun _ => show Row.key _ _ = .ofId n.file :: Cell.ofPosition n.position from rfl)
        fun _ => rfl
    · exact .found (c := .node (.sizedAlloc n)) rfl there
    · exact .added (c := .node (.sizedAlloc n)) rfl free there rfl
    · refine .ignored (c := .node (.sizedAlloc n)) (n := 0) fun listed => failed ?_
      exact if_pos listed

theorem recordPath_does {path : Path} {a : Answer} (h : recordPath path s = .ok (a, s')) :
    (StoreCall.file path).Does s s' a := by
  obtain ⟨id, _, h, hp⟩ := Transaction.bind_ok.mp h
  cases hp
  obtain ⟨isNew, h⟩ := recordFile_ok h
  exact does_of_ensure (c := .file path) h rfl (fun _ => Store.fileNamed?_value path.text)
    (fun _ => rfl) (fun _ => rfl) (fun _ => Transaction.children_nil (fun _ => True)) rfl

theorem record_inserts {w : Plan.Write} {a : Answer} (h : record w s = .ok (a, s')) :
    Inserts (·.owner = w.table) s s' := by
  cases w with
  | function f signature =>
    obtain ⟨_, _, h, hp⟩ := Transaction.bind_ok.mp h
    cases hp
    exact recordFunction_inserts h
  | var v =>
    obtain ⟨_, _, h, hp⟩ := Transaction.bind_ok.mp h
    cases hp
    exact recordVariable_inserts h
  | stmt n detail =>
    obtain ⟨_, _, h, hp⟩ := Transaction.bind_ok.mp h
    cases hp
    exact recordStmt_inserts h
  | expr n detail access =>
    obtain ⟨_, _, h, hp⟩ := Transaction.bind_ok.mp h
    cases hp
    exact recordExpr_inserts h
  | makeSite n =>
    obtain ⟨_, _, h, hp⟩ := Transaction.bind_ok.mp h
    cases hp
    exact recordMakeSite_inserts h
  | sizedAlloc n =>
    obtain ⟨_, _, h, hp⟩ := Transaction.bind_ok.mp h
    cases hp
    exact recordSizedAlloc_inserts h

/-- A node whose key is there is answered with its row. -/
theorem record_of_found {w : Plan.Write} {n : Int}
    (h : s.keyNumber? w.table (.ofId w.file :: w.place) = some n) :
    record w s = .ok ((StoreCall.node w).answer n false, s) := by
  have site {u : Table} {draft : RowId u → Row u}
      (h : s.keyNumber? u (Row.key u (draft ⟨s.nextNumber u⟩)) = some n) :
      Transaction.createOrIgnore u draft s = .ok (false, s) :=
    Transaction.createOrIgnore_of_taken (by rw [← Store.keyNumber?_isSome, h]; rfl)
  cases w with
  | function f signature =>
    obtain ⟨id, found, rfl⟩ := Option.map_eq_some_iff.mp
      ((Store.functionAt?_value f.position).trans h)
    exact Transaction.bind_ok.mpr ⟨_, _, recordFunction_of_found found, rfl⟩
  | var v =>
    obtain ⟨id, found, rfl⟩ := Option.map_eq_some_iff.mp
      ((Store.variableAt?_value v.position).trans h)
    exact Transaction.bind_ok.mpr ⟨_, _, recordVariable_of_found found, rfl⟩
  | stmt x detail =>
    obtain ⟨id, found, rfl⟩ := Option.map_eq_some_iff.mp ((Store.stmtAt?_value x.span).trans h)
    exact Transaction.bind_ok.mpr ⟨_, _, recordStmt_of_found found, rfl⟩
  | expr x detail access =>
    obtain ⟨id, found, rfl⟩ := Option.map_eq_some_iff.mp ((Store.exprAt?_value x.span).trans h)
    exact Transaction.bind_ok.mpr ⟨_, _, recordExpr_of_found found, rfl⟩
  | makeSite x => exact Transaction.bind_ok.mpr ⟨false, s, site h, rfl⟩
  | sizedAlloc x => exact Transaction.bind_ok.mpr ⟨false, s, site h, rfl⟩

end StoreCall

/-- The number that a call tells is that of the row with its key. -/
theorem StoreCall.Does.keyNumber? {c : StoreCall} {s s' : Store} {a : Answer} {n : Int}
    (h : c.Does s s' a) (ha : a.number = some n) :
    ∃ key, c.key? = some key ∧ s'.keyNumber? c.table key = some n := by
  have told {m : Int} {isNew : Bool} (h : (c.answer m isNew).number = some n) : m = n := by
    unfold answer at h
    split at h <;> cases h <;> rfl
  cases h with
  | @found key m hk there => exact ⟨key, hk, told ha ▸ there⟩
  | @added _ key m hk _ there => exact ⟨key, hk, told ha ▸ there⟩
  | @ignored m foreign =>
    unfold IsForeign at foreign
    split at foreign
    · cases ha
    · exact foreign.elim

/-! ## Types -/

/-- What interning a type adds. -/
theorem TypeTable.Encodes.extends {t : TypeTable} {r : TypeRef} {s s' : Store} (hs : s.Sound)
    (h : t.Encodes [r] s s') : t.Extends r s s' where
  others u hu := h.inserts.rows_eq hu
  types row hrow := by
    refine (h.new row hrow).imp_right fun ⟨q, hq, e, walked, encoded⟩ => ?_
    obtain rfl := List.mem_singleton.mp hq
    exact ⟨e, walked, encoded.describes (h.inserts.sound hs)⟩
  below u hu := by
    obtain ⟨new, rows, hn⟩ := h.fresh u hu
    refine ⟨new, rows, fun x hx => ?_⟩
    have there : x ∈ s'.rows u := rows ▸ List.mem_append_right _ hx
    have owner : s'.has ⟨.types, Row.number u x⟩ = true := by
      by_cases he : u = .types
      · subst he
        exact Store.has_iff.mpr ⟨x, there, rfl⟩
      · have child : u.isNumbered = false := by
          rw [Table.isNumbered, hu]
          exact decide_eq_false fun h => he h.symm
        have refers := Row.owner_mem_references x child
        rw [hu] at refers
        exact (h.inserts.sound hs).references u x there _ refers
    obtain ⟨row, hrow, number⟩ := Store.has_iff.mp owner
    refine ⟨row, hrow, fun old => ?_, number⟩
    have before := Store.number_lt_nextNumber (u := .types) old
    have after := hn x hx
    omega
  names distinct name := h.names distinct name

/-! ## Calls through contexts -/

/-- A call through a context. The store may refuse its transaction. -/
structure RoutedCall (ι : Type) where
  context : ι
  call : StoreCall
  refused : Bool

namespace Contexts

variable {ι : Type} [DecidableEq ι]

def opened (w : Contexts ι) (o : RoutedCall ι) : Session :=
  (w.context o.context).session w.store (if o.refused then some 0 else none)

def perform (w : Contexts ι) (o : RoutedCall ι) : Except Failure Answer × Contexts ι :=
  match o.call.run (w.opened o) with
  | .ok a s => (.ok a, w.leave o.context s)
  | .error f s => (.error f, w.leave o.context s)

def performed (w : Contexts ι) (os : List (RoutedCall ι)) : Contexts ι :=
  os.foldl (fun w o => (w.perform o).2) w

/-- A call that fails adds nothing, and one that succeeds does what it should. What is cached
afterwards is stored. -/
structure Performs (w : Contexts ι) (o : RoutedCall ι) : Prop where
  failed : ∀ f, (w.perform o).1 = .error f → (w.perform o).2.store = w.store
  does : ∀ a, (w.perform o).1 = .ok a → o.call.Does w.store (w.perform o).2.store a
  inserts : Inserts (fun _ => True) w.store (w.perform o).2.store
  agree : (w.perform o).2.TypesAgree

variable {w : Contexts ι} {o : RoutedCall ι}

theorem perform_of_ok {a : Answer} {s : Session} (h : o.call.run (w.opened o) = .ok a s) :
    w.perform o = (.ok a, w.leave o.context s) := by
  rw [perform, h]

theorem perform_of_error {f : Failure} {s : Session}
    (h : o.call.run (w.opened o) = .error f s) :
    w.perform o = (.error f, w.leave o.context s) := by
  rw [perform, h]

/-- A call that is one transaction. -/
theorem performs_commit (ha : w.TypesAgree) {t : Transaction Answer}
    (hr : o.call.run = Analyze.commit t)
    (hd : ∀ {a s'}, t w.store = .ok (a, s') → o.call.Does w.store s' a)
    (hi : ∀ {a s'}, t w.store = .ok (a, s') → Inserts (fun _ => True) w.store s') :
    w.Performs o := by
  have agrees : (w.opened o).Agrees fun _ => False := ha o.context _
  have failed {f : Failure} (h : o.call.run (w.opened o) = .error f (w.opened o)) :
      w.Performs o := by
    constructor <;> rw [perform_of_error h]
    · exact fun _ _ => rfl
    · exact fun _ h => by cases h
    · exact .refl _
    · exact agree_leave ha (le_refl _) agrees
  have tried : t (w.opened o).store = t w.store := rfl
  by_cases hs : (w.opened o).isOpen
  · cases ht : t w.store with
    | error v =>
      refine failed (f := .store (.violation v)) ?_
      rw [hr, Analyze.commit, if_pos hs, tried, ht]
    | ok x =>
      obtain ⟨a, store⟩ := x
      have inserts := hi ht
      have ran : o.call.run (w.opened o) = .ok a ((w.opened o).committed store) := by
        rw [hr, Analyze.commit, if_pos hs, tried, ht]
      constructor <;> rw [perform_of_ok ran]
      · exact fun _ h => by cases h
      · intro a' h
        cases h
        exact hd ht
      · exact inserts
      · exact agree_leave ha inserts.le (agrees.grow inserts.le)
  · refine failed (f := .store .closed) ?_
    rw [hr, Analyze.commit, if_neg hs]

theorem run_type (table : TypeTable) (ref : Option TypeRef) (s : Session) :
    (StoreCall.type table ref).run s =
      match Analyze.typeId table ref s with
      | .ok id s => .ok ⟨some id.value, none⟩ s
      | .error f s => .error f s := by
  simp only [StoreCall.run, bind, EStateM.bind]
  cases Analyze.typeId table ref s <;> rfl

theorem perform_type (w : Contexts ι) (i : ι) (table : TypeTable) (ref : Option TypeRef)
    (refused : Bool) :
    w.perform ⟨i, .type table ref, refused⟩ =
      ((w.request ⟨i, table, ref, refused⟩).1.map fun id => ⟨some id.value, none⟩,
        (w.request ⟨i, table, ref, refused⟩).2) := by
  rw [perform, run_type, request]
  have opened : (w.context i).session w.store (TypeRequest.writesLeft ⟨i, table, ref, refused⟩) =
      w.opened ⟨i, .type table ref, refused⟩ := rfl
  rw [opened]
  cases Analyze.typeId table ref (w.opened ⟨i, .type table ref, refused⟩) <;> rfl

/-- A request for a type that is stored changes nothing. -/
theorem request_of_stored (ha : w.TypesAgree) {q : TypeRequest ι} {name : String} {id : TypeId}
    (hn : q.name? = some name) (stored : w.store.typeNamed? name = some id)
    (h : q.refused = false ∨ ∃ a, (w.request q).1 = .ok a) :
    (w.request q).1 = .ok id ∧ (w.request q).2.store = w.store := by
  have result := (request_yields ha q).result
  unfold Contexts.result at result
  cases hc : w.cached? q with
  | some id' =>
    rw [hc] at result
    rw [cached?, hn, Option.bind_some] at hc
    have same := (ha q.context none).types hc
    change w.store.typeNamed? name = some id' at same
    rw [stored] at same
    cases same
    exact Prod.mk.inj result
  | none =>
    rw [hc] at result
    have free : q.refused = false := by
      obtain h | ⟨a, h⟩ := h
      · exact h
      · rw [h] at result
        exact (TypeRequest.outcome_ok result.symm).1
    rw [TypeRequest.outcome_of_stored free hn stored] at result
    exact Prod.mk.inj result

theorem performs_type (ha : w.TypesAgree) (hs : w.store.Sound) (i : ι) (table : TypeTable)
    (ref : Option TypeRef) (refused : Bool) : w.Performs ⟨i, .type table ref, refused⟩ := by
  let q : TypeRequest ι := ⟨i, table, ref, refused⟩
  have yields := request_yields ha q
  have inserts : Inserts (·.owner = .types) w.store (w.request q).2.store := by
    have := result_inserts w q
    rwa [← yields.result] at this
  constructor <;> rw [perform_type]
  · intro f h
    obtain ⟨a, r, ok, -, -⟩ | ⟨f', -, same⟩ := request_encodes ha hs q
    · rw [show (w.request ⟨i, table, ref, refused⟩).1 = .ok a from ok] at h
      cases h
    · exact same
  · intro a h
    obtain ⟨id, r, ok, hr, encodes⟩ | ⟨f, failed, -⟩ := request_encodes ha hs q
    · rw [show (w.request ⟨i, table, ref, refused⟩).1 = .ok id from ok] at h
      cases h
      obtain ⟨name, hn, found⟩ := name_of_request ha ok
      have hkey : (StoreCall.type table ref).key? = some [.text name] := by
        rw [StoreCall.key?, show ref.bind table.name? = some name from hn, Option.map_some]
      have there : (w.request q).2.store.keyNumber? .types [.text name] = some id.value := by
        rw [← Store.typeNamed?_value, found, Option.map_some]
      cases hw : w.store.typeNamed? name with
      | some id' =>
        obtain ⟨ok', same⟩ := request_of_stored ha hn hw (.inr ⟨id, ok⟩)
        cases ok.symm.trans ok'
        have old : w.store.keyNumber? .types [.text name] = some id.value := by
          rw [← Store.typeNamed?_value, hw, Option.map_some]
        rw [show (w.request ⟨i, table, ref, refused⟩).2.store = w.store from same]
        exact .found (c := .type table ref) hkey old
      | none =>
        have free : w.store.keyNumber? .types [.text name] = none := by
          rw [← Store.typeNamed?_value, hw, Option.map_none]
        exact .added (c := .type table ref) hkey free there ⟨r, hr, encodes.extends hs⟩
    · rw [show (w.request ⟨i, table, ref, refused⟩).1 = .error f from failed] at h
      cases h
  · exact inserts.mono fun _ _ => trivial
  · exact yields.agree

/-- Every call does what it should. -/
theorem performs (ha : w.TypesAgree) (hs : w.store.Sound) (o : RoutedCall ι) : w.Performs o := by
  obtain ⟨i, c, refused⟩ := o
  cases c with
  | file path =>
    refine performs_commit ha rfl StoreCall.recordPath_does fun h => ?_
    obtain ⟨id, _, h, hp⟩ := Transaction.bind_ok.mp h
    cases hp
    exact (recordFile_inserts h).mono fun _ _ => trivial
  | type table ref => exact performs_type ha hs i table ref refused
  | node x =>
    exact performs_commit ha rfl StoreCall.record_does fun h =>
      (StoreCall.record_inserts h).mono fun _ _ => trivial

/-- A call whose key is there is answered with its row, unless the store refuses it. -/
theorem perform_of_found (ha : w.TypesAgree) {key : List Cell} {n : Int}
    (hk : o.call.key? = some key) (hn : w.store.keyNumber? o.call.table key = some n)
    (free : o.refused = false) :
    (w.perform o).1 = .ok (o.call.answer n false) := by
  obtain ⟨i, c, refused⟩ := o
  cases free
  have commits {t : Transaction Answer} {a : Answer} (hr : c.run = Analyze.commit t)
      (ht : t w.store = .ok (a, w.store)) : (w.perform ⟨i, c, false⟩).1 = .ok a := by
    have taken : (w.opened ⟨i, c, false⟩).isOpen = true := rfl
    have ran : c.run (w.opened ⟨i, c, false⟩) =
        .ok a ((w.opened ⟨i, c, false⟩).committed w.store) := by
      rw [hr, Analyze.commit, if_pos taken, show t (w.opened ⟨i, c, false⟩).store = _ from ht]
    rw [perform_of_ok ran]
  cases c with
  | file path =>
    cases hk
    obtain ⟨id, found, rfl⟩ := Option.map_eq_some_iff.mp
      ((Store.fileNamed?_value path.text).trans hn)
    exact commits rfl (Transaction.bind_ok.mpr ⟨_, _, recordFile_of_found found, rfl⟩)
  | type table ref =>
    obtain ⟨name, hname, rfl⟩ := Option.map_eq_some_iff.mp hk
    obtain ⟨id, found, rfl⟩ := Option.map_eq_some_iff.mp ((Store.typeNamed?_value name).trans hn)
    rw [perform_type, (request_of_stored (q := ⟨i, table, ref, false⟩) ha hname found (.inl rfl)).1]
    rfl
  | node x =>
    cases hk
    exact commits rfl (StoreCall.record_of_found hn)

theorem performed_inserts (ha : w.TypesAgree) (hs : w.store.Sound) (os : List (RoutedCall ι)) :
    Inserts (fun _ => True) w.store (w.performed os).store ∧ (w.performed os).TypesAgree := by
  induction os generalizing w with
  | nil => exact ⟨.refl _, ha⟩
  | cons o os ih =>
    have first := performs ha hs o
    obtain ⟨inserts, agree⟩ := ih first.agree (first.inserts.sound hs)
    exact ⟨first.inserts.trans inserts, agree⟩

/-- Contexts start with empty caches on a store that keeps the rules of the schema, and calls are
made through them, with any arguments; the store may refuse any of them. Each call that fails leaves
every table as it was. Each one that succeeds leaves every row in its place and the rules kept: its
key was there and nothing is added, or its key was not there and exactly its row is added, with what
belongs to it; nothing is added for an allocation that is no `make` and no `new`. The number that a
call tells is the one that every later call for the key tells. -/
theorem perform_atomic {w : Contexts ι} (hn : ∀ i, (w.context i).IsNew) (hs : w.store.Sound)
    (before : List (RoutedCall ι)) (o : RoutedCall ι) :
    let w' := w.performed before
    let done := w'.perform o
    (∀ f, done.1 = .error f → done.2.store = w'.store) ∧
      ∀ a, done.1 = .ok a →
        w'.store ≤ done.2.store ∧ done.2.store.Sound ∧ o.call.Does w'.store done.2.store a ∧
        ∀ n, a.number = some n → ∀ between o', o'.call.table = o.call.table →
          o'.call.key? = o.call.key? → o'.refused = false →
          ((done.2.performed between).perform o').1 = .ok (o'.call.answer n false) := by
  intro w' done
  obtain ⟨inserts, agree⟩ := performed_inserts (agree_of_new hn _) hs before
  have sound := inserts.sound hs
  have performs := performs agree sound o
  refine ⟨performs.failed, fun a ok => ?_⟩
  have does := performs.does a ok
  have sound' := performs.inserts.sound sound
  refine ⟨performs.inserts.le, sound', does, fun n hn between o' table key free => ?_⟩
  obtain ⟨key', hk, there⟩ := does.keyNumber? hn
  obtain ⟨later, agree'⟩ := performed_inserts performs.agree sound' between
  refine perform_of_found agree' (key.trans hk) ?_ free
  rw [table]
  exact Store.keyNumber?_of_le later.le there

def fileCall : RoutedCall Bool := ⟨false, .file ⟨"corpus/a.go"⟩, false⟩

/-- A type, refused at first; an expression without an access, and one whose access breaks a
condition. -/
def furtherCalls : List (RoutedCall Bool) :=
  [⟨true, .type .sample (some 0), true⟩, ⟨true, .type .sample (some 0), false⟩,
    ⟨false, .node (.expr ⟨.basicLit, none, ⟨2⟩, ⟨1, 1, 1, 2⟩, ⟨none, none⟩⟩ .none none), false⟩,
    ⟨false, .node (.expr ⟨.ident, none, ⟨2⟩, ⟨1, 3, 1, 4⟩, ⟨none, none⟩⟩
      (.ident "x" none) (some ⟨.ident, none, some "x", none, 0, -1⟩)), false⟩]

/-- An assignment whose third operand is not there. -/
def danglingCall : RoutedCall Bool :=
  ⟨true, .node (.stmt ⟨.assign, ⟨2⟩, ⟨2, 1, 2, 8⟩, ⟨none, none⟩⟩ (.assign [⟨1⟩, ⟨1⟩] [⟨7⟩])), false⟩

theorem perform_sample_atomic :
    (∃ f, ((sample.performed (fileCall :: furtherCalls)).perform danglingCall).1 = .error f ∧
      ((sample.performed (fileCall :: furtherCalls)).perform danglingCall).2.store =
        (sample.performed (fileCall :: furtherCalls)).store) ∧
    (sample.perform fileCall).1 = .ok ⟨some 2, none⟩ ∧
      (((sample.perform fileCall).2.performed furtherCalls).perform fileCall).1 =
        .ok ⟨some 2, none⟩ := by
  have new (i : Bool) : (sample.context i).IsNew := ⟨rfl, rfl⟩
  have dangling := perform_atomic new Store.initial_sound (fileCall :: furtherCalls) danglingCall
  have file := perform_atomic new Store.initial_sound [] fileCall
  have told : (sample.perform fileCall).1 = .ok ⟨some 2, none⟩ := by decide +kernel
  refine ⟨?_, told, (file.2 _ told).2.2.2 2 rfl furtherCalls fileCall rfl rfl rfl⟩
  cases answer : ((sample.performed (fileCall :: furtherCalls)).perform danglingCall).1 with
  | error f => exact ⟨f, rfl, dangling.1 f answer⟩
  | ok a =>
    have fails : ((sample.performed (fileCall :: furtherCalls)).perform danglingCall).1.isOk =
        false := by decide +kernel
    rw [answer] at fails
    cases fails

/-- A call succeeds although its key is not there, before and after it. -/
theorem perform_foreign_ignored :
    let call : RoutedCall Bool := ⟨false, .node (.sizedAlloc ⟨⟨2⟩, ⟨1, 1⟩, "other", "T", 8⟩), false⟩
    let w := sample.performed [fileCall]
    (w.perform call).1 = .ok ⟨none, some false⟩ ∧ (w.perform call).2.store = w.store ∧
      call.call.key? = some [.int 2, .int 1, .int 1] ∧
      w.store.keyNumber? call.call.table [.int 2, .int 1, .int 1] = none := by
  decide +kernel

end Contexts

end AccessDepth
