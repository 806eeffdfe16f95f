import AccessDepth.Proofs.Plan.Agreement
import AccessDepth.Proofs.Session

/-!
# AccessDepth.Proofs.Plan.Completion

What was made in one order can be made in any other one.

* `Uncached.typeId_succeeds` — in a closed table every type is looked up.
* `Item.has_of_write?` — what the rows of an item refer to is there, but for the access of an operand.
* `Item.record_succeeds` — so an item is recorded if that access is there too.
* `Moment.again` — an operation that was made at some moment can be made wherever its part has made
  the operations before it.
* `Reached.complete` — a part can make all that it has made in another order.
-/

namespace AccessDepth

/-- In a closed table every type is looked up. -/
theorem Uncached.typeId_succeeds {t : TypeTable} {s : Store} (hc : t.Closed) (hs : s.Sound)
    (ref : Option TypeRef) : ∃ id s', typeId t ref s = .ok (id, s') := by
  unfold typeId
  cases ref with
  | none => exact ⟨none, s, rfl⟩
  | some r =>
    simp only
    cases hr : t.get? r with
    | none =>
      have missing : intern t (t.size + 1) r s = .error .nilType := by
        unfold intern
        rw [hr]
        rfl
      rw [missing]
      exact ⟨none, s, rfl⟩
    | some e =>
      have fits : t.unstored s < t.size + 1 := Nat.lt_succ_of_le (t.unstored_le_size s)
      obtain ⟨a, s', h⟩ := intern_succeeds hc hs fits (Option.isSome_of_eq_some hr)
      rw [h]
      exact ⟨some a, s', rfl⟩

/-! ## Rows that are looked up -/

namespace Store

variable {s : Store} {file : FileId}

theorem has_of_find? {u : Table} {p : Row u → Bool} {f : Row u → RowId u} {id : RowId u}
    (hn : ∀ r, (f r).value = Row.number u r) (h : ((s.rows u).find? p).map f = some id) :
    s.has (.to id) = true := by
  obtain ⟨r, hr, rfl⟩ := Option.map_eq_some_iff.mp h
  exact has_iff.mpr ⟨r, List.mem_of_find?_eq_some hr, (hn r).symm⟩

theorem has_fileNamed? {path : String} (h : s.fileNamed? path = some file) :
    s.has (.to file) = true := has_of_find? (u := .files) (fun _ => rfl) h

theorem has_functionAt? {position : Position} {id : FunctionId}
    (h : s.functionAt? file position = some id) : s.has (.to id) = true :=
  has_of_find? (u := .functions) (fun _ => rfl) h

theorem has_exprAt? {span : Span} {id : ExprId} (h : s.exprAt? file span = some id) :
    s.has (.to id) = true := has_of_find? (u := .expressions) (fun _ => rfl) h

theorem has_variableOf? {site : SourceSite} {id : VariableId} (h : s.variableOf? site = some id) :
    s.has (.to id) = true := by
  obtain ⟨f, -, hid⟩ := Option.bind_eq_some_iff.mp h
  exact has_of_find? (u := .variables) (fun _ => rfl) hid

theorem has_exprsAt? {spans : List Span} {ids : List ExprId}
    (h : s.exprsAt? file spans = some ids) : ∀ id ∈ ids, s.has (.to id) = true := by
  induction spans generalizing ids with
  | nil =>
    cases h
    intro id hid
    cases hid
  | cons span spans ih =>
    obtain ⟨id, rest, rfl, hid, hrest⟩ := exprsAt?_cons_inv h
    exact List.forall_mem_cons.mpr ⟨has_exprAt? hid, ih hrest⟩

theorem has_unknown (h : initial ≤ s) : s.has (.to (.unknown : VariableId)) = true :=
  has_of_le h (by decide)

end Store

/-- The base of an access is there if the variable that was found for it is. -/
theorem NewAccess.has_storedBase {s : Store} {x : NewAccess} (hn : Store.initial ≤ s)
    (h : ∀ v, x.baseVariable = some v → s.has (.to v) = true) :
    ∀ ref ∈ (x.storedBase.map Reference.to).toList, s.has ref = true := by
  intro ref href
  obtain ⟨id, hid, rfl⟩ := Option.map_eq_some_iff.mp (Option.mem_toList.mp href)
  unfold NewAccess.storedBase at hid
  split at hid
  · cases hid
  · cases hb : x.baseVariable with
    | none =>
      rw [hb] at hid
      cases hid
      exact Store.has_unknown hn
    | some v =>
      rw [hb] at hid
      cases hid
      exact h _ hb

namespace Plan

/-! ## What the rows of an item refer to -/

def Item.through? : Item → Option Span
  | .expr _ _ _ access => access.bind (·.inner)
  | _ => none

section

variable {s : Store} {file : FileId} {types : List (Option TypeId)} {a : Around}

/-- Types that were looked up are stored. -/
def TypesStored (s : Store) (types : List (Option TypeId)) : Prop :=
  ∀ id, some id ∈ types → s.has (.to id) = true

theorem run_typesStored {os : List Op} {m m' : Machine} (hc : ∀ o ∈ os, o.Closed)
    (hm : TypesStored m.store m.types) (h : run os m = .ok m') : TypesStored m'.store m'.types := by
  induction os generalizing m with
  | nil =>
    cases h
    exact hm
  | cons o os ih =>
    obtain ⟨m₁, h₁, h₂⟩ := run_cons_ok h
    refine ih (fun o' ho => hc o' (List.mem_cons_of_mem o ho)) ?_ h₂
    have le := (step_inserts h₁).le
    cases o with
    | file path =>
      obtain ⟨id, -, same⟩ := step_file_ok h₁
      exact fun id hid => Store.has_of_le le (hm id (same ▸ hid))
    | type table ref =>
      obtain ⟨id, hid, same⟩ := step_type_ok h₁
      intro x hx
      rw [same] at hx
      obtain hx | hx := List.mem_append.mp hx
      · exact Store.has_of_le le (hm x hx)
      · obtain ⟨-, rfl⟩ | ⟨name, i, -, hi, rfl⟩ := Uncached.typeId_ok (hc _ List.mem_cons_self) hid
        · simp at hx
        · obtain rfl : x = i := by simpa using hx
          exact Store.has_typeNamed? hi
    | record b item =>
      obtain ⟨-, same⟩ := step_record_ok h₁
      rw [same]
      intro x hx
      cases hx

namespace TypesStored

variable (h : TypesStored s types)
include h

theorem optional {x : Option (Option TypeId)} (hx : ∀ y ∈ x, y ∈ types) :
    ∀ ref ∈ (x.join.map Reference.to).toList, s.has ref = true := by
  intro ref href
  obtain ⟨id, hid, rfl⟩ := Option.map_eq_some_iff.mp (Option.mem_toList.mp href)
  exact h id (hx (some id) (Option.join_eq_some_iff.mp hid))

theorem items {α : Type} {type : α → Option TypeId} {xs : List α}
    (hx : ∀ x ∈ xs, type x ∈ types) :
    ∀ ref ∈ (xs.filterMap type).map Reference.to, s.has ref = true := by
  intro ref href
  obtain ⟨id, hid, rfl⟩ := List.mem_map.mp href
  obtain ⟨x, hm, he⟩ := List.mem_filterMap.mp hid
  exact h id (he ▸ hx x hm)

end TypesStored

theorem mem_of_mem_zipWith {α β γ : Type} {f : α → β → γ} {g : γ → β} (hg : ∀ x y, g (f x y) = y)
    {xs : List α} {ys : List β} : ∀ z ∈ xs.zipWith f ys, g z ∈ ys := by
  intro z hz
  rw [← List.map_uncurry_zip_eq_zipWith] at hz
  obtain ⟨⟨x, y⟩, hm, rfl⟩ := List.mem_map.mp hz
  simp only [Function.uncurry_apply_pair, hg]
  exact (List.of_mem_zip hm).2

theorem Around.has_enclosing (a : Around) :
    ∀ ref ∈ (a.enclosing s file).refs, s.has ref = true := by
  have recorded : ∀ id ∈ a.recorded s file, s.has (.to id) = true := by
    intro id hid
    obtain ⟨p, -, hp⟩ := List.mem_filterMap.mp hid
    exact Store.has_functionAt? hp
  intro ref href
  obtain href | href := List.mem_append.mp href
  · obtain ⟨id, hid, rfl⟩ := Option.map_eq_some_iff.mp (Option.mem_toList.mp href)
    exact recorded id (List.mem_of_head? hid)
  · obtain ⟨id, hid, rfl⟩ := Option.map_eq_some_iff.mp (Option.mem_toList.mp href)
    exact recorded id (List.mem_of_getLast? hid)

theorem Around.has_innermost (a : Around) :
    ∀ ref ∈ ((a.enclosing s file).innermost.map Reference.to).toList, s.has ref = true :=
  fun ref href => a.has_enclosing ref (List.mem_append_right _ href)

theorem StmtNote.has_of_detail? {note : StmtNote} {d : StmtDetail} (ht : TypesStored s types)
    (h : note.detail? s file types = some d) : ∀ ref ∈ d.refs, s.has ref = true := by
  cases note with
  | none =>
    cases h
    intro ref href
    cases href
  | assign lhs rhs =>
    obtain ⟨ls, hl, h⟩ := Option.bind_eq_some_iff.mp h
    obtain ⟨rs, hr, h⟩ := Option.bind_eq_some_iff.mp h
    cases h
    simp only [StmtDetail.refs, List.forall_mem_map, List.forall_mem_append]
    exact ⟨Store.has_exprsAt? hl, Store.has_exprsAt? hr⟩
  | «return» results =>
    obtain ⟨ids, hids, h⟩ := Option.bind_eq_some_iff.mp h
    cases h
    simp only [StmtDetail.refs, List.forall_mem_map]
    exact Store.has_exprsAt? hids
  | defer call =>
    obtain ⟨id, hid, h⟩ := Option.bind_eq_some_iff.mp h
    cases h
    simp only [StmtDetail.refs, List.forall_mem_singleton]
    exact Store.has_exprAt? hid
  | typeSwitch bound assertion cases =>
    obtain ⟨id, hid, h⟩ := Option.bind_eq_some_iff.mp h
    cases h
    simp only [StmtDetail.refs, List.forall_mem_cons]
    exact ⟨Store.has_exprAt? hid, ht.items (mem_of_mem_zipWith fun _ _ => rfl)⟩

theorem ExprNote.has_of_detail? {note : ExprNote} {d : ExprDetail} (ht : TypesStored s types)
    (h : note.detail? s file types = some d) : ∀ ref ∈ d.refs, s.has ref = true := by
  cases note with
  | none =>
    cases h
    intro ref href
    cases href
  | ident name definition =>
    cases definition with
    | none =>
      cases h
      intro ref href
      cases href
    | some site =>
      obtain ⟨target, hf, h⟩ := Option.bind_eq_some_iff.mp h
      cases h
      simp only [ExprDetail.refs, Option.map_some, Option.toList_some, List.forall_mem_singleton]
      exact Store.has_fileNamed? hf
  | selector base field =>
    obtain ⟨id, hid, h⟩ := Option.bind_eq_some_iff.mp h
    cases h
    simp only [ExprDetail.refs, List.forall_mem_singleton]
    exact Store.has_exprAt? hid
  | typeAssert base =>
    obtain ⟨id, hid, h⟩ := Option.bind_eq_some_iff.mp h
    cases h
    simp only [ExprDetail.refs, List.forall_mem_cons]
    exact ⟨Store.has_exprAt? hid, ht.optional fun y hy => List.mem_of_head? hy⟩
  | call function args =>
    obtain ⟨id, hid, h⟩ := Option.bind_eq_some_iff.mp h
    obtain ⟨ids, hids, h⟩ := Option.bind_eq_some_iff.mp h
    cases h
    simp only [ExprDetail.refs, List.forall_mem_map, List.forall_mem_cons]
    exact ⟨Store.has_exprAt? hid, Store.has_exprsAt? hids⟩

/-- What an access refers to is there, but for the access of its operand. -/
theorem AccessNote.has_of_access? {note : AccessNote} {x : NewAccess} (hn : Store.initial ≤ s)
    (h : note.access? s file = some x) : ∀ ref ∈ x.refs, s.has ref = true ∨
      ∃ span ∈ note.inner, ∃ e, s.exprAt? file span = some e ∧ ref = ⟨.accesses, e.value⟩ := by
  obtain ⟨inner, hi, h⟩ := Option.bind_eq_some_iff.mp h
  cases h
  intro ref href
  obtain href | href := List.mem_append.mp href
  · obtain ⟨e, he, rfl⟩ := Option.map_eq_some_iff.mp (Option.mem_toList.mp href)
    obtain rfl : inner = some e := he
    cases hs : note.inner with
    | none =>
      rw [hs] at hi
      cases hi
    | some span =>
      rw [hs] at hi
      obtain ⟨e', he, same⟩ := Option.map_eq_some_iff.mp hi
      cases same
      exact .inr ⟨span, rfl, e, he, rfl⟩
  · refine .inl (NewAccess.has_storedBase hn (fun v hv => ?_) ref href)
    obtain ⟨site, -, hv⟩ := Option.bind_eq_some_iff.mp hv
    exact Store.has_variableOf? hv

/-- What the rows of an item refer to is there, but for the access of an operand. -/
theorem Item.has_of_write? {item : Item} {w : Write} (hn : Store.initial ≤ s)
    (hf : s.has (.to file) = true) (ht : TypesStored s types)
    (h : item.write? s file types a = some w) : ∀ ref ∈ w.refs, s.has ref = true ∨
      ∃ span ∈ item.through?, ∃ e, s.exprAt? file span = some e ∧ ref = ⟨.accesses, e.value⟩ := by
  have all {refs : List Reference} (h : ∀ ref ∈ refs, s.has ref = true) (item : Item) :
      ∀ ref ∈ refs, s.has ref = true ∨ ∃ span ∈ item.through?, ∃ e,
        s.exprAt? file span = some e ∧ ref = ⟨.accesses, e.value⟩ := fun ref href => .inl (h ref href)
  cases item with
  | function name position variadic generic literal signature =>
    cases h
    refine all ?_ _
    simp only [Write.refs, List.forall_mem_cons, List.forall_mem_append]
    refine ⟨hf, ⟨?_, ht.optional fun y hy => List.mem_of_head? hy⟩, ht.items fun e he => ?_⟩
    · split
      · exact a.has_innermost
      · intro ref href
        cases href
    · exact List.mem_of_mem_tail (mem_of_mem_zipWith (fun _ _ => rfl) e he)
  | var name position isConst role =>
    cases h
    refine all ?_ _
    simp only [Write.refs, List.forall_mem_cons, List.forall_mem_append]
    exact ⟨hf, ht.optional fun y hy => List.mem_of_head? hy, a.has_innermost⟩
  | stmt kind span detail =>
    obtain ⟨d, hd, h⟩ := Option.bind_eq_some_iff.mp h
    cases h
    refine all ?_ _
    simp only [Write.refs, List.forall_mem_cons, List.forall_mem_append]
    exact ⟨hf, a.has_enclosing, StmtNote.has_of_detail? ht hd⟩
  | expr kind span detail access =>
    obtain ⟨d, hd, h⟩ := Option.bind_eq_some_iff.mp h
    obtain ⟨x, hx, h⟩ := Option.bind_eq_some_iff.mp h
    cases h
    intro ref href
    obtain rfl | href := List.mem_cons.mp href
    · exact .inl hf
    obtain href | href := List.mem_append.mp href
    · refine all ?_ _ ref href
      simp only [List.forall_mem_append]
      exact ⟨⟨ht.optional fun y hy => List.mem_of_getLast? hy, a.has_enclosing⟩,
        ExprNote.has_of_detail? ht hd⟩
    · cases access with
      | none =>
        cases hx
        cases href
      | some note =>
        obtain ⟨n, hnote, rfl⟩ := Option.map_eq_some_iff.mp hx
        rw [Option.toList_some, List.flatMap_singleton] at href
        exact AccessNote.has_of_access? hn hnote ref href
  | makeSite | sizedAlloc =>
    cases h
    exact all (List.forall_mem_singleton.mpr hf) _

theorem Write.settled_of_taken {w : Write} (h : w.Taken s) : w.Settled s := by
  cases w with
  | function => exact Store.functionAt?_isSome.mpr h
  | var => exact Store.variableAt?_isSome.mpr h
  | stmt => exact Store.stmtAt?_isSome.mpr h
  | expr => exact Store.exprAt?_isSome.mpr h
  | makeSite => exact h
  | sizedAlloc => exact .inr h

/-- An item is recorded where everything that it goes by is. -/
theorem Item.record_succeeds {item : Item} (hs : s.Sound) (hn : Store.initial ≤ s)
    (tidy : item.Tidy) (hf : s.fileNamed? a.path.text = some file) (ht : TypesStored s types)
    (operands : ∀ span ∈ item.operands, (s.exprAt? file span).isSome = true)
    (sites : ∀ site ∈ item.site?, (s.fileNamed? site.file.text).isSome = true)
    (through : ¬ s.Occupied item.table a.path.text item.place → ∀ span ∈ item.through?, ∀ e,
      s.exprAt? file span = some e → s.has ⟨.accesses, e.value⟩ = true) :
    ∃ m, (Op.record a item).step ⟨s, types⟩ = .ok m := by
  obtain ⟨w, hw⟩ := Option.isSome_iff_exists.mp
    ((@Item.write?_isSome s file types item a).mpr ⟨operands, sites⟩)
  have same := Item.record_of_write? hf hw
  have recorded {s' : Store} (h : w.record s = .ok ((), s')) :
      ∃ m, (Op.record a item).step ⟨s, types⟩ = .ok m :=
    ⟨⟨s', []⟩, by simp only [Op.step, same, h]⟩
  by_cases taken : s.Occupied item.table a.path.text item.place
  · obtain ⟨file', hf', r, hr, hk⟩ := taken
    obtain rfl := Option.some.inj (hf.symm.trans hf')
    obtain ⟨hfile, hplace⟩ := Item.of_write? hw
    refine recorded (Write.record_of_settled (Write.settled_of_taken ?_))
    rw [Write.Taken, Item.table_of_write? hw, hfile, hplace]
    exact ⟨r, hr, hk⟩
  · obtain ⟨s', h⟩ | ⟨-, ref, href, lacks⟩ := w.record_ends hs (item.tidy_of_write? tidy hw)
    · exact recorded h
    · obtain there | ⟨span, hspan, e, he, rfl⟩ :=
        item.has_of_write? hn (Store.has_fileNamed? hf) ht hw ref href
      · rw [there] at lacks
        cases lacks
      · rw [through taken span hspan e he] at lacks
        cases lacks

end

namespace Parts

variable {ι : Type} [DecidableEq ι] {P : Parts ι} {π π' : ι → Nat} {s s' t : Store} {d : ι} {k : Nat}
  {a : Around} {item : Item}

/-! ## Operands of accesses -/

namespace Moment

/-- Where an access is recorded, the operand that it goes through has one. -/
theorem access_of_operand (hP : P.Orderly) (x : P.Moment t d k (.record a item)) {file : FileId}
    (hf : x.now.store.fileNamed? a.path.text = some file)
    (free : ¬ x.now.store.Occupied item.table a.path.text item.place) {span : Span}
    (hspan : span ∈ item.through?) :
    ∃ r ∈ x.now.store.accesses, x.now.store.exprAt? file span = some r.expr := by
  have taken := occupied_of_tidy (hP.tidy x.mem) x.step
  obtain ⟨hrec, -⟩ := step_record_ok x.step
  obtain ⟨file', w, hf', hw, hrec⟩ := Item.record_ok hrec
  obtain rfl := Option.some.inj (hf.symm.trans hf')
  cases item with
  | function | var | stmt | makeSite | sizedAlloc => cases hspan
  | expr kind own detail access =>
    cases access with
    | none => cases hspan
    | some note =>
      obtain ⟨d', -, hw⟩ := Option.bind_eq_some_iff.mp hw
      obtain ⟨y, hy, hw⟩ := Option.bind_eq_some_iff.mp hw
      obtain ⟨n, hn, rfl⟩ := Option.map_eq_some_iff.mp hy
      cases hw
      obtain ⟨inner, hi, hn⟩ := Option.bind_eq_some_iff.mp hn
      rw [show note.inner = some span from hspan] at hi
      obtain ⟨e, he, rfl⟩ := Option.map_eq_some_iff.mp hi
      have goesThrough : n.inner = some e := by
        cases hn
        rfl
      obtain same | ⟨-, accesses⟩ := recordExpr_eq hrec
      · exact absurd (same ▸ taken) free
      · have sound := (step_inserts x.step).sound x.sound
        have rows : x.next.store.rows .accesses = x.now.store.accesses ++
            [n.row ⟨x.now.store.nextNumber .expressions⟩] := accesses
        have new : n.row ⟨x.now.store.nextNumber .expressions⟩ ∈ x.next.store.rows .accesses :=
          rows ▸ List.mem_append_right _ List.mem_cons_self
        have there := sound.references .accesses _ new ⟨.accesses, e.value⟩ (by
          rw [Row.references_eq]
          simp [Row.refs, NewAccess.row, goesThrough, Reference.to])
        obtain ⟨r, hr, number⟩ := Store.has_iff.mp there
        rw [rows] at hr
        have same : r.expr = e := congrArg RowId.mk number
        obtain hr | hr := List.mem_append.mp hr
        · exact ⟨r, hr, same ▸ he⟩
        · have old := Store.has_exprAt? he
          obtain rfl := List.mem_singleton.mp hr
          rw [← same] at old
          exact absurd old (Bool.eq_false_iff.mp (Store.has_nextNumber _ _))

/-- An access that was added for an expression of a file was added by what records in that file. -/
theorem path_of_access (y : P.Moment t d k (.record a item)) (ht : t.Sound) {path : String}
    {file file' : FileId} {span : Span} (hf : t.fileNamed? path = some file) {r : AccessRow}
    (he : t.exprAt? file span = some r.expr) {w : Write}
    (hf' : y.now.store.fileNamed? a.path.text = some file')
    (hw : item.write? y.now.store file' y.now.types a = some w)
    (there : ∀ row ∈ w.rows (y.now.store.nextNumber w.table), row.row ∈ t.rows row.table)
    (hadd : (⟨.accesses, r⟩ : AnyRow) ∈ w.rows (y.now.store.nextNumber w.table)) :
    a.path.text = path := by
  obtain head | below := List.mem_cons.mp hadd
  · have table : Table.accesses = item.table :=
      (congrArg AnyRow.table head).trans (Item.table_of_write? hw)
    have placed := item.table_placed
    rw [← table] at placed
    simp [Table.placed] at placed
  · have owner := (w.children_children _ _ below).1
    have number : r.expr.value = y.now.store.nextNumber w.table := Write.number_children below
    have own := there _ List.mem_cons_self
    obtain ⟨rfl, -⟩ := Item.of_write? hw
    cases w with
    | function | var | stmt | makeSite | sizedAlloc => cases owner
    | expr x detail access =>
      have named := ht.nameOf_number (u := .expressions) own (by simp [Store.namedTables])
      have inFile := Store.pathOf_of_le y.now_le (Store.pathOf_fileNamed? y.sound hf')
      have called := Store.nameOf_exprAt? ht hf he
      rw [number] at called
      have same := called.symm.trans (named.trans (congrArg (Option.map _) inFile))
      cases same
      rfl

/-- Where an access can be recorded in one order, its operand has one in every other order. -/
theorem through (hP : P.Orderly) (x : P.Moment t d k (.record a item)) (h : P.Standing d k π s)
    {file : FileId} (hf : s.fileNamed? a.path.text = some file)
    (free : ¬ s.Occupied item.table a.path.text item.place) :
    ∀ span ∈ item.through?, ∀ e, s.exprAt? file span = some e → s.has ⟨.accesses, e.value⟩ = true := by
  intro span hspan e he
  obtain ⟨hrec, -⟩ := step_record_ok x.step
  obtain ⟨file', w, hf', hw, -⟩ := Item.record_ok hrec
  obtain ⟨r, hr, he'⟩ := x.access_of_operand hP hf'
    ((h.same_places hP x.standing x.here item.table_placed).not.mp free) hspan
  obtain ⟨r', hr', said⟩ := x.standing.reached.transfer hP (u := .accesses)
    (by simp [Table.owner, Table.placed]) hr h.reached fun d' k' o' hk y hy hy' => by
      obtain ⟨a', item', file'', w', rfl, hf'', hw', -, there, hadd⟩ :=
        y.added (by simp [Table.owner, Table.placed]) hy hy'
      have path := y.path_of_access x.sound hf' he' hf'' hw' there hadd
      obtain rfl | before | after := hP.apart d' d a' item' a item y.mem x.mem path
      · rw [h.count, ← x.standing.count]
        exact hk
      · exact Nat.lt_of_lt_of_le (List.getElem?_eq_some_iff.mp y.here).1 (h.due d' before)
      · have ended := x.standing.reached.due (Nat.lt_of_le_of_lt (Nat.zero_le k') hk) d after
        rw [x.standing.count] at ended
        exact absurd (List.getElem?_eq_some_iff.mp x.here).1 (Nat.not_lt_of_le ended)
  have same : x.now.store.nameOf .expressions r.expr.value =
      s.nameOf .expressions r'.expr.value := Value.name.inj (List.cons.inj said).1
  have called := Store.nameOf_exprAt? h.reached.sound hf he
  have called' := (Store.nameOf_exprAt? x.sound hf' he').symm.trans same
  have number := h.reached.sound.nameOf_inj called'.symm called
  exact Store.has_iff.mpr ⟨r', hr', number⟩

/-- An operation that was made at some moment can be made wherever its part has made the operations
before it. -/
theorem again (hP : P.Orderly) {o : Op} (x : P.Moment t d k o) (h : P.Standing d k π s)
    {types : List (Option TypeId)} (hr : run ((P.code d).take k) ⟨s, []⟩ = .ok ⟨s, types⟩) :
    ∃ m, o.step ⟨s, types⟩ = .ok m := by
  have sound := h.reached.sound
  cases o with
  | file path =>
    obtain ⟨id, s', hs⟩ := recordFile_succeeds path s
    exact ⟨⟨s', types⟩, by simp only [Op.step, hs]⟩
  | type table ref =>
    obtain ⟨id, s', hs⟩ := Uncached.typeId_succeeds (hP.closed d _ x.mem) sound ref
    exact ⟨⟨s', types ++ [id]⟩, by simp only [Op.step, hs]⟩
  | record a item =>
    have split : P.code d = (P.code d).take k ++ .record a item :: (P.code d).drop (k + 1) := by
      obtain ⟨hk, he⟩ := List.getElem?_eq_some_iff.mp x.here
      rw [← he, List.getElem_cons_drop, List.take_append_drop]
    obtain ⟨tidy, own, sites⟩ := (split ▸ hP.prepared d).here
    have stored {path : Path} (hp : path ∈ [] ∨ .file path ∈ (P.code d).take k) :
        (s.fileNamed? path.text).isSome = true := by
      obtain ⟨j, hj⟩ := List.mem_iff_getElem?.mp (hp.resolve_left (by simp))
      have before : j < k := by
        obtain ⟨hj, -⟩ := List.getElem?_eq_some_iff.mp hj
        exact Nat.lt_of_lt_of_le hj (List.length_take_le _ _)
      rw [List.getElem?_take_of_lt before] at hj
      exact h.reached.fileNamed? (h.count.symm ▸ before) hj
    obtain ⟨file, hf⟩ := Option.isSome_iff_exists.mp (stored own)
    obtain ⟨hrec, -⟩ := step_record_ok x.step
    obtain ⟨file', w, hf', hw, -⟩ := Item.record_ok hrec
    obtain ⟨operands, -⟩ := Item.write?_isSome.mp (Option.isSome_of_eq_some hw)
    refine Item.record_succeeds sound h.reached.new tidy hf
      (run_typesStored (fun o ho => hP.closed d o (List.mem_of_mem_take ho)) ?_ hr)
      (fun span hspan => ?_) (fun site hsite => stored (sites site hsite)) (x.through hP h hf)
    · intro id hid
      cases hid
    · rw [h.same_exprs hP x.standing x.here hf hf']
      exact operands span hspan

end Moment

/-- A part can make all that it has made in another order. -/
theorem Reached.complete (hP : P.Orderly) (h : P.Reached π s) (due : P.Due π d)
    (h' : P.Reached π' s') {n : Nat} (hn : n ≤ π' d) :
    ∃ m, run ((P.code d).take n) ⟨s, []⟩ = .ok m := by
  induction n with
  | zero => exact ⟨⟨s, []⟩, by rw [List.take_zero]; rfl⟩
  | succ n ih =>
    obtain hle | hle := Nat.lt_or_ge n (π d)
    · obtain ⟨types, hr⟩ := h.settled_take hP.closed hle
      exact ⟨_, hr⟩
    · obtain ⟨m, hr⟩ := ih (Nat.le_of_succ_le hn)
      obtain ⟨o, ⟨x⟩⟩ := h'.moment hn
      have standing : P.Standing d n (Function.update π d n) m.store :=
        ⟨h.goOn hP.closed due hle (Nat.le_of_succ_le (Nat.le_trans hn (h'.le_length d))) hr,
          due.mono (le_update hle), Function.update_self ..⟩
      have closed : ∀ o ∈ (P.code d).take n, o.Closed := fun o ho =>
        hP.closed d o (List.mem_of_mem_take ho)
      obtain ⟨m', hs⟩ := x.again hP standing (run_settled closed hr (le_refl _))
      refine ⟨m', ?_⟩
      rw [List.take_add_one, x.here, Option.toList_some, run_append_of_ok hr, run_singleton]
      exact hs

end Parts
end Plan
end AccessDepth
