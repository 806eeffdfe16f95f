import AccessDepth.Proofs.Plan.Rows
import AccessDepth.Proofs.Store.Described

/-!
# AccessDepth.Proofs.Plan.Told

What is said of the rows of an item.

* `Writing` — a store in which an item is written, and a later one in which its rows are described.
* `Writing.Agree` — two stores with the same types looked up, and the same functions around a place.
* `Item.tell` — where two stores agree, the rows of an item say the same, whatever their numbers.
* `Writing.Agree.like` — so each row of the item has its like where the item is written again.
-/

namespace AccessDepth
namespace Plan

/-- Where an item is written, and where its rows are described. -/
structure Writing (a : Around) where
  store : Store
  later : Store
  file : FileId
  types : List (Option TypeId)
  sound : store.Sound
  le : store ≤ later
  here : store.fileNamed? a.path.text = some file

namespace Writing

variable {a : Around} (v v' : Writing a)

theorem nameOf_unknown (hs : Store.initial ≤ v.store) :
    v.later.nameOf .variables (RowId.unknown (t := .variables)).value =
      some (.place "<unknown>" ⟨0, 0⟩) :=
  Store.nameOf_of_le (le_trans hs v.le) rfl

theorem nameOf_file : v.later.nameOf .files v.file.value = some (.file a.path.text) :=
  Store.nameOf_of_le v.le (Store.nameOf_fileNamed? v.sound v.here)

variable {v} in
theorem nameOf_expr {span : Span} {id : ExprId} (h : v.store.exprAt? v.file span = some id) :
    v.later.nameOf .expressions id.value = some (.span a.path.text span) :=
  Store.nameOf_of_le v.le (Store.nameOf_exprAt? v.sound v.here h)

variable {v} in
theorem nameOf_exprs {spans : List Span} {ids : List ExprId}
    (h : v.store.exprsAt? v.file spans = some ids) :
    ids.map (fun id => v.later.nameOf .expressions id.value) =
      spans.map fun span => some (.span a.path.text span) := by
  induction spans generalizing ids with
  | nil =>
    cases h
    rfl
  | cons span spans ih =>
    obtain ⟨id, rest, rfl, hid, hrest⟩ := Store.exprsAt?_cons_inv h
    rw [List.map_cons, List.map_cons, nameOf_expr hid, ih hrest]

variable {v} in
theorem nameOf_variable {site : SourceSite} {id : VariableId}
    (h : v.store.variableOf? site = some id) :
    v.later.nameOf .variables id.value = some (.place site.file.text site.position) := by
  obtain ⟨file, hf, hid⟩ := Option.bind_eq_some_iff.mp h
  exact Store.nameOf_of_le v.le (Store.nameOf_variableAt? v.sound hf hid)

theorem nameOf_recorded :
    (a.recorded v.store v.file).map (fun id => v.later.nameOf .functions id.value) =
      (a.functions.filter fun p => (v.store.functionAt? v.file p).isSome).map
        fun p => some (.place a.path.text p) := by
  unfold Around.recorded
  induction a.functions with
  | nil => rfl
  | cons p ps ih =>
    cases hp : v.store.functionAt? v.file p with
    | none => simpa [hp] using ih
    | some id =>
      have named := Store.nameOf_of_le v.le (Store.nameOf_functionAt? v.sound v.here hp)
      simp [hp, named, ih]

/-- The same was looked up in two stores, and the same functions around a place are recorded. -/
structure Agree : Prop where
  types : v.types.map v.later.called = v'.types.map v'.later.called
  functions : ∀ p ∈ a.functions,
    (v.store.functionAt? v.file p).isSome = (v'.store.functionAt? v'.file p).isSome

structure AgreeOnVariables : Prop where
  sites : ∀ site, (v.store.variableOf? site).isSome = (v'.store.variableOf? site).isSome
  unknown : v.later.nameOf .variables (RowId.unknown (t := .variables)).value =
    v'.later.nameOf .variables (RowId.unknown (t := .variables)).value

variable {v v'}

namespace Agree

variable (h : v.Agree v')
include h

theorem recorded :
    (a.recorded v.store v.file).map (fun id => v.later.nameOf .functions id.value) =
      (a.recorded v'.store v'.file).map fun id => v'.later.nameOf .functions id.value := by
  rw [nameOf_recorded, nameOf_recorded, List.filter_congr h.functions]

theorem outermost :
    v.later.called (a.enclosing v.store v.file).outermost =
      v'.later.called (a.enclosing v'.store v'.file).outermost := by
  have names := congrArg List.head? h.recorded
  rwa [List.head?_map, List.head?_map] at names

theorem innermost :
    v.later.called (a.enclosing v.store v.file).innermost =
      v'.later.called (a.enclosing v'.store v'.file).innermost := by
  have names := congrArg List.getLast? h.recorded
  rwa [List.getLast?_map, List.getLast?_map] at names

theorem firstType : v.later.called v.types.head?.join = v'.later.called v'.types.head?.join := by
  have names := congrArg List.head? h.types
  rw [List.head?_map, List.head?_map] at names
  cases hv : v.types.head? <;> cases hv' : v'.types.head? <;> simp_all

theorem lastType :
    v.later.called v.types.getLast?.join = v'.later.called v'.types.getLast?.join := by
  have names := congrArg List.getLast? h.types
  rw [List.getLast?_map, List.getLast?_map] at names
  cases hv : v.types.getLast? <;> cases hv' : v'.types.getLast? <;> simp_all

theorem laterTypes : v.types.tail.map v.later.called = v'.types.tail.map v'.later.called := by
  rw [List.map_tail, List.map_tail, h.types]

end Agree

/-- The base variable of an access is called the same. -/
theorem AgreeOnVariables.storedBase (h : v.AgreeOnVariables v') (x x' : NewAccess)
    (base : Option SourceSite) (hx : x.baseVariable = base.bind v.store.variableOf?)
    (hx' : x'.baseVariable = base.bind v'.store.variableOf?)
    (hu : x.uncertainty = x'.uncertainty) :
    v.later.called x.storedBase = v'.later.called x'.storedBase := by
  have same : v.later.nameOf .variables (x.baseVariable.getD .unknown).value =
      v'.later.nameOf .variables (x'.baseVariable.getD .unknown).value := by
    rw [hx, hx']
    cases base with
    | none => exact h.unknown
    | some site =>
      have both := h.sites site
      simp only [Option.bind_some]
      cases hv : v.store.variableOf? site with
      | none =>
        rw [hv] at both
        have missing : v'.store.variableOf? site = none := by simpa using both
        rw [missing]
        exact h.unknown
      | some id =>
        rw [hv] at both
        obtain ⟨id', hv'⟩ := Option.isSome_iff_exists.mp both.symm
        rw [hv', Option.getD_some, Option.getD_some, nameOf_variable hv, nameOf_variable hv']
  unfold NewAccess.storedBase
  rw [hu]
  split
  · rfl
  · exact congrArg some same

end Writing

/-! ## The rows of an item -/

theorem zipWith_congr_map {α β β' γ κ : Type} {f : α → β → γ} {f' : α → β' → γ} {k : β → κ}
    {k' : β' → κ} (hf : ∀ e x y, k x = k' y → f e x = f' e y) (es : List α) {xs : List β}
    {ys : List β'} (h : xs.map k = ys.map k') : es.zipWith f xs = es.zipWith f' ys := by
  induction es generalizing xs ys with
  | nil => rfl
  | cons e es ih =>
    cases xs with
    | nil =>
      obtain rfl := List.map_eq_nil_iff.mp h.symm
      rfl
    | cons x xs =>
      cases ys with
      | nil => cases h
      | cons y ys =>
        obtain ⟨hxy, h⟩ := List.cons.inj h
        simp only [List.zipWith_cons_cons, hf e x y hxy, ih h]

theorem map_numbered_congr {α β γ κ : Type} {f : Int × α → γ} {f' : Int × β → γ} {k : α → κ}
    {k' : β → κ} (hf : ∀ i x y, k x = k' y → f (i, x) = f' (i, y)) {xs : List α} {ys : List β}
    (h : xs.map k = ys.map k') (first : Int) :
    (numbered first xs).map f = (numbered first ys).map f' := by
  induction xs generalizing ys first with
  | nil =>
    obtain rfl := List.map_eq_nil_iff.mp h.symm
    rfl
  | cons x xs ih =>
    cases ys with
    | nil => cases h
    | cons y ys =>
      obtain ⟨hxy, h⟩ := List.cons.inj h
      simp only [numbered, List.map_cons, hf first x y hxy, ih h]

section

variable {a : Around} {v v' : Writing a} {n n' : Int}

theorem tell_operands (v v' : Writing a) (row row' : Int × ExprId → AnyRow)
    (told : ∀ i x y, v.later.nameOf .expressions x.value = v'.later.nameOf .expressions y.value →
      v.later.tell (row (i, x)) = v'.later.tell (row' (i, y)))
    {spans : List Span} {ids ids' : List ExprId} (hi : v.store.exprsAt? v.file spans = some ids)
    (hi' : v'.store.exprsAt? v'.file spans = some ids') :
    ((numbered 0 ids).map row).map v.later.tell = ((numbered 0 ids').map row').map v'.later.tell := by
  rw [List.map_map, List.map_map]
  refine map_numbered_congr (fun i x y hxy => told i x y hxy) ?_ 0
  rw [Writing.nameOf_exprs hi, Writing.nameOf_exprs hi']

theorem tell_access {note : AccessNote} {x x' : NewAccess}
    (hx : note.access? v.store v.file = some x) (hx' : note.access? v'.store v'.file = some x')
    (hv : v.AgreeOnVariables v')
    (hn : v.later.nameOf .expressions n = v'.later.nameOf .expressions n') :
    v.later.tell ⟨.accesses, x.row ⟨n⟩⟩ = v'.later.tell ⟨.accesses, x'.row ⟨n'⟩⟩ := by
  obtain ⟨inner, hi, hx⟩ := Option.bind_eq_some_iff.mp hx
  obtain ⟨inner', hi', hx'⟩ := Option.bind_eq_some_iff.mp hx'
  obtain rfl := Option.some.inj hx
  obtain rfl := Option.some.inj hx'
  have base := hv.storedBase _ _ note.base
    (rfl : (NewAccess.mk note.kind inner note.baseName (note.base.bind v.store.variableOf?)
      note.depth note.uncertainty).baseVariable = _)
    (rfl : (NewAccess.mk note.kind inner' note.baseName (note.base.bind v'.store.variableOf?)
      note.depth note.uncertainty).baseVariable = _) rfl
  have operand : v.later.called (inner.map fun e => (⟨e.value⟩ : AccessId)) =
      v'.later.called (inner'.map fun e => (⟨e.value⟩ : AccessId)) := by
    cases hs : note.inner with
    | none =>
      rw [hs] at hi hi'
      cases hi
      cases hi'
      rfl
    | some span =>
      rw [hs] at hi hi'
      obtain ⟨e, he, rfl⟩ := Option.map_eq_some_iff.mp hi
      obtain ⟨e', he', rfl⟩ := Option.map_eq_some_iff.mp hi'
      exact congrArg some ((Writing.nameOf_expr he).trans (Writing.nameOf_expr he').symm)
  simp [Store.tell, Store.describe, Table.columns, Row.cells, Table.isNumbered, Table.owner,
    NewAccess.row, hn, base, operand]

variable (h : v.Agree v')
include h

theorem tell_function {name : Option String} {position : Position} {variadic generic literal : Bool}
    {signature : List SignatureItem} {w w' : Write}
    (hw : (Item.function name position variadic generic literal signature).write? v.store v.file
      v.types a = some w)
    (hw' : (Item.function name position variadic generic literal signature).write? v'.store v'.file
      v'.types a = some w')
    (hn : v.later.nameOf .functions n = v'.later.nameOf .functions n') :
    (w.rows n).map v.later.tell = (w'.rows n').map v'.later.tell := by
  cases hw
  cases hw'
  have parent : v.later.called
        (if literal then (a.enclosing v.store v.file).innermost else none) =
      v'.later.called (if literal then (a.enclosing v'.store v'.file).innermost else none) := by
    cases literal
    · rfl
    · exact h.innermost
  have items : ((signature.zipWith (fun e t => { e with type := t }) v.types.tail).map
        fun e => v.later.tell ⟨.functionSigs, e.row ⟨n⟩⟩) =
      (signature.zipWith (fun e t => { e with type := t }) v'.types.tail).map
        fun e => v'.later.tell ⟨.functionSigs, e.row ⟨n'⟩⟩ := by
    rw [List.map_zipWith, List.map_zipWith]
    refine zipWith_congr_map (fun e x y hxy => ?_) signature h.laterTypes
    simp [Store.tell, Store.describe, Table.columns, Row.cells, Table.isNumbered, Table.owner,
      SignatureItem.row, hn, hxy]
  simp only [Write.rows, Write.table, Write.row, Write.children, List.map_cons, List.map_map]
  refine congrArg₂ List.cons ?_ items
  simp [Store.tell, Store.describe, Table.columns, Row.cells, Table.isNumbered, Table.owner,
    NewFunction.row, Cell.ofPosition, Writing.nameOf_file, h.firstType, parent]

theorem tell_var {name : String} {position : Position} {isConst : Bool} {role : VariableRole}
    {w w' : Write}
    (hw : (Item.var name position isConst role).write? v.store v.file v.types a = some w)
    (hw' : (Item.var name position isConst role).write? v'.store v'.file v'.types a = some w')
    (hn : v.later.nameOf .variables n = v'.later.nameOf .variables n') :
    (w.rows n).map v.later.tell = (w'.rows n').map v'.later.tell := by
  cases hw
  cases hw'
  have global : (a.enclosing v.store v.file).innermost.isNone =
      (a.enclosing v'.store v'.file).innermost.isNone := by
    have same := congrArg Option.isNone h.innermost
    simpa [Store.called] using same
  have binding : ((if (a.enclosing v.store v.file).innermost.isNone then []
        else [⟨.localVariables, ⟨⟨n⟩, role⟩⟩] : List AnyRow).map v.later.tell) =
      (if (a.enclosing v'.store v'.file).innermost.isNone then []
        else [⟨.localVariables, ⟨⟨n'⟩, role⟩⟩] : List AnyRow).map v'.later.tell := by
    rw [global]
    split
    · rfl
    · simp [Store.tell, Store.describe, Table.columns, Row.cells, Table.isNumbered, Table.owner, hn]
  simp only [Write.rows, Write.table, Write.row, Write.children, List.map_cons]
  refine congrArg₂ List.cons ?_ binding
  simp [Store.tell, Store.describe, Table.columns, Row.cells, Table.isNumbered, Table.owner,
    NewVariable.row, NewVariable.isGlobal, Cell.ofPosition, Writing.nameOf_file, h.firstType, global,
    h.innermost]

theorem tell_stmtDetail {note : StmtNote} {d d' : StmtDetail}
    (hd : note.detail? v.store v.file v.types = some d)
    (hd' : note.detail? v'.store v'.file v'.types = some d')
    (hn : v.later.nameOf .statements n = v'.later.nameOf .statements n') :
    (d.children ⟨n⟩).map v.later.tell = (d'.children ⟨n'⟩).map v'.later.tell := by
  cases note with
  | none =>
    cases hd
    cases hd'
    rfl
  | assign lhs rhs =>
    obtain ⟨ls, hl, hd⟩ := Option.bind_eq_some_iff.mp hd
    obtain ⟨rs, hr, hd⟩ := Option.bind_eq_some_iff.mp hd
    obtain ⟨ls', hl', hd'⟩ := Option.bind_eq_some_iff.mp hd'
    obtain ⟨rs', hr', hd'⟩ := Option.bind_eq_some_iff.mp hd'
    cases hd
    cases hd'
    have side (side : OperandSide) {spans : List Span} {ids ids' : List ExprId}
        (hi : v.store.exprsAt? v.file spans = some ids)
        (hi' : v'.store.exprsAt? v'.file spans = some ids') :
        (StmtDetail.operands ⟨n⟩ side ids).map v.later.tell =
          (StmtDetail.operands ⟨n'⟩ side ids').map v'.later.tell := by
      refine tell_operands v v' _ _ (fun i x y hxy => ?_) hi hi'
      simp [Store.tell, Store.describe, Table.columns, Row.cells, Table.isNumbered, Table.owner, hn,
        hxy]
    rw [StmtDetail.children, StmtDetail.children, List.map_append, List.map_append,
      side .left hl hl', side .right hr hr']
  | «return» results =>
    obtain ⟨rs, hr, hd⟩ := Option.bind_eq_some_iff.mp hd
    obtain ⟨rs', hr', hd'⟩ := Option.bind_eq_some_iff.mp hd'
    cases hd
    cases hd'
    refine tell_operands v v' _ _ (fun i x y hxy => ?_) hr hr'
    simp [Store.tell, Store.describe, Table.columns, Row.cells, Table.isNumbered, Table.owner, hn,
      hxy]
  | defer call =>
    obtain ⟨c, hc, hd⟩ := Option.bind_eq_some_iff.mp hd
    obtain ⟨c', hc', hd'⟩ := Option.bind_eq_some_iff.mp hd'
    cases hd
    cases hd'
    simp [StmtDetail.children, Store.tell, Store.describe, Table.columns, Row.cells,
      Table.isNumbered, Table.owner, hn, Writing.nameOf_expr hc, Writing.nameOf_expr hc']
  | typeSwitch bound assertion cases =>
    obtain ⟨c, hc, hd⟩ := Option.bind_eq_some_iff.mp hd
    obtain ⟨c', hc', hd'⟩ := Option.bind_eq_some_iff.mp hd'
    cases hd
    cases hd'
    have clauses : ((cases.zipWith (fun c t => { c with type := t }) v.types).map fun c =>
          v.later.tell ⟨.typeSwitchCases, ⟨⟨n⟩, c.clause, c.position, c.place, c.type⟩⟩) =
        (cases.zipWith (fun c t => { c with type := t }) v'.types).map fun c =>
          v'.later.tell ⟨.typeSwitchCases, ⟨⟨n'⟩, c.clause, c.position, c.place, c.type⟩⟩ := by
      rw [List.map_zipWith, List.map_zipWith]
      refine zipWith_congr_map (fun e x y hxy => ?_) cases h.types
      simp [Store.tell, Store.describe, Table.columns, Row.cells, Table.isNumbered, Table.owner, hn,
        hxy, Cell.ofPosition]
    simp only [StmtDetail.children, List.map_cons, List.map_map]
    refine congrArg₂ List.cons ?_ clauses
    simp [Store.tell, Store.describe, Table.columns, Row.cells, Table.isNumbered, Table.owner, hn,
      Writing.nameOf_expr hc, Writing.nameOf_expr hc']

theorem tell_stmt {kind : StmtKind} {span : Span} {note : StmtNote} {w w' : Write}
    (hw : (Item.stmt kind span note).write? v.store v.file v.types a = some w)
    (hw' : (Item.stmt kind span note).write? v'.store v'.file v'.types a = some w')
    (hn : v.later.nameOf .statements n = v'.later.nameOf .statements n') :
    (w.rows n).map v.later.tell = (w'.rows n').map v'.later.tell := by
  obtain ⟨d, hd, hw⟩ := Option.bind_eq_some_iff.mp hw
  obtain ⟨d', hd', hw'⟩ := Option.bind_eq_some_iff.mp hw'
  cases hw
  cases hw'
  simp only [Write.rows, Write.table, Write.row, Write.children, List.map_cons]
  refine congrArg₂ List.cons ?_ (tell_stmtDetail h hd hd' hn)
  simp [Store.tell, Store.describe, Table.columns, Row.cells, Table.isNumbered, Table.owner,
    NewStmt.row, Cell.ofSpan, Cell.ofEnclosing, Writing.nameOf_file, h.outermost, h.innermost]

theorem tell_exprDetail {note : ExprNote} {d d' : ExprDetail}
    (hd : note.detail? v.store v.file v.types = some d)
    (hd' : note.detail? v'.store v'.file v'.types = some d')
    (hn : v.later.nameOf .expressions n = v'.later.nameOf .expressions n') :
    (d.children ⟨n⟩).map v.later.tell = (d'.children ⟨n'⟩).map v'.later.tell := by
  cases note with
  | none =>
    cases hd
    cases hd'
    rfl
  | ident name definition =>
    cases definition with
    | none =>
      cases hd
      cases hd'
      simp [ExprDetail.children, Store.tell, Store.describe, Table.columns, Row.cells,
        Table.isNumbered, Table.owner, hn, Cell.ofOption]
    | some site =>
      obtain ⟨file, hf, hd⟩ := Option.bind_eq_some_iff.mp hd
      obtain ⟨file', hf', hd'⟩ := Option.bind_eq_some_iff.mp hd'
      cases hd
      cases hd'
      have target := Store.nameOf_of_le v.le (Store.nameOf_fileNamed? v.sound hf)
      have target' := Store.nameOf_of_le v'.le (Store.nameOf_fileNamed? v'.sound hf')
      simp [ExprDetail.children, Store.tell, Store.describe, Table.columns, Row.cells,
        Table.isNumbered, Table.owner, hn, Cell.ofOption, target, target']
  | selector base field =>
    obtain ⟨x, hx, hd⟩ := Option.bind_eq_some_iff.mp hd
    obtain ⟨x', hx', hd'⟩ := Option.bind_eq_some_iff.mp hd'
    cases hd
    cases hd'
    simp [ExprDetail.children, Store.tell, Store.describe, Table.columns, Row.cells,
      Table.isNumbered, Table.owner, hn, Writing.nameOf_expr hx, Writing.nameOf_expr hx']
  | typeAssert base =>
    obtain ⟨x, hx, hd⟩ := Option.bind_eq_some_iff.mp hd
    obtain ⟨x', hx', hd'⟩ := Option.bind_eq_some_iff.mp hd'
    cases hd
    cases hd'
    simp [ExprDetail.children, Store.tell, Store.describe, Table.columns, Row.cells,
      Table.isNumbered, Table.owner, hn, Writing.nameOf_expr hx, Writing.nameOf_expr hx',
      h.firstType]
  | call function args =>
    obtain ⟨x, hx, hd⟩ := Option.bind_eq_some_iff.mp hd
    obtain ⟨xs, hxs, hd⟩ := Option.bind_eq_some_iff.mp hd
    obtain ⟨x', hx', hd'⟩ := Option.bind_eq_some_iff.mp hd'
    obtain ⟨xs', hxs', hd'⟩ := Option.bind_eq_some_iff.mp hd'
    cases hd
    cases hd'
    have called : v.later.nameOf .expressions x.value = v'.later.nameOf .expressions x'.value := by
      rw [Writing.nameOf_expr hx, Writing.nameOf_expr hx']
    cases args with
    | nil =>
      cases hxs
      cases hxs'
      simp [ExprDetail.children, ExprDetail.callRows, Store.tell, Store.describe, Table.columns,
        Row.cells, Table.isNumbered, Table.owner, hn, called]
    | cons arg args =>
      have rows := tell_operands v v' (fun c => ⟨.callDetails, ⟨⟨n⟩, c.1, x, some c.2⟩⟩)
        (fun c => ⟨.callDetails, ⟨⟨n'⟩, c.1, x', some c.2⟩⟩) (fun i y y' hy => by
          simp [Store.tell, Store.describe, Table.columns, Row.cells, Table.isNumbered,
            Table.owner, hn, called, hy]) hxs hxs'
      obtain ⟨y, ys, rfl, -⟩ := Store.exprsAt?_cons_inv hxs
      obtain ⟨y', ys', rfl, -⟩ := Store.exprsAt?_cons_inv hxs'
      simpa [ExprDetail.children, ExprDetail.callRows, List.map_map, Function.comp_def] using rows

theorem tell_expr {kind : ExprKind} {span : Span} {note : ExprNote} {access : Option AccessNote}
    {w w' : Write}
    (hw : (Item.expr kind span note access).write? v.store v.file v.types a = some w)
    (hw' : (Item.expr kind span note access).write? v'.store v'.file v'.types a = some w')
    (hv : v.AgreeOnVariables v')
    (hn : v.later.nameOf .expressions n = v'.later.nameOf .expressions n') :
    (w.rows n).map v.later.tell = (w'.rows n').map v'.later.tell := by
  obtain ⟨d, hd, hw⟩ := Option.bind_eq_some_iff.mp hw
  obtain ⟨x, hx, hw⟩ := Option.bind_eq_some_iff.mp hw
  obtain ⟨d', hd', hw'⟩ := Option.bind_eq_some_iff.mp hw'
  obtain ⟨x', hx', hw'⟩ := Option.bind_eq_some_iff.mp hw'
  cases hw
  cases hw'
  have accesses : (x.toList.map fun y => v.later.tell ⟨.accesses, y.row ⟨n⟩⟩) =
      x'.toList.map fun y => v'.later.tell ⟨.accesses, y.row ⟨n'⟩⟩ := by
    cases access with
    | none =>
      cases hx
      cases hx'
      rfl
    | some note =>
      obtain ⟨y, hy, rfl⟩ := Option.map_eq_some_iff.mp hx
      obtain ⟨y', hy', rfl⟩ := Option.map_eq_some_iff.mp hx'
      exact congrArg (fun r => [r]) (tell_access hy hy' hv hn)
  simp only [Write.rows, Write.table, Write.row, Write.children, List.map_cons, List.map_append,
    List.map_map]
  refine congrArg₂ List.cons ?_ (congrArg₂ _ (tell_exprDetail h hd hd' hn) accesses)
  simp [Store.tell, Store.describe, Table.columns, Row.cells, Table.isNumbered, Table.owner,
    NewExpr.row, Cell.ofSpan, Cell.ofEnclosing, Writing.nameOf_file, h.outermost, h.innermost,
    h.lastType]

end

/-- Where two stores agree, the rows of an item say the same, whatever their numbers. -/
theorem Item.tell {a : Around} {v v' : Writing a} {n n' : Int} (h : v.Agree v') {item : Item}
    {w w' : Write} (hw : item.write? v.store v.file v.types a = some w)
    (hw' : item.write? v'.store v'.file v'.types a = some w')
    (hv : item.table = .expressions → v.AgreeOnVariables v')
    (hn : v.later.nameOf item.table n = v'.later.nameOf item.table n')
    (ht : item.table ∈ Store.namedTables) :
    (w.rows n).map v.later.tell = (w'.rows n').map v'.later.tell := by
  cases item with
  | function => exact tell_function h hw hw' hn
  | var => exact tell_var h hw hw' hn
  | stmt => exact tell_stmt h hw hw' hn
  | expr => exact tell_expr h hw hw' (hv rfl) hn
  | makeSite | sizedAlloc => simp [Item.table, Store.namedTables] at ht

theorem Item.tell_site {a : Around} {v v' : Writing a} {n n' : Int} {item : Item} {w w' : Write}
    (hw : item.write? v.store v.file v.types a = some w)
    (hw' : item.write? v'.store v'.file v'.types a = some w')
    (ht : item.table ∉ Store.namedTables) :
    (w.rows n).map v.later.tell = (w'.rows n').map v'.later.tell := by
  cases item with
  | makeSite | sizedAlloc =>
    cases hw
    cases hw'
    simp [Write.rows, Write.table, Write.row, Write.children, Store.tell, Store.describe,
      Table.columns, Row.cells, Table.isNumbered, Table.owner, Cell.ofPosition, Writing.nameOf_file]
  | function | var | stmt | expr => simp [Item.table, Store.namedTables] at ht

/-- Rows at one place of a file are called the same. -/
theorem rowName_of_place {t t' : Store} {u : Table} (hu : u ∈ Table.placed) {r r' : Row u}
    {file file' : FileId} {place : List Cell} (hk : Row.key u r = .ofId file :: place)
    (hk' : Row.key u r' = .ofId file' :: place) (hp : t.pathOf file = t'.pathOf file') :
    t.rowName u r = t'.rowName u r' := by
  simp only [Table.placed, List.mem_cons, List.not_mem_nil, or_false] at hu
  obtain rfl | rfl | rfl | rfl | rfl | rfl := hu
  case inl | inr.inl =>
    simp only [Row.key, List.cons.injEq, Cell.ofId_inj] at hk hk'
    obtain ⟨rfl, hplace⟩ := hk
    obtain ⟨rfl, hplace'⟩ := hk'
    simp [Store.rowName, Cell.ofPosition_inj.mp (hplace.trans hplace'.symm), hp]
  case inr.inr.inl | inr.inr.inr.inl =>
    simp only [Row.key, List.cons.injEq, Cell.ofId_inj] at hk hk'
    obtain ⟨rfl, hplace⟩ := hk
    obtain ⟨rfl, hplace'⟩ := hk'
    simp [Store.rowName, Cell.ofSpan_inj.mp (hplace.trans hplace'.symm), hp]
  all_goals rfl

section

variable {a : Around} {item : Item} {v v' : Writing a} {w w' : Write} {n n' : Int}

theorem Writing.nameOf_number (hs : v.later.Sound) (ht : item.table ∈ Store.namedTables)
    (hw : item.write? v.store v.file v.types a = some w) (hr : w.row n ∈ v.later.rows w.table) :
    ∃ r, v.later.nameOf item.table n = v.later.rowName item.table r ∧
      Row.key item.table r = .ofId v.file :: item.place := by
  have table := Item.table_of_write? hw
  obtain ⟨hfile, hplace⟩ := Item.of_write? hw
  have named := hs.nameOf_number hr (table ▸ ht)
  rw [w.number_row] at named
  rw [← table, ← hplace, ← hfile]
  exact ⟨w.row n, named, w.key_row n⟩

/-- The rows of an item are described the same where they are there. -/
theorem tell_rows (hv : v.Agree v') (hvars : item.table = .expressions → v.AgreeOnVariables v')
    (hs : v.later.Sound) (hs' : v'.later.Sound)
    (hw : item.write? v.store v.file v.types a = some w)
    (hw' : item.write? v'.store v'.file v'.types a = some w')
    (hr : w.row n ∈ v.later.rows w.table) (hr' : w'.row n' ∈ v'.later.rows w'.table) :
    (w.rows n).map v.later.tell = (w'.rows n').map v'.later.tell := by
  by_cases ht : item.table ∈ Store.namedTables
  · have path := Store.pathOf_of_le v.le (Store.pathOf_fileNamed? v.sound v.here)
    have path' := Store.pathOf_of_le v'.le (Store.pathOf_fileNamed? v'.sound v'.here)
    obtain ⟨r, hn, hk⟩ := v.nameOf_number hs ht hw hr
    obtain ⟨r', hn', hk'⟩ := v'.nameOf_number hs' ht hw' hr'
    refine Item.tell hv hw hw' hvars ?_ ht
    rw [hn, hn', rowName_of_place item.table_placed hk hk' (path.trans path'.symm)]
  · exact Item.tell_site hw hw' ht

/-- Where all rows of an item are there, each has its like among them. -/
theorem Writing.Agree.like (hv : v.Agree v')
    (hvars : item.table = .expressions → v.AgreeOnVariables v') (hs : v.later.Sound)
    (hs' : v'.later.Sound) (hw : item.write? v.store v.file v.types a = some w)
    (hw' : item.write? v'.store v'.file v'.types a = some w')
    (there : ∀ row ∈ w.rows n, row.row ∈ v.later.rows row.table)
    (there' : ∀ row ∈ w'.rows n', row.row ∈ v'.later.rows row.table) {u : Table} {r : Row u}
    (hr : (⟨u, r⟩ : AnyRow) ∈ w.rows n) :
    ∃ r' ∈ v'.later.rows u, v.later.describe u r = v'.later.describe u r' := by
  have told := tell_rows hv hvars hs hs' hw hw' (there _ List.mem_cons_self)
    (there' _ List.mem_cons_self)
  obtain ⟨⟨u', r'⟩, hr', he⟩ := List.mem_map.mp (told ▸ List.mem_map_of_mem (f := v.later.tell) hr)
  obtain rfl : u' = u := congrArg Prod.fst he
  exact ⟨r', there' _ hr', (congrArg Prod.snd he).symm⟩

end

end Plan
end AccessDepth
