import AccessDepth.Proofs.Depth.Entered
import AccessDepth.Proofs.DepthPass

/-!
# AccessDepth.Proofs.NodeRows

Which rows the depth pass adds for a file that had none.

* `Store.HasExprDetail`, `Store.HasStmtDetail` — the detail rows of an expression or a statement.
* `Expr.Detailed`, `Stmt.Detailed`, `Part.Recorded` — the detail of a node, by the rows of its operands.
* `Store.RecordsNodes` — between two stores, one row is added for each node of a file and for each of
  its parts, with its detail and after what is below it.
* `Depth.run_recordsNodes` — so does the depth pass.
-/

namespace AccessDepth

open Plan (Write)

/-! ## Details -/

namespace ExprDetail

variable (id : ExprId)

def idents : ExprDetail → List IdentRow
  | .ident name definition => [⟨id, name, definition⟩]
  | _ => []

def selectors : ExprDetail → List SelectorRow
  | .selector base field => [⟨id, base, field⟩]
  | _ => []

def typeAsserts : ExprDetail → List TypeAssertRow
  | .typeAssert base type => [⟨id, base, type⟩]
  | _ => []

def calls : ExprDetail → List CallRow
  | .call function [] => [⟨id, 0, function, Option.none⟩]
  | .call function args => (numbered 0 args).map fun (n, arg) => ⟨id, n, function, some arg⟩
  | _ => []

end ExprDetail

namespace StmtDetail

variable (id : StmtId)

def assigns : StmtDetail → List AssignOperandRow
  | .assign lhs rhs =>
    ((numbered 0 lhs).map fun (n, e) => ⟨id, .left, n, e⟩) ++
      (numbered 0 rhs).map fun (n, e) => ⟨id, .right, n, e⟩
  | _ => []

def returns : StmtDetail → List ReturnResultRow
  | .return results => (numbered 0 results).map fun (n, e) => ⟨id, n, e⟩
  | _ => []

def defers : StmtDetail → List DeferRow
  | .defer call => [⟨id, call⟩]
  | _ => []

def typeSwitches : StmtDetail → List TypeSwitchRow
  | .typeSwitch bound assertion _ => [⟨id, bound, assertion⟩]
  | _ => []

def typeSwitchCases : StmtDetail → List TypeSwitchCaseRow
  | .typeSwitch _ _ cases => cases.map fun c => ⟨id, c.clause, c.position, c.place, c.type⟩
  | _ => []

end StmtDetail

/-- The detail rows of an expression are those of a detail. -/
structure Store.HasExprDetail (s : Store) (id : ExprId) (d : ExprDetail) : Prop where
  idents : s.identDetails.filter (fun r => r.expr = id) = d.idents id
  selectors : s.selectorDetails.filter (fun r => r.expr = id) = d.selectors id
  typeAsserts : s.typeAssertDetails.filter (fun r => r.expr = id) = d.typeAsserts id
  calls : s.callDetails.filter (fun r => r.expr = id) = d.calls id

/-- The detail rows of a statement are those of a detail. -/
structure Store.HasStmtDetail (s : Store) (id : StmtId) (d : StmtDetail) : Prop where
  assigns : s.assignOperands.filter (fun r => r.stmt = id) = d.assigns id
  returns : s.returnResults.filter (fun r => r.stmt = id) = d.returns id
  defers : s.defers.filter (fun r => r.stmt = id) = d.defers id
  typeSwitches : s.typeSwitches.filter (fun r => r.stmt = id) = d.typeSwitches id
  typeSwitchCases : s.typeSwitchCases.filter (fun r => r.stmt = id) = d.typeSwitchCases id

namespace Depth

theorem filter_id {α : Type} {u : Table} (rows : List α) (of : α → RowId u) (n : Int) :
    rows.filter (fun r => of r = ⟨n⟩) = rows.filter fun r => (of r).value = n := by
  have same (id : RowId u) : (id = ⟨n⟩) = (id.value = n) := by
    cases id
    simp
  simp only [same]

theorem in?_map {α : Type} {u v : Table} (xs : List α) (row : α → Row u) :
    (xs.map fun x => (⟨u, row x⟩ : AnyRow)).filterMap (·.in? v) =
      if h : u = v then xs.map fun x => h ▸ row x else [] := by
  by_cases h : u = v
  · subst h
    simp [AnyRow.in?, List.filterMap_map]
  · simp [AnyRow.in?, List.filterMap_map, h]

section

variable {s : Store} {n : Int}

theorem hasExprDetail {x : NewExpr} {d : ExprDetail} {a : Option NewAccess}
    (h : ∀ u : Table, u.owner = .expressions → u.isNumbered = false →
      (s.rows u).filter (fun r => Row.number u r = n) =
        ((Write.expr x d a).children n).filterMap (·.in? u)) : s.HasExprDetail ⟨n⟩ d := by
  have detail (u : Table) (ho : u.owner = .expressions) (hn : u.isNumbered = false)
      (hu : u ≠ .accesses) : (s.rows u).filter (fun r => Row.number u r = n) =
        (d.children ⟨n⟩).filterMap (·.in? u) := by
    rw [h u ho hn, Write.children, List.filterMap_append, in?_map, dif_neg (Ne.symm hu),
      List.append_nil]
  constructor
  case idents =>
    refine (filter_id s.identDetails (·.expr) n).trans
      ((detail .identDetails rfl rfl (by decide)).trans ?_)
    cases d with
    | call => exact (in?_map ..).trans (dif_neg (by decide))
    | _ => rfl
  case selectors =>
    refine (filter_id s.selectorDetails (·.expr) n).trans
      ((detail .selectorDetails rfl rfl (by decide)).trans ?_)
    cases d with
    | call => exact (in?_map ..).trans (dif_neg (by decide))
    | _ => rfl
  case typeAsserts =>
    refine (filter_id s.typeAssertDetails (·.expr) n).trans
      ((detail .typeAssertDetails rfl rfl (by decide)).trans ?_)
    cases d with
    | call => exact (in?_map ..).trans (dif_neg (by decide))
    | _ => rfl
  case calls =>
    refine (filter_id s.callDetails (·.expr) n).trans
      ((detail .callDetails rfl rfl (by decide)).trans ?_)
    cases d with
    | call function args =>
      refine (in?_map ..).trans ((dif_pos rfl).trans ((List.map_id' _).trans ?_))
      cases args <;> rfl
    | _ => rfl

theorem hasStmtDetail {x : NewStmt} {d : StmtDetail}
    (h : ∀ u : Table, u.owner = .statements → u.isNumbered = false →
      (s.rows u).filter (fun r => Row.number u r = n) =
        ((Write.stmt x d).children n).filterMap (·.in? u)) : s.HasStmtDetail ⟨n⟩ d := by
  constructor
  case assigns =>
    refine (filter_id s.assignOperands (·.stmt) n).trans ((h .assignOperands rfl rfl).trans ?_)
    cases d <;> simp [Write.children, StmtDetail.children, StmtDetail.operands, AnyRow.in?,
      List.filterMap_map, StmtDetail.assigns]
  case returns =>
    refine (filter_id s.returnResults (·.stmt) n).trans ((h .returnResults rfl rfl).trans ?_)
    cases d <;> simp [Write.children, StmtDetail.children, StmtDetail.operands, AnyRow.in?,
      List.filterMap_map, StmtDetail.returns]
  case defers =>
    refine (filter_id s.defers (·.stmt) n).trans ((h .defers rfl rfl).trans ?_)
    cases d <;> simp [Write.children, StmtDetail.children, StmtDetail.operands, AnyRow.in?,
      List.filterMap_map, StmtDetail.defers]
  case typeSwitches =>
    refine (filter_id s.typeSwitches (·.stmt) n).trans ((h .typeSwitches rfl rfl).trans ?_)
    cases d <;> simp [Write.children, StmtDetail.children, StmtDetail.operands, AnyRow.in?,
      List.filterMap_map, StmtDetail.typeSwitches]
  case typeSwitchCases =>
    refine (filter_id s.typeSwitchCases (·.stmt) n).trans ((h .typeSwitchCases rfl rfl).trans ?_)
    cases d <;> simp [Write.children, StmtDetail.children, StmtDetail.operands, AnyRow.in?,
      List.filterMap_map, StmtDetail.typeSwitchCases]

end

end Depth

/-! ## Operands -/

open Depth (Locates)

/-- The detail of an expression, by the rows of its operands. -/
def Expr.Detailed (s : Store) (p : Package) (root : Path) (file : FileId) (e : Expr)
    (d : ExprDetail) : Prop :=
  match e.node with
  | .ident name object =>
    ∃ site, Locates s (p.declaration? root object) site ∧ d = .ident name site
  | .selector x sel => ∃ base, s.exprAt? file x.span = some base ∧ d = .selector base sel.name
  | .typeAssert x target =>
    ∃ base type, s.exprAt? file x.span = some base ∧
      s.FitsType p.types (target.bind (·.type)) type ∧ d = .typeAssert base type
  | .call fn args _ =>
    ∃ function operands, s.exprAt? file fn.span = some function ∧
      s.exprsAt? file (args.map (·.span)) = some operands ∧ d = .call function operands
  | _ => d = .none

/-- The detail of a statement, by the rows of its operands. -/
def Stmt.Detailed (s : Store) (p : Package) (file : FileId) (st : Stmt) (d : StmtDetail) : Prop :=
  match st with
  | .assign _ lhs _ rhs =>
    ∃ left right, s.exprsAt? file (lhs.map (·.span)) = some left ∧
      s.exprsAt? file (rhs.map (·.span)) = some right ∧ d = .assign left right
  | .return _ results =>
    ∃ operands, s.exprsAt? file (results.map (·.span)) = some operands ∧ d = .return operands
  | .defer _ call => ∃ operand, s.exprAt? file call.span = some operand ∧ d = .defer operand
  | .typeSwitch _ _ binding body =>
    match Depth.guardOf binding with
    | none => d = .none
    | some (bound, assertion) =>
      ∃ operand cases, s.exprAt? file assertion = some operand ∧
        List.Forall₂ (fun c c' => ∃ type, s.FitsType p.types c.2 type ∧
          c' = { c.1 with type := type }) (Depth.switchCasesOf (numbered 0 body.stmts)) cases ∧
        d = .typeSwitch bound operand cases
  | _ => d = .none

/-- The row of a part, with its detail. -/
def Part.Recorded (s : Store) (p : Package) (root : Path) (file : FileId) : Part → Prop
  | .name i =>
    ∃ id site, s.exprAt? file i.span = some id ∧ Locates s (p.declaration? root i.object) site ∧
      s.HasExprDetail id (.ident i.name site)
  | .literal l => ∃ id, s.exprAt? file l.span = some id ∧ s.HasExprDetail id .none
  | .signature span => ∃ id, s.exprAt? file span = some id ∧ s.HasExprDetail id .none
  | .body span => ∃ id, s.stmtAt? file span = some id ∧ s.HasStmtDetail id .none

namespace Depth

variable {p : Package} {root : Path} {file : FileId} {t : Store} {a : Plan.Around}

theorem locates_of_fits {name : String} {site : Option SourceSite} {types : List (Option TypeId)}
    {d : ExprDetail} (h : (Plan.ExprNote.ident name site).Fits t file types d) :
    ∃ found, Locates t site found ∧ d = .ident name found := by
  cases site with
  | none =>
    cases h
    exact ⟨none, rfl, rfl⟩
  | some site =>
    obtain ⟨target, hf, rfl⟩ := h
    exact ⟨_, ⟨target, rfl, hf⟩, rfl⟩

theorem Mark.Writes.exprDetailed {e : Expr} {x : NewExpr} {d : ExprDetail} {b : Option NewAccess}
    (h : (Mark.expr a e).Writes p root t file (.expr x d b)) : e.Detailed t p root file d := by
  cases h with
  | @expr _ _ note _ types _ _ item lookups fits =>
    obtain ⟨span, type, node⟩ := e
    cases item
    cases node with
    | ident name object => exact locates_of_fits fits
    | selector x sel =>
      obtain ⟨base, hb, hd⟩ := Option.bind_eq_some_iff.mp fits
      cases hd
      exact ⟨base, hb, rfl⟩
    | typeAssert x target =>
      obtain ⟨base, hb, hd⟩ := Option.bind_eq_some_iff.mp fits
      cases hd
      cases lookups with
      | cons first _ => exact ⟨base, _, hb, first, rfl⟩
    | call fn args spread =>
      obtain ⟨function, hf, hd⟩ := Option.bind_eq_some_iff.mp fits
      obtain ⟨operands, ho, hd⟩ := Option.bind_eq_some_iff.mp hd
      cases hd
      exact ⟨function, operands, hf, ho, rfl⟩
    | _ =>
      cases fits
      rfl

theorem zipWith_fits {cases : List (SwitchCase × Option TypeRef)} {types : List (Option TypeId)}
    (h : List.Forall₂ (t.FitsType p.types) (cases.map (·.2)) types) :
    List.Forall₂ (fun c c' => ∃ type, t.FitsType p.types c.2 type ∧ c' = { c.1 with type := type })
      cases ((cases.map (·.1)).zipWith (fun c type => { c with type := type }) types) := by
  induction cases generalizing types with
  | nil => exact .nil
  | cons c cases ih =>
    cases h with
    | @cons _ type _ types first rest => exact .cons ⟨type, first, rfl⟩ (ih rest)

theorem Mark.Writes.stmtDetailed {st : Stmt} {x : NewStmt} {d : StmtDetail}
    (h : (Mark.stmt a st).Writes p root t file (.stmt x d)) : st.Detailed t p file d := by
  cases h with
  | @stmt _ _ note types _ item lookups fits =>
    cases item
    cases st with
    | assign span lhs op rhs =>
      obtain ⟨left, hl, hd⟩ := Option.bind_eq_some_iff.mp fits
      obtain ⟨right, hr, hd⟩ := Option.bind_eq_some_iff.mp hd
      cases hd
      exact ⟨left, right, hl, hr, rfl⟩
    | «return» span results =>
      obtain ⟨operands, ho, hd⟩ := Option.bind_eq_some_iff.mp fits
      cases hd
      exact ⟨operands, ho, rfl⟩
    | defer span call =>
      obtain ⟨operand, ho, hd⟩ := Option.bind_eq_some_iff.mp fits
      cases hd
      exact ⟨operand, ho, rfl⟩
    | typeSwitch span init binding body =>
      unfold Stmt.Detailed
      simp only [Mark.lookups, stmtNote] at lookups fits
      simp only
      cases hg : guardOf binding with
      | none =>
        rw [hg] at fits
        cases fits
        rfl
      | some guard =>
        rw [hg] at fits lookups
        obtain ⟨operand, ho, hd⟩ := Option.bind_eq_some_iff.mp fits
        cases hd
        exact ⟨operand, _, ho, zipWith_fits lookups, rfl⟩
    | _ =>
      cases fits
      rfl

namespace Entered

variable {marks : List Mark} {xs : List Stored} {s s' : Session}
  (h : Entered p root file marks xs s s') (hs : s.store.Sound) (hs' : s'.store.Sound)
include h hs hs'

theorem expr {m : Mark} (hm : m ∈ marks) {kind : ExprKind} {span : Span}
    (hh : m.heading = .expr kind span) : ∃ x d b id,
      m.Writes p root s'.store file (.expr x d b) ∧ s'.store.exprAt? file span = some id ∧
        s'.store.HasExprDetail id d := by
  obtain ⟨w, n, writes, number, rows⟩ := h.row hs hs' hm
  have heading := writes.heading n
  rw [hh] at number heading
  obtain ⟨id, hid, rfl⟩ := Option.map_eq_some_iff.mp number
  cases w with
  | expr x d b => exact ⟨x, d, b, id, writes, hid, hasExprDetail rows⟩
  | stmt => cases heading
  | function | var | makeSite | sizedAlloc => cases writes

theorem stmt {m : Mark} (hm : m ∈ marks) {kind : StmtKind} {span : Span}
    (hh : m.heading = .stmt kind span) : ∃ x d id,
      m.Writes p root s'.store file (.stmt x d) ∧ s'.store.stmtAt? file span = some id ∧
        s'.store.HasStmtDetail id d := by
  obtain ⟨w, n, writes, number, rows⟩ := h.row hs hs' hm
  have heading := writes.heading n
  rw [hh] at number heading
  obtain ⟨id, hid, rfl⟩ := Option.map_eq_some_iff.mp number
  cases w with
  | stmt x d => exact ⟨x, d, id, writes, hid, hasStmtDetail rows⟩
  | expr => cases heading
  | function | var | makeSite | sizedAlloc => cases writes

/-- A part is recorded. -/
theorem part {m : Mark} (hm : m ∈ marks) {x : Part} (hx : m.part? = some x) :
    x.Recorded s'.store p root file := by
  cases m with
  | expr | stmt => cases hx
  | name a i =>
    cases hx
    obtain ⟨x, d, b, id, writes, hid, detail⟩ := h.expr hs hs' hm rfl
    cases writes with
    | expr item _ fits =>
      cases item
      obtain ⟨site, located, rfl⟩ := locates_of_fits fits
      exact ⟨id, site, hid, located, detail⟩
  | literal | signature =>
    cases hx
    obtain ⟨x, d, b, id, writes, hid, detail⟩ := h.expr hs hs' hm rfl
    cases writes with
    | expr item _ fits =>
      cases item
      cases fits
      exact ⟨id, hid, detail⟩
  | block a span =>
    cases hx
    obtain ⟨x, d, id, writes, hid, detail⟩ := h.stmt hs hs' hm rfl
    cases writes with
    | stmt item _ fits =>
      cases item
      cases fits
      exact ⟨id, hid, detail⟩

end Entered
end Depth

/-! ## Files -/

namespace Store

/-- No expression and no statement is recorded of a file. -/
def Lacks (s : Store) (path : Path) : Prop :=
  (∀ e ∈ s.expressions, ¬ s.IsFile e.file path) ∧ ∀ r ∈ s.statements, ¬ s.IsFile r.file path

theorem IsFile.of_has {s t : Store} {file : FileId} {path : Path} (h : t.IsFile file path)
    (ht : t.Sound) (hle : s ≤ t) (there : s.has ⟨.files, file.value⟩ = true) :
    s.IsFile file path := by
  obtain ⟨r, hr, hn⟩ := has_iff.mp there
  obtain ⟨r', hr', rfl, hc⟩ := h
  cases ht.eq_of_number (u := .files) rfl ((hle .files).subset hr) hr' hn
  exact ⟨r, hr, rfl, hc⟩

end Store

/-- Between two stores one row is added for each node that the walk meets in a file, for each of its
parts, and no other one; with its detail, and after the rows of what is below it. -/
structure Store.RecordsNodes (s s' : Store) (p : Package) (root : Path) (file : FileId)
    (f : SourceFile) : Prop where
  expressions : ∃ rows, s'.expressions = s.expressions ++ rows ∧ (∀ e ∈ rows, e.file = file) ∧
    (rows.map fun e => Heading.expr e.kind e.span).Perm
      (f.headings.filter (·.table = .expressions))
  statements : ∃ rows, s'.statements = s.statements ++ rows ∧ (∀ r ∈ rows, r.file = file) ∧
    (rows.map fun r => Heading.stmt r.kind r.span).Perm (f.headings.filter (·.table = .statements))
  exprs : ∀ e, .expr e ∈ f.nodes → ∃ id d, s'.exprAt? file e.span = some id ∧
    e.Detailed s' p root file d ∧ s'.HasExprDetail id d
  stmts : ∀ st, .stmt st ∈ f.nodes → ∃ id d, s'.stmtAt? file st.span = some id ∧
    st.Detailed s' p file d ∧ s'.HasStmtDetail id d
  parts : ∀ x ∈ f.parts, x.Recorded s' p root file
  childrenFirst : ∀ n ∈ f.nodes, ∀ h, n.heading? = some h → ∀ h' ∈ n.headingsBelow,
    h'.table = h.table → ∃ i j, s'.numberAt? file h' = some i ∧ s'.numberAt? file h = some j ∧ i < j

namespace Depth

open Session (LeadsTo)

variable {p : Package} {f : SourceFile}

/-- The rows of a file are those of what is recorded of it. -/
theorem Entered.recordsNodes {root : Path} {file : FileId} {xs : List Stored} {s s' : Session}
    (h : Entered p root file (f.marks p) xs s s') (hs : s.store.Sound) (hs' : s'.store.Sound) :
    s.store.RecordsNodes s'.store p root file f := by
  have accounts := accounts_file p f
  have headings : ((f.marks p).map Mark.heading).Perm f.headings := accounts.headings
  constructor
  case expressions =>
    refine ⟨_, h.rows .expressions (.inr rfl), fun e he => ?_, ?_⟩
    · obtain ⟨cells, key⟩ := h.file_of_mem (u := .expressions) rfl he
      exact Cell.ofId_inj.mp (List.cons.inj key).1
    · have told := h.headings (u := .expressions) rfl
      have all : Row.heading? .expressions = some ∘ fun e => Heading.expr e.kind e.span := rfl
      rw [all, List.filterMap_eq_map] at told
      exact told ▸ headings.filter _
  case statements =>
    refine ⟨_, h.rows .statements (.inl rfl), fun r hr => ?_, ?_⟩
    · obtain ⟨cells, key⟩ := h.file_of_mem (u := .statements) rfl hr
      exact Cell.ofId_inj.mp (List.cons.inj key).1
    · have told := h.headings (u := .statements) rfl
      have all : Row.heading? .statements = some ∘ fun r => Heading.stmt r.kind r.span := rfl
      rw [all, List.filterMap_eq_map] at told
      exact told ▸ headings.filter _
  case exprs =>
    intro e he
    obtain ⟨before, below, m, after, marks, stands, -⟩ :=
      accounts.nodes _ he (by simp [Node.heading?])
    have mem : m ∈ f.marks p := by simp [marks]
    cases stands with
    | expr =>
      obtain ⟨x, d, b, id, writes, hid, detail⟩ := h.expr hs hs' mem rfl
      exact ⟨id, d, hid, writes.exprDetailed, detail⟩
  case stmts =>
    intro st hst
    obtain ⟨before, below, m, after, marks, stands, -⟩ :=
      accounts.nodes _ hst (by simp [Node.heading?])
    have mem : m ∈ f.marks p := by simp [marks]
    cases stands with
    | stmt =>
      obtain ⟨x, d, id, writes, hid, detail⟩ := h.stmt hs hs' mem rfl
      exact ⟨id, d, hid, writes.stmtDetailed, detail⟩
    | block =>
      obtain ⟨id, hid, detail⟩ := h.part hs hs' mem rfl
      exact ⟨id, .none, hid, rfl, detail⟩
  case parts =>
    intro x hx
    obtain ⟨m, hm, hp⟩ := accounts.parts x hx
    exact h.part hs hs' hm hp
  case childrenFirst =>
    intro n hn g hg g' hg' ht
    obtain ⟨before, below, m, after, marks, stands, under⟩ := accounts.nodes n hn (by simp [hg])
    obtain rfl := Option.some.inj (hg.symm.trans stands.heading)
    obtain ⟨m', hm', rfl⟩ := List.mem_map.mp (under.mem_iff.mpr hg')
    exact h.before hs' marks hm' ht

theorem free_of_lacks {s t : Store} {file : FileId} (ht : t.Sound) (hs : s.Sound) (hle : s ≤ t)
    (hf : t.IsFile file f.path) (lacks : s.Lacks f.path) (h : Heading) : s.IsFree file h := by
  intro r hr hk
  have placed : h.table ∈ Table.placed := by cases h <;> simp [Heading.table, Table.placed]
  have there := hs.references _ r hr _ (Plan.mem_references_of_key placed hk)
  have isFile := hf.of_has ht hle there
  cases h with
  | expr kind span => exact lacks.1 r hr (Cell.ofId_inj.mp (List.cons.inj hk).1 ▸ isFile)
  | stmt kind span => exact lacks.2 r hr (Cell.ofId_inj.mp (List.cons.inj hk).1 ▸ isFile)

/-- If no two rows of a file share a place and the store has none of them, a depth pass that succeeds
adds just these rows. -/
theorem run_recordsNodes {s s' : Session} (hs : s.Ready) (lacks : s.store.Lacks f.path)
    (distinct : (f.headings.map Heading.place).Nodup) (h : run p f s = .ok () s') :
    ∃ file, s'.store.IsFile file f.path ∧
      s.store.RecordsNodes s'.store p s.corpusRoot file f := by
  obtain ⟨file, s₁, supplied, hf, trail⟩ := (run_ends hs rfl f).of_ok h
  have le := supplied.inserts.le
  have same {u : Table} (hu : Written u) : s₁.store.rows u = s.store.rows u :=
    supplied.inserts.rows_eq hu.not_supply
  have headings : ((f.marks p).map Mark.heading).Perm f.headings := (accounts_file p f).headings
  have places : ((f.marks p).map (·.heading.place)).Nodup := by
    have perm := (headings.map Heading.place).nodup_iff.mpr distinct
    rwa [List.map_map] at perm
  have free : ∀ m ∈ f.marks p, s₁.store.IsFree file m.heading := by
    intro m _
    unfold Store.IsFree Store.Vacant
    rw [same (Written.of_heading m.heading)]
    exact free_of_lacks supplied.ready.sound hs.sound le hf lacks m.heading
  obtain ⟨xs, entered⟩ := trail.entered supplied.ready places free
  have last := trail.leadsTo supplied.ready
  have records := entered.recordsNodes supplied.ready.sound last.ready.sound
  refine ⟨file, hf.of_le last.inserts.le, ?_⟩
  have expressions : s₁.store.expressions = s.store.expressions :=
    same (u := .expressions) (.inr rfl)
  have statements : s₁.store.statements = s.store.statements := same (u := .statements) (.inl rfl)
  exact { records with
    expressions := expressions ▸ records.expressions
    statements := statements ▸ records.statements }

/-- The file of the small package, in a new store. -/
theorem run_sample_recordsNodes :
    ∃ s', run .sample .sample .sample = .ok () s' ∧ ∃ file,
      s'.store.IsFile file ⟨"corpus/a.go"⟩ ∧
        Store.initial.RecordsNodes s'.store .sample ⟨"corpus"⟩ file .sample := by
  have ready : Session.sample.Ready := ⟨Store.initial_sound, Session.sample_coherent⟩
  have lacks : Store.initial.Lacks SourceFile.sample.path := by
    constructor <;> intro r hr <;> cases hr
  have distinct : (SourceFile.sample.headings.map Heading.place).Nodup := by decide +kernel
  obtain ⟨_, s', h⟩ : ∃ r s', run .sample .sample .sample = .ok r s' :=
    ok_of_succeeds (by decide +kernel)
  exact ⟨s', h, run_recordsNodes ready lacks distinct h⟩

end Depth
end AccessDepth
