import AccessDepth.Proofs.Plan.Analysis
import AccessDepth.Proofs.Session

/-!
# AccessDepth.Proofs.Steps

What the passes are put together from.

* `Analyze.Steps` — a computation makes transactions that add rows to some tables, and asks for
  types, for places in some files and for the functions of the store.
* `Analyze.Stays` — on a session whose caches agree with its store, a computation only adds rows to
  some tables, whether it succeeds or fails. `Steps.stays` — so it is with steps.
* `Definitions.Composes` — what holds of recording a function and a variable holds of the pass.
* `Definitions.run_steps`, `Depth.run_steps`, … — every pass is put together from steps.
* `analyze_steps` — so is an analysis. What the steps keep, one by one, an analysis keeps.
-/

namespace AccessDepth

namespace Analyze

inductive Steps (P : Table → Prop) (known : Path → Prop) : {α : Type} → Analyze α → Prop
  | ret {α : Type} (x : α) : Steps P known (pure x)
  | bind {α β : Type} {a : Analyze α} {f : α → Analyze β} :
      Steps P known a → (∀ x, Steps P known (f x)) → Steps P known (a >>= f)
  | commit {α : Type} {t : Transaction α} :
      (∀ s x s', t s = .ok (x, s') → Inserts P s s') → Steps P known (commit t)
  | type (table : TypeTable) (ref : Option TypeRef) :
      (∀ u, u.owner = .types → P u) → Steps P known (typeId table ref)
  | ifResolved {table : TypeTable} {ref : Option TypeRef} :
      Steps P known (typeId table ref) → Steps P known (typeIdIfResolved table ref)
  | file (path : Path) :
      known path → (∀ u, u.owner = .files → P u) → Steps P known (fileId path)
  | definition (site : SourceSite) :
      known site.file → (∀ u, u.owner = .files → P u) → Steps P known (definition site)
  | varAt (site : SourceSite) : known site.file → Steps P known (variableAt site)
  | funcAt (w : Scope) (position : Position) : Steps P known (w.functionAt position)

variable {P Q : Table → Prop} {known : Path → Prop} {α β : Type} {a : Analyze α}

theorem Steps.mono (h : Steps P known a) (hPQ : ∀ u, P u → Q u) : Steps Q known a := by
  induction h with
  | ret x => exact .ret x
  | bind _ _ ih ihf => exact ih.bind ihf
  | commit ht => exact .commit fun s x s' h => (ht s x s' h).mono hPQ
  | type table ref hP => exact .type table ref fun u hu => hPQ u (hP u hu)
  | ifResolved _ ih => exact ih.ifResolved
  | file path hk hP => exact .file path hk fun u hu => hPQ u (hP u hu)
  | definition site hk hP => exact .definition site hk fun u hu => hPQ u (hP u hu)
  | varAt site hk => exact .varAt site hk
  | funcAt w position => exact .funcAt w position

theorem Steps.discard (h : Steps P known a) : Steps P known (a >>= fun _ => pure ()) :=
  h.bind fun _ => .ret ()

theorem steps_inFile {p : Package} {f : SourceFile} {pass : Scope → Analyze α}
    (hf : known f.path) (hP : ∀ u, u.owner = .files → P u)
    (h : ∀ file, Steps P known (pass ⟨p, f.path, file, ⟨none, none⟩⟩)) :
    Steps P known (Scope.ofFile p f >>= pass) := by
  unfold Scope.ofFile
  rw [bind_assoc]
  refine (Steps.file f.path hf hP).bind fun file => ?_
  rw [pure_bind]
  exact h file

/-! ## What steps do to a session -/

open Session (Ready LeadsTo)

/-- A computation only adds rows to some tables. -/
structure Stays {α : Type} (P : Table → Prop) (a : Analyze α) : Prop where
  ends : ∀ s, Ready s → a.Ends s (fun _ s' => LeadsTo P s s') fun _ s' => LeadsTo P s s'

theorem stays_pure (x : α) : Stays P (pure x) := ⟨fun _ hs => ends_pure (.refl hs)⟩

theorem Stays.bind {f : α → Analyze β} (h : Stays P a) (hf : ∀ x, Stays P (f x)) :
    Stays P (a >>= f) where
  ends s hs := by
    refine (h.ends s hs).bind fun x s₁ later => ?_
    have rest := (hf x).ends s₁ later.ready
    exact rest.mono (fun _ _ h => later.trans h) fun _ _ h => later.trans h

theorem stays_commit {t : Transaction α}
    (ht : ∀ s x s', t s = .ok (x, s') → Inserts P s s') : Stays P (commit t) where
  ends s hs := by
    refine (commit_ends hs (ht s.store)).mono (fun _ _ h => h.2.1) ?_
    rintro f s' ⟨rfl, -⟩
    exact .refl hs

theorem stays_ifResolved (hP : ∀ u, u.owner = .types → P u) (table : TypeTable)
    (ref : Option TypeRef) : Stays P (typeIdIfResolved table ref) where
  ends _ hs := (typeIdIfResolved_ends hs table ref).mono (fun _ _ h => h.1.mono hP)
    fun _ _ h => h.1.mono hP

theorem ends_ifResolved_iff {table : TypeTable} {ref : Option TypeRef} {s : Session}
    {post : Session → Prop} :
    (typeIdIfResolved table ref).Ends s (fun _ s' => post s') (fun _ s' => post s') ↔
      (typeId table ref).Ends s (fun _ s' => post s') fun _ s' => post s' := by
  unfold Ends typeIdIfResolved
  cases typeId table ref s with
  | ok id s' => exact .rfl
  | error f s' => cases f <;> exact .rfl

theorem stays_typeId_iff {table : TypeTable} {ref : Option TypeRef} :
    Stays P (typeIdIfResolved table ref) ↔ Stays P (typeId table ref) :=
  ⟨fun h => ⟨fun s hs => ends_ifResolved_iff.mp (h.ends s hs)⟩,
    fun h => ⟨fun s hs => ends_ifResolved_iff.mpr (h.ends s hs)⟩⟩

theorem stays_fileId (hP : ∀ u, u.owner = .files → P u) (path : Path) :
    Stays P (fileId path) where
  ends _ hs := (fileId_ends hs path).mono (fun _ _ h => h.1.mono hP) fun _ _ h => h.1.mono hP

theorem stays_definition (hP : ∀ u, u.owner = .files → P u) (site : SourceSite) :
    Stays P (definition site) where
  ends _ hs := (definition_ends hs site).mono (fun _ _ h => h.1.mono hP) fun _ _ h => h.1.mono hP

theorem stays_variableAt (site : SourceSite) : Stays P (variableAt site) where
  ends _ hs := (variableAt_ends hs site).mono (fun _ _ h => h.1.mono fun _ hu => hu.elim)
    fun _ _ h => h.elim

/-- Steps that add rows to some tables add rows to no others. -/
theorem Steps.stays {known : Path → Prop} (h : Steps P known a) : Stays P a := by
  induction h with
  | ret x => exact stays_pure x
  | bind _ _ ih ihf => exact ih.bind ihf
  | commit ht => exact stays_commit ht
  | type table ref hP => exact stays_typeId_iff.mp (stays_ifResolved hP table ref)
  | ifResolved _ ih => exact stays_typeId_iff.mpr ih
  | file path _ hP => exact stays_fileId hP path
  | definition site _ hP => exact stays_definition hP site
  | varAt site => exact stays_variableAt site
  | funcAt w position => exact ⟨fun _ hs => ends_get (ends_pure (.refl hs))⟩

end Analyze

open Analyze (Steps steps_inFile)

/-! ## Walks

A walk is good if its hook makes something good of what is good. -/

namespace Outline

variable {m : Type → Type} [Monad m]

mutual

theorem visit_good {good : m Unit → Prop} {hook : Node → m Unit → m Unit} (hp : good (pure ()))
    (hb : ∀ a b, good a → good b → good (a >>= fun _ => b))
    (hh : ∀ n below, good below → good (hook n below)) (o : Outline) : good (o.visit hook) := by
  cases o with
  | node head children =>
    unfold visit
    exact hh head _ (visitAll_good hp hb hh children)
termination_by structural o

theorem visitAll_good {good : m Unit → Prop} {hook : Node → m Unit → m Unit} (hp : good (pure ()))
    (hb : ∀ a b, good a → good b → good (a >>= fun _ => b))
    (hh : ∀ n below, good below → good (hook n below)) (os : List Outline) :
    good (visitAll hook os) := by
  cases os with
  | nil =>
    unfold visitAll
    exact hp
  | cons o os =>
    unfold visitAll
    exact hb _ _ (visit_good hp hb hh o) (visitAll_good hp hb hh os)
termination_by structural os

end

end Outline

/-! ## Definitions -/

variable {known : Path → Prop}

namespace Definitions

/-- What holds of the parts of the pass if it holds of recording one variable and of recording one
function before the parts inside it. -/
structure Composes (good : Scope → Analyze Unit → Prop) : Prop where
  pure : ∀ w, good w (Pure.pure ())
  bind : ∀ {w a b}, good w a → good w b → good w (a >>= fun _ => b)
  variableRow : ∀ w name position type isConst role,
    good w (namedVariable w name position type isConst role)
  functionRow : ∀ {w} (site : Site) (type : FuncType) {inside : Scope → Analyze Unit},
    site.parent = none ∨ site.parent = w.enclosing.innermost → (∀ w, good w (inside w)) →
      good w (function w site type >>= fun id => inside (w.enter id))

namespace Composes

variable {good : Scope → Analyze Unit → Prop} (h : Composes good)
include h

theorem names (w : Scope) (type : Option TypeRef) (isConst : Bool) (role : VariableRole)
    (is : List Ident) : good w (names w type isConst role is) := by
  induction is with
  | nil => exact h.pure w
  | cons i is ih => exact h.bind (h.variableRow ..) ih

theorem fields (w : Scope) (role : VariableRole) (fs : List Field) :
    good w (fields w role fs) := by
  induction fs with
  | nil => exact h.pure w
  | cons f fs ih => exact h.bind (h.names ..) ih

theorem optionalFields (w : Scope) (role : VariableRole) (l : Option FieldList) :
    good w (optionalFields w role l) := by
  cases l with
  | none => exact h.pure w
  | some l => exact h.fields w role l.fields

theorem parameters (w : Scope) (type : FuncType) : good w (parameters w type) :=
  h.bind (h.fields ..) (h.optionalFields ..)

theorem newName (w : Scope) (e : Expr) : good w (newName w e) := by
  unfold Definitions.newName
  split
  · split
    · split
      · exact h.variableRow ..
      · exact h.pure w
    · exact h.pure w
  · exact h.pure w

theorem newNames (w : Scope) (es : List Expr) : good w (newNames w es) := by
  induction es with
  | nil => exact h.pure w
  | cons e es ih => exact h.bind (h.newName w e) ih

theorem specs (w : Scope) (isConst : Bool) (ss : List Spec) : good w (specs w isConst ss) := by
  induction ss with
  | nil => exact h.pure w
  | cons s ss ih =>
    cases s with
    | value => exact h.bind (h.names ..) ih
    | «import» | type => exact ih

theorem hook (n : Node) (below : Pass Unit) (hb : ∀ w, good w (below w)) (w : Scope) :
    good w (hook n below w) := by
  cases n with
  | func d =>
    have inside (w : Scope) : good w (Definitions.optionalFields w .receiver d.recv >>= fun _ =>
        Definitions.parameters w d.type >>= fun _ => below w) :=
      h.bind (h.optionalFields ..) (h.bind (h.parameters ..) (hb w))
    exact h.functionRow _ d.type (.inl rfl) inside
  | gen d =>
    unfold Definitions.hook
    simp only
    split
    · exact h.bind (h.specs ..) (hb w)
    · exact h.bind (h.specs ..) (hb w)
    · exact hb w
  | stmt s =>
    unfold Definitions.hook
    simp only
    split
    · exact h.bind (h.newNames ..) (hb w)
    · exact h.bind (h.newNames ..) (hb w)
    · exact hb w
  | expr e =>
    unfold Definitions.hook
    simp only
    split
    · rename_i type body _
      have inside (w : Scope) : good w (Definitions.parameters w type >>= fun _ => below w) :=
        h.bind (h.parameters ..) (hb w)
      exact h.functionRow _ type (.inr rfl) inside
    · exact hb w

theorem walk (os : List Outline) : ∀ w : Scope, good w (Outline.visitAll Definitions.hook os w) :=
  Outline.visitAll_good (m := Pass) h.pure (fun _ _ ha hb w => h.bind (ha w) (hb w)) h.hook os

end Composes

def Adds (u : Table) : Prop :=
  u.owner = .files ∨ u.owner = .types ∨ u.owner = .functions ∨ u.owner = .variables

theorem type_steps (w : Scope) (ref : Option TypeRef) : Steps Adds known (w.typeId ref) :=
  .ifResolved (.type _ ref fun u hu => by simp [Adds, hu])

theorem entries_steps (w : Scope) (role : SignatureRole) (ps : List (Int × SignatureParam)) :
    Steps Adds known (entries w role ps) := by
  induction ps with
  | nil => exact .ret _
  | cons x ps ih => exact (type_steps w _).bind fun _ => ih.bind fun _ => .ret _

theorem allEntries_steps (w : Scope) (groups : List (SignatureRole × List SignatureParam)) :
    Steps Adds known (allEntries w groups) := by
  induction groups with
  | nil => exact .ret _
  | cons x groups ih => exact (entries_steps w _ _).bind fun _ => ih.bind fun _ => .ret _

theorem function_steps (w : Scope) (site : Site) (type : FuncType) :
    Steps Adds known (function w site type) := by
  refine (type_steps w _).bind fun _ => (allEntries_steps w _).bind fun _ => ?_
  refine (Steps.commit fun s x s' h => ?_).bind fun _ => .ret _
  exact (recordFunction_inserts h).mono fun u hu => by simp [Adds, hu]

theorem namedVariable_steps (w : Scope) (name : String) (position : Position)
    (type : Option TypeRef) (isConst : Bool) (role : VariableRole) :
    Steps Adds known (namedVariable w name position type isConst role) := by
  unfold namedVariable
  split
  · exact .ret ()
  · refine (type_steps w _).bind fun _ => (Steps.commit fun s x s' h => ?_).discard
    exact (recordVariable_inserts h).mono fun u hu => by simp [Adds, hu]

theorem steps_composes : Composes fun _ => Steps Adds known where
  pure _ := .ret ()
  bind ha hb := ha.bind fun _ => hb
  variableRow := namedVariable_steps
  functionRow site type _ _ hi := (function_steps _ site type).bind fun _ => hi _

end Definitions

/-! ## Allocations -/

/-- The tables of everything but the expressions. -/
def Quiet (u : Table) : Prop := u.owner ≠ .expressions

theorem Definitions.Adds.quiet {u : Table} (h : Adds u) : Quiet u := by
  rcases h with h | h | h | h <;> simp [Quiet, h]

namespace Allocation

theorem makeHook_steps (w : Scope) (n : Node) (below : Analyze Unit)
    (hb : Steps Quiet known below) : Steps Quiet known (makeHook w n below) := by
  unfold makeHook
  split
  · split
    · split
      · refine (Steps.commit fun s x s' h => ?_).discard
        exact (recordMakeSite_inserts h).mono fun u hu => by simp [Quiet, hu]
      · exact .ret ()
    · exact hb
  · exact hb

theorem recordAlloc_steps (w : Scope) (span : Span) (builtin : String)
    (found : Option (String × Int)) : Steps Quiet known (recordAlloc w span builtin found) := by
  cases found with
  | none => exact .ret ()
  | some found =>
    refine (Steps.commit fun s x s' h => ?_).discard
    exact (recordSizedAlloc_inserts h).mono fun u hu => by simp [Quiet, hu]

theorem sizedHook_steps (w : Scope) (n : Node) (below : Analyze Unit)
    (hb : Steps Quiet known below) : Steps Quiet known (sizedHook w n below) := by
  unfold sizedHook
  split
  · split
    · exact recordAlloc_steps ..
    · split
      · exact recordAlloc_steps ..
      · exact hb
  · exact hb

end Allocation

variable {p : Package} {f : SourceFile}

/-- Passes are good if what each of them does in a file is. -/
theorem makePasses_good {good : Analyze Unit → Prop} (hp : good (pure ()))
    (hb : ∀ a b, good a → good b → good (a >>= fun _ => b)) {files : List SourceFile}
    {passes : List (Package → SourceFile → Analyze Unit)}
    (h : ∀ pass ∈ passes, ∀ f ∈ files, good (pass p f)) : good (makePasses p files passes) := by
  have inFiles {pass : SourceFile → Analyze Unit} {fs : List SourceFile}
      (h : ∀ f ∈ fs, good (pass f)) : good (passOver pass fs) := by
    induction fs with
    | nil => exact hp
    | cons f fs ih =>
      exact hb _ _ (h f List.mem_cons_self) (ih fun f hf => h f (List.mem_cons_of_mem _ hf))
  induction passes with
  | nil => exact hp
  | cons pass passes ih =>
    refine hb _ _ (inFiles (h pass List.mem_cons_self)) ?_
    exact ih fun pass hp => h pass (List.mem_cons_of_mem _ hp)

theorem Definitions.run_steps (hf : known f.path) : Steps Adds known (run p f) :=
  steps_inFile hf (fun u hu => by simp [Adds, hu]) fun _ => steps_composes.walk f.outlines _

theorem Allocation.containers_steps (hf : known f.path) :
    Steps Quiet known (containers p f) := by
  refine steps_inFile hf (fun u hu => by simp [Quiet, hu]) fun file => ?_
  exact Outline.visitAll_good (.ret ()) (fun _ _ ha hb => ha.bind fun _ => hb)
    (makeHook_steps _) f.outlines

theorem Allocation.sizes_steps (hf : known f.path) : Steps Quiet known (sizes p f) := by
  refine steps_inFile hf (fun u hu => by simp [Quiet, hu]) fun file => ?_
  exact Outline.visitAll_good (.ret ()) (fun _ _ ha hb => ha.bind fun _ => hb)
    (sizedHook_steps _) f.outlines

/-! ## Depths -/

/-- The package around a scope speaks of no other paths. -/
def Scope.Knows (known : Path → Prop) (w : Scope) : Prop :=
  ∀ path, w.package.HasPath path → known path

namespace Depth

/-- The tables of what a node refers to by name. -/
def Supply (u : Table) : Prop := u.owner = .files ∨ u.owner = .types

def Adds (u : Table) : Prop := Supply u ∨ u.owner = .statements ∨ u.owner = .expressions

theorem addStmt_steps (w : Scope) (kind : StmtKind) (span : Span) (detail : StmtDetail) :
    Steps Adds known (addStmt w kind span detail) :=
  (Steps.commit fun _ _ _ h => (recordStmt_inserts h).mono fun _ hu => .inr (.inl hu)).discard

theorem unbound_steps (w : Scope) (kind : StmtKind) (span : Span) (detail : StmtDetail) :
    Steps Adds known (unbound w kind span detail) :=
  (addStmt_steps w kind span detail).bind fun _ => .ret none

theorem type_steps (w : Scope) (ref : Option TypeRef) : Steps Adds known (w.typeId ref) :=
  .ifResolved (.type _ ref fun _ hu => .inl (.inr hu))

theorem addExpr_steps (w : Scope) (span : Span) (type : Option TypeRef) (kind : ExprKind)
    (detail : ExprDetail) (access : Option FoundAccess) :
    Steps Adds known (addExpr w span type kind detail access) := by
  refine (type_steps w type).bind fun _ => Steps.bind (.commit fun _ _ _ h => ?_) fun _ => .ret _
  exact (recordExpr_inserts h).mono fun _ hu => .inr (.inr hu)

theorem basicLit_steps (w : Scope) (l : BasicLit) : Steps Adds known (basicLit w l) :=
  (addExpr_steps ..).discard

theorem optionalBasicLit_steps (w : Scope) (l : Option BasicLit) :
    Steps Adds known (optionalBasicLit w l) := by
  cases l with
  | none => exact .ret ()
  | some l => exact basicLit_steps w l

theorem caseTypes_steps (w : Scope) (clause : Int) (es : List (Int × Expr)) :
    Steps Adds known (caseTypes w clause es) := by
  induction es with
  | nil => exact .ret _
  | cons e es ih => exact (type_steps w _).bind fun _ => ih.bind fun _ => .ret _

theorem switchCases_steps (w : Scope) (ss : List (Int × Stmt)) :
    Steps Adds known (switchCases w ss) := by
  induction ss with
  | nil => exact .ret _
  | cons s ss ih =>
    obtain ⟨clause, s⟩ := s
    cases s with
    | caseClause => exact (caseTypes_steps w clause _).bind fun _ => ih.bind fun _ => .ret _
    | _ => exact ih

section

variable {w : Scope} (hw : w.Knows known)
include hw

theorem known_of_decl {r : Option ObjectRef} {o : Object} {site : SourceSite}
    (ho : w.object? r = some o) (hs : o.decl = some site) : known site.file :=
  hw _ (.decl ho hs)

theorem definition_steps (object : Option ObjectRef) :
    Steps Adds known (definition w object) := by
  unfold definition
  split
  · rename_i site h
    obtain ⟨o, ho, hs⟩ := Option.bind_eq_some_iff.mp h
    exact .definition site (known_of_decl hw ho hs) fun _ hu => .inl (.inl hu)
  · exact .ret none

theorem variableOf_steps {r : Option ObjectRef} {o : Object} (ho : w.object? r = some o) :
    Steps Adds known (variableOf o) := by
  unfold variableOf
  split
  · rename_i site hs
    exact .varAt site (known_of_decl hw ho hs)
  · exact .ret none

theorem ident_steps (i : Ident) : Steps Adds known (ident w i) :=
  (definition_steps hw i.object).bind fun _ => (addExpr_steps ..).discard

theorem idents_steps (is : List Ident) : Steps Adds known (idents w is) := by
  induction is with
  | nil => exact .ret ()
  | cons i is ih => exact (ident_steps hw i).bind fun _ => ih

theorem optionalIdent_steps (i : Option Ident) : Steps Adds known (optionalIdent w i) := by
  cases i with
  | none => exact .ret ()
  | some i => exact ident_steps hw i

theorem identAccess_steps (e : Head) (name : String) (object : Option ObjectRef) :
    Steps Adds known (identAccess w e name object) := by
  unfold identAccess
  split
  · rename_i o ho
    split
    · exact (variableOf_steps hw ho).bind fun _ => .ret _
    · exact .ret none
  · exact .ret none

theorem nameOperand_steps (e : Head) (name : String) (object : Option ObjectRef) :
    Steps Adds known (nameOperand w e name object) := by
  refine (definition_steps hw object).bind fun _ => ?_
  exact (identAccess_steps hw e name object).bind fun _ => addExpr_steps ..

theorem packageAccess_steps (x : Expr) {r : Option ObjectRef} {member : Object}
    (hm : w.object? r = some member) (name : String) :
    Steps Adds known (packageAccess w x member name) := by
  unfold packageAccess
  split
  · exact (variableOf_steps hw hm).bind fun _ => .ret _
  · exact .ret none

theorem selectorAccess_steps (x : Expr) (base : Recorded) (sel : Ident) :
    Steps Adds known (selectorAccess w x base sel) := by
  unfold selectorAccess
  split
  · rename_i member hm
    split
    · split
      · split
        · exact packageAccess_steps hw x hm sel.name
        · exact .ret _
      · exact packageAccess_steps hw x hm sel.name
    · exact .ret none
  · exact .ret none

end

/-! By recursion over the syntax, as the pass itself. -/

mutual

theorem expr_steps {w : Scope} (hw : w.Knows known) (e : Expr) :
    Steps Adds known (expr w e) := by
  obtain ⟨span, type, node⟩ := e
  unfold expr
  exact exprNode_steps hw ⟨span, type⟩ node
termination_by structural e

theorem exprNode_steps {w : Scope} (hw : w.Knows known) (e : Head)
    (node : ExprNode) : Steps Adds known (exprNode w e node) := by
  cases node with
  | bad => exact addExpr_steps ..
  | ident name object => exact nameOperand_steps hw e name object
  | ellipsis elt => exact (optionalExpr_steps hw elt).bind fun _ => addExpr_steps ..
  | basicLit kind value => exact addExpr_steps ..
  | funcLit type body =>
    refine (Steps.funcAt w e.span.start).bind fun function => ?_
    have rest (v : Scope) (hv : v.Knows known) :
        Steps Adds known (funcType v type >>= fun _ =>
          addExpr v type.span e.type .funcType .none none >>= fun _ =>
          block v body >>= fun _ => plain w e .funcLit) := by
      refine (funcType_steps hv type).bind fun _ => (addExpr_steps ..).bind fun _ => ?_
      exact (block_steps hv body).bind fun _ => addExpr_steps ..
    cases function with
    | none => exact rest w hw
    | some id => exact rest (w.enter id) hw
  | compositeLit type elts =>
    refine (optionalExpr_steps hw type).bind fun _ => ?_
    exact (exprs_steps hw elts).bind fun _ => addExpr_steps ..
  | paren x => exact (expr_steps hw x).bind fun _ => addExpr_steps ..
  | selector x sel =>
    refine (expr_steps hw x).bind fun base => (ident_steps hw sel).bind fun _ => ?_
    exact (selectorAccess_steps hw x base sel).bind fun _ => addExpr_steps ..
  | index x index =>
    exact (expr_steps hw x).bind fun _ => (expr_steps hw index).bind fun _ => addExpr_steps ..
  | indexList x indices =>
    exact (expr_steps hw x).bind fun _ => (exprs_steps hw indices).bind fun _ => addExpr_steps ..
  | slice x low high max =>
    refine (expr_steps hw x).bind fun _ => (optionalExpr_steps hw low).bind fun _ => ?_
    refine (optionalExpr_steps hw high).bind fun _ => ?_
    exact (optionalExpr_steps hw max).bind fun _ => addExpr_steps ..
  | typeAssert x target =>
    refine (expr_steps hw x).bind fun _ => (optionalExpr_steps hw target).bind fun _ => ?_
    exact (type_steps w _).bind fun _ => addExpr_steps ..
  | call fn args spread =>
    exact (expr_steps hw fn).bind fun _ => (exprs_steps hw args).bind fun _ => addExpr_steps ..
  | star x => exact (expr_steps hw x).bind fun _ => addExpr_steps ..
  | unary op x =>
    refine (expr_steps hw x).bind fun _ => ?_
    split
    · exact addExpr_steps ..
    · exact addExpr_steps ..
  | binary op x y =>
    exact (expr_steps hw x).bind fun _ => (expr_steps hw y).bind fun _ => addExpr_steps ..
  | keyValue key value =>
    exact (expr_steps hw key).bind fun _ => (expr_steps hw value).bind fun _ => addExpr_steps ..
  | arrayType len elt =>
    refine (optionalExpr_steps hw len).bind fun _ => ?_
    exact (expr_steps hw elt).bind fun _ => addExpr_steps ..
  | structType fields => exact (fieldList_steps hw fields).bind fun _ => addExpr_steps ..
  | funcType type => exact (funcType_steps hw type).bind fun _ => addExpr_steps ..
  | interfaceType methods => exact (fieldList_steps hw methods).bind fun _ => addExpr_steps ..
  | mapType key value =>
    exact (expr_steps hw key).bind fun _ => (expr_steps hw value).bind fun _ => addExpr_steps ..
  | chanType dir value => exact (expr_steps hw value).bind fun _ => addExpr_steps ..
termination_by structural node

theorem optionalExpr_steps {w : Scope} (hw : w.Knows known)
    (e : Option Expr) : Steps Adds known (optionalExpr w e) := by
  cases e with
  | none => exact .ret ()
  | some e => exact (expr_steps hw e).discard
termination_by structural e

theorem exprs_steps {w : Scope} (hw : w.Knows known)
    (es : List Expr) : Steps Adds known (exprs w es) := by
  cases es with
  | nil => exact .ret _
  | cons e es => exact (expr_steps hw e).bind fun _ => (exprs_steps hw es).bind fun _ => .ret _
termination_by structural es

theorem fieldList_steps {w : Scope} (hw : w.Knows known)
    (l : FieldList) : Steps Adds known (fieldList w l) := by
  obtain ⟨span, fs⟩ := l
  unfold fieldList
  exact fields_steps hw fs
termination_by structural l

theorem optionalFieldList_steps {w : Scope} (hw : w.Knows known)
    (l : Option FieldList) : Steps Adds known (optionalFieldList w l) := by
  cases l with
  | none => exact .ret ()
  | some l => exact fieldList_steps hw l
termination_by structural l

theorem fields_steps {w : Scope} (hw : w.Knows known)
    (fs : List Field) : Steps Adds known (fields w fs) := by
  cases fs with
  | nil => exact .ret ()
  | cons f fs =>
    obtain ⟨span, names, type, tag⟩ := f
    refine (idents_steps hw names).bind fun _ => (expr_steps hw type).bind fun _ => ?_
    exact (optionalBasicLit_steps w tag).bind fun _ => fields_steps hw fs
termination_by structural fs

theorem funcType_steps {w : Scope} (hw : w.Knows known)
    (t : FuncType) : Steps Adds known (funcType w t) := by
  obtain ⟨span, typeParams, params, results⟩ := t
  refine (optionalFieldList_steps hw typeParams).bind fun _ => ?_
  exact (fieldList_steps hw params).bind fun _ => optionalFieldList_steps hw results
termination_by structural t

theorem block_steps {w : Scope} (hw : w.Knows known) (b : Block) :
    Steps Adds known (block w b) := by
  obtain ⟨span, body⟩ := b
  exact (stmts_steps hw body).bind fun _ => addStmt_steps ..
termination_by structural b

theorem specs_steps {w : Scope} (hw : w.Knows known)
    (ss : List Spec) : Steps Adds known (specs w ss) := by
  cases ss with
  | nil => exact .ret ()
  | cons s ss =>
    have rest := specs_steps hw ss
    cases s with
    | «import» span name path =>
      refine (optionalIdent_steps hw name).bind fun _ => ?_
      exact (basicLit_steps w path).bind fun _ => rest
    | value span names type values =>
      refine (idents_steps hw names).bind fun _ => (optionalExpr_steps hw type).bind fun _ => ?_
      exact (exprs_steps hw values).bind fun _ => rest
    | type span name typeParams isAlias type =>
      refine (ident_steps hw name).bind fun _ => ?_
      refine (optionalFieldList_steps hw typeParams).bind fun _ => ?_
      exact (expr_steps hw type).bind fun _ => rest
termination_by structural ss

theorem genDecl_steps {w : Scope} (hw : w.Knows known)
    (d : GenDecl) : Steps Adds known (genDecl w d) := by
  obtain ⟨span, tok, ss⟩ := d
  unfold genDecl
  exact specs_steps hw ss
termination_by structural d

theorem stmt_steps {w : Scope} (hw : w.Knows known) (s : Stmt) :
    Steps Adds known (stmt w s) := by
  cases s with
  | bad | empty | other => exact unbound_steps ..
  | decl span decl => exact (genDecl_steps hw decl).bind fun _ => unbound_steps ..
  | labeled span label body =>
    exact (ident_steps hw label).bind fun _ => (stmt_steps hw body).bind fun _ => unbound_steps ..
  | expr span x =>
    exact (expr_steps hw x).bind fun _ => (addStmt_steps ..).bind fun _ => .ret _
  | send span chan value =>
    exact (expr_steps hw chan).bind fun _ => (expr_steps hw value).bind fun _ => unbound_steps ..
  | incDec span x dec => exact (expr_steps hw x).bind fun _ => unbound_steps ..
  | assign span lhs op rhs =>
    refine (exprs_steps hw lhs).bind fun _ => (exprs_steps hw rhs).bind fun _ => ?_
    exact (addStmt_steps ..).bind fun _ => .ret _
  | go span call => exact (expr_steps hw call).bind fun _ => unbound_steps ..
  | defer span call => exact (expr_steps hw call).bind fun _ => unbound_steps ..
  | «return» span results => exact (exprs_steps hw results).bind fun _ => unbound_steps ..
  | branch span tok label => exact (optionalIdent_steps hw label).bind fun _ => unbound_steps ..
  | block b => exact (block_steps hw b).bind fun _ => .ret none
  | «if» span init cond body els =>
    refine (optionalStmt_steps hw init).bind fun _ => (expr_steps hw cond).bind fun _ => ?_
    refine (block_steps hw body).bind fun _ => ?_
    exact (optionalStmt_steps hw els).bind fun _ => unbound_steps ..
  | caseClause span list body =>
    exact (exprs_steps hw list).bind fun _ => (stmts_steps hw body).bind fun _ => unbound_steps ..
  | switch span init tag body =>
    refine (optionalStmt_steps hw init).bind fun _ => (optionalExpr_steps hw tag).bind fun _ => ?_
    exact (block_steps hw body).bind fun _ => unbound_steps ..
  | typeSwitch span init assign body =>
    refine (optionalStmt_steps hw init).bind fun _ => (stmt_steps hw assign).bind fun binding => ?_
    refine (block_steps hw body).bind fun _ => ?_
    cases binding with
    | none => exact unbound_steps ..
    | some b => exact (switchCases_steps w _).bind fun _ => unbound_steps ..
  | commClause span comm body =>
    refine (optionalStmt_steps hw comm).bind fun _ => ?_
    exact (stmts_steps hw body).bind fun _ => unbound_steps ..
  | select span body => exact (block_steps hw body).bind fun _ => unbound_steps ..
  | «for» span init cond post body =>
    refine (optionalStmt_steps hw init).bind fun _ => (optionalExpr_steps hw cond).bind fun _ => ?_
    refine (optionalStmt_steps hw post).bind fun _ => ?_
    exact (block_steps hw body).bind fun _ => unbound_steps ..
  | range span key value define x body =>
    refine (optionalExpr_steps hw key).bind fun _ => (optionalExpr_steps hw value).bind fun _ => ?_
    refine (expr_steps hw x).bind fun _ => ?_
    exact (block_steps hw body).bind fun _ => unbound_steps ..
termination_by structural s

theorem optionalStmt_steps {w : Scope} (hw : w.Knows known)
    (s : Option Stmt) : Steps Adds known (optionalStmt w s) := by
  cases s with
  | none => exact .ret ()
  | some s => exact (stmt_steps hw s).discard
termination_by structural s

theorem stmts_steps {w : Scope} (hw : w.Knows known)
    (ss : List Stmt) : Steps Adds known (stmts w ss) := by
  cases ss with
  | nil => exact .ret ()
  | cons s ss => exact (stmt_steps hw s).bind fun _ => stmts_steps hw ss
termination_by structural ss

end

section

variable {w : Scope} (hw : w.Knows known)
include hw

theorem funcDecl_parts_steps (d : FuncDecl) :
    Steps Adds known (optionalFieldList w d.recv >>= fun _ => ident w d.name >>= fun _ =>
      funcType w d.type >>= fun _ =>
      addExpr w d.type.span (w.typeOfName d.name) .funcType .none none >>= fun _ =>
      match d.body with
      | some body => block w body
      | none => pure ()) := by
  refine (optionalFieldList_steps hw d.recv).bind fun _ => (ident_steps hw d.name).bind fun _ => ?_
  refine (funcType_steps hw d.type).bind fun _ => (addExpr_steps ..).bind fun _ => ?_
  cases d.body with
  | none => exact .ret ()
  | some body => exact block_steps hw body

theorem funcDecl_steps (d : FuncDecl) : Steps Adds known (funcDecl w d) := by
  refine (Steps.funcAt w d.name.span.start).bind fun function => ?_
  cases function with
  | none => exact funcDecl_parts_steps hw d
  | some id => exact funcDecl_parts_steps (w := w.enter id) hw d

theorem decls_steps (ds : List Decl) : Steps Adds known (decls w ds) := by
  induction ds with
  | nil => exact .ret ()
  | cons d ds ih =>
    cases d with
    | bad span => exact ih
    | func d => exact (funcDecl_steps hw d).bind fun _ => ih
    | gen d => exact (genDecl_steps hw d).bind fun _ => ih

end

theorem run_steps (hp : ∀ path, p.HasPath path → known path) (hf : known f.path) :
    Steps Adds known (run p f) := by
  refine steps_inFile hf (fun _ hu => .inl (.inl hu)) fun file => ?_
  have knows : Scope.Knows known ⟨p, f.path, file, ⟨none, none⟩⟩ := hp
  exact (ident_steps knows f.package).bind fun _ => decls_steps knows f.decls

end Depth

/-! ## Analyses -/

def Mode.Adds (u : Table) : Mode → Prop
  | .defs => Definitions.Adds u
  | .depth => Depth.Adds u
  | .all => Definitions.Adds u ∨ Depth.Adds u
  | .make | .allocSizes => Quiet u

/-- An analysis asks for no files but those that its package speaks of, and adds rows to no tables but
those of its mode. -/
theorem analyze_steps_adds (hp : ∀ path, p.HasPath path → known path) (mode : Mode) :
    Steps (mode.Adds ·) known (analyze p mode) := by
  refine Steps.bind (makePasses_good (.ret ()) (fun _ _ ha hb => ha.bind fun _ => hb)
    fun pass hpass f hf => ?_) fun _ => .ret _
  have here : known f.path := hp _ (Package.hasPath_of_usable hf)
  cases mode <;>
    simp only [Mode.passes, List.mem_cons, List.not_mem_nil, or_false] at hpass
  case defs =>
    subst hpass
    exact Definitions.run_steps here
  case depth =>
    subst hpass
    exact Depth.run_steps hp here
  case all =>
    obtain rfl | rfl := hpass
    · exact (Definitions.run_steps here).mono fun _ => .inl
    · exact (Depth.run_steps hp here).mono fun _ => .inr
  case make =>
    subst hpass
    exact Allocation.containers_steps here
  case allocSizes =>
    subst hpass
    exact Allocation.sizes_steps here

theorem analyze_steps (hp : ∀ path, p.HasPath path → known path) (mode : Mode) :
    Steps (fun _ => True) known (analyze p mode) :=
  (analyze_steps_adds hp mode).mono fun _ _ => trivial

end AccessDepth
