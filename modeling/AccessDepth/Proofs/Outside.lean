import AccessDepth.Proofs.Outside.Alike

/-!
# AccessDepth.Proofs.Outside

Declarations outside the corpus.

* `Definitions.run_alike`, `Depth.run_alike`, … — a pass over a package is alike to the pass over the
  package with other declarations outside the corpus, by recursion over the syntax.
* `analyze_ignoresOutside` — declarations outside the corpus leave no trace in what an analysis
  tells, stores and caches.
-/

namespace AccessDepth

open Analyze

variable {root : Path} {asked : Path → Prop} {others : ObjectTable} {w : Scope}

/-! ## Definitions -/

namespace Definitions

/-- A part of the pass does the same in every scope of the corpus. -/
def PassAlike (root : Path) (asked : Path → Prop) (others : ObjectTable) (below : Pass Unit) :
    Prop :=
  ∀ w : Scope, w.Inside root asked others → Alike root asked (below w) (below (w.over others))

theorem tame_typeId (w : Scope) (ref : Option TypeRef) : Tame root asked (w.typeId ref) :=
  Analyze.tame_typeId w.package.types ref

theorem entries_alike (w : Scope) (role : SignatureRole) (ps : List (Int × SignatureParam)) :
    Alike root asked (entries w role ps) (entries (w.over others) role ps) := by
  induction ps with
  | nil => exact tame_pure _
  | cons x ps ih => exact (tame_typeId w _).bind fun _ => ih.bind fun _ => tame_pure _

theorem allEntries_alike (w : Scope) (groups : List (SignatureRole × List SignatureParam)) :
    Alike root asked (allEntries w groups) (allEntries (w.over others) groups) := by
  induction groups with
  | nil => exact tame_pure _
  | cons x groups ih => exact (entries_alike w _ _).bind fun _ => ih.bind fun _ => tame_pure _

theorem function_alike (w : Scope) (site : Site) (type : FuncType) :
    Alike root asked (function w site type) (function (w.over others) site type) := by
  refine (tame_typeId w _).bind fun _ => (allEntries_alike w _).bind fun _ => ?_
  refine (tame_commit (fun s x s' h => recordFunction_inserts h) ?_).bind fun _ => tame_pure _
  nofun

theorem tame_namedVariable (w : Scope) (name : String) (position : Position)
    (type : Option TypeRef) (isConst : Bool) (role : VariableRole) :
    Tame root asked (namedVariable w name position type isConst role) := by
  unfold namedVariable
  split
  · exact tame_pure ()
  · refine (tame_typeId w _).bind fun _ => ?_
    refine (tame_commit (fun s x s' h => recordVariable_inserts h) ?_).bind fun _ => tame_pure _
    nofun

variable (hw : w.Inside root asked others)
include hw

theorem names_alike (type : Option TypeRef) (isConst : Bool) (role : VariableRole)
    (is : List Ident) :
    Alike root asked (names w type isConst role is)
      (names (w.over others) type isConst role is) := by
  induction is with
  | nil => exact tame_pure ()
  | cons i is ih =>
    unfold names
    rw [hw.typeOfName_eq]
    exact (tame_namedVariable ..).bind fun _ => ih

theorem fields_alike (role : VariableRole) (fs : List Field) :
    Alike root asked (fields w role fs) (fields (w.over others) role fs) := by
  induction fs with
  | nil => exact tame_pure ()
  | cons f fs ih => exact (names_alike hw ..).bind fun _ => ih

theorem optionalFields_alike (role : VariableRole) (l : Option FieldList) :
    Alike root asked (optionalFields w role l) (optionalFields (w.over others) role l) := by
  cases l with
  | none => exact tame_pure ()
  | some l => exact fields_alike hw role l.fields

theorem parameters_alike (type : FuncType) :
    Alike root asked (parameters w type) (parameters (w.over others) type) :=
  (fields_alike hw ..).bind fun _ => optionalFields_alike hw ..

theorem newName_alike (e : Expr) : Alike root asked (newName w e) (newName (w.over others) e) := by
  unfold newName
  split
  · rename_i name object _
    obtain ⟨ho, ho'⟩ | ⟨o, o', ho, ho', same⟩ := hw.object_cases object
    · simp only [ho, ho']
      exact tame_pure ()
    · have declared := same.declaredAt_eq hw.path e.span.start
      obtain ⟨decl, rfl, -⟩ := same
      simp only [ho, ho']
      by_cases hd : o.declaredAt w.path e.span.start = true
      · rw [if_pos hd, if_pos (declared ▸ hd)]
        exact tame_namedVariable ..
      · rw [if_neg hd, if_neg (declared ▸ hd)]
        exact tame_pure ()
  · exact tame_pure ()

theorem newNames_alike (es : List Expr) :
    Alike root asked (newNames w es) (newNames (w.over others) es) := by
  induction es with
  | nil => exact tame_pure ()
  | cons e es ih => exact (newName_alike hw e).bind fun _ => ih

theorem specs_alike (isConst : Bool) (ss : List Spec) :
    Alike root asked (specs w isConst ss) (specs (w.over others) isConst ss) := by
  induction ss with
  | nil => exact tame_pure ()
  | cons s ss ih =>
    cases s with
    | value => exact (names_alike hw ..).bind fun _ => ih
    | «import» | type => exact ih

omit hw in
theorem hook_alike (n : Node) (below : Pass Unit) (hb : PassAlike root asked others below) :
    PassAlike root asked others (hook n below) := by
  intro w hw
  cases n with
  | func d =>
    unfold hook
    simp only
    rw [hw.typeOfName_eq]
    refine (function_alike ..).bind fun id => ?_
    refine (optionalFields_alike (hw.enter id) ..).bind fun _ => ?_
    exact (parameters_alike (hw.enter id) ..).bind fun _ => hb _ (hw.enter id)
  | gen d =>
    unfold hook
    simp only
    split
    · exact (specs_alike hw ..).bind fun _ => hb w hw
    · exact (specs_alike hw ..).bind fun _ => hb w hw
    · exact hb w hw
  | stmt s =>
    unfold hook
    simp only
    split
    · exact (newNames_alike hw _).bind fun _ => hb w hw
    · exact (newNames_alike hw _).bind fun _ => hb w hw
    · exact hb w hw
  | expr e =>
    unfold hook
    simp only
    split
    · refine (function_alike ..).bind fun id => ?_
      exact (parameters_alike (hw.enter id) _).bind fun _ => hb _ (hw.enter id)
    · exact hb w hw

end Definitions

/-! ## Allocations -/

namespace Allocation

theorem tame_makeHook (w : Scope) (n : Node) (below : Analyze Unit) (hb : Tame root asked below) :
    Tame root asked (makeHook w n below) := by
  unfold makeHook
  split
  · split
    · split
      · refine (tame_commit (fun s x s' h => recordMakeSite_inserts h) ?_).bind fun _ => tame_pure _
        nofun
      · exact tame_pure ()
    · exact hb
  · exact hb

theorem tame_recordAlloc (w : Scope) (span : Span) (builtin : String)
    (found : Option (String × Int)) : Tame root asked (recordAlloc w span builtin found) := by
  cases found with
  | none => exact tame_pure ()
  | some found =>
    refine (tame_commit (fun s x s' h => recordSizedAlloc_inserts h) ?_).bind fun _ => tame_pure _
    nofun

theorem tame_sizedHook (w : Scope) (n : Node) (below : Analyze Unit) (hb : Tame root asked below) :
    Tame root asked (sizedHook w n below) := by
  unfold sizedHook
  split
  · split
    · exact tame_recordAlloc ..
    · split
      · exact tame_recordAlloc ..
      · exact hb
  · exact hb

variable (hw : w.Inside root asked others)
include hw

theorem callsBuiltin_over (fn : Expr) (name : String) :
    callsBuiltin (w.over others) fn name = callsBuiltin w fn name := by
  unfold callsBuiltin
  split
  · rename_i object _
    obtain ⟨ho, ho'⟩ | ⟨o, _, ho, ho', decl, rfl, -⟩ := hw.object_cases object
    · rw [ho, ho']
    · rw [ho, ho']
      rfl
  · rfl

theorem makeHook_over : makeHook (w.over others) = makeHook w := by
  funext n below
  unfold makeHook
  simp only [callsBuiltin_over hw]
  rfl

theorem sizedHook_over : sizedHook (w.over others) = sizedHook w := by
  funext n below
  unfold sizedHook
  simp only [callsBuiltin_over hw]
  rfl

end Allocation

/-! ## Depths -/

namespace Depth

theorem tame_addStmt (w : Scope) (kind : StmtKind) (span : Span) (detail : StmtDetail) :
    Tame root asked (addStmt w kind span detail) := by
  refine (tame_commit (fun s x s' h => recordStmt_inserts h) ?_).bind fun _ => tame_pure _
  nofun

theorem tame_unbound (w : Scope) (kind : StmtKind) (span : Span) (detail : StmtDetail) :
    Tame root asked (unbound w kind span detail) :=
  (tame_addStmt w kind span detail).bind fun _ => tame_pure none

theorem tame_addExpr (w : Scope) (span : Span) (type : Option TypeRef) (kind : ExprKind)
    (detail : ExprDetail) (access : Option FoundAccess) :
    Tame root asked (addExpr w span type kind detail access) := by
  refine (tame_typeId _ type).bind fun _ => ?_
  refine (tame_commit (fun s x s' h => recordExpr_inserts h) ?_).bind fun _ => tame_pure _
  nofun

theorem tame_basicLit (w : Scope) (l : BasicLit) : Tame root asked (basicLit w l) :=
  (tame_addExpr ..).bind fun _ => tame_pure ()

theorem tame_optionalBasicLit (w : Scope) (l : Option BasicLit) :
    Tame root asked (optionalBasicLit w l) := by
  cases l with
  | none => exact tame_pure ()
  | some l => exact tame_basicLit w l

theorem caseTypes_alike (w : Scope) (clause : Int) (es : List (Int × Expr)) :
    Alike root asked (caseTypes w clause es) (caseTypes (w.over others) clause es) := by
  induction es with
  | nil => exact tame_pure _
  | cons e es ih =>
    exact (tame_typeId w.package.types _).bind fun _ => ih.bind fun _ => tame_pure _

theorem switchCases_alike (w : Scope) (ss : List (Int × Stmt)) :
    Alike root asked (switchCases w ss) (switchCases (w.over others) ss) := by
  induction ss with
  | nil => exact tame_pure _
  | cons s ss ih =>
    obtain ⟨clause, s⟩ := s
    cases s with
    | caseClause => exact (caseTypes_alike w clause _).bind fun _ => ih.bind fun _ => tame_pure _
    | _ => exact ih

section

variable (hw : w.Inside root asked others)
include hw

theorem definition_alike (object : Option ObjectRef) :
    Alike root asked (definition w object) (definition (w.over others) object) := by
  have located (w : Scope) : definition w object =
      ((w.object? object).bind (·.decl)).elim (pure none) Analyze.definition := by
    unfold definition
    cases (w.object? object).bind (·.decl) <;> rfl
  rw [located, located]
  obtain ⟨ho, ho'⟩ | ⟨o, o', ho, ho', same⟩ := hw.object_cases object
  · rw [ho, ho']
    exact tame_pure none
  · rw [ho, ho']
    exact alike_atDeclaration same (fun site hi s hs => definition_outside hi hs)
      fun site hd hi => tame_definition (hw.asks ho hd hi)

omit hw in
theorem variableOf_alike {o o' : Object} (same : o.SameInside root o') :
    Alike root asked (variableOf o) (variableOf o') := by
  have located (o : Object) : variableOf o = o.decl.elim (pure none) Analyze.variableAt := by
    unfold variableOf
    cases o.decl <;> rfl
  rw [located, located]
  exact alike_atDeclaration same (fun site hi s hs => variableAt_outside hi hs)
    fun site _ _ => tame_variableAt site

theorem ident_alike (i : Ident) : Alike root asked (ident w i) (ident (w.over others) i) := by
  unfold ident
  rw [hw.typeOfName_eq]
  exact (definition_alike hw i.object).bind fun _ => (tame_addExpr ..).bind fun _ => tame_pure ()

theorem idents_alike (is : List Ident) :
    Alike root asked (idents w is) (idents (w.over others) is) := by
  induction is with
  | nil => exact tame_pure ()
  | cons i is ih => exact (ident_alike hw i).bind fun _ => ih

theorem optionalIdent_alike (i : Option Ident) :
    Alike root asked (optionalIdent w i) (optionalIdent (w.over others) i) := by
  cases i with
  | none => exact tame_pure ()
  | some i => exact ident_alike hw i

theorem identAccess_alike (e : Head) (name : String) (object : Option ObjectRef) :
    Alike root asked (identAccess w e name object) (identAccess (w.over others) e name object) := by
  unfold identAccess
  obtain ⟨ho, ho'⟩ | ⟨o, o', ho, ho', same⟩ := hw.object_cases object
  · simp only [ho, ho']
    exact tame_pure none
  · have declared := same.declaredAt_eq hw.path e.span.start
    have found : Alike root asked (variableOf o) (variableOf o') := variableOf_alike same
    obtain ⟨decl, rfl, -⟩ := same
    simp only [ho, ho']
    by_cases ha : (o.isVariable && !o.declaredAt w.path e.span.start) = true
    · rw [if_pos ha, if_pos (declared ▸ ha)]
      exact found.bind fun _ => tame_pure _
    · rw [if_neg ha, if_neg (declared ▸ ha)]
      exact tame_pure none

theorem nameOperand_alike (e : Head) (name : String) (object : Option ObjectRef) :
    Alike root asked (nameOperand w e name object) (nameOperand (w.over others) e name object) := by
  unfold nameOperand
  rw [hw.type_eq]
  refine (definition_alike hw object).bind fun _ => ?_
  exact (identAccess_alike hw e name object).bind fun _ => tame_addExpr ..

theorem namesPackage_over (x : Expr) : namesPackage (w.over others) x = namesPackage w x := by
  unfold namesPackage
  split
  · rename_i object _
    obtain ⟨ho, ho'⟩ | ⟨o, _, ho, ho', decl, rfl, -⟩ := hw.object_cases object
    · rw [ho, ho']
    · rw [ho, ho']
      rfl
  · rfl

theorem packageAccess_alike (x : Expr) {member member' : Object}
    (same : member.SameInside root member') (name : String) :
    Alike root asked (packageAccess w x member name)
      (packageAccess (w.over others) x member' name) := by
  have found : Alike root asked (variableOf member) (variableOf member') := variableOf_alike same
  obtain ⟨decl, rfl, -⟩ := same
  unfold packageAccess
  rw [namesPackage_over hw]
  by_cases hv : (decide (member.kind = .var) && namesPackage w x) = true
  · rw [if_pos hv, if_pos hv]
    exact found.bind fun _ => tame_pure _
  · rw [if_neg hv, if_neg hv]
    exact tame_pure none

theorem selectorAccess_alike (x : Expr) (base : Recorded) (sel : Ident) :
    Alike root asked (selectorAccess w x base sel) (selectorAccess (w.over others) x base sel) := by
  unfold selectorAccess
  obtain ⟨ho, ho'⟩ | ⟨o, o', ho, ho', same⟩ := hw.object_cases sel.object
  · simp only [ho, ho']
    exact tame_pure none
  · have package := packageAccess_alike hw x same sel.name
    obtain ⟨decl, rfl, -⟩ := same
    simp only [ho, ho']
    split
    · split
      · split
        · exact package
        · exact tame_pure _
      · exact package
    · exact tame_pure none

end

/-! By recursion over the syntax, as the pass itself. -/

mutual

theorem expr_alike {w : Scope} (hw : w.Inside root asked others) (e : Expr) :
    Alike root asked (expr w e) (expr (w.over others) e) := by
  obtain ⟨span, type, node⟩ := e
  unfold expr
  exact exprNode_alike hw ⟨span, type⟩ node
termination_by structural e

theorem exprNode_alike {w : Scope} (hw : w.Inside root asked others) (e : Head)
    (node : ExprNode) : Alike root asked (exprNode w e node) (exprNode (w.over others) e node) := by
  cases node with
  | bad => exact tame_addExpr ..
  | ident name object => exact nameOperand_alike hw e name object
  | ellipsis elt => exact (optionalExpr_alike hw elt).bind fun _ => tame_addExpr ..
  | basicLit kind value => exact tame_addExpr ..
  | funcLit type body =>
    refine (tame_functionAt w e.span.start).bind fun function => ?_
    have rest (v : Scope) (hv : v.Inside root asked others) :
        Alike root asked
          (funcType v type >>= fun _ => addExpr v type.span e.type .funcType .none none >>= fun _ =>
            block v body >>= fun _ => plain w e .funcLit)
          (funcType (v.over others) type >>= fun _ =>
            addExpr (v.over others) type.span e.type .funcType .none none >>= fun _ =>
            block (v.over others) body >>= fun _ => plain (w.over others) e .funcLit) := by
      refine (funcType_alike hv type).bind fun _ => (tame_addExpr ..).bind fun _ => ?_
      exact (block_alike hv body).bind fun _ => tame_addExpr ..
    cases function with
    | none => exact rest w hw
    | some id => exact rest (w.enter id) (hw.enter id)
  | compositeLit type elts =>
    refine (optionalExpr_alike hw type).bind fun _ => ?_
    exact (exprs_alike hw elts).bind fun _ => tame_addExpr ..
  | paren x => exact (expr_alike hw x).bind fun _ => tame_addExpr ..
  | selector x sel =>
    refine (expr_alike hw x).bind fun base => (ident_alike hw sel).bind fun _ => ?_
    exact (selectorAccess_alike hw x base sel).bind fun _ => tame_addExpr ..
  | index x index =>
    exact (expr_alike hw x).bind fun _ => (expr_alike hw index).bind fun _ => tame_addExpr ..
  | indexList x indices =>
    exact (expr_alike hw x).bind fun _ => (exprs_alike hw indices).bind fun _ => tame_addExpr ..
  | slice x low high max =>
    refine (expr_alike hw x).bind fun _ => (optionalExpr_alike hw low).bind fun _ => ?_
    refine (optionalExpr_alike hw high).bind fun _ => ?_
    exact (optionalExpr_alike hw max).bind fun _ => tame_addExpr ..
  | typeAssert x target =>
    refine (expr_alike hw x).bind fun _ => (optionalExpr_alike hw target).bind fun _ => ?_
    exact (tame_typeId w.package.types _).bind fun _ => tame_addExpr ..
  | call fn args spread =>
    exact (expr_alike hw fn).bind fun _ => (exprs_alike hw args).bind fun _ => tame_addExpr ..
  | star x => exact (expr_alike hw x).bind fun _ => tame_addExpr ..
  | unary op x =>
    refine (expr_alike hw x).bind fun _ => ?_
    split
    · exact tame_addExpr ..
    · exact tame_addExpr ..
  | binary op x y =>
    exact (expr_alike hw x).bind fun _ => (expr_alike hw y).bind fun _ => tame_addExpr ..
  | keyValue key value =>
    exact (expr_alike hw key).bind fun _ => (expr_alike hw value).bind fun _ => tame_addExpr ..
  | arrayType len elt =>
    refine (optionalExpr_alike hw len).bind fun _ => ?_
    exact (expr_alike hw elt).bind fun _ => tame_addExpr ..
  | structType fields => exact (fieldList_alike hw fields).bind fun _ => tame_addExpr ..
  | funcType type => exact (funcType_alike hw type).bind fun _ => tame_addExpr ..
  | interfaceType methods => exact (fieldList_alike hw methods).bind fun _ => tame_addExpr ..
  | mapType key value =>
    exact (expr_alike hw key).bind fun _ => (expr_alike hw value).bind fun _ => tame_addExpr ..
  | chanType dir value => exact (expr_alike hw value).bind fun _ => tame_addExpr ..
termination_by structural node

theorem optionalExpr_alike {w : Scope} (hw : w.Inside root asked others)
    (e : Option Expr) : Alike root asked (optionalExpr w e) (optionalExpr (w.over others) e) := by
  cases e with
  | none => exact tame_pure ()
  | some e => exact (expr_alike hw e).bind fun _ => tame_pure ()
termination_by structural e

theorem exprs_alike {w : Scope} (hw : w.Inside root asked others)
    (es : List Expr) : Alike root asked (exprs w es) (exprs (w.over others) es) := by
  cases es with
  | nil => exact tame_pure _
  | cons e es => exact (expr_alike hw e).bind fun _ => (exprs_alike hw es).bind fun _ => tame_pure _
termination_by structural es

theorem fieldList_alike {w : Scope} (hw : w.Inside root asked others)
    (l : FieldList) : Alike root asked (fieldList w l) (fieldList (w.over others) l) := by
  obtain ⟨span, fs⟩ := l
  unfold fieldList
  exact fields_alike hw fs
termination_by structural l

theorem optionalFieldList_alike {w : Scope} (hw : w.Inside root asked others)
    (l : Option FieldList) :
    Alike root asked (optionalFieldList w l) (optionalFieldList (w.over others) l) := by
  cases l with
  | none => exact tame_pure ()
  | some l => exact fieldList_alike hw l
termination_by structural l

theorem fields_alike {w : Scope} (hw : w.Inside root asked others)
    (fs : List Field) : Alike root asked (fields w fs) (fields (w.over others) fs) := by
  cases fs with
  | nil => exact tame_pure ()
  | cons f fs =>
    obtain ⟨span, names, type, tag⟩ := f
    refine (idents_alike hw names).bind fun _ => (expr_alike hw type).bind fun _ => ?_
    exact (tame_optionalBasicLit w tag).bind fun _ => fields_alike hw fs
termination_by structural fs

theorem funcType_alike {w : Scope} (hw : w.Inside root asked others)
    (type : FuncType) : Alike root asked (funcType w type) (funcType (w.over others) type) := by
  obtain ⟨span, typeParams, params, results⟩ := type
  refine (optionalFieldList_alike hw typeParams).bind fun _ => ?_
  exact (fieldList_alike hw params).bind fun _ => optionalFieldList_alike hw results
termination_by structural type

theorem block_alike {w : Scope} (hw : w.Inside root asked others) (b : Block) :
    Alike root asked (block w b) (block (w.over others) b) := by
  obtain ⟨span, body⟩ := b
  exact (stmts_alike hw body).bind fun _ => tame_addStmt ..
termination_by structural b

theorem specs_alike {w : Scope} (hw : w.Inside root asked others)
    (ss : List Spec) : Alike root asked (specs w ss) (specs (w.over others) ss) := by
  cases ss with
  | nil => exact tame_pure ()
  | cons s ss =>
    have rest := specs_alike hw ss
    cases s with
    | «import» span name path =>
      refine (optionalIdent_alike hw name).bind fun _ => ?_
      exact (tame_basicLit w path).bind fun _ => rest
    | value span names type values =>
      refine (idents_alike hw names).bind fun _ => (optionalExpr_alike hw type).bind fun _ => ?_
      exact (exprs_alike hw values).bind fun _ => rest
    | type span name typeParams isAlias type =>
      refine (ident_alike hw name).bind fun _ => ?_
      refine (optionalFieldList_alike hw typeParams).bind fun _ => ?_
      exact (expr_alike hw type).bind fun _ => rest
termination_by structural ss

theorem genDecl_alike {w : Scope} (hw : w.Inside root asked others)
    (d : GenDecl) : Alike root asked (genDecl w d) (genDecl (w.over others) d) := by
  obtain ⟨span, tok, ss⟩ := d
  unfold genDecl
  exact specs_alike hw ss
termination_by structural d

theorem stmt_alike {w : Scope} (hw : w.Inside root asked others) (s : Stmt) :
    Alike root asked (stmt w s) (stmt (w.over others) s) := by
  cases s with
  | bad | empty | other => exact tame_unbound ..
  | decl span decl => exact (genDecl_alike hw decl).bind fun _ => tame_unbound ..
  | labeled span label body =>
    exact (ident_alike hw label).bind fun _ => (stmt_alike hw body).bind fun _ => tame_unbound ..
  | expr span x =>
    exact (expr_alike hw x).bind fun _ => (tame_addStmt ..).bind fun _ => tame_pure _
  | send span chan value =>
    exact (expr_alike hw chan).bind fun _ => (expr_alike hw value).bind fun _ => tame_unbound ..
  | incDec span x dec => exact (expr_alike hw x).bind fun _ => tame_unbound ..
  | assign span lhs op rhs =>
    refine (exprs_alike hw lhs).bind fun _ => (exprs_alike hw rhs).bind fun _ => ?_
    exact (tame_addStmt ..).bind fun _ => tame_pure _
  | go span call => exact (expr_alike hw call).bind fun _ => tame_unbound ..
  | defer span call => exact (expr_alike hw call).bind fun _ => tame_unbound ..
  | «return» span results => exact (exprs_alike hw results).bind fun _ => tame_unbound ..
  | branch span tok label => exact (optionalIdent_alike hw label).bind fun _ => tame_unbound ..
  | block b => exact (block_alike hw b).bind fun _ => tame_pure none
  | «if» span init cond body els =>
    refine (optionalStmt_alike hw init).bind fun _ => (expr_alike hw cond).bind fun _ => ?_
    refine (block_alike hw body).bind fun _ => ?_
    exact (optionalStmt_alike hw els).bind fun _ => tame_unbound ..
  | caseClause span list body =>
    exact (exprs_alike hw list).bind fun _ => (stmts_alike hw body).bind fun _ => tame_unbound ..
  | switch span init tag body =>
    refine (optionalStmt_alike hw init).bind fun _ => (optionalExpr_alike hw tag).bind fun _ => ?_
    exact (block_alike hw body).bind fun _ => tame_unbound ..
  | typeSwitch span init assign body =>
    refine (optionalStmt_alike hw init).bind fun _ => (stmt_alike hw assign).bind fun binding => ?_
    refine (block_alike hw body).bind fun _ => ?_
    cases binding with
    | none => exact tame_unbound ..
    | some b => exact (switchCases_alike w _).bind fun _ => tame_unbound ..
  | commClause span comm body =>
    refine (optionalStmt_alike hw comm).bind fun _ => ?_
    exact (stmts_alike hw body).bind fun _ => tame_unbound ..
  | select span body => exact (block_alike hw body).bind fun _ => tame_unbound ..
  | «for» span init cond post body =>
    refine (optionalStmt_alike hw init).bind fun _ => (optionalExpr_alike hw cond).bind fun _ => ?_
    refine (optionalStmt_alike hw post).bind fun _ => ?_
    exact (block_alike hw body).bind fun _ => tame_unbound ..
  | range span key value define x body =>
    refine (optionalExpr_alike hw key).bind fun _ => (optionalExpr_alike hw value).bind fun _ => ?_
    refine (expr_alike hw x).bind fun _ => ?_
    exact (block_alike hw body).bind fun _ => tame_unbound ..
termination_by structural s

theorem optionalStmt_alike {w : Scope} (hw : w.Inside root asked others)
    (s : Option Stmt) : Alike root asked (optionalStmt w s) (optionalStmt (w.over others) s) := by
  cases s with
  | none => exact tame_pure ()
  | some s => exact (stmt_alike hw s).bind fun _ => tame_pure ()
termination_by structural s

theorem stmts_alike {w : Scope} (hw : w.Inside root asked others)
    (ss : List Stmt) : Alike root asked (stmts w ss) (stmts (w.over others) ss) := by
  cases ss with
  | nil => exact tame_pure ()
  | cons s ss => exact (stmt_alike hw s).bind fun _ => stmts_alike hw ss
termination_by structural ss

end

section

variable (hw : w.Inside root asked others)
include hw

/-- What is recorded of a function once it is entered. -/
theorem funcDecl_parts_alike (d : FuncDecl) :
    Alike root asked
      (optionalFieldList w d.recv >>= fun _ => ident w d.name >>= fun _ =>
        funcType w d.type >>= fun _ =>
        addExpr w d.type.span (w.typeOfName d.name) .funcType .none none >>= fun _ =>
        match d.body with
        | some body => block w body
        | none => pure ())
      (optionalFieldList (w.over others) d.recv >>= fun _ =>
        ident (w.over others) d.name >>= fun _ =>
        funcType (w.over others) d.type >>= fun _ =>
        addExpr (w.over others) d.type.span ((w.over others).typeOfName d.name) .funcType .none none
          >>= fun _ =>
        match d.body with
        | some body => block (w.over others) body
        | none => pure ()) := by
  rw [hw.typeOfName_eq]
  refine (optionalFieldList_alike hw d.recv).bind fun _ => (ident_alike hw d.name).bind fun _ => ?_
  refine (funcType_alike hw d.type).bind fun _ => (tame_addExpr ..).bind fun _ => ?_
  cases d.body with
  | none => exact tame_pure ()
  | some body => exact block_alike hw body

theorem funcDecl_alike (d : FuncDecl) :
    Alike root asked (funcDecl w d) (funcDecl (w.over others) d) := by
  refine (tame_functionAt w d.name.span.start).bind fun function => ?_
  cases function with
  | none => exact funcDecl_parts_alike hw d
  | some id => exact funcDecl_parts_alike (hw.enter id) d

theorem decls_alike (ds : List Decl) :
    Alike root asked (decls w ds) (decls (w.over others) ds) := by
  induction ds with
  | nil => exact tame_pure ()
  | cons d ds ih =>
    cases d with
    | bad span => exact ih
    | func d => exact (funcDecl_alike hw d).bind fun _ => ih
    | gen d => exact (genDecl_alike hw d).bind fun _ => ih

end

end Depth

/-! ## Analyses -/

/-- The paths for which an analysis may add rows: those of the files that go through, and those of
declarations in the corpus. -/
inductive Package.Asks (p : Package) (root : Path) : Path → Prop
  | file {f : SourceFile} : f ∈ p.usableFiles.1 → Asks p root f.path
  | decl {r : Option ObjectRef} {o : Object} {site : SourceSite} : p.objects.get? r = some o →
      o.decl = some site → site.file.startsWith root = true → Asks p root site.file

variable {p : Package} {f : SourceFile}

/-- A package whose files lie in the corpus, beside the same package with other objects. -/
structure Package.Inside (p : Package) (root : Path) (others : ObjectTable) : Prop where
  files : ∀ f ∈ p.files, f.path.startsWith root = true
  objects : p.objects.SameInside root others

theorem ofFile_alike (h : p.Inside root others) (hf : f ∈ p.usableFiles.1)
    {pass pass' : Scope → Analyze Unit}
    (hp : ∀ w : Scope, w.Inside root (p.Asks root) others →
      Alike root (p.Asks root) (pass w) (pass' (w.over others))) :
    Alike root (p.Asks root) (Scope.ofFile p f >>= pass)
      (Scope.ofFile { p with objects := others } f >>= pass') := by
  unfold Scope.ofFile
  rw [bind_assoc, bind_assoc]
  refine (tame_fileId (.file hf)).bind fun file => ?_
  rw [pure_bind, pure_bind]
  exact hp ⟨p, f.path, file, ⟨none, none⟩⟩
    ⟨h.files f (List.mem_filter.mp hf).1, h.objects, fun ho hd hi => .decl ho hd hi⟩

theorem passOver_alike {files : List SourceFile} {pass pass' : SourceFile → Analyze Unit}
    (hp : ∀ f ∈ files, Alike root (p.Asks root) (pass f) (pass' f)) :
    Alike root (p.Asks root) (passOver pass files) (passOver pass' files) := by
  induction files with
  | nil => exact tame_pure ()
  | cons f fs ih =>
    refine (hp f List.mem_cons_self).bind fun _ => ?_
    exact ih fun f hf => hp f (List.mem_cons_of_mem _ hf)

theorem makePasses_alike {files : List SourceFile}
    {passes : List (Package → SourceFile → Analyze Unit)}
    (hp : ∀ pass ∈ passes, ∀ f ∈ files,
      Alike root (p.Asks root) (pass p f) (pass { p with objects := others } f)) :
    Alike root (p.Asks root) (makePasses p files passes)
      (makePasses { p with objects := others } files passes) := by
  induction passes with
  | nil => exact tame_pure ()
  | cons pass passes ih =>
    refine (passOver_alike (hp pass List.mem_cons_self)).bind fun _ => ?_
    exact ih fun pass hm => hp pass (List.mem_cons_of_mem _ hm)

section

variable (h : p.Inside root others)
include h

theorem Definitions.run_alike (hf : f ∈ p.usableFiles.1) :
    Alike root (p.Asks root) (run p f) (run { p with objects := others } f) := by
  have walk : PassAlike root (p.Asks root) others (Outline.visitAll hook f.outlines) :=
    Outline.visitAll_good (m := Pass) (fun _ _ => tame_pure ())
      (fun _ _ ha hb w hw => (ha w hw).bind fun _ => hb w hw) hook_alike f.outlines
  exact ofFile_alike h hf walk

theorem Depth.run_alike (hf : f ∈ p.usableFiles.1) :
    Alike root (p.Asks root) (run p f) (run { p with objects := others } f) :=
  ofFile_alike h hf fun _ hw => (ident_alike hw f.package).bind fun _ => decls_alike hw f.decls

theorem Allocation.containers_alike (hf : f ∈ p.usableFiles.1) :
    Alike root (p.Asks root) (containers p f) (containers { p with objects := others } f) := by
  refine ofFile_alike h hf fun w hw => ?_
  rw [makeHook_over hw]
  exact Outline.visitAll_good (tame_pure ()) (fun _ _ ha hb => ha.bind fun _ => hb)
    (tame_makeHook w) f.outlines

theorem Allocation.sizes_alike (hf : f ∈ p.usableFiles.1) :
    Alike root (p.Asks root) (sizes p f) (sizes { p with objects := others } f) := by
  refine ofFile_alike h hf fun w hw => ?_
  rw [sizedHook_over hw]
  exact Outline.visitAll_good (tame_pure ()) (fun _ _ ha hb => ha.bind fun _ => hb)
    (tame_sizedHook w) f.outlines

theorem analyze_alike (mode : Mode) :
    Alike root (p.Asks root) (analyze p mode) (analyze { p with objects := others } mode) := by
  refine Alike.bind (makePasses_alike fun pass hpass f hf => ?_) fun _ => tame_pure _
  cases mode <;>
    simp only [Mode.passes, List.mem_cons, List.not_mem_nil, or_false] at hpass
  case defs =>
    subst hpass
    exact Definitions.run_alike h hf
  case depth =>
    subst hpass
    exact Depth.run_alike h hf
  case all =>
    obtain rfl | rfl := hpass
    · exact Definitions.run_alike h hf
    · exact Depth.run_alike h hf
  case make =>
    subst hpass
    exact Allocation.containers_alike h hf
  case allocSizes =>
    subst hpass
    exact Allocation.sizes_alike h hf

end

/-- Declarations outside the corpus leave no trace. Whatever the store and the caches hold, a
package and the same package with other such declarations are analyzed with the same result and
leave the same session. The files that are added are those that go through and those of declarations
in the corpus. -/
theorem analyze_ignoresOutside {s : Session} (hf : ∀ f ∈ p.files, s.inCorpus f.path = true)
    (ho : p.objects.SameInside s.corpusRoot others) (mode : Mode) :
    analyze p mode s = analyze { p with objects := others } mode s ∧
      ∀ r ∈ ((analyze p mode).leaves s).store.files, r ∈ s.store.files ∨
        ∃ path, p.Asks s.corpusRoot path ∧ r.path = path.text := by
  have alike := analyze_alike (p := p) ⟨hf, ho⟩ mode
  exact ⟨alike.same s rfl, (alike.adds s rfl).leaves.files⟩

def ObjectTable.unlocated : ObjectTable := ⟨#[⟨"X", .var, none, some 1⟩]⟩

/-- Knowing the library makes no difference, and gives it no row. -/
theorem analyze_imported_ignoresOutside :
    (∃ skips s', analyze .imported .all .sample = .ok skips s' ∧
      analyze { Package.imported with objects := .unlocated } .all .sample = .ok skips s') ∧
    ∀ r ∈ ((analyze .imported .all).leaves .sample).store.files,
      r ∈ Session.sample.store.files ∨ r.path = "corpus/a.go" := by
  have inside : ∀ f ∈ Package.imported.files, Session.sample.inCorpus f.path = true := by
    intro f hf
    obtain rfl := List.mem_singleton.mp hf
    decide +kernel
  have library : Object.IsForeign ⟨"X", .var, some ⟨⟨"lib/x.go"⟩, ⟨7, 5⟩⟩, some 1⟩ ⟨"corpus"⟩ := by
    rintro site ⟨⟩
    decide +kernel
  have nowhere : Object.IsForeign ⟨"X", .var, none, some 1⟩ ⟨"corpus"⟩ := nofun
  have objects : Package.imported.objects.SameInside ⟨"corpus"⟩ .unlocated :=
    .cons ⟨none, rfl, .inr ⟨library, nowhere⟩⟩ .nil
  obtain ⟨same, files⟩ := analyze_ignoresOutside inside objects .all
  obtain ⟨skips, s', h⟩ : ∃ skips s', analyze .imported .all .sample = .ok skips s' :=
    ok_of_succeeds (by decide +kernel)
  refine ⟨⟨skips, s', h, same ▸ h⟩, fun r hr => (files r hr).imp_right ?_⟩
  rintro ⟨path, asked, text⟩
  have spoken : path = ⟨"corpus/a.go"⟩ := by
    cases asked with
    | file hf =>
      obtain rfl := List.mem_singleton.mp (List.mem_filter.mp hf).1
      rfl
    | @decl r o site ho hd hi =>
      obtain ⟨n, -, hn⟩ := Option.bind_eq_some_iff.mp ho
      obtain rfl := List.mem_singleton.mp (Array.mem_toList_iff.mpr (Array.mem_of_getElem? hn))
      cases (library site hd).symm.trans hi
  rw [text, spoken]

end AccessDepth
