import AccessDepth.Proofs.Depth.Trail

/-!
# AccessDepth.Proofs.Depth.Ends

Where the depth pass ends.

* `Stands` — a scope stands at a place of a file. `Knows` — what the pass knows of an expression that
  it has recorded.
* `name_ends`, `operand_ends`, `selector_goes`, … — recording one node visits it, or stops there.
* `Depth.trailing`, `run_ends` — the pass records the nodes of its file in order, or stops at one of
  them.
-/

namespace AccessDepth

open Plan (Around ExprNote StmtNote AccessNote Item Write)

namespace Depth

/-- A scope of a package stands at a place of a file. -/
structure Stands (p : Package) (root : Path) (file : FileId) (w : Scope) (a : Around) (s : Session) :
    Prop where
  ready : s.Ready
  root : s.corpusRoot = root
  package : w.package = p
  path : w.path = a.path
  isFile : s.store.IsFile file a.path
  enclosing : w.enclosing = a.enclosing s.store file
  file : w.file = file

/-- What the pass knows of an expression that it has recorded. -/
structure Knows (p : Package) (root : Path) (w : Scope) (e : Expr) (r : Recorded) (t : Store) :
    Prop where
  id : t.exprAt? w.file e.span = some r.id
  chain : Option.Rel (·.Chains t) (e.access? p root w.path) r.chain

section

variable {p : Package} {root : Path} {file : FileId} {w : Scope} {a : Around} {m : Mark}
  {s₀ s s' : Session}

open Session (LeadsTo)
open Analyze (Ends)

theorem enclosing_of_adds (h : LeadsTo Adds s s') (a : Around) (file : FileId) :
    a.enclosing s'.store file = a.enclosing s.store file := by
  have same : s'.store.functions = s.store.functions :=
    h.inserts.rows_eq (v := .functions) (by simp [Adds, Supply, Table.owner])
  have find : s'.store.functionAt? file = s.store.functionAt? file := by
    funext position
    simp only [Store.functionAt?, same]
  simp only [Around.enclosing, Around.recorded, find]

theorem Stands.later (here : Stands p root file w a s) (h : LeadsTo Adds s s') :
    Stands p root file w a s' where
  ready := h.ready
  root := h.root.trans here.root
  package := here.package
  path := here.path
  file := here.file
  isFile := here.isFile.of_le h.inserts.le
  enclosing := by rw [enclosing_of_adds h]; exact here.enclosing

theorem Stands.enter (here : Stands p root file w a s) (position : Position) :
    Stands p root file (inside w (s.store.functionAt? w.file position)) (a.enter position) s where
  ready := here.ready
  root := here.root
  package := (inside_package ..).trans here.package
  path := (inside_path ..).trans here.path
  file := (inside_file ..).trans here.file
  isFile := here.isFile
  enclosing := by
    cases here.file
    exact enclosing_inside here.enclosing position

theorem rel_of_le {α β : Type} {r r' : α → β → Prop} (h : ∀ x y, r x y → r' x y) {x : Option α}
    {y : Option β} (hr : Option.Rel r x y) : Option.Rel r' x y := by
  cases hr with
  | none => exact .none
  | some hxy => exact .some (h _ _ hxy)

theorem Knows.of_le {e : Expr} {r : Recorded} {t t' : Store} (h : Knows p root w e r t)
    (hle : t ≤ t') : Knows p root w e r t' where
  id := Store.exprAt?_of_le hle h.id
  chain := rel_of_le (fun _ _ hc => hc.of_le hle) h.chain

/-- Once its rows are determined, a node is recorded in a transaction. -/
theorem commit_visits {α : Type} {t : Transaction α} {v : Write} (supplied : LeadsTo Supply s₀ s)
    (hf : s.store.IsFile file m.around.path) (hw : m.Writes p root s.store file v)
    (ht : v.record = discard t) :
    (Analyze.commit t).Ends s
      (fun x s' => Visits p root file m s₀ s' ∧ t s.store = .ok (x, s'.store) ∧
        s.store ≤ s'.store)
      (Stops p root file m s₀) := by
  have recorded {x : α} {s' : Store} (h : t s.store = .ok (x, s')) :
      v.record s.store = .ok ((), s') := by
    rw [ht]
    exact Plan.discard_ok.mpr ⟨x, h⟩
  refine (Analyze.commit_ends supplied.ready fun x s' h => Write.record_inserts (recorded h)).mono
    ?_ ?_
  · rintro x s' ⟨h, later, -⟩
    exact ⟨⟨supplied, hf, hw, recorded h, later⟩, h, later.inserts.le⟩
  · rintro f s' ⟨rfl, ⟨rfl, hc⟩ | ⟨e, he, rfl⟩⟩
    · exact .halts supplied (.closed hc) (.refl supplied.ready)
    · refine .refused supplied hw ?_
      rw [ht]
      simp [discard, Functor.discard, Functor.mapConst, StateT.map, bind, Except.bind, he]

/-- The types of a node are looked up, the last one by the expression itself, then it is recorded. -/
theorem addExpr_visits (here : Stands p root file w m.around s) (supplied : LeadsTo Supply s₀ s)
    {span : Span} {type : Option TypeRef} {kind : ExprKind} {detail : ExprDetail} {note : ExprNote}
    {access : Option FoundAccess} {an : Option AccessNote} {before : List (Option TypeRef)}
    {types : List (Option TypeId)} (hi : m.item p root = .expr kind span note an)
    (hl : m.lookups p root = before ++ [type])
    (htypes : List.Forall₂ (s.store.FitsType p.types) before types)
    (hd : ∀ id, note.Fits s.store file (types ++ [id]) detail)
    (ha : Option.Rel (·.Fits s.store file) an (access.map fun a => a.chain.access a.kind a.inner)) :
    (addExpr w span type kind detail access).Ends s
      (fun r s' => Visits p root file m s₀ s' ∧ s.store ≤ s'.store ∧
        s'.store.exprAt? file span = some r.id ∧ r.chain = access.map (·.chain))
      (Stops p root file m s₀) := by
  unfold addExpr Scope.typeId
  rw [here.package]
  refine ((Analyze.typeIdIfResolved_ends here.ready p.types type).mono (fun _ _ h => h) ?_).bind ?_
  · rintro f s' ⟨later, halts⟩
    exact .halts supplied halts (later.mono fun _ => .inr)
  rintro id s₁ ⟨later, hid⟩
  have first := supplied.trans (later.mono fun _ => .inr)
  have here₁ := here.later (later.mono fun _ hu => .inl (.inr hu))
  have le := later.inserts.le
  have hw : m.Writes p root s₁.store file (.expr
      { kind := kind, type := id, file := w.file, span := span, enclosing := w.enclosing } detail
      (access.map fun a => a.chain.access a.kind a.inner)) := by
    have both : List.Forall₂ (s₁.store.FitsType p.types) (m.lookups p root) (types ++ [id]) := by
      rw [hl]
      exact List.rel_append (htypes.imp fun _ _ h => h.of_le le) (.cons hid .nil)
    have writes := Mark.Writes.expr hi both ((hd id).of_le le)
      (rel_of_le (fun _ _ h => h.of_le le) ha)
    rw [← here₁.enclosing] at writes
    rw [here.file]
    simpa using writes
  refine (commit_visits first here₁.isFile hw rfl).bind ?_
  rintro r s₂ ⟨visit, hr, le₂⟩
  refine Analyze.ends_pure ⟨visit, le_trans le le₂, ?_, rfl⟩
  rw [← here.file]
  exact exprAt?_of_recordExpr hr

/-! ## Names -/

/-- Where a site is located: in one of the rows of its file. -/
def Locates (t : Store) (site : Option SourceSite) (found : Option (FileId × Position)) : Prop :=
  match site with
  | none => found = none
  | some site => ∃ target, found = some (target, site.position) ∧ t.IsFile target site.file

theorem Locates.fits {t : Store} {site : Option SourceSite} {found : Option (FileId × Position)}
    (h : Locates t site found) (name : String) (types : List (Option TypeId)) :
    (ExprNote.ident name site).Fits t file types (.ident name found) := by
  cases site with
  | none =>
    cases h
    rfl
  | some site =>
    obtain ⟨target, rfl, hf⟩ := h
    exact ⟨target, hf, rfl⟩

theorem definition_ends (here : Stands p root file w m.around s) (object : Option ObjectRef) :
    (definition w object).Ends s
      (fun x s' => LeadsTo Supply s s' ∧ Locates s'.store (p.declaration? root object) x)
      (Stops p root file m s) := by
  unfold definition Scope.object? Package.declaration?
  rw [here.package]
  have none_ends : (pure none : Analyze (Option (FileId × Position))).Ends s
      (fun x s' => LeadsTo Supply s s' ∧ Locates s'.store none x) (Stops p root file m s) :=
    Analyze.ends_pure ⟨.refl here.ready, rfl⟩
  cases p.objects.get? object with
  | none => exact none_ends
  | some o =>
    simp only [Option.bind_some]
    cases o.decl with
    | none => exact none_ends
    | some site =>
      refine (Analyze.definition_ends here.ready site).mono ?_ ?_
      · rintro x s' ⟨later, hx⟩
        rw [here.root] at hx
        refine ⟨later.mono fun _ => .inl, ?_⟩
        simp only [Option.bind_some]
        unfold Locates
        cases hs : site.within root with
        | none => simpa only [hs] using hx
        | some site' => simpa only [hs] using hx
      · rintro f s' ⟨later, halts⟩
        exact .halts (.refl here.ready) halts (later.mono fun _ => .inl)

/-- A variable that is found for an object is recorded where the object is declared. -/
theorem variableOf_ends (here : Stands p root file w a s) {object : Option ObjectRef} {o : Object}
    (ho : p.objects.get? object = some o) {n : AccessNote}
    (hn : n.base = p.declaration? root object) :
    (variableOf o).Ends s
      (fun x s' => LeadsTo Supply s s' ∧ s'.store = s.store ∧ n.Finds s.store x)
      fun _ _ => False := by
  unfold variableOf
  cases hd : o.decl with
  | none => exact Analyze.ends_pure ⟨.refl here.ready, rfl, fun id hid => by cases hid⟩
  | some site =>
    refine (Analyze.variableAt_ends here.ready site).mono ?_ fun _ _ h => h
    rintro x s' ⟨later, hs, hx⟩
    refine ⟨later.mono fun _ => False.elim, hs, fun id hid => ⟨site, ?_, (hx id hid).2⟩⟩
    rw [hn, Package.declaration?, ho]
    simp only [Option.bind_some, hd]
    rw [← here.root]
    exact (hx id hid).1

theorem bare_ends (here : Stands p root file w m.around s) (supplied : LeadsTo Supply s₀ s)
    {span : Span} {type : Option TypeRef} {kind : ExprKind} {detail : ExprDetail} {note : ExprNote}
    (hi : m.item p root = .expr kind span note none) (hl : m.lookups p root = [type])
    (hd : ∀ id, note.Fits s.store file [id] detail) :
    (addExpr w span type kind detail none).Ends s (fun _ s' => Visits p root file m s₀ s')
      (Stops p root file m s₀) := by
  have alone : m.lookups p root = [] ++ [type] := hl
  refine (addExpr_visits here supplied hi alone .nil hd ?_).mono (fun _ _ h => h.1) fun _ _ h => h
  exact .none

theorem name_ends (here : Stands p root file w a s) (i : Ident) :
    (ident w i).Ends s (fun _ s' => Visits p root file (.name a i) s s')
      (Stops p root file (.name a i) s) := by
  unfold ident
  refine (definition_ends (m := .name a i) here i.object).bind ?_
  rintro x s₁ ⟨supplied, hx⟩
  have here₁ := here.later (supplied.mono fun _ => .inl)
  rw [Package.typeOfName_eq here.package]
  have row := bare_ends (m := .name a i) here₁ supplied rfl rfl fun _ => hx.fits ..
  exact row.bind fun _ _ visit => Analyze.ends_pure visit

theorem literal_ends (here : Stands p root file w a s) (l : BasicLit) :
    (basicLit w l).Ends s (fun _ s' => Visits p root file (.literal a l) s s')
      (Stops p root file (.literal a l) s) := by
  have row := bare_ends (m := .literal a l) here (.refl here.ready) rfl rfl fun _ => rfl
  exact row.bind fun _ _ visit => Analyze.ends_pure visit

theorem signature_ends (here : Stands p root file w a s) (span : Span) (type : Option TypeRef) :
    (addExpr w span type .funcType .none none).Ends s
      (fun _ s' => Visits p root file (.signature a span type) s s')
      (Stops p root file (.signature a span type) s) :=
  bare_ends (m := .signature a span type) here (.refl here.ready) rfl rfl fun _ => rfl

/-! ## Expressions -/

/-- Accesses that were found fit what is noted. -/
def Noted (t : Store) (file : FileId) (note : Option AccessNote) (access : Option FoundAccess) :
    Prop :=
  Option.Rel (·.Fits t file) note (access.map fun a => a.chain.access a.kind a.inner)

theorem Noted.of_le {t t' : Store} {note : Option AccessNote} {access : Option FoundAccess}
    (h : Noted t file note access) (hle : t ≤ t') : Noted t' file note access :=
  rel_of_le (fun _ _ hf => hf.of_le hle) h

theorem Noted.chain {t : Store} {note : Option AccessNote} {access : Option FoundAccess}
    (h : Noted t file note access) : Option.Rel (·.Chains t) note (access.map (·.chain)) := by
  cases access with
  | none =>
    cases h
    exact .none
  | some found =>
    cases h with
    | some h => exact .some ⟨h.depth, h.uncertainty, h.baseName, h.base⟩

/-- An expression is recorded. -/
theorem expr_ends (here : Stands p root file w a s) {e : Expr} (supplied : LeadsTo Supply s₀ s)
    {type : Option TypeRef} {note : ExprNote} {targets : List (Option TypeRef)}
    {types : List (Option TypeId)} {detail : ExprDetail} {access : Option FoundAccess}
    (hn : exprNote p root e = (type, note, targets))
    (htypes : List.Forall₂ (s.store.FitsType p.types) targets types)
    (hd : ∀ id, note.Fits s.store file (types ++ [id]) detail)
    (ha : Noted s.store file (e.access? p root a.path) access) :
    (addExpr w e.span type e.node.kind detail access).Ends s
      (fun r s' => Visits p root file (.expr a e) s₀ s' ∧ Knows p root w e r s'.store)
      (Stops p root file (.expr a e) s₀) := by
  have item : (Mark.expr a e).item p root =
      .expr e.node.kind e.span note (e.access? p root a.path) := by
    simp only [Mark.item, hn]
  have lookups : (Mark.expr a e).lookups p root = targets ++ [type] := by
    simp only [Mark.lookups, hn]
  refine (addExpr_visits here supplied item lookups htypes hd ha).mono ?_ fun _ _ h => h
  rintro r s' ⟨visit, le, hid, hc⟩
  refine ⟨visit, ?_, ?_⟩
  · rw [here.file]
    exact hid
  · rw [here.path, hc]
    exact (ha.of_le le).chain

/-- An expression without a detail whose access is one step from that of its operand. -/
theorem stepFrom_noted {t : Store} {x : Expr} {base : Recorded} (hf : w.file = file)
    (hb : Knows p root w x base t) (step : Step) :
    Noted t file ((x.access? p root w.path).bind (·.after x.span step))
      (base.chain.bind fun chain => stepFrom base chain step) := by
  have hid := hb.id
  rw [hf] at hid
  have chain := hb.chain
  generalize x.access? p root w.path = note at chain ⊢
  generalize base.chain = found at chain ⊢
  cases chain with
  | none => exact .none
  | @some n c hc =>
    simp only [Option.bind_some, stepFrom, AccessNote.after_eq, Chain.extend, Option.map_map]
    cases step.effect with
    | none => exact .none
    | some e =>
      refine .some ⟨rfl, Option.map_eq_some_iff.mpr ⟨_, hid, rfl⟩, hc.baseName, hc.base, ?_, ?_⟩
      · simp [Chain.access, AccessNote.via, hc.depth]
      · simp [Chain.access, AccessNote.via, hc.uncertainty]

theorem IsPlain.exprNote {e : Expr} (h : IsPlain e) (p : Package) (root : Path) :
    exprNote p root e = (e.type, .none, []) := by
  obtain ⟨span, type, node⟩ := e
  cases node with
  | ident | selector | typeAssert | call => exact h.elim
  | _ => rfl

theorem plain_ends (here : Stands p root file w a s) {e : Expr} (he : IsPlain e)
    (ha : e.access? p root a.path = none) :
    (plain w ⟨e.span, e.type⟩ e.node.kind).Ends s
      (fun r s' => Visits p root file (.expr a e) s s' ∧ Knows p root w e r s'.store)
      (Stops p root file (.expr a e) s) := by
  refine expr_ends here (.refl here.ready) (he.exprNote p root) .nil (fun _ => rfl) ?_
  rw [ha]
  exact .none

theorem extend_ends (here : Stands p root file w a s) {e x : Expr} {base : Recorded} {step : Step}
    (hb : Knows p root w x base s.store) (he : IsPlain e)
    (ha : e.access? p root a.path = (x.access? p root a.path).bind (·.after x.span step)) :
    (extend w ⟨e.span, e.type⟩ e.node.kind base step).Ends s
      (fun r s' => Visits p root file (.expr a e) s s' ∧ Knows p root w e r s'.store)
      (Stops p root file (.expr a e) s) := by
  refine expr_ends here (.refl here.ready) (he.exprNote p root) .nil (fun _ => rfl) ?_
  rw [ha, ← here.path]
  exact stepFrom_noted here.file hb step

theorem root_noted {t : Store} {n : AccessNote} {kind : AccessKind} {chain : Chain}
    (hi : n.inner = none) (hk : n.kind = kind) (hc : n.Chains t chain) :
    Noted t file (some n) (some ⟨kind, none, chain⟩) :=
  .some ⟨hk.symm, by rw [hi]; rfl, hc.baseName, hc.base, hc.depth, hc.uncertainty⟩

theorem identAccess_ends (here : Stands p root file w a s) {e : Expr} {name : String}
    {object : Option ObjectRef} (he : e.node = .ident name object) :
    (identAccess w ⟨e.span, e.type⟩ name object).Ends s
      (fun x s' => LeadsTo Supply s s' ∧ s'.store = s.store ∧
        Noted s.store file (e.access? p root a.path) x) fun _ _ => False := by
  obtain ⟨span, type, node⟩ := e
  subst he
  unfold identAccess Scope.object? Expr.access? ExprNode.access?
  rw [here.package]
  cases ho : p.objects.get? object with
  | none => exact Analyze.ends_pure ⟨.refl here.ready, rfl, .none⟩
  | some o =>
    simp only [Object.isVariable, here.path]
    split
    · refine (variableOf_ends here ho (n := .root name (p.declaration? root object)) rfl).bind ?_
      rintro v s' ⟨later, hs, hv⟩
      exact Analyze.ends_pure ⟨later, hs, root_noted rfl rfl ⟨rfl, rfl, rfl, hv⟩⟩
    · exact Analyze.ends_pure ⟨.refl here.ready, rfl, .none⟩

theorem operand_ends (here : Stands p root file w a s) {e : Expr} {name : String}
    {object : Option ObjectRef} (he : e.node = .ident name object) :
    (nameOperand w ⟨e.span, e.type⟩ name object).Ends s
      (fun r s' => Visits p root file (.expr a e) s s' ∧ Knows p root w e r s'.store)
      (Stops p root file (.expr a e) s) := by
  unfold nameOperand
  refine (definition_ends (m := .expr a e) here object).bind ?_
  rintro x s₁ ⟨supplied, hx⟩
  have here₁ := here.later (supplied.mono fun _ => .inl)
  refine ((identAccess_ends here₁ he).mono (fun _ _ h => h) fun _ _ h => h.elim).bind ?_
  rintro access s₂ ⟨later, hs, hf⟩
  have here₂ := here₁.later (later.mono fun _ => .inl)
  rw [← hs] at hx hf
  have kind : e.node.kind = .ident := by rw [he]; rfl
  have note : exprNote p root e = (e.type.or ((p.objects.get? object).bind (·.type)),
      .ident name (p.declaration? root object), []) := by
    simp only [exprNote, he]
  rw [Scope.object?, here.package, ← kind]
  exact expr_ends here₂ (supplied.trans later) note .nil (fun _ => hx.fits ..) hf

theorem packageAccess_ends (here : Stands p root file w a s) {x : Expr} {sel : Ident} {o : Object}
    (ho : p.objects.get? sel.object = some o) :
    (packageAccess w x o sel.name).Ends s
      (fun y s' => LeadsTo Supply s s' ∧ s'.store = s.store ∧
        Noted s.store file (p.memberAccess? root x sel) y) fun _ _ => False := by
  unfold packageAccess Package.memberAccess?
  rw [ho, namesPackage_eq here.package]
  simp only
  split
  · refine (variableOf_ends here ho
      (n := .member sel.name (p.declaration? root sel.object)) rfl).bind ?_
    rintro v s' ⟨later, hs, hv⟩
    exact Analyze.ends_pure ⟨later, hs, root_noted rfl rfl ⟨rfl, rfl, rfl, hv⟩⟩
  · exact Analyze.ends_pure ⟨.refl here.ready, rfl, .none⟩

theorem selectorAccess_ends (here : Stands p root file w a s) {e x : Expr} {sel : Ident}
    {base : Recorded} (he : e.node = .selector x sel) (hb : Knows p root w x base s.store) :
    (selectorAccess w x base sel).Ends s
      (fun y s' => LeadsTo Supply s s' ∧ s'.store = s.store ∧
        Noted s.store file (e.access? p root a.path) y) fun _ _ => False := by
  obtain ⟨span, type, node⟩ := e
  subst he
  have chain := hb.chain
  have step := stepFrom_noted here.file hb (.select (p.types.shape x.type))
  rw [here.path] at chain step
  unfold selectorAccess Scope.object? Expr.access? ExprNode.access?
  rw [here.package]
  cases ho : p.objects.get? sel.object with
  | none => exact Analyze.ends_pure ⟨.refl here.ready, rfl, .none⟩
  | some o =>
    simp only
    split
    · cases hx : x.access? p root a.path with
      | none =>
        rw [hx] at chain
        generalize base.chain = found at chain
        cases chain
        exact packageAccess_ends here ho
      | some n =>
        rw [hx] at chain step
        generalize base.chain = found at chain step
        cases chain
        simp only [Option.bind_some] at step ⊢
        split
        · exact packageAccess_ends here ho
        · exact Analyze.ends_pure ⟨.refl here.ready, rfl, step⟩
    · exact Analyze.ends_pure ⟨.refl here.ready, rfl, .none⟩

theorem typeAssert_ends (here : Stands p root file w a s) {span : Span} {type : Option TypeRef}
    {x : Expr} {target : Option Expr} {base : Recorded} (hb : Knows p root w x base s.store) :
    (w.typeId (target.bind (·.type)) >>= fun targetId =>
      addExpr w span type .typeAssert (.typeAssert base.id targetId) none).Ends s
      (fun r s' => Visits p root file (.expr a ⟨span, type, .typeAssert x target⟩) s s' ∧
        Knows p root w ⟨span, type, .typeAssert x target⟩ r s'.store)
      (Stops p root file (.expr a ⟨span, type, .typeAssert x target⟩) s) := by
  unfold Scope.typeId
  rw [here.package]
  refine ((Analyze.typeIdIfResolved_ends here.ready p.types _).mono (fun _ _ h => h) ?_).bind ?_
  · rintro f s' ⟨later, halts⟩
    exact .halts (.refl here.ready) halts (later.mono fun _ => .inr)
  rintro targetId s₁ ⟨later, ht⟩
  have here₁ := here.later (later.mono fun _ hu => .inl (.inr hu))
  have hid := (hb.of_le later.inserts.le).id
  rw [here.file] at hid
  refine expr_ends (e := ⟨span, type, .typeAssert x target⟩) here₁ (later.mono fun _ => .inr) rfl
    (.cons ht .nil) (fun id => ?_) .none
  exact Option.bind_eq_some_iff.mpr ⟨base.id, hid, rfl⟩

theorem call_ends (here : Stands p root file w a s) {span : Span} {type : Option TypeRef}
    {fn : Expr} {args : List Expr} {spread : Bool} {function : Recorded} {ids : List ExprId}
    (hf : Knows p root w fn function s.store)
    (hi : s.store.exprsAt? w.file (args.map (·.span)) = some ids) :
    (addExpr w span type .call (.call function.id ids) (some ⟨.functionCall, none, .call⟩)).Ends s
      (fun r s' => Visits p root file (.expr a ⟨span, type, .call fn args spread⟩) s s' ∧
        Knows p root w ⟨span, type, .call fn args spread⟩ r s'.store)
      (Stops p root file (.expr a ⟨span, type, .call fn args spread⟩) s) := by
  have hid := hf.id
  rw [here.file] at hid hi
  refine expr_ends (e := ⟨span, type, .call fn args spread⟩) here (.refl here.ready) rfl .nil
    (fun _ => ?_) ?_
  · refine Option.bind_eq_some_iff.mpr ⟨function.id, hid, ?_⟩
    exact Option.bind_eq_some_iff.mpr ⟨ids, hi, rfl⟩
  · exact root_noted rfl rfl ⟨rfl, rfl, rfl, fun id hid => by cases hid⟩

/-! ## Statements -/

/-- Once its types are looked up, a statement is recorded. -/
theorem addStmt_ends (here : Stands p root file w m.around s) (supplied : LeadsTo Supply s₀ s)
    {kind : StmtKind} {span : Span} {note : StmtNote} {detail : StmtDetail}
    {types : List (Option TypeId)} (hi : m.item p root = .stmt kind span note)
    (htypes : List.Forall₂ (s.store.FitsType p.types) (m.lookups p root) types)
    (hd : note.detail? s.store file types = some detail) :
    (addStmt w kind span detail).Ends s (fun _ s' => Visits p root file m s₀ s')
      (Stops p root file m s₀) := by
  have hw := Mark.Writes.stmt hi htypes hd
  rw [← here.enclosing] at hw
  unfold addStmt
  rw [here.file]
  refine (commit_visits supplied here.isFile hw rfl).bind ?_
  rintro _ s' ⟨visit, -⟩
  exact Analyze.ends_pure visit

def Cases (t : Store) (p : Package) (drafts : List (SwitchCase × Option TypeRef))
    (cases : List SwitchCase) : Prop :=
  ∃ ids, List.Forall₂ (t.FitsType p.types) (drafts.map (·.2)) ids ∧
    cases = (drafts.map (·.1)).zipWith (fun c t => { c with type := t }) ids

theorem caseTypes_ends (here : Stands p root file w a s) (clause : Int) (list : List (Int × Expr)) :
    (caseTypes w clause list).Ends s
      (fun cases s' => LeadsTo Supply s s' ∧ Cases s'.store p (list.map fun (position, e) =>
        ({ clause := clause, position := position, place := e.span.start, type := none }, e.type))
          cases)
      (fun f s' => ∃ s₁, LeadsTo Supply s s₁ ∧ s₁.Halts f ∧ LeadsTo Supply s₁ s') := by
  induction list generalizing s with
  | nil => exact Analyze.ends_pure ⟨.refl here.ready, [], .nil, rfl⟩
  | cons x list ih =>
    obtain ⟨position, e⟩ := x
    unfold caseTypes Scope.typeId
    rw [here.package]
    refine ((Analyze.typeIdIfResolved_ends here.ready p.types e.type).mono (fun _ _ h => h) ?_).bind ?_
    · rintro f s' ⟨later, halts⟩
      exact ⟨s, .refl here.ready, halts, later.mono fun _ => .inr⟩
    rintro id s₁ ⟨later, hid⟩
    have first : LeadsTo Supply s s₁ := later.mono fun _ => .inr
    have here₁ := here.later (first.mono fun _ => .inl)
    refine ((ih here₁).mono (fun _ _ h => h) ?_).bind ?_
    · rintro f s' ⟨s₂, supplied, halts, rest⟩
      exact ⟨s₂, first.trans supplied, halts, rest⟩
    rintro rest s₂ ⟨supplied, ids, hids, rfl⟩
    exact Analyze.ends_pure ⟨first.trans supplied, id :: ids,
      .cons (hid.of_le supplied.inserts.le) hids, rfl⟩

theorem switchCases_ends (here : Stands p root file w a s) (clauses : List (Int × Stmt)) :
    (switchCases w clauses).Ends s
      (fun cases s' => LeadsTo Supply s s' ∧ Cases s'.store p (switchCasesOf clauses) cases)
      (fun f s' => ∃ s₁, LeadsTo Supply s s₁ ∧ s₁.Halts f ∧ LeadsTo Supply s₁ s') := by
  induction clauses generalizing s with
  | nil => exact Analyze.ends_pure ⟨.refl here.ready, [], .nil, rfl⟩
  | cons x clauses ih =>
    obtain ⟨clause, st⟩ := x
    cases st with
    | caseClause span list body =>
      unfold switchCases switchCasesOf
      refine (caseTypes_ends here clause (numbered 0 list)).bind ?_
      rintro first s₁ ⟨supplied, ids, hids, rfl⟩
      have here₁ := here.later (supplied.mono fun _ => .inl)
      refine ((ih here₁).mono (fun _ _ h => h) ?_).bind ?_
      · rintro f s' ⟨s₂, before, halts, after⟩
        exact ⟨s₂, supplied.trans before, halts, after⟩
      rintro more s₂ ⟨later, ids', hids', rfl⟩
      have le := later.inserts.le
      have first := hids.imp fun _ _ h => h.of_le le
      refine Analyze.ends_pure ⟨supplied.trans later, ids ++ ids', ?_, ?_⟩
      · rw [List.map_append]
        exact List.rel_append first hids'
      · have length := hids.length_eq
        rw [List.map_append, List.zipWith_append (by simpa [clauseCases] using length)]
        rfl
    | _ =>
      unfold switchCases switchCasesOf
      exact ih here

theorem typeSwitch_ends (here : Stands p root file w a s) {span : Span} {init : Option Stmt}
    {assign : Stmt} {body : Block} {bound : Option String} {assertion : Span} {id : ExprId}
    (hg : guardOf assign = some (bound, assertion))
    (hid : s.store.exprAt? w.file assertion = some id) :
    (switchCases w (numbered 0 body.stmts) >>= fun cases =>
      addStmt w .typeSwitch span (.typeSwitch bound id cases)).Ends s
      (fun _ s' => Visits p root file (.stmt a (.typeSwitch span init assign body)) s s')
      (Stops p root file (.stmt a (.typeSwitch span init assign body)) s) := by
  refine ((switchCases_ends here (numbered 0 body.stmts)).mono (fun _ _ h => h) ?_).bind ?_
  · rintro f s' ⟨s₁, before, halts, after⟩
    exact .halts before halts after
  rintro cases s₁ ⟨supplied, ids, hids, rfl⟩
  have here₁ := here.later (supplied.mono fun _ => .inl)
  rw [here.file] at hid
  have note : stmtNote (.typeSwitch span init assign body) =
      (.typeSwitch, .typeSwitch bound assertion ((switchCasesOf (numbered 0 body.stmts)).map (·.1)),
        (switchCasesOf (numbered 0 body.stmts)).map (·.2)) := by
    simp only [stmtNote, hg]
  have item : (Mark.stmt a (.typeSwitch span init assign body)).item p root =
      .stmt .typeSwitch span
        (.typeSwitch bound assertion ((switchCasesOf (numbered 0 body.stmts)).map (·.1))) := by
    simp only [Mark.item, note, Stmt.span]
  refine addStmt_ends here₁ supplied item (by simpa only [Mark.lookups, note] using hids) ?_
  exact Option.bind_eq_some_iff.mpr ⟨id, Store.exprAt?_of_le supplied.inserts.le hid, rfl⟩

end

/-! ## The pass -/

section

variable {p : Package} {root : Path} {file : FileId} {w : Scope} {a : Around} {s : Session}

open Session (LeadsTo)
open Analyze (Ends)

/-- From a session that is ready, a computation records some nodes or stops at one of them. -/
def Goes {α : Type} (p : Package) (root : Path) (file : FileId) (marks : List Mark) (x : Analyze α)
    (s : Session) (post : α → Store → Prop) : Prop :=
  s.Ready → x.Ends s (fun y s' => Trail p root file marks s s' ∧ post y s'.store)
    (StopsWithin p root file marks s)

theorem Goes.bind {α β : Type} {marks marks' : List Mark} {x : Analyze α} {f : α → Analyze β}
    {mid : α → Store → Prop} {post : β → Store → Prop} (h : Goes p root file marks x s mid)
    (hf : ∀ y s', LeadsTo Adds s s' → mid y s'.store → Goes p root file marks' (f y) s' post) :
    Goes p root file (marks ++ marks') (x >>= f) s post := by
  intro hs
  refine ((h hs).mono (fun _ _ h => h) fun _ _ h => h.append).bind ?_
  rintro y s₁ ⟨trail, hm⟩
  have later := trail.leadsTo hs
  refine (hf y s₁ later hm later.ready).mono ?_ fun _ _ h => h.after trail
  rintro z s₂ ⟨trail', hp⟩
  exact ⟨trail.append trail', hp⟩

theorem Goes.single {α : Type} {m : Mark} {x : Analyze α} {post : α → Store → Prop}
    (h : x.Ends s (fun y s' => Visits p root file m s s' ∧ post y s'.store)
      (Stops p root file m s)) : Goes p root file [m] x s post :=
  fun _ => h.mono (fun _ _ h => ⟨.single h.1, h.2⟩) fun _ _ h => .single h

theorem Goes.alone {α : Type} {m : Mark} {x : Analyze α}
    (h : x.Ends s (fun _ s' => Visits p root file m s s') (Stops p root file m s)) :
    Goes p root file [m] x s fun _ _ => True :=
  .single (h.mono (fun _ _ h => ⟨h, trivial⟩) fun _ _ h => h)

theorem selector_goes (here : Stands p root file w a s) {span : Span} {type : Option TypeRef}
    {x : Expr} {sel : Ident} {base : Recorded} (hb : Knows p root w x base s.store) :
    Goes p root file [.name a sel, .expr a ⟨span, type, .selector x sel⟩]
      (ident w sel >>= fun _ => selectorAccess w x base sel >>= fun access =>
        addExpr w span type .selector (.selector base.id sel.name) access) s
      (Knows p root w ⟨span, type, .selector x sel⟩) := by
  have first : Goes p root file [.name a sel] (ident w sel) s fun _ _ => True :=
    .alone (name_ends here sel)
  refine first.bind fun _ s₁ later _ => ?_
  have here₁ := here.later later
  have hb₁ := hb.of_le later.inserts.le
  have access := selectorAccess_ends (e := ⟨span, type, .selector x sel⟩) here₁ rfl hb₁
  refine .single ((access.mono (fun _ _ h => h) fun _ _ h => h.elim).bind ?_)
  rintro access s₂ ⟨supplied, hs, hf⟩
  have here₂ := here₁.later (supplied.mono fun _ => .inl)
  rw [← hs] at hf hb₁
  have hid := hb₁.id
  rw [here.file] at hid
  refine expr_ends (e := ⟨span, type, .selector x sel⟩) here₂ supplied rfl .nil (fun _ => ?_) hf
  exact Option.bind_eq_some_iff.mpr ⟨base.id, hid, rfl⟩

/-- The pass records its nodes one after the other. -/
def trailing (p : Package) (root : Path) (file : FileId) : Logic p root where
  At := Stands p root file
  Later := LeadsTo Adds
  Tells := Knows p root
  Comes marks x s post := Goes p root file marks x s post
  later_trans := LeadsTo.trans
  later_le h := h.inserts.le
  at_package h := h.package
  at_later := Stands.later
  at_enter := Stands.enter
  tells_id h := h.id
  tells_later h later := h.of_le later.inserts.le
  pure _ hp _ := Analyze.ends_pure ⟨.nil, hp⟩
  bind := Goes.bind
  look h hs := Analyze.ends_get (h hs)
  nameRow here i := .alone (name_ends here i)
  literalRow here l := .alone (literal_ends here l)
  signatureRow here span type := .alone (signature_ends here span type)
  blockRow here span :=
    .alone (addStmt_ends (m := .block _ span) here (.refl here.ready) rfl .nil rfl)
  stmtRow {w a s st kind note detail} here hn hd := by
    rw [here.file] at hd
    refine .alone (addStmt_ends (m := .stmt a st) here (.refl here.ready) ?_ ?_ hd)
    · simp only [Mark.item, hn]
    · simp only [Mark.lookups, hn, List.Forall₂.nil]
  switchRow here hg hid := .alone (typeSwitch_ends here hg hid)
  plainRow here he ha := .single (plain_ends here he ha)
  extendRow here hb he ha := .single (extend_ends here hb he ha)
  operandRow {w a s span type} here name object :=
    .single (operand_ends (e := ⟨span, type, .ident name object⟩) here rfl)
  selectorRow here hb := selector_goes here hb
  assertRow here hb := .single (typeAssert_ends here hb)
  callRow here hf hi := .single (call_ends here hf hi)

/-- Where the pass over a file ends: its nodes are recorded in order, or it stops at one of them, or
the file has no row. -/
theorem run_ends (hs : s.Ready) (hr : s.corpusRoot = root) (f : SourceFile) :
    (run p f).Ends s
      (fun _ s' => ∃ file s₁, LeadsTo Supply s s₁ ∧ s₁.store.IsFile file f.path ∧
        Trail p root file (f.marks p) s₁ s')
      fun failure s' => (LeadsTo Supply s s' ∧ s.Halts failure) ∨
        ∃ file s₁, LeadsTo Supply s s₁ ∧ s₁.store.IsFile file f.path ∧
          StopsWithin p root file (f.marks p) s₁ failure s' := by
  unfold run Scope.ofFile
  simp only [bind_assoc, pure_bind]
  refine ((Analyze.fileId_ends hs f.path).mono (fun _ _ h => h) ?_).bind ?_
  · rintro failure s' ⟨later, halts⟩
    exact .inl ⟨later.mono fun _ => .inl, halts⟩
  rintro file s₁ ⟨later, hf⟩
  have supplied : LeadsTo Supply s s₁ := later.mono fun _ => .inl
  have here : Stands p root file
      { package := p, path := f.path, file := file, enclosing := ⟨none, none⟩ } (.top f.path) s₁ :=
    ⟨later.ready, later.root.trans hr, rfl, rfl, hf, rfl, rfl⟩
  refine ((trailing p root file).file _ f s₁ here later.ready).mono ?_ ?_
  · rintro _ s' ⟨trail, -⟩
    exact ⟨file, s₁, supplied, hf, trail⟩
  · intro failure s' stops
    exact .inr ⟨file, s₁, supplied, hf, stops⟩

end
end Depth
end AccessDepth
