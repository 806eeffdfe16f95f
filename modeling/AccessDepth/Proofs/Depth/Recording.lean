import AccessDepth.Proofs.Depth.Registered
import AccessDepth.Proofs.NodeRows
import AccessDepth.Proofs.Progress

/-!
# AccessDepth.Proofs.Depth.Recording

The depth pass records the nodes of its file, one after the other.

* `Settles` — an access that was found for a node, before it is stored.
* `addStmt_registers`, `addExpr_registers` — a node is recorded.
* `registering` — the pass, with what it knows of the operands that it has recorded.
* `run_registers` — where the pass over a file ends. Nothing stops it in an unhindered session.
-/

namespace AccessDepth

open Plan (Around ExprNote StmtNote AccessNote Item Write)

namespace Depth

open Session (LeadsTo)

/-! ## Accesses that were found -/

structure Carries (r : AccessRow) (c : Chain) : Prop where
  uncertainty : r.uncertainty = c.uncertainty
  base : r.baseVariable = if 0 < c.uncertainty then none else some (c.baseVariable.getD .unknown)

/-- An access that was found for a node: it goes through the access that its operand has in a store, or
from the variable that was found for its root. -/
structure Settles (s : Store) (file : FileId) (v : Option VariableId) (n : AccessNote)
    (a : FoundAccess) : Prop where
  fits : n.Fits s file (a.chain.access a.kind a.inner)
  root : n.inner = none → a.chain.baseVariable = v
  through : ∀ operand, n.inner = some operand → ∃ r, s.accessAt? file operand = some r ∧
    a.inner = some r.expr ∧
    (n.uncertainty ≤ 0 → r.baseVariable = some (a.chain.baseVariable.getD .unknown))

section

variable {s t : Store} {file : FileId} {span : Span} {v : Option VariableId} {n : AccessNote}
  {a : FoundAccess}

theorem mem_of_accessAt? {r : AccessRow} (h : s.accessAt? file span = some r) : r ∈ s.accesses := by
  obtain ⟨id, -, hr⟩ := Option.bind_eq_some_iff.mp h
  exact List.mem_of_mem_filter (List.mem_of_head? hr)

theorem has_refs_of_fits {b : NewAccess} (h : n.Fits s file b) (hn : Store.initial ≤ s) :
    ∀ ref ∈ b.refs, s.has ref = true ∨
      ∃ operand, n.inner = some operand ∧ ∃ i, s.exprAt? file operand = some i ∧
        ref = ⟨.accesses, i.value⟩ := by
  intro ref href
  obtain href | href := List.mem_append.mp href
  · obtain ⟨i, hi, rfl⟩ := Option.map_eq_some_iff.mp (Option.mem_toList.mp href)
    obtain ⟨operand, ho, found⟩ := h.inner_some hi
    exact .inr ⟨operand, ho, i, found, rfl⟩
  · refine .inl (NewAccess.has_storedBase hn (fun v hv => ?_) ref href)
    obtain ⟨site, -, r, hr, rfl, -⟩ := h.base v hv
    exact Store.has_iff.mpr ⟨r, hr, rfl⟩

theorem expr_of_accessAt? {id : ExprId} {r : AccessRow} (hid : s.exprAt? file span = some id)
    (h : s.accessAt? file span = some r) : r.expr = id := by
  rw [Store.accessAt?, hid, Option.bind_some] at h
  simpa using List.of_mem_filter (List.mem_of_head? h)

theorem Settles.has_refs (h : Settles s file v n a) (hn : Store.initial ≤ s) :
    ∀ ref ∈ (a.chain.access a.kind a.inner).refs, s.has ref = true := by
  intro ref href
  obtain there | ⟨operand, ho, i, hi, rfl⟩ := has_refs_of_fits h.fits hn ref href
  · exact there
  · obtain ⟨r, hr, -⟩ := h.through operand ho
    obtain rfl := expr_of_accessAt? hi hr
    exact Store.has_iff.mpr ⟨r, mem_of_accessAt? hr, rfl⟩

/-- An access is stored as it was found. -/
theorem Settles.lands (h : Settles s file v n a) (id : ExprId) :
    n.Lands s file v ((a.chain.access a.kind a.inner).row id) := by
  have uncertainty : a.chain.uncertainty = n.uncertainty := h.fits.uncertainty
  constructor
  case kind => exact h.fits.kind
  case depth => exact h.fits.depth
  case uncertainty => exact h.fits.uncertainty
  case baseName => exact h.fits.baseName
  case root =>
    intro hi
    have inner := h.fits.inner
    rw [hi] at inner
    have none : a.inner = none := (Option.some.inj inner).symm
    simp [NewAccess.row, NewAccess.storedBase, Chain.access, none, h.root hi, uncertainty]
  case through =>
    intro operand ho
    obtain ⟨r, hr, inner, base⟩ := h.through operand ho
    refine ⟨r, hr, by simp [NewAccess.row, Chain.access, inner], ?_⟩
    simp only [NewAccess.row, NewAccess.storedBase, Chain.access, uncertainty]
    split
    · rfl
    · exact (base (by omega)).symm

theorem Settles.later {s s' : Session} (h : Settles s.store file v n a) (hl : LeadsTo Supply s s') :
    Settles s'.store file v n a where
  fits := h.fits.of_le hl.inserts.le
  root := h.root
  through operand ho := by
    rw [accessAt?_of_quiet (quiet_of_supply hl)]
    exact h.through operand ho

theorem lands_before_supply {s s' : Session} {r : AccessRow} (h : n.Lands s'.store file v r)
    (hl : LeadsTo Supply s s') : n.Lands s.store file v r :=
  { h with
    through := fun operand ho => by
      rw [← accessAt?_of_quiet (quiet_of_supply hl)]
      exact h.through operand ho }

theorem carries_row (a : FoundAccess) (id : ExprId) :
    Carries ((a.chain.access a.kind a.inner).row id) a.chain := ⟨rfl, rfl⟩

end

/-! ## Recording a node -/

section

variable {p : Package} {root : Path} {file : FileId} {w : Scope} {a : Around} {m : Mark}
  {s₀ s s' : Session} {v : Option VariableId}

/-- What a node refers to by name has been looked up. -/
structure Sought (p : Package) (root : Path) (m : Mark) (s₀ : Session) (v : Option VariableId)
    (s : Session) : Prop where
  supplied : LeadsTo Supply s₀ s
  found : ∃ s₁, m.seek p root s₀ = .ok v s₁ ∧ s₁.SameSites s

theorem Sought.later (h : Sought p root m s₀ v s) (later : LeadsTo Supply s s')
    (same : s.SameSites s') : Sought p root m s₀ v s' := by
  obtain ⟨supplied, s₁, seek, found⟩ := h
  exact ⟨supplied.trans later, s₁, seek, found.trans same⟩

theorem type_ends (here : Stands p root file w a s) (ref : Option TypeRef) :
    (w.typeId ref).Ends s
      (fun id s' => LeadsTo Supply s s' ∧ s.SameSites s' ∧
        ∀ ref ∈ (id.map Reference.to).toList, s'.store.has ref = true)
      fun _ _ => ¬ s.Unhindered := by
  refine ((Scope.typeId_ends here.ready w ref).and
    (Analyze.keepsSites_type w.package.types ref s here.ready)).mono ?_ fun _ _ h => h.1
  exact fun _ _ h => ⟨h.1.1.mono fun _ => .inr, h.2.2, h.1.2⟩

theorem commit_records {α : Type} {t : Transaction α} {x : Write} (hs : s.Ready)
    (ht : x.record = discard t) (tidy : x.Tidy) (hf : x.table ≠ .files) (hv : x.table ≠ .variables)
    (refs : s.Unhindered → ∀ ref ∈ x.refs, s.store.has ref = true) :
    (Analyze.commit t).Ends s
      (fun y s' => t s.store = .ok (y, s'.store) ∧ x.record s.store = .ok ((), s'.store) ∧
        LeadsTo (·.owner = x.table) s s' ∧ s.SameSites s')
      fun _ _ => ¬ s.Unhindered := by
  refine (Analyze.commit_records hs ht tidy refs).mono ?_ fun _ _ h => h
  rintro y s' ⟨h, recorded, later, committed⟩
  refine ⟨h, recorded, later, .of_inserts later.root (by rw [committed]; rfl) later.inserts ?_ ?_⟩
  · exact fun he => hf he.symm
  · exact fun he => hv he.symm

/-- A statement is recorded. -/
theorem addStmt_registers (here : Stands p root file w m.around s) (hm : m.exprSpan? = none)
    (supplied : LeadsTo Supply s₀ s) (same : s₀.SameSites s) {kind : StmtKind} {span : Span}
    {note : StmtNote} {detail : StmtDetail} {types : List (Option TypeId)}
    (ht : Plan.TypesStored s.store types) (hd : note.detail? s.store file types = some detail)
    (tidy : (Item.stmt kind span note).Tidy) :
    (addStmt w kind span detail).Ends s (fun _ s' => Registers p root file m s₀ s')
      fun _ _ => ¬ s₀.Unhindered := by
  have seek : m.seek p root s₀ = .ok none s₀ := by
    cases m with
    | block | stmt => rfl
    | expr | name | literal | signature => cases hm
  have item : (Item.stmt kind span note).write? s.store file types m.around = some (.stmt
      { kind := kind, file := w.file, span := span, enclosing := w.enclosing } detail) := by
    rw [here.enclosing, here.file]
    exact Option.bind_eq_some_iff.mpr ⟨detail, hd, rfl⟩
  have refs (free : s.Unhindered) :
      ∀ ref ∈ (Write.stmt { kind := kind, file := w.file, span := span, enclosing := w.enclosing }
        detail).refs, s.store.has ref = true := by
    intro ref href
    obtain there | ⟨_, through, -⟩ :=
      Item.has_of_write? free.isNew (here.file ▸ here.isFile.has) ht item ref href
    · exact there
    · cases through
  unfold addStmt
  refine ((commit_records here.ready rfl (Item.tidy_of_write? tidy item) (by simp [Write.table])
    (by simp [Write.table]) refs).mono (fun _ _ h => h) ?_).bind ?_
  · exact fun _ _ hindered free => hindered (supplied.unhindered free)
  · rintro y s' ⟨-, -, later, same'⟩
    have quiet : LeadsTo Quiet s₀ s' := (quiet_of_supply supplied).trans
      (later.mono fun u (hu : u.owner = .statements) => by simp [Quiet, hu])
    refine Analyze.ends_pure ⟨⟨?_, fun id _ => accessesOf_of_quiet quiet id⟩,
      fun span _ => exprAt?_of_quiet quiet file span, none, s₀, seek, same.trans same', ?_⟩
    · exact (supplied.mono fun _ => .inl).trans (later.mono fun _ hu => .inr (.inl hu))
    · intro span hs
      rw [hm] at hs
      cases hs

/-- An expression that is added at a free place is found there with its access. -/
theorem accessAt?_added {s s' : Store} (hs : s.Sound) {x : NewExpr} {access : Option NewAccess}
    (free : s.exprAt? x.file x.span = none)
    (he : s'.expressions = s.expressions ++ [x.row ⟨s.nextNumber .expressions⟩])
    (ha : s'.accesses = s.accesses ++ access.toList.map (·.row ⟨s.nextNumber .expressions⟩)) :
    s'.exprAt? x.file x.span = some ⟨s.nextNumber .expressions⟩ ∧
      s'.accessAt? x.file x.span = access.map (·.row ⟨s.nextNumber .expressions⟩) ∧
      ∀ span, span ≠ x.span → s'.exprAt? x.file span = s.exprAt? x.file span := by
  have found : s'.exprAt? x.file x.span = some ⟨s.nextNumber .expressions⟩ := by
    unfold Store.exprAt? at free ⊢
    rw [he]
    exact Store.find?_map_concat free (by simp [NewExpr.row])
  refine ⟨found, ?_, fun span apart => ?_⟩
  · rw [Store.accessAt?, found, Option.bind_some, Plan.accessesOf_nextNumber hs ha]
    cases access <;> rfl
  · have other : ¬ (x.row ⟨s.nextNumber .expressions⟩).span = span := fun same => apart same.symm
    simp [Store.exprAt?, he, List.find?_append, other]

theorem Mark.uncertainty_nonneg {n : AccessNote} (h : m.access? p root = some n) :
    0 ≤ n.uncertainty := by
  cases m with
  | expr a e => exact (e.rooted_of_access h).uncertainty_nonneg
  | name | literal | signature | block | stmt => cases h

theorem exists_of_rel_some {α β : Type} {r : α → β → Prop} {x : Option α} {b : β}
    (h : Option.Rel r x (some b)) : ∃ a, x = some a ∧ r a b := by
  cases h with
  | some h => exact ⟨_, rfl, h⟩

theorem nonneg_of_settles {t : Store} {access : Option FoundAccess}
    (ha : Option.Rel (Settles t file v) (m.access? p root) access) :
    ∀ y, (access.map fun a => a.chain.access a.kind a.inner) = some y → 0 ≤ y.uncertainty := by
  intro y hy
  obtain ⟨a, rfl, rfl⟩ := Option.map_eq_some_iff.mp hy
  obtain ⟨n, hn, settles⟩ := exists_of_rel_some ha
  rw [settles.fits.uncertainty]
  exact m.uncertainty_nonneg hn

/-- What an expression refers to is there once its access was found. -/
theorem has_refs_of_settles (here : Stands p root file w m.around s) (hn : Store.initial ≤ s.store)
    (kind : ExprKind) (span : Span) {type : Option TypeId} {detail : ExprDetail}
    {access : Option FoundAccess}
    (ht : ∀ ref ∈ (type.map Reference.to).toList, s.store.has ref = true)
    (hd : ∀ ref ∈ detail.refs, s.store.has ref = true)
    (ha : Option.Rel (Settles s.store file v) (m.access? p root) access) :
    ∀ ref ∈ (Write.expr
      { kind := kind, type := type, file := w.file, span := span, enclosing := w.enclosing } detail
        (access.map fun a => a.chain.access a.kind a.inner)).refs, s.store.has ref = true := by
  simp only [Write.refs, List.forall_mem_cons, List.forall_mem_append]
  refine ⟨here.file ▸ here.isFile.has, ⟨⟨ht, ?_⟩, hd⟩, ?_⟩
  · rw [here.enclosing]
    exact m.around.has_enclosing
  · cases access with
    | none =>
      intro ref href
      cases href
    | some a =>
      obtain ⟨n, -, settles⟩ := exists_of_rel_some ha
      simpa using settles.has_refs hn

/-- An expression is recorded at its place, which was free. -/
theorem addExpr_registers (here : Stands p root file w m.around s) (sought : Sought p root m s₀ v s)
    {span : Span} {type : Option TypeRef} {kind : ExprKind} {detail : ExprDetail}
    {access : Option FoundAccess} (hm : m.exprSpan? = some span)
    (room : s₀.store.exprAt? file span = none) (hd : ∀ ref ∈ detail.refs, s.store.has ref = true)
    (ha : Option.Rel (Settles s.store file v) (m.access? p root) access) :
    (addExpr w span type kind detail access).Ends s
      (fun r s' => Registers p root file m s₀ s' ∧ s.store ≤ s'.store ∧
        s'.store.exprAt? file span = some r.id ∧ r.chain = access.map (·.chain) ∧
        Option.Rel Carries (s'.store.accessAt? file span) r.chain)
      fun _ _ => ¬ s₀.Unhindered := by
  obtain rfl := here.file
  unfold addExpr
  refine ((type_ends here type).mono (fun _ _ h => h) ?_).bind ?_
  · exact fun _ _ hindered free => hindered (sought.supplied.unhindered free)
  rintro id s₁ ⟨later, same, hid⟩
  have sought₁ := sought.later later same
  have here₁ := here.later (later.mono fun _ => .inl)
  have settled := rel_of_le (fun _ _ h => Settles.later h later) ha
  have refs (free : s₁.Unhindered) := has_refs_of_settles here₁ free.isNew kind span hid
    (fun ref href => Store.has_of_le later.inserts.le (hd ref href)) settled
  refine ((commit_records here₁.ready rfl (Write.tidy_expr (nonneg_of_settles settled))
    (by simp [Write.table]) (by simp [Write.table]) refs).mono (fun _ _ h => h) ?_).bind ?_
  · exact fun _ _ hindered free => hindered (sought₁.supplied.unhindered free)
  rintro ⟨r, isNew⟩ s₂ ⟨hr, recorded, later', same'⟩
  have found := exprAt?_of_recordExpr hr
  have quiet := quiet_of_supply sought₁.supplied
  have room₁ := (exprAt?_of_quiet quiet w.file span).trans room
  obtain unchanged | ⟨expressions, accesses⟩ := Plan.recordExpr_eq recorded
  · rw [unchanged] at found
    cases found.symm.trans room₁
  obtain ⟨stored, row, others⟩ := accessAt?_added here₁.ready.sound room₁ expressions accesses
  obtain rfl := Option.some.inj (found.symm.trans stored)
  refine Analyze.ends_pure ⟨⟨⟨?_, ?_⟩, ?_, ?_⟩, ?_, stored, rfl, ?_⟩
  · exact (sought₁.supplied.mono fun _ => .inl).trans (later'.mono fun _ hu => .inr (.inr hu))
  · intro i hi
    have there := Store.has_of_le sought₁.supplied.inserts.le hi
    exact (Plan.accessesOf_of_has accesses there).trans (accessesOf_of_quiet quiet i)
  · intro other apart
    rw [hm] at apart
    exact (others other fun he => apart (congrArg some he.symm)).trans
      (exprAt?_of_quiet quiet w.file other)
  · obtain ⟨s', seek, sites⟩ := sought₁.found
    refine ⟨v, s', seek, sites.trans same', fun other he => ?_⟩
    obtain rfl := Option.some.inj (hm.symm.trans he)
    refine ⟨Option.isSome_of_eq_some stored, ?_⟩
    rw [row]
    generalize m.access? p root = note at settled ⊢
    cases settled with
    | none => exact .none
    | some settles => exact .some (lands_before_supply (settles.lands _) sought₁.supplied)
  · exact le_trans later.inserts.le later'.inserts.le
  · rw [row]
    cases access with
    | none => exact .none
    | some a => exact .some (carries_row a _)

/-! ## Expressions -/

/-- What the pass knows of an expression that it has recorded: its row, and the row of its access. -/
structure Retains (p : Package) (root : Path) (w : Scope) (e : Expr) (r : Recorded) (t : Store) :
    Prop where
  known : Knows p root w e r t
  row : Option.Rel Carries (t.accessAt? w.file e.span) r.chain

theorem Retains.later {e : Expr} {r : Recorded} (h : Retains p root w e r s.store)
    (later : GoesOn s s') : Retains p root w e r s'.store where
  known := h.known.of_le later.leadsTo.inserts.le
  row := by
    rw [later.accessAt? h.known.id]
    exact h.row

theorem Retains.has {e : Expr} {r : Recorded} {t : Store} (h : Retains p root w e r t) :
    t.has (.to r.id) = true := Store.has_exprAt? h.known.id

theorem Sought.idle (hs : s.Ready) (hn : m.nameSite? p root = none)
    (hr : (m.access? p root).bind (·.rootSite?) = none) : Sought p root m s none s := by
  refine ⟨.refl hs, s, ?_, .refl s⟩
  rw [Mark.seek, hn, hr]
  rfl

theorem Sought.of_looked {x : Option (FileId × Position)} (later : LeadsTo Supply s₀ s')
    (hx : Analyze.located (m.nameSite? p root) s₀ = .ok x s)
    (hv : Analyze.variableOf? ((m.access? p root).bind (·.rootSite?)) s = .ok v s') :
    Sought p root m s₀ v s' :=
  ⟨later, s', (bind_of_ok hx).trans hv, .refl s'⟩

/-- An operand is recorded. -/
theorem expr_registers (here : Stands p root file w a s) {e : Expr}
    (sought : Sought p root (.expr a e) s₀ v s) (room : s₀.store.exprAt? file e.span = none)
    {type : Option TypeRef} {detail : ExprDetail} {access : Option FoundAccess}
    (hd : ∀ ref ∈ detail.refs, s.store.has ref = true)
    (ha : Option.Rel (Settles s.store file v) (e.access? p root a.path) access) :
    (addExpr w e.span type e.node.kind detail access).Ends s
      (fun r s' => Registers p root file (.expr a e) s₀ s' ∧ Retains p root w e r s'.store)
      fun _ _ => ¬ s₀.Unhindered := by
  refine (addExpr_registers (m := .expr a e) here sought rfl room hd ha).mono ?_ fun _ _ h => h
  rintro r s' ⟨registers, le, hid, hc, carries⟩
  rw [← here.file] at hid carries
  refine ⟨registers, ⟨hid, ?_⟩, carries⟩
  rw [here.path, hc]
  cases access with
  | none =>
    generalize e.access? p root a.path = note at ha ⊢
    cases ha
    exact .none
  | some found =>
    obtain ⟨n, hn, settles⟩ := exists_of_rel_some ha
    have fits := settles.fits.of_le le
    rw [hn]
    exact .some ⟨fits.depth, fits.uncertainty, fits.baseName, fits.base⟩

/-- The access that is one step from that of an operand. -/
theorem stepFrom_settles {t : Store} {x : Expr} {base : Recorded} (hf : w.file = file)
    (hb : Retains p root w x base t) (step : Step) :
    Option.Rel (Settles t file none) ((x.access? p root w.path).bind (·.after x.span step))
      (base.chain.bind fun chain => stepFrom base chain step) := by
  obtain rfl := hf
  have hid := hb.known.id
  have chain := hb.known.chain
  have row := hb.row
  cases hc : base.chain with
  | none =>
    rw [hc] at chain
    generalize x.access? p root w.path = note at chain ⊢
    cases chain
    exact .none
  | some c =>
    rw [hc] at chain row
    obtain ⟨n, hn, chains⟩ := exists_of_rel_some chain
    obtain ⟨r, hr, carries⟩ := exists_of_rel_some row
    simp only [hn, Option.bind_some, stepFrom, AccessNote.after_eq, Chain.extend, Option.map_map]
    cases he : step.effect with
    | none => exact .none
    | some e =>
      refine .some ⟨⟨rfl, ?_, chains.baseName, chains.base, ?_, ?_⟩, ?_, ?_⟩
      · exact Option.map_eq_some_iff.mpr ⟨_, hid, rfl⟩
      · simp [Chain.access, AccessNote.via, chains.depth]
      · simp [Chain.access, AccessNote.via, chains.uncertainty]
      · intro inner
        cases inner
      · intro operand ho
        cases ho
        refine ⟨r, hr, congrArg some (expr_of_accessAt? hid hr).symm, fun certain => ?_⟩
        have added : n.uncertainty + e.uncertainty ≤ 0 := certain
        have nonneg := AccessKind.uncertaintyStep_nonneg e.kind
        have before : ¬ 0 < c.uncertainty := by
          rw [chains.uncertainty]
          have := (Step.effect_steps he).2
          omega
        exact carries.base.trans (if_neg before)

theorem call_settles {t : Store} : Settles t file none .call ⟨.functionCall, none, .call⟩ where
  fits := ⟨rfl, rfl, rfl, (fun _ hid => by cases hid), rfl, rfl⟩
  root _ := rfl
  through operand ho := by cases ho

/-! ## Names -/

/-- An object is located where it is declared. -/
theorem definition_located (here : Stands p root file w a s) (object : Option ObjectRef) :
    (definition w object).Ends s
      (fun x s' => LeadsTo Supply s s' ∧
        Analyze.located (p.declaration? root object) s = .ok x s' ∧
        ∀ ref ∈ (x.map fun d => Reference.to d.1).toList, s'.store.has ref = true)
      fun _ _ => ¬ s.Unhindered := by
  have same := definition_eq (s := s) here.package object
  rw [here.root] at same
  have ends : (Analyze.located (p.declaration? root object)).Ends s
      (fun x s' => LeadsTo Supply s s' ∧
        ∀ ref ∈ (x.map fun d => Reference.to d.1).toList, s'.store.has ref = true)
      fun _ _ => ¬ s.Unhindered := by
    cases p.declaration? root object with
    | none => exact Analyze.ends_pure ⟨.refl here.ready, by simp⟩
    | some site =>
      refine (Analyze.definition_ends here.ready site).mono ?_ fun _ _ h => h.2.hindered here.ready
      rintro x s' ⟨later, hx⟩
      refine ⟨later.mono fun _ => .inl, fun ref href => ?_⟩
      obtain ⟨d, rfl, rfl⟩ := Option.map_eq_some_iff.mp (Option.mem_toList.mp href)
      split at hx
      · cases hx
      · obtain ⟨target, hd, isFile⟩ := hx
        cases hd
        exact isFile.has
  have equal : (definition w object).Ends s = (Analyze.located (p.declaration? root object)).Ends s := by
    funext post fail
    simp only [Analyze.Ends, same]
  rw [equal]
  exact ends.told.mono (fun _ _ h => ⟨h.1.1, h.2, h.1.2⟩) fun _ _ h => h

structure Finding (file : FileId) (s : Session) (note : Option AccessNote) (v : Option VariableId)
    (x : Option FoundAccess) (s' : Session) : Prop where
  looked : Analyze.variableOf? (note.bind (·.rootSite?)) s = .ok v s'
  supplied : LeadsTo Supply s s'
  store : s'.store = s.store
  settles : Option.Rel (Settles s.store file v) note x

theorem finding_none (here : Stands p root file w a s) : Finding file s none none none s :=
  ⟨rfl, .refl here.ready, rfl, .none⟩

/-- The variable of an access from a name is looked up where the name is declared. -/
theorem variableOf_finding (here : Stands p root file w a s) {object : Option ObjectRef} {o : Object}
    (ho : p.objects.get? object = some o) {n : AccessNote} (hi : n.inner = none)
    (hb : n.base = p.declaration? root object) {kind : AccessKind}
    {chain : Option VariableId → Chain} (hk : n.kind = kind)
    (hc : ∀ v, (chain v).depth = n.depth ∧ (chain v).uncertainty = n.uncertainty ∧
      (chain v).baseName = n.baseName ∧ (chain v).baseVariable = v) :
    (variableOf o >>= fun v => pure (some ⟨kind, none, chain v⟩)).Ends s
      (fun x s' => ∃ v, Finding file s (some n) v x s') fun _ _ => False := by
  refine (variableOf_ends here ho hb).told.bind ?_
  rintro v s' ⟨⟨later, hs, finds⟩, looked⟩
  obtain ⟨depth, uncertainty, name, base⟩ := hc v
  have site : n.rootSite? = p.declaration? root object := by rw [AccessNote.rootSite?, hi, hb]
  have same := variableOf_eq (s := s) ho
  rw [here.root, ← site] at same
  refine Analyze.ends_pure ⟨v, same.symm.trans looked, later, hs, .some ⟨?_, fun _ => base, ?_⟩⟩
  · exact ⟨hk.symm, by rw [hi]; rfl, name, by rw [← base] at finds; exact finds, depth, uncertainty⟩
  · intro operand through
    rw [hi] at through
    cases through

theorem identAccess_finding (here : Stands p root file w a s) (span : Span) (type : Option TypeRef)
    (name : String) (object : Option ObjectRef) :
    (identAccess w ⟨span, type⟩ name object).Ends s
      (fun x s' => ∃ v, Finding file s
        (Expr.access? p root a.path ⟨span, type, .ident name object⟩) v x s') fun _ _ => False := by
  unfold identAccess Scope.object? Expr.access? ExprNode.access?
  rw [here.package]
  cases ho : p.objects.get? object with
  | none => exact Analyze.ends_pure ⟨none, finding_none here⟩
  | some o =>
    simp only [Object.isVariable, here.path]
    split
    · exact variableOf_finding here ho (n := .root name (p.declaration? root object)) rfl rfl rfl
        fun v => ⟨rfl, rfl, rfl, rfl⟩
    · exact Analyze.ends_pure ⟨none, finding_none here⟩

theorem packageAccess_finding (here : Stands p root file w a s) {x : Expr} {sel : Ident} {o : Object}
    (ho : p.objects.get? sel.object = some o) :
    (packageAccess w x o sel.name).Ends s
      (fun y s' => ∃ v, Finding file s (p.memberAccess? root x sel) v y s') fun _ _ => False := by
  unfold packageAccess Package.memberAccess?
  rw [ho, namesPackage_eq here.package]
  simp only
  split
  · exact variableOf_finding here ho (n := .member sel.name (p.declaration? root sel.object)) rfl rfl
      rfl fun v => ⟨rfl, rfl, rfl, rfl⟩
  · exact Analyze.ends_pure ⟨none, finding_none here⟩

theorem rootSite?_of_after (a : Option AccessNote) (operand : Span) (step : Step) :
    (a.bind (·.after operand step)).bind (·.rootSite?) = none := by
  cases hn : a.bind (·.after operand step) with
  | none => rfl
  | some n =>
    obtain ⟨b, -, hb⟩ := Option.bind_eq_some_iff.mp hn
    rw [Option.bind_some, AccessNote.rootSite?, (AccessNote.of_after hb).1]

theorem selectorAccess_finding (here : Stands p root file w a s) (span : Span)
    (type : Option TypeRef) (sel : Ident) {x : Expr} {base : Recorded}
    (hb : Retains p root w x base s.store) :
    (selectorAccess w x base sel).Ends s
      (fun y s' => ∃ v, Finding file s
        (Expr.access? p root a.path ⟨span, type, .selector x sel⟩) v y s') fun _ _ => False := by
  have chain := hb.known.chain
  have step := stepFrom_settles here.file hb (.select (p.types.shape x.type))
  have idle := rootSite?_of_after (x.access? p root w.path) x.span (.select (p.types.shape x.type))
  rw [here.path] at chain step idle
  unfold selectorAccess Scope.object? Expr.access? ExprNode.access?
  rw [here.package]
  cases ho : p.objects.get? sel.object with
  | none => exact Analyze.ends_pure ⟨none, finding_none here⟩
  | some o =>
    simp only
    split
    · cases hx : x.access? p root a.path with
      | none =>
        rw [hx] at chain
        generalize base.chain = found at chain
        cases chain
        exact packageAccess_finding here ho
      | some n =>
        rw [hx] at chain step idle
        generalize base.chain = found at chain step
        cases chain
        simp only [Option.bind_some] at step idle ⊢
        split
        · exact packageAccess_finding here ho
        · refine Analyze.ends_pure ⟨none, ?_, .refl here.ready, rfl, step⟩
          rw [idle]
          rfl
    · exact Analyze.ends_pure ⟨none, finding_none here⟩

end

/-! ## The pass -/

section

variable {p : Package} {root : Path} {file : FileId} {w : Scope} {a : Around} {m : Mark}
  {marks marks' : List Mark} {s s' : Session} {α β : Type}

/-- From a session that is ready and has room for some nodes, a computation records them. Nothing stops
it where the store takes any number of transactions. -/
def Records (p : Package) (root : Path) (file : FileId) (marks : List Mark) (x : Analyze α) (s : Session)
    (post : α → Store → Prop) : Prop :=
  s.Ready → Room file marks s.store →
    x.Ends s (fun y s' => Registered p root file marks s s' ∧ post y s'.store)
      fun _ _ => ¬ s.Unhindered

theorem Records.bind {x : Analyze α} {f : α → Analyze β} {mid : α → Store → Prop}
    {post : β → Store → Prop} (h : Records p root file marks x s mid)
    (hf : ∀ y s', GoesOn s s' → mid y s'.store → Records p root file marks' (f y) s' post) :
    Records p root file (marks ++ marks') (x >>= f) s post := by
  intro hs room
  refine (h hs room.left).bind ?_
  rintro y s₁ ⟨registered, hm⟩
  have later := registered.goesOn hs
  refine (hf y s₁ later hm later.leadsTo.ready (room.rest registered)).mono ?_ ?_
  · rintro z s₂ ⟨rest, hp⟩
    exact ⟨registered.append rest, hp⟩
  · exact fun _ _ hindered free => hindered (later.leadsTo.unhindered free)

theorem Records.single {x : Analyze α} {post : α → Store → Prop}
    (h : (∀ span, m.exprSpan? = some span → s.store.exprAt? file span = none) →
      x.Ends s (fun y s' => Registers p root file m s s' ∧ post y s'.store)
        fun _ _ => ¬ s.Unhindered) : Records p root file [m] x s post := by
  intro _ room
  have free : ∀ span, m.exprSpan? = some span → s.store.exprAt? file span = none := by
    intro span hs
    exact room.free span (by simp [hs])
  exact (h free).mono (fun _ _ h => ⟨.single h.1, h.2⟩) fun _ _ h => h

theorem part_registers {v : Option VariableId} {s₀ : Session} (here : Stands p root file w m.around s)
    (sought : Sought p root m s₀ v s) {span : Span} {type : Option TypeRef} {kind : ExprKind}
    {detail : ExprDetail} (hm : m.exprSpan? = some span) (ha : m.access? p root = none)
    (room : ∀ span, m.exprSpan? = some span → s₀.store.exprAt? file span = none)
    (hd : ∀ ref ∈ detail.refs, s.store.has ref = true) :
    (addExpr w span type kind detail none).Ends s
      (fun _ s' => Registers p root file m s₀ s' ∧ True) fun _ _ => ¬ s₀.Unhindered := by
  have access : Option.Rel (Settles s.store file v) (m.access? p root) none := ha ▸ .none
  exact (addExpr_registers here sought hm (room span hm) hd access).mono
    (fun _ _ h => ⟨h.1, trivial⟩) fun _ _ h => h

theorem name_records (here : Stands p root file w a s) (i : Ident) :
    Records p root file [.name a i] (ident w i) s fun _ _ => True := by
  refine .single fun room => ?_
  unfold ident
  refine (definition_located here i.object).bind ?_
  rintro x s₁ ⟨supplied, located, has⟩
  have here₁ := here.later (supplied.mono fun _ => .inl)
  have sought : Sought p root (.name a i) s none s₁ := .of_looked supplied located rfl
  have refs : ∀ ref ∈ (ExprDetail.ident i.name x).refs, s₁.store.has ref = true := has
  refine (part_registers (m := .name a i) here₁ sought rfl rfl room refs).bind ?_
  exact fun _ _ done => Analyze.ends_pure done

theorem literal_records (here : Stands p root file w a s) (l : BasicLit) :
    Records p root file [.literal a l] (basicLit w l) s fun _ _ => True := by
  refine .single fun room => ?_
  have sought : Sought p root (.literal a l) s none s := .idle here.ready rfl rfl
  refine (part_registers (m := .literal a l) here sought rfl rfl room (by simp [ExprDetail.refs])).bind ?_
  exact fun _ _ done => Analyze.ends_pure done

theorem signature_records (here : Stands p root file w a s) (span : Span) (type : Option TypeRef) :
    Records p root file [.signature a span type] (addExpr w span type .funcType .none none) s
      fun _ _ => True := by
  refine .single fun room => ?_
  have sought : Sought p root (.signature a span type) s none s := .idle here.ready rfl rfl
  exact part_registers (m := .signature a span type) here sought rfl rfl room
    (by simp [ExprDetail.refs])

theorem stmt_records (here : Stands p root file w a s) {st : Stmt} {kind : StmtKind} {note : StmtNote}
    {detail : StmtDetail} (hn : stmtNote st = (kind, note, []))
    (hd : note.detail? s.store w.file [] = some detail) :
    Records p root file [.stmt a st] (addStmt w kind st.span detail) s fun _ _ => True := by
  refine .single fun _ => ?_
  have tidy := stmtNote_tidy st st.span
  rw [hn] at tidy
  rw [here.file] at hd
  have stored : Plan.TypesStored s.store [] := fun id hid => by cases hid
  exact (addStmt_registers (m := .stmt a st) here rfl (.refl here.ready) (.refl s) stored hd tidy).mono
    (fun _ _ h => ⟨h, trivial⟩) fun _ _ h => h

theorem block_records (here : Stands p root file w a s) (span : Span) :
    Records p root file [.block a span] (addStmt w .block span .none) s fun _ _ => True := by
  refine .single fun _ => ?_
  have stored : Plan.TypesStored s.store [] := fun id hid => by cases hid
  have detail : StmtNote.none.detail? s.store file [] = some .none := rfl
  exact (addStmt_registers (m := .block a span) here rfl (.refl here.ready) (.refl s) stored detail
    trivial).mono (fun _ _ h => ⟨h, trivial⟩) fun _ _ h => h

theorem caseTypes_keepsSites (w : Scope) (clause : Int) (es : List (Int × Expr)) :
    (caseTypes w clause es).KeepsSites := by
  induction es with
  | nil => exact Analyze.keepsSites_pure []
  | cons e es ih =>
    exact (Analyze.keepsSites_type _ _).bind fun _ => ih.bind fun _ => Analyze.keepsSites_pure _

theorem switchCases_keepsSites (w : Scope) (clauses : List (Int × Stmt)) :
    (switchCases w clauses).KeepsSites := by
  induction clauses with
  | nil => exact Analyze.keepsSites_pure []
  | cons x clauses ih =>
    obtain ⟨clause, st⟩ := x
    cases st with
    | caseClause =>
      exact (caseTypes_keepsSites w clause _).bind fun _ => ih.bind fun _ => Analyze.keepsSites_pure _
    | _ => exact ih

theorem stored_of_fits {t : Store} {table : TypeTable} {refs : List (Option TypeRef)}
    {types : List (Option TypeId)} (h : List.Forall₂ (t.FitsType table) refs types) :
    Plan.TypesStored t types := by
  induction h with
  | nil =>
    intro id hid
    cases hid
  | cons first _ ih =>
    intro id hid
    obtain rfl | hid := List.mem_cons.mp hid
    · exact first.has
    · exact ih id hid

/-- The types of the cases of a type switch are looked up, and then it is recorded. -/
theorem switch_records (here : Stands p root file w a s) {span : Span} {init : Option Stmt}
    {assign : Stmt} {body : Block} {bound : Option String} {assertion : Span} {id : ExprId}
    (hg : guardOf assign = some (bound, assertion))
    (hid : s.store.exprAt? w.file assertion = some id) :
    Records p root file [.stmt a (.typeSwitch span init assign body)]
      (switchCases w (numbered 0 body.stmts) >>= fun cases =>
        addStmt w .typeSwitch span (.typeSwitch bound id cases)) s fun _ _ => True := by
  refine .single fun _ => ?_
  refine (((switchCases_ends here (numbered 0 body.stmts)).and
    (switchCases_keepsSites w (numbered 0 body.stmts) s here.ready)).mono (fun _ _ h => h) ?_).bind ?_
  · rintro f s' ⟨⟨s₁, supplied, halts, -⟩, -⟩ free
    exact halts.hindered supplied.ready (supplied.unhindered free)
  rintro cases s₁ ⟨⟨supplied, ids, hids, rfl⟩, -, same⟩
  have here₁ := here.later (supplied.mono fun _ => .inl)
  rw [here.file] at hid
  have note : stmtNote (.typeSwitch span init assign body) =
      (.typeSwitch, .typeSwitch bound assertion ((switchCasesOf (numbered 0 body.stmts)).map (·.1)),
        (switchCasesOf (numbered 0 body.stmts)).map (·.2)) := by
    simp only [stmtNote, hg]
  have tidy := stmtNote_tidy (.typeSwitch span init assign body) span
  rw [note] at tidy
  have detail : (StmtNote.typeSwitch bound assertion
      ((switchCasesOf (numbered 0 body.stmts)).map (·.1))).detail? s₁.store file ids = some _ :=
    Option.bind_eq_some_iff.mpr ⟨id, Store.exprAt?_of_le supplied.inserts.le hid, rfl⟩
  exact (addStmt_registers (m := .stmt a (.typeSwitch span init assign body)) here₁ rfl supplied same
    (stored_of_fits hids) detail tidy).mono (fun _ _ h => ⟨h, trivial⟩) fun _ _ h => h

theorem bare_records (here : Stands p root file w a s) {e : Expr} (he : IsPlain e)
    {access : Option FoundAccess} (hr : (e.access? p root a.path).bind (·.rootSite?) = none)
    (ha : Option.Rel (Settles s.store file none) (e.access? p root a.path) access) :
    Records p root file [.expr a e] (addExpr w e.span e.type e.node.kind .none access) s
      (Retains p root w e) := by
  refine .single fun room => ?_
  have unnamed : (Mark.expr a e).nameSite? p root = none := by
    obtain ⟨span, type, node⟩ := e
    cases node with
    | ident => exact he.elim
    | _ => rfl
  exact expr_registers here (.idle here.ready unnamed hr) (room e.span rfl)
    (by simp [ExprDetail.refs]) ha

theorem plain_records (here : Stands p root file w a s) {e : Expr} (he : IsPlain e)
    (ha : e.access? p root a.path = none) :
    Records p root file [.expr a e] (plain w ⟨e.span, e.type⟩ e.node.kind) s
      (Retains p root w e) := by
  refine bare_records here he ?_ ?_
  · rw [ha]
    rfl
  · rw [ha]
    exact .none

theorem extend_records (here : Stands p root file w a s) {e x : Expr} {base : Recorded} {step : Step}
    (hb : Retains p root w x base s.store) (he : IsPlain e)
    (ha : e.access? p root a.path = (x.access? p root a.path).bind (·.after x.span step)) :
    Records p root file [.expr a e] (extend w ⟨e.span, e.type⟩ e.node.kind base step) s
      (Retains p root w e) := by
  refine bare_records here he ?_ ?_
  · rw [ha]
    exact rootSite?_of_after ..
  · rw [ha, ← here.path]
    exact stepFrom_settles here.file hb step

theorem operand_records (here : Stands p root file w a s) {span : Span} {type : Option TypeRef}
    (name : String) (object : Option ObjectRef) :
    Records p root file [.expr a ⟨span, type, .ident name object⟩]
      (nameOperand w ⟨span, type⟩ name object) s
      (Retains p root w ⟨span, type, .ident name object⟩) := by
  refine .single fun room => ?_
  unfold nameOperand
  refine (definition_located here object).bind ?_
  rintro x s₁ ⟨supplied, located, has⟩
  have here₁ := here.later (supplied.mono fun _ => .inl)
  refine ((identAccess_finding here₁ span type name object).mono
    (fun _ _ h => h) fun _ _ h => h.elim).bind ?_
  rintro access s₂ ⟨v, looked, later, same, settles⟩
  have here₂ := here₁.later (later.mono fun _ => .inl)
  have sought : Sought p root (.expr a ⟨span, type, .ident name object⟩) s v s₂ :=
    .of_looked (supplied.trans later) located looked
  rw [← same] at settles has
  exact expr_registers (e := ⟨span, type, .ident name object⟩) here₂ sought (room span rfl) has settles

theorem selector_records (here : Stands p root file w a s) {span : Span} {type : Option TypeRef}
    {x : Expr} {sel : Ident} {base : Recorded} (hb : Retains p root w x base s.store) :
    Records p root file [.name a sel, .expr a ⟨span, type, .selector x sel⟩]
      (ident w sel >>= fun _ => selectorAccess w x base sel >>= fun access =>
        addExpr w span type .selector (.selector base.id sel.name) access) s
      (Retains p root w ⟨span, type, .selector x sel⟩) := by
  refine (name_records here sel).bind fun _ s₁ later _ => .single fun room => ?_
  have here₁ := here.later later.leadsTo
  have hb₁ := hb.later later
  refine ((selectorAccess_finding here₁ span type sel hb₁).mono
    (fun _ _ h => h) fun _ _ h => h.elim).bind ?_
  rintro access s₂ ⟨v, looked, supplied, same, settles⟩
  have here₂ := here₁.later (supplied.mono fun _ => .inl)
  have sought : Sought p root (.expr a ⟨span, type, .selector x sel⟩) s₁ v s₂ :=
    .of_looked supplied rfl looked
  have there := hb₁.has
  rw [← same] at settles there
  refine expr_registers (e := ⟨span, type, .selector x sel⟩) here₂ sought (room span rfl) ?_ settles
  simpa [ExprDetail.refs] using there

theorem assert_records (here : Stands p root file w a s) {span : Span} {type : Option TypeRef}
    {x : Expr} {target : Option Expr} {base : Recorded} (hb : Retains p root w x base s.store) :
    Records p root file [.expr a ⟨span, type, .typeAssert x target⟩]
      (w.typeId (target.bind (·.type)) >>= fun targetId =>
        addExpr w span type .typeAssert (.typeAssert base.id targetId) none) s
      (Retains p root w ⟨span, type, .typeAssert x target⟩) := by
  refine .single fun room => ?_
  refine (type_ends here _).bind ?_
  rintro id s₁ ⟨later, same, hid⟩
  have here₁ := here.later (later.mono fun _ => .inl)
  have sought : Sought p root (.expr a ⟨span, type, .typeAssert x target⟩) s none s₁ :=
    (Sought.idle here.ready rfl rfl).later later same
  refine expr_registers (e := ⟨span, type, .typeAssert x target⟩) here₁ sought (room span rfl) ?_ .none
  intro ref href
  obtain rfl | href := List.mem_cons.mp href
  · exact Store.has_of_le later.inserts.le hb.has
  · exact hid ref href

theorem call_records (here : Stands p root file w a s) {span : Span} {type : Option TypeRef}
    {fn : Expr} {args : List Expr} {spread : Bool} {function : Recorded} {ids : List ExprId}
    (hf : Retains p root w fn function s.store)
    (hi : s.store.exprsAt? w.file (args.map (·.span)) = some ids) :
    Records p root file [.expr a ⟨span, type, .call fn args spread⟩]
      (addExpr w span type .call (.call function.id ids) (some ⟨.functionCall, none, .call⟩)) s
      (Retains p root w ⟨span, type, .call fn args spread⟩) := by
  refine .single fun room => ?_
  refine expr_registers (e := ⟨span, type, .call fn args spread⟩) here (.idle here.ready rfl rfl)
    (room span rfl) ?_ (.some call_settles)
  simp only [ExprDetail.refs, List.map_cons, List.forall_mem_cons, List.forall_mem_map]
  exact ⟨hf.has, Store.has_exprsAt? hi⟩

/-- The pass records its nodes one after the other. -/
def registering (p : Package) (root : Path) (file : FileId) : Logic p root where
  At := Stands p root file
  Later := GoesOn
  Tells := Retains p root
  Comes marks x s post := Records p root file marks x s post
  later_trans := GoesOn.trans
  later_le h := h.leadsTo.inserts.le
  at_package h := h.package
  at_later here later := here.later later.leadsTo
  at_enter := Stands.enter
  tells_id h := h.known.id
  tells_later := Retains.later
  pure _ hp _ _ := Analyze.ends_pure ⟨.nil, hp⟩
  bind := Records.bind
  look h hs room := Analyze.ends_get (h hs room)
  nameRow := name_records
  literalRow := literal_records
  signatureRow := signature_records
  blockRow := block_records
  stmtRow here hn hd := stmt_records here hn hd
  switchRow here hg hid := switch_records here hg hid
  plainRow here he ha := plain_records here he ha
  extendRow here hb he ha := extend_records here hb he ha
  operandRow here name object := operand_records here name object
  selectorRow here hb := selector_records here hb
  assertRow here hb := assert_records here hb
  callRow here hf hi := call_records here hf hi

/-- Where the pass over a file ends of which no expression is stored: its nodes are recorded in order.
Nothing stops it where the store takes any number of transactions. -/
theorem run_registers {f : SourceFile} (hs : s.Ready)
    (empty : ∀ e ∈ s.store.expressions, ¬ s.store.IsFile e.file f.path)
    (distinct : ((f.marks p).filterMap Mark.exprSpan?).Nodup) :
    (run p f).Ends s
      (fun _ s' => ∃ file s₁, Analyze.fileId f.path s = .ok file s₁ ∧ s₁.Ready ∧
        s₁.store.IsFile file f.path ∧ (∀ span, s₁.store.exprAt? file span = none) ∧
        Registered p s.corpusRoot file (f.marks p) s₁ s')
      fun _ _ => ¬ s.Unhindered := by
  unfold run Scope.ofFile
  simp only [bind_assoc, pure_bind]
  refine ((Analyze.fileId_ends hs f.path).told.mono (fun _ _ h => h) ?_).bind ?_
  · exact fun _ _ h => h.2.hindered hs
  rintro file s₁ ⟨⟨later, isFile⟩, asked⟩
  have supplied : LeadsTo Supply s s₁ := later.mono fun _ => .inl
  have vacant : ∀ span, s₁.store.exprAt? file span = none := by
    intro span
    rw [exprAt?_of_quiet (quiet_of_supply supplied)]
    cases hid : s.store.exprAt? file span with
    | none => rfl
    | some id =>
      obtain ⟨r, hr, -⟩ := Option.map_eq_some_iff.mp hid
      have mem := List.mem_of_find?_eq_some hr
      have place := List.find?_some hr
      simp only [Bool.and_eq_true, beq_iff_eq] at place
      obtain ⟨rfl, -⟩ := place
      have there := hs.sound.references .expressions r mem (.to r.file) (by
        rw [Row.references_eq]
        simp [Row.refs])
      exact absurd (isFile.of_has later.ready.sound later.inserts.le there) (empty r mem)
  have here : Stands p s.corpusRoot file
      { package := p, path := f.path, file := file, enclosing := ⟨none, none⟩ } (.top f.path) s₁ :=
    ⟨later.ready, later.root, rfl, rfl, isFile, rfl, rfl⟩
  have room : Room file (f.marks p) s₁.store := ⟨distinct, fun span _ => vacant span⟩
  refine ((registering p s.corpusRoot file).file _ f s₁ here later.ready room).mono ?_ ?_
  · rintro _ s' ⟨registered, -⟩
    exact ⟨file, s₁, asked, later.ready, isFile, vacant, registered⟩
  · exact fun _ _ hindered free => hindered (supplied.unhindered free)

end

end Depth
end AccessDepth
