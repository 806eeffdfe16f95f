import AccessDepth.Proofs.Depth.Logic

/-!
# AccessDepth.Proofs.Plan.DepthFollows

The depth pass does what its code does.

* `Depth.At` — a scope stands where the code says that it stands.
* `Depth.Later` — what is told stays true while the pass goes on: it adds no functions and no
  variables.
* `follows_name`, `follows_operand`, `follows_selector`, … — recording one node is running its code.
* `Depth.following` — so it is for the whole pass.
* `Depth.run_follows` — the pass over a file.
-/

namespace AccessDepth

open Plan (Around ExprNote StmtNote AccessNote Item Op Machine Setting Follows Write mention)

namespace Depth

/-- A store to which the depth pass has come from another one. -/
structure Later (s t : Store) : Prop where
  le : s ≤ t
  functions : t.functions = s.functions
  vars : t.vars = s.vars

namespace Later

theorem trans {s t u : Store} (h : Later s t) (h' : Later t u) : Later s u :=
  ⟨le_trans h.le h'.le, h'.functions.trans h.functions, h'.vars.trans h.vars⟩

end Later

/-- A setting in which the depth pass can be looked at: nothing but functions and variables is kept,
and the declarations of the package are on known paths. -/
structure Fits (σ : Setting) (p : Package) : Prop where
  keeps : ∀ {o : Op}, o.table ≠ .functions → o.table ≠ .variables → σ.Keeps o
  same : ∀ {s t}, σ.kept s → σ.kept t → t.functions = s.functions ∧ t.vars = s.vars
  known : ∀ {r o site}, p.objects.get? r = some o → o.decl = some site → σ.known site.file

namespace Fits

variable {σ : Setting} {p : Package} (hσ : Fits σ p)
include hσ

theorem file (path : Path) : σ.Keeps (.file path) := hσ.keeps (by simp [Op.table]) (by simp [Op.table])

theorem type (table : TypeTable) (ref : Option TypeRef) : σ.Keeps (.type table ref) :=
  hσ.keeps (by simp [Op.table]) (by simp [Op.table])

theorem expr (a : Around) (kind : ExprKind) (span : Span) (detail : ExprNote)
    (access : Option AccessNote) : σ.Keeps (.record a (.expr kind span detail access)) :=
  hσ.keeps (by simp [Op.table, Item.table]) (by simp [Op.table, Item.table])

theorem stmt (a : Around) (kind : StmtKind) (span : Span) (detail : StmtNote) :
    σ.Keeps (.record a (.stmt kind span detail)) :=
  hσ.keeps (by simp [Op.table, Item.table]) (by simp [Op.table, Item.table])

end Fits

/-- A scope of a package stands at a place. -/
structure At (σ : Setting) (p : Package) (w : Scope) (a : Around) (s : Session) : Prop where
  good : σ.Good s
  package : w.package = p
  path : w.path = a.path
  file : s.store.fileNamed? a.path.text = some w.file
  enclosing : w.enclosing = a.enclosing s.store w.file

theorem functionAt?_of_later {s t : Store} (h : Later s t) (file : FileId) (position : Position) :
    t.functionAt? file position = s.functionAt? file position := by
  simp only [Store.functionAt?, h.functions]

theorem enclosing_of_later {s t : Store} (h : Later s t) (a : Around) (file : FileId) :
    a.enclosing t file = a.enclosing s file := by
  have same : t.functionAt? file = s.functionAt? file := funext (functionAt?_of_later h file)
  simp only [Around.enclosing, Around.recorded, same]

section

variable {σ : Setting} {p : Package} {w : Scope} {a : Around} {s s' : Session}
  {types types' : List (Option TypeId)}

theorem later_of_run (hσ : Fits σ p) (hg : σ.Good s) (hg' : σ.Good s') {code : List Op}
    (h : Plan.run code ⟨s.store, types⟩ = .ok ⟨s'.store, types'⟩) : Later s.store s'.store :=
  ⟨Plan.run_le h, (hσ.same hg.kept hg'.kept).1, (hσ.same hg.kept hg'.kept).2⟩

theorem kept_of_follows {α : Type} (hσ : Fits σ p) (hg : σ.Good s) {code : List Op}
    {x : Analyze α} {post : α → Machine → Prop} (h : Follows σ s types code x post) :
    Follows σ s types code x fun y m => post y m ∧ Later s.store m.store := by
  unfold Follows at h ⊢
  cases hx : x s with
  | error f s' =>
    rw [hx] at h
    exact h
  | ok y s' =>
    rw [hx] at h
    obtain ⟨hg', hw, types', hr, hy⟩ := h
    exact ⟨hg', hw, types', hr, hy, later_of_run hσ hg hg' hr⟩

theorem At.later (h : At σ p w a s) (hg : σ.Good s') (hl : Later s.store s'.store) :
    At σ p w a s' where
  good := hg
  package := h.package
  path := h.path
  file := Store.fileNamed?_of_le hl.le h.file
  enclosing := by rw [h.enclosing, enclosing_of_later hl]

/-- A computation runs the code of some nodes. -/
def Comes {α : Type} (σ : Setting) (p : Package) (marks : List Mark) (x : Analyze α) (s : Session)
    (post : α → Store → Prop) : Prop :=
  σ.Good s → Follows σ s [] (codeOf p σ.root marks) x fun y m => m.types = [] ∧ post y m.store

variable {α β : Type}

theorem Comes.bind (hσ : Fits σ p) {marks marks' : List Mark} {x : Analyze α} {f : α → Analyze β}
    {mid : α → Store → Prop} {post : β → Store → Prop} (h : Comes σ p marks x s mid)
    (hf : ∀ y s', σ.Good s' ∧ Later s.store s'.store → mid y s'.store →
      Comes σ p marks' (f y) s' post) :
    Comes σ p (marks ++ marks') (x >>= f) s post := by
  intro hg
  rw [codeOf_append]
  refine (h hg).bind fun y s' types' hg' hr hm => ?_
  obtain ⟨rfl, hm⟩ := hm
  exact hf y s' ⟨hg', later_of_run hσ hg hg' hr⟩ hm hg'

end

/-! ## Expressions -/

section

variable {σ : Setting} {p : Package} {w : Scope} {a : Around} {s : Session}

def Rooted (t : Store) (note : Option AccessNote) : Prop :=
  ∀ n ∈ note, ∀ site ∈ n.base, (t.fileNamed? site.file.text).isSome = true

theorem Rooted.later {s t : Store} {note : Option AccessNote} (h : Rooted s note)
    (hl : Later s t) : Rooted t note := by
  intro n hn site hs
  obtain ⟨f, hf⟩ := Option.isSome_iff_exists.mp (h n hn site hs)
  exact Option.isSome_of_eq_some (Store.fileNamed?_of_le hl.le hf)

theorem variableOf?_of_later {s t : Store} (hl : Later s t) {site : SourceSite}
    (h : (s.fileNamed? site.file.text).isSome = true) :
    t.variableOf? site = s.variableOf? site := by
  obtain ⟨f, hf⟩ := Option.isSome_iff_exists.mp h
  simp only [Store.variableOf?, hf, Store.fileNamed?_of_le hl.le hf, Option.bind_some,
    Store.variableAt?, hl.vars]

theorem baseVariable_of_later {s t : Store} (hl : Later s t) {n : AccessNote}
    (h : Rooted s (some n)) : n.base.bind t.variableOf? = n.base.bind s.variableOf? := by
  cases hb : n.base with
  | none => rfl
  | some site => exact variableOf?_of_later hl (h n rfl site hb)

theorem chain_of_later {s t : Store} (hl : Later s t) {n : AccessNote} (h : Rooted s (some n)) :
    n.chain t = n.chain s := by
  simp only [AccessNote.chain, baseVariable_of_later hl h]

/-- What the pass knows of an expression that it has recorded. -/
structure Tells (w : Scope) (root : Path) (e : Expr) (r : Recorded) (t : Store) : Prop where
  id : t.exprAt? w.file e.span = some r.id
  chain : r.chain = (e.access? w.package root w.path).map (·.chain t)
  rooted : Rooted t (e.access? w.package root w.path)

theorem Tells.later {root : Path} {e : Expr} {r : Recorded} {s t : Store}
    (h : Tells w root e r s) (hl : Later s t) : Tells w root e r t where
  id := Store.exprAt?_of_le hl.le h.id
  chain := by
    rw [h.chain]
    cases hn : e.access? w.package root w.path with
    | none => rfl
    | some n =>
      have hr := h.rooted
      rw [hn] at hr
      simp only [Option.map_some, chain_of_later hl hr]
  rooted := h.rooted.later hl

/-- An access that was found is the one that is noted. -/
structure Found (w : Scope) (s : Store) (note : Option AccessNote) (access : Option FoundAccess) :
    Prop where
  access : note.mapM (·.access? s w.file) =
    some (access.map fun a => a.chain.access a.kind a.inner)
  rooted : Rooted s note

theorem found_none (w : Scope) (s : Store) : Found w s none none :=
  ⟨rfl, fun n hn => by cases hn⟩

theorem Found.later {note : Option AccessNote} {access : Option FoundAccess} {s t : Store}
    (h : Found w s note access) (hl : Later s t) : Found w t note access where
  access := by
    cases note with
    | none => exact h.access
    | some n =>
      obtain ⟨b, hb, he⟩ := Option.map_eq_some_iff.mp h.access
      refine Option.map_eq_some_iff.mpr ⟨b, ?_, he⟩
      have same : ({ b with baseVariable := n.base.bind t.variableOf? } : NewAccess) = b := by
        obtain ⟨inner, -, hb⟩ := Option.bind_eq_some_iff.mp hb
        cases hb
        simp only [baseVariable_of_later hl h.rooted]
      exact (AccessNote.access?_of_le hl.le hb).trans (congrArg some same)
  rooted := h.rooted.later hl

theorem Found.chain {note : Option AccessNote} {access : Option FoundAccess} {s : Store}
    (h : Found w s note access) : access.map (·.chain) = note.map (·.chain s) := by
  have ha := h.access
  cases note with
  | none =>
    cases access with
    | none => rfl
    | some a => cases ha
  | some n =>
    obtain ⟨b, hb, he⟩ := Option.map_eq_some_iff.mp ha
    obtain ⟨inner, -, hb⟩ := Option.bind_eq_some_iff.mp hb
    cases hb
    cases access with
    | none => cases he
    | some a =>
      simp only [Option.map_some, Option.some.injEq, Chain.access, NewAccess.mk.injEq] at he
      obtain ⟨-, -, hname, hvariable, hdepth, huncertainty⟩ := he
      simp only [Option.map_some, AccessNote.chain, hname, hvariable, hdepth, huncertainty]

/-- The type of an expression is looked up, then it is recorded. -/
theorem follows_addExpr (hσ : Fits σ p) (here : At σ p w a s) {types : List (Option TypeId)}
    {span : Span} {type : Option TypeRef} {kind : ExprKind} {detail : ExprDetail} {note : ExprNote}
    {access : Option FoundAccess} {an : Option AccessNote}
    (hd : ∀ id, note.detail? s.store w.file (types ++ [id]) = some detail)
    (ha : Found w s.store an access) :
    Follows σ s types (exprCode p a span kind type note an) (addExpr w span type kind detail access)
      fun r m => m.types = [] ∧ Later s.store m.store ∧ m.store.exprAt? w.file span = some r.id ∧
        r.chain = an.map (·.chain m.store) ∧ Rooted m.store an := by
  unfold addExpr exprCode Scope.typeId
  rw [here.package]
  refine (Plan.follows_typeId here.good (hσ.type p.types type)).bind
    fun id s₁ types₁ hg₁ hr₁ ht₁ => ?_
  obtain rfl : types₁ = types ++ [id] := ht₁
  have later₁ := later_of_run hσ here.good hg₁ hr₁
  have here₁ := here.later hg₁ later₁
  have ha₁ := ha.later later₁
  have hw : (Item.expr kind span note an).write? s₁.store w.file (types ++ [id]) a =
      some (.expr
        { kind := kind, type := id, file := w.file, span := span, enclosing := w.enclosing } detail
        (access.map fun a => a.chain.access a.kind a.inner)) := by
    rw [here₁.enclosing]
    refine Option.bind_eq_some_iff.mpr ⟨detail, ExprNote.detail?_of_le later₁.le (hd id), ?_⟩
    refine Option.bind_eq_some_iff.mpr ⟨_, ha₁.access, ?_⟩
    simp
  have recorded := Plan.follows_commit hg₁ here₁.file hw rfl (hσ.expr a kind span note an)
  refine (kept_of_follows hσ hg₁ recorded).map fun r m hm => ?_
  obtain ⟨⟨hrec, ht⟩, later₂⟩ := hm
  have ha₂ := ha₁.later later₂
  exact ⟨ht, later₁.trans later₂, exprAt?_of_recordExpr hrec, ha₂.chain, ha₂.rooted⟩

/-- An expression whose access goes one step from that of its operand. -/
theorem found_stepFrom {root : Path} {x : Expr} {base : Recorded}
    (hb : Tells w root x base s.store) (step : Step) :
    Found w s.store ((x.access? w.package root w.path).bind (·.after x.span step))
      (base.chain.bind fun chain => stepFrom base chain step) := by
  rw [hb.chain]
  cases hx : x.access? w.package root w.path with
  | none => exact found_none w s.store
  | some n =>
    have rooted := hb.rooted
    rw [hx] at rooted
    simp only [Option.map_some, Option.bind_some, stepFrom, AccessNote.extend_chain s.store n x.span]
    cases hn : n.after x.span step with
    | none => exact found_none w s.store
    | some m =>
      obtain ⟨hi, hbase⟩ := AccessNote.of_after hn
      refine ⟨?_, fun m' hm site hs => ?_⟩
      · refine Option.map_eq_some_iff.mpr ⟨_, Option.bind_eq_some_iff.mpr ⟨some base.id, ?_, rfl⟩, rfl⟩
        rw [hi]
        exact Option.map_eq_some_iff.mpr ⟨_, hb.id, rfl⟩
      · cases hm
        exact rooted n rfl site (hbase ▸ hs)

/-! ## Names -/

def Mentions (p : Package) (root : Path) (object : Option ObjectRef) (t : Store) : Prop :=
  ∀ site ∈ p.declaration? root object, (t.fileNamed? site.file.text).isSome = true

theorem Mentions.later {root : Path} {object : Option ObjectRef} {s t : Store}
    (h : Mentions p root object s) (hl : Later s t) : Mentions p root object t := by
  intro site hs
  obtain ⟨f, hf⟩ := Option.isSome_iff_exists.mp (h site hs)
  exact Option.isSome_of_eq_some (Store.fileNamed?_of_le hl.le hf)

theorem mentions_of_located {root : Path} {object : Option ObjectRef} {t : Store}
    {found : Option (FileId × Position)}
    (h : Plan.Located t (p.declaration? root object) found) : Mentions p root object t := by
  intro site hs
  rw [hs] at h
  obtain ⟨f, -, hf⟩ := h
  exact Option.isSome_of_eq_some hf

theorem detail?_ident {t : Store} {file : FileId} {types : List (Option TypeId)} {name : String}
    {site : Option SourceSite} {found : Option (FileId × Position)}
    (h : Plan.Located t site found) :
    (ExprNote.ident name site).detail? t file types = some (.ident name found) := by
  cases site with
  | none =>
    cases h
    rfl
  | some site =>
    obtain ⟨f, rfl, hf⟩ := h
    exact Option.bind_eq_some_iff.mpr ⟨f, hf, rfl⟩

theorem follows_definition (hσ : Fits σ p) (here : At σ p w a s) {types : List (Option TypeId)}
    (object : Option ObjectRef) :
    Follows σ s types (mention (p.declaration? σ.root object)) (definition w object)
      fun x m => Plan.Located m.store (p.declaration? σ.root object) x ∧ m.types = types := by
  unfold definition Scope.object? Package.declaration?
  rw [here.package]
  cases ho : p.objects.get? object with
  | none => exact Plan.follows_pure here.good ⟨rfl, rfl⟩
  | some o =>
    simp only [Option.bind_some]
    cases hd : o.decl with
    | none => exact Plan.follows_pure here.good ⟨rfl, rfl⟩
    | some site => exact Plan.follows_definition here.good (hσ.known ho hd) (hσ.file site.file)

theorem follows_variableOf (hσ : Fits σ p) (here : At σ p w a s) {types : List (Option TypeId)}
    {object : Option ObjectRef} {o : Object} (ho : p.objects.get? object = some o) :
    Follows σ s types [] (variableOf o) fun x m =>
      m = ⟨s.store, types⟩ ∧ x = (p.declaration? σ.root object).bind s.store.variableOf? := by
  unfold variableOf Package.declaration?
  rw [ho]
  simp only [Option.bind_some]
  cases hd : o.decl with
  | none => exact Plan.follows_pure here.good ⟨rfl, rfl⟩
  | some site => exact Plan.follows_variableAt here.good (hσ.known ho hd)

/-- The file of what a name denotes is mentioned from then on. -/
theorem follows_name (hσ : Fits σ p) (here : At σ p w a s) (i : Ident) :
    Follows σ s [] (nameCode p σ.root a i) (ident w i)
      fun _ m => m.types = [] ∧ Mentions p σ.root i.object m.store := by
  unfold ident
  refine (follows_definition hσ here i.object).bind fun x s₁ types₁ hg₁ hr₁ h₁ => ?_
  obtain ⟨hx, rfl⟩ : _ ∧ types₁ = [] := h₁
  have here₁ := here.later hg₁ (later_of_run hσ here.good hg₁ hr₁)
  rw [Package.typeOfName_eq here.package]
  refine (follows_addExpr hσ here₁ (fun id => detail?_ident hx) (found_none w _)).map
    fun r m hm => ⟨hm.1, (mentions_of_located hx).later hm.2.1⟩

/-! ## Expressions by their nodes -/

/-- An expression is recorded after the nodes below it. -/
theorem follows_exprMark (hσ : Fits σ p) (here : At σ p w a s) {types : List (Option TypeId)}
    {e : Expr} {type : Option TypeRef} {detail : ExprDetail} {note : ExprNote}
    {access : Option FoundAccess}
    (hd : ∀ id, note.detail? s.store w.file (types ++ [id]) = some detail)
    (ha : Found w s.store (e.access? p σ.root a.path) access) :
    Follows σ s types (exprCode p a e.span e.node.kind type note (e.access? p σ.root a.path))
      (addExpr w e.span type e.node.kind detail access)
      fun r m => m.types = [] ∧ Tells w σ.root e r m.store := by
  refine (follows_addExpr hσ here hd ha).mono fun r m hm => ?_
  obtain ⟨ht, -, hid, hc, hr⟩ := hm
  refine ⟨ht, hid, ?_, ?_⟩
  · rw [here.package, here.path]
    exact hc
  · rw [here.package, here.path]
    exact hr

theorem IsPlain.code {e : Expr} (h : IsPlain e) (p : Package) (root : Path) (a : Around) :
    (Mark.expr a e).code p root =
      exprCode p a e.span e.node.kind e.type .none (e.access? p root a.path) := by
  obtain ⟨span, type, node⟩ := e
  cases node with
  | ident | selector | typeAssert | call => exact h.elim
  | _ => rfl

theorem follows_extend (hσ : Fits σ p) (here : At σ p w a s) {e x : Expr} {base : Recorded}
    {step : Step} (hb : Tells w σ.root x base s.store) (he : IsPlain e)
    (ha : e.access? p σ.root a.path =
      (x.access? p σ.root a.path).bind (·.after x.span step)) :
    Follows σ s [] (codeOf p σ.root [.expr a e]) (extend w ⟨e.span, e.type⟩ e.node.kind base step)
      fun r m => m.types = [] ∧ Tells w σ.root e r m.store := by
  have found := found_stepFrom hb step
  rw [here.package, here.path, ← ha] at found
  rw [codeOf_singleton, he.code]
  exact follows_exprMark hσ here (fun _ => rfl) found

theorem follows_plain (hσ : Fits σ p) (here : At σ p w a s) {e : Expr} (he : IsPlain e)
    (ha : e.access? p σ.root a.path = none) :
    Follows σ s [] (codeOf p σ.root [.expr a e]) (plain w ⟨e.span, e.type⟩ e.node.kind)
      fun r m => m.types = [] ∧ Tells w σ.root e r m.store := by
  rw [codeOf_singleton, he.code]
  refine follows_exprMark hσ here (fun _ => rfl) ?_
  rw [ha]
  exact found_none w s.store

theorem found_root {t : Store} {object : Option ObjectRef} {n : AccessNote} {kind : AccessKind}
    {chain : Chain} (hm : Mentions p σ.root object t)
    (hn : n.base = p.declaration? σ.root object) (hi : n.inner = none) (hk : n.kind = kind)
    (hc : n.chain t = chain) : Found w t (some n) (some ⟨kind, none, chain⟩) := by
  refine ⟨?_, fun n' h' site hs => ?_⟩
  · subst hk hc
    refine Option.map_eq_some_iff.mpr ⟨_, Option.bind_eq_some_iff.mpr ⟨none, ?_, rfl⟩, rfl⟩
    rw [hi]
    rfl
  · cases h'
    exact hm site (hn ▸ hs)

theorem follows_identAccess (hσ : Fits σ p) (here : At σ p w a s) {e : Expr} {name : String}
    {object : Option ObjectRef} (he : e.node = .ident name object)
    (hm : Mentions p σ.root object s.store) :
    Follows σ s [] [] (identAccess w ⟨e.span, e.type⟩ name object) fun x m =>
      m = ⟨s.store, []⟩ ∧ Found w s.store (e.access? p σ.root a.path) x := by
  obtain ⟨span, type, node⟩ := e
  subst he
  unfold identAccess Scope.object? Expr.access? ExprNode.access?
  rw [here.package]
  cases ho : p.objects.get? object with
  | none => exact Plan.follows_pure here.good ⟨rfl, found_none w _⟩
  | some o =>
    simp only [Object.isVariable, here.path]
    split
    · refine (follows_variableOf hσ here ho).map fun v m hv => ⟨hv.1, ?_⟩
      exact found_root hm rfl rfl rfl (by rw [hv.2]; rfl)
    · exact Plan.follows_pure here.good ⟨rfl, found_none w _⟩

theorem follows_operand (hσ : Fits σ p) (here : At σ p w a s) {e : Expr} {name : String}
    {object : Option ObjectRef} (he : e.node = .ident name object) :
    Follows σ s [] (codeOf p σ.root [.expr a e]) (nameOperand w ⟨e.span, e.type⟩ name object)
      fun r m => m.types = [] ∧ Tells w σ.root e r m.store := by
  have hcode : (Mark.expr a e).code p σ.root =
      mention (p.declaration? σ.root object) ++
        exprCode p a e.span e.node.kind (e.type.or ((p.objects.get? object).bind (·.type)))
          (.ident name (p.declaration? σ.root object)) (e.access? p σ.root a.path) := by
    simp [Mark.code, exprNote, mentioned, he]
  rw [codeOf_singleton, hcode]
  unfold nameOperand
  refine (follows_definition hσ here object).bind fun x s₁ types₁ hg₁ hr₁ h₁ => ?_
  obtain ⟨hx, rfl⟩ : _ ∧ types₁ = [] := h₁
  have here₁ := here.later hg₁ (later_of_run hσ here.good hg₁ hr₁)
  have hm := mentions_of_located hx
  refine (follows_identAccess hσ here₁ he hm).quiet fun y s₂ types₂ hg₂ hr₂ h₂ => ?_
  obtain ⟨hm₂, hf⟩ := h₂
  obtain ⟨hs, rfl⟩ := Machine.mk.inj hm₂
  have here₂ := here₁.later hg₂ (later_of_run hσ here₁.good hg₂ hr₂)
  rw [← hs] at hx hf
  have kind : e.node.kind = .ident := by rw [he]; rfl
  rw [← kind, Scope.object?, here.package]
  exact follows_exprMark hσ here₂ (fun id => detail?_ident hx) hf

theorem follows_packageAccess (hσ : Fits σ p) (here : At σ p w a s) {x : Expr} {sel : Ident}
    {o : Object} (ho : p.objects.get? sel.object = some o)
    (hm : Mentions p σ.root sel.object s.store) :
    Follows σ s [] [] (packageAccess w x o sel.name) fun y m =>
      m = ⟨s.store, []⟩ ∧ Found w s.store (p.memberAccess? σ.root x sel) y := by
  unfold packageAccess Package.memberAccess?
  rw [ho, namesPackage_eq here.package]
  simp only
  split
  · refine (follows_variableOf hσ here ho).map fun v m hv => ⟨hv.1, ?_⟩
    exact found_root hm rfl rfl rfl (by rw [hv.2]; rfl)
  · exact Plan.follows_pure here.good ⟨rfl, found_none w _⟩

theorem follows_selectorAccess (hσ : Fits σ p) (here : At σ p w a s) {e x : Expr} {sel : Ident}
    {base : Recorded} (he : e.node = .selector x sel) (hb : Tells w σ.root x base s.store)
    (hm : Mentions p σ.root sel.object s.store) :
    Follows σ s [] [] (selectorAccess w x base sel) fun y m =>
      m = ⟨s.store, []⟩ ∧ Found w s.store (e.access? p σ.root a.path) y := by
  obtain ⟨span, type, node⟩ := e
  subst he
  have hchain := hb.chain
  have step := found_stepFrom hb (.select (p.types.shape x.type))
  rw [here.package, here.path] at hchain step
  unfold selectorAccess Scope.object? Expr.access? ExprNode.access?
  rw [here.package]
  cases ho : p.objects.get? sel.object with
  | none => exact Plan.follows_pure here.good ⟨rfl, found_none w _⟩
  | some o =>
    simp only
    split
    · cases hx : x.access? p σ.root a.path with
      | none =>
        rw [hx] at hchain
        rw [hchain]
        exact follows_packageAccess hσ here ho hm
      | some n =>
        rw [hx] at hchain step
        rw [hchain] at step ⊢
        simp only [Option.map_some, Option.bind_some] at step ⊢
        split
        · exact follows_packageAccess hσ here ho hm
        · exact Plan.follows_pure here.good ⟨rfl, step⟩
    · exact Plan.follows_pure here.good ⟨rfl, found_none w _⟩

theorem follows_selector (hσ : Fits σ p) (here : At σ p w a s) {span : Span}
    {type : Option TypeRef} {x : Expr} {sel : Ident} {base : Recorded}
    (hb : Tells w σ.root x base s.store) :
    Follows σ s [] (codeOf p σ.root [.name a sel, .expr a ⟨span, type, .selector x sel⟩])
      (ident w sel >>= fun _ => selectorAccess w x base sel >>= fun access =>
        addExpr w span type .selector (.selector base.id sel.name) access)
      fun r m => m.types = [] ∧ Tells w σ.root ⟨span, type, .selector x sel⟩ r m.store := by
  rw [← List.singleton_append, codeOf_append, codeOf_singleton, codeOf_singleton]
  refine (follows_name hσ here sel).bind fun _ s₁ types₁ hg₁ hr₁ h₁ => ?_
  obtain ⟨rfl, hm⟩ : types₁ = [] ∧ _ := h₁
  have l₁ := later_of_run hσ here.good hg₁ hr₁
  have here₁ := here.later hg₁ l₁
  have hb₁ := hb.later l₁
  have access := follows_selectorAccess hσ here₁
    (rfl : (⟨span, type, .selector x sel⟩ : Expr).node = _) hb₁ hm
  refine access.quiet fun y s₂ types₂ hg₂ hr₂ h₂ => ?_
  obtain ⟨hm₂, hy⟩ := h₂
  obtain ⟨hs₂, rfl⟩ := Machine.mk.inj hm₂
  have l₂ := later_of_run hσ here₁.good hg₂ hr₂
  have here₂ := here₁.later hg₂ l₂
  rw [← hs₂] at hy
  refine follows_exprMark hσ here₂ (fun id => ?_) hy
  exact Option.bind_eq_some_iff.mpr ⟨base.id, (hb₁.later l₂).id, rfl⟩

theorem follows_typeAssert (hσ : Fits σ p) (here : At σ p w a s) {span : Span}
    {type : Option TypeRef} {x : Expr} {target : Option Expr} {base : Recorded}
    (hb : Tells w σ.root x base s.store) :
    Follows σ s [] (codeOf p σ.root [.expr a ⟨span, type, .typeAssert x target⟩])
      (w.typeId (target.bind (·.type)) >>= fun targetId =>
        addExpr w span type .typeAssert (.typeAssert base.id targetId) none)
      fun r m => m.types = [] ∧ Tells w σ.root ⟨span, type, .typeAssert x target⟩ r m.store := by
  unfold Scope.typeId
  rw [here.package, codeOf_singleton]
  refine (Plan.follows_typeId here.good (hσ.type p.types (target.bind (·.type)))).bind
    fun targetId s₁ types₁ hg₁ hr₁ ht₁ => ?_
  obtain rfl : types₁ = [targetId] := ht₁
  have l₁ := later_of_run hσ here.good hg₁ hr₁
  refine follows_exprMark hσ (here.later hg₁ l₁) (fun id => ?_) (found_none w _)
  exact Option.bind_eq_some_iff.mpr ⟨base.id, (hb.later l₁).id, rfl⟩

theorem follows_call (hσ : Fits σ p) (here : At σ p w a s) {span : Span} {type : Option TypeRef}
    {fn : Expr} {args : List Expr} {spread : Bool} {function : Recorded} {ids : List ExprId}
    (hf : Tells w σ.root fn function s.store)
    (hi : s.store.exprsAt? w.file (args.map (·.span)) = some ids) :
    Follows σ s [] (codeOf p σ.root [.expr a ⟨span, type, .call fn args spread⟩])
      (addExpr w span type .call (.call function.id ids) (some ⟨.functionCall, none, .call⟩))
      fun r m => m.types = [] ∧ Tells w σ.root ⟨span, type, .call fn args spread⟩ r m.store := by
  rw [codeOf_singleton]
  refine follows_exprMark hσ here (fun id => ?_) ?_
  · refine Option.bind_eq_some_iff.mpr ⟨function.id, hf.id, ?_⟩
    exact Option.bind_eq_some_iff.mpr ⟨ids, hi, rfl⟩
  · exact ⟨rfl, fun n hn site hs => by cases hn; cases hs⟩

/-! ## Statements -/

theorem follows_addStmt (hσ : Fits σ p) (here : At σ p w a s) {types : List (Option TypeId)}
    {kind : StmtKind} {span : Span} {detail : StmtDetail} {note : StmtNote}
    (hd : note.detail? s.store w.file types = some detail) :
    Follows σ s types [.record a (.stmt kind span note)] (addStmt w kind span detail)
      fun _ m => m.types = [] := by
  have hw : (Item.stmt kind span note).write? s.store w.file types a =
      some (.stmt { kind := kind, file := w.file, span := span, enclosing := w.enclosing } detail) := by
    rw [here.enclosing]
    exact Option.bind_eq_some_iff.mpr ⟨detail, hd, rfl⟩
  exact (Plan.follows_commit here.good here.file hw rfl (hσ.stmt ..)).map fun _ _ h => h.2

theorem follows_stmtMark (hσ : Fits σ p) (here : At σ p w a s) {st : Stmt} {kind : StmtKind}
    {detail : StmtDetail} {note : StmtNote} (hn : stmtNote st = (kind, note, []))
    (hd : note.detail? s.store w.file [] = some detail) :
    Follows σ s [] (codeOf p σ.root [.stmt a st]) (addStmt w kind st.span detail)
      fun _ m => m.types = [] := by
  have hcode : codeOf p σ.root [.stmt a st] = [.record a (.stmt kind st.span note)] := by
    simp [codeOf_singleton, Mark.code, hn]
  rw [hcode]
  exact follows_addStmt hσ here hd

def Filled (types : List (Option TypeId)) (drafts : List (SwitchCase × Option TypeRef))
    (cases : List SwitchCase) (m : Machine) : Prop :=
  ∃ ids, m.types = types ++ ids ∧ ids.length = drafts.length ∧
    cases = (drafts.map (·.1)).zipWith (fun c t => { c with type := t }) ids

theorem follows_caseTypes (hσ : Fits σ p) (here : At σ p w a s) (types : List (Option TypeId))
    (clause : Int) (list : List (Int × Expr)) :
    Follows σ s types ((list.map (·.2.type)).map (.type p.types)) (caseTypes w clause list)
      (Filled types (list.map fun (position, e) =>
        ({ clause := clause, position := position, place := e.span.start, type := none },
          e.type))) := by
  induction list generalizing s types with
  | nil => exact Plan.follows_pure here.good ⟨[], by simp⟩
  | cons x list ih =>
    obtain ⟨position, e⟩ := x
    unfold caseTypes Scope.typeId
    rw [here.package]
    rw [List.map_cons, List.map_cons, ← List.singleton_append]
    refine (Plan.follows_typeId here.good (hσ.type p.types e.type)).bind ?_
    intro id s₁ types₁ hg₁ hr₁ ht₁
    obtain rfl : types₁ = types ++ [id] := ht₁
    have here₁ := here.later hg₁ (later_of_run hσ here.good hg₁ hr₁)
    refine (ih here₁ (types ++ [id])).map fun rest m hm => ?_
    obtain ⟨ids, ht, hl, rfl⟩ := hm
    exact ⟨id :: ids, by simp [ht], by simp [hl], rfl⟩

theorem follows_switchCases (hσ : Fits σ p) (here : At σ p w a s) (types : List (Option TypeId))
    (clauses : List (Int × Stmt)) :
    Follows σ s types (((switchCasesOf clauses).map (·.2)).map (.type p.types))
      (switchCases w clauses) (Filled types (switchCasesOf clauses)) := by
  induction clauses generalizing s types with
  | nil => exact Plan.follows_pure here.good ⟨[], by simp [switchCasesOf]⟩
  | cons x clauses ih =>
    obtain ⟨clause, st⟩ := x
    cases st with
    | caseClause span list body =>
      unfold switchCases switchCasesOf
      have hcode : ((clauseCases clause list ++ switchCasesOf clauses).map (·.2)).map
          (Op.type p.types) =
          ((numbered 0 list).map (·.2.type)).map (Op.type p.types) ++
            ((switchCasesOf clauses).map (·.2)).map (Op.type p.types) := by
        simp [clauseCases]
      rw [hcode]
      refine (follows_caseTypes hσ here types clause (numbered 0 list)).bind
        fun first s₁ types₁ hg₁ hr₁ h₁ => ?_
      have here₁ := here.later hg₁ (later_of_run hσ here.good hg₁ hr₁)
      refine (ih here₁ types₁).map fun more m hm => ?_
      obtain ⟨ids, ht, hl, rfl⟩ := h₁
      obtain ⟨ids', ht', hl', rfl⟩ := hm
      obtain rfl : types₁ = types ++ ids := ht
      refine ⟨ids ++ ids', by simp [ht'], by simp [hl, hl', clauseCases], ?_⟩
      rw [List.map_append, List.zipWith_append (by simp [hl, clauseCases])]
      rfl
    | _ =>
      unfold switchCases switchCasesOf
      exact ih here types

end

/-! ## Nodes -/

section

variable {σ : Setting} {p : Package}

theorem At.enter {w : Scope} {a : Around} {s : Session} (here : At σ p w a s)
    (position : Position) :
    At σ p (inside w (s.store.functionAt? w.file position)) (a.enter position) s where
  good := here.good
  package := (inside_package ..).trans here.package
  path := (inside_path ..).trans here.path
  file := by rw [inside_file]; exact here.file
  enclosing := by rw [inside_file]; exact enclosing_inside here.enclosing position

theorem follows_typeSwitch (hσ : Fits σ p) {w : Scope} {a : Around} {s : Session}
    (here : At σ p w a s) {span : Span} {init : Option Stmt} {assign : Stmt} {body : Block}
    {bound : Option String} {assertion : Span} {id : ExprId}
    (hg : guardOf assign = some (bound, assertion))
    (hid : s.store.exprAt? w.file assertion = some id) :
    Follows σ s [] (codeOf p σ.root [.stmt a (.typeSwitch span init assign body)])
      (switchCases w (numbered 0 body.stmts) >>= fun cases =>
        addStmt w .typeSwitch span (.typeSwitch bound id cases)) fun _ m => m.types = [] := by
  have hcode : codeOf p σ.root [.stmt a (.typeSwitch span init assign body)] =
      ((switchCasesOf (numbered 0 body.stmts)).map (·.2)).map (Op.type p.types) ++
        [.record a (.stmt .typeSwitch span (.typeSwitch bound assertion
          ((switchCasesOf (numbered 0 body.stmts)).map (·.1))))] := by
    rw [codeOf_singleton]
    simp only [Mark.code, stmtNote, hg, Stmt.span]
  rw [hcode]
  refine (follows_switchCases hσ here [] (numbered 0 body.stmts)).bind
    fun cases s₁ types₁ hg₁ hr₁ h₁ => ?_
  have l₁ := later_of_run hσ here.good hg₁ hr₁
  have here₁ := here.later hg₁ l₁
  obtain ⟨ids, ht, -, rfl⟩ := h₁
  obtain rfl : types₁ = ids := ht
  refine follows_addStmt hσ here₁ ?_
  exact Option.bind_eq_some_iff.mpr ⟨id, Store.exprAt?_of_le l₁.le hid, rfl⟩

/-- The pass does what the code of its nodes does. -/
def following (hσ : Fits σ p) : Logic p σ.root where
  At := At σ p
  Later s s' := σ.Good s' ∧ Later s.store s'.store
  Tells w e r t := Tells w σ.root e r t
  Comes marks x s post := Comes σ p marks x s post
  later_trans h h' := ⟨h'.1, h.2.trans h'.2⟩
  later_le h := h.2.le
  at_package h := h.package
  at_later h h' := h.later h'.1 h'.2
  at_enter h := h.enter
  tells_id h := h.id
  tells_later h h' := h.later h'.2
  pure here hp _ := Plan.follows_pure here.good ⟨rfl, hp⟩
  bind h hf := h.bind hσ hf
  look h hg := Plan.follows_get (h hg)
  nameRow here i _ := by
    rw [codeOf_singleton]
    exact (follows_name hσ here i).mono fun _ _ h => ⟨h.1, trivial⟩
  literalRow here l _ := by
    rw [codeOf_singleton]
    exact (follows_addExpr hσ here (fun _ => rfl) (found_none _ _)).map fun _ _ h => ⟨h.1, trivial⟩
  signatureRow here span type _ := by
    rw [codeOf_singleton]
    exact (follows_addExpr hσ here (fun _ => rfl) (found_none _ _)).mono fun _ _ h => ⟨h.1, trivial⟩
  blockRow here span _ := by
    rw [codeOf_singleton]
    exact (follows_addStmt hσ here rfl).mono fun _ _ h => ⟨h, trivial⟩
  stmtRow here hn hd _ := (follows_stmtMark hσ here hn hd).mono fun _ _ h => ⟨h, trivial⟩
  switchRow here hg hid _ := (follows_typeSwitch hσ here hg hid).mono fun _ _ h => ⟨h, trivial⟩
  plainRow here he ha _ := follows_plain hσ here he ha
  extendRow here hb he ha _ := follows_extend hσ here hb he ha
  operandRow here _ _ _ := follows_operand hσ here rfl
  selectorRow here hb _ := follows_selector hσ here hb
  assertRow here hb _ := follows_typeAssert hσ here hb
  callRow here hf hi _ := follows_call hσ here hf hi

/-! ## Files -/

/-- The pass over a file on a known path does what its code does. -/
theorem run_follows (hσ : Fits σ p) {f : SourceFile} (hf : σ.known f.path) {s : Session}
    (hg : σ.Good s) :
    Follows σ s [] (f.depthCode p σ.root) (run p f) fun _ m => m.types = [] := by
  unfold SourceFile.depthCode run
  rw [← List.singleton_append]
  refine (Plan.follows_ofFile hg hf (hσ.file f.path)).bind fun w s₁ types₁ hg₁ hr₁ h₁ => ?_
  obtain ⟨hw, hfile, rfl⟩ : _ ∧ _ ∧ types₁ = [] := h₁
  have here₁ : At σ p w (.top f.path) s₁ := by
    rw [hw]
    exact ⟨hg₁, rfl, rfl, hfile, rfl⟩
  exact ((following hσ).file w f s₁ here₁ hg₁).mono fun _ _ hm => hm.1

end
end Depth
end AccessDepth
