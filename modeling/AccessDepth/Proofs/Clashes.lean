import AccessDepth.Proofs.AccessChains
import AccessDepth.Proofs.Depth.Recording

/-!
# AccessDepth.Proofs.Clashes

When an analysis fails although its store takes any number of transactions.

* `Mark.Dangles` — the operand of an access is stored without an access.
* `Depth.run_proceeds`, `analyze_proceeds` — nothing else stops an analysis, whatever it is given.
* `Contexts.Clashes` — two nodes stand at one span of a file, and only one of them is an access.
* `Contexts.call_answers_or_clashes` — from an empty store on, calls that meet no such nodes succeed.
* `GivesTrees.call_answers` — so do those that are always given the same trees.
-/

namespace AccessDepth

open Plan (Around AccessNote ExprNote StmtNote Item Write)
open Session (LeadsTo)

/-! ## What the depth pass writes -/

namespace Depth

section

variable {p : Package} {root : Path} {file : FileId} {m : Mark} {s : Store} {w : Write}

theorem Mark.tidy_of_stmt {kind : StmtKind} {span : Span} {note : StmtNote}
    (h : m.item p root = .stmt kind span note) : (Item.stmt kind span note).Tidy := by
  cases m with
  | block a span =>
    cases h
    trivial
  | stmt a st =>
    cases h
    exact stmtNote_tidy st st.span
  | expr | name | literal | signature => cases h

/-- The rows of a node meet their conditions and do not share a key. -/
theorem Mark.Writes.tidy (h : m.Writes p root s file w) : w.Tidy := by
  cases h with
  | expr item _ _ rel =>
    obtain ⟨-, access⟩ := Mark.of_item item
    refine Write.tidy_expr fun b hb => ?_
    subst hb
    obtain ⟨n, rfl, fits⟩ := exists_of_rel_some rel
    rw [fits.uncertainty]
    exact m.uncertainty_nonneg access
  | @stmt kind span note types detail item _ detailed =>
    have written : (Item.stmt kind span note).write? s file types m.around = some (.stmt
        { kind := kind, file := file, span := span, enclosing := m.around.enclosing s file }
        detail) := Option.bind_eq_some_iff.mpr ⟨detail, detailed, rfl⟩
    exact Item.tidy_of_write? (Mark.tidy_of_stmt item) written

theorem has_refs_of_noteFits {note : ExprNote} {types : List (Option TypeId)} {detail : ExprDetail}
    (ht : Plan.TypesStored s types) (h : note.Fits s file types detail) :
    ∀ ref ∈ detail.refs, s.has ref = true := by
  unfold ExprNote.Fits at h
  split at h
  · obtain ⟨target, isFile, rfl⟩ := h
    simpa [ExprDetail.refs] using isFile.has
  · exact ExprNote.has_of_detail? ht h

def Mark.Through (p : Package) (root : Path) (m : Mark) (operand : Span) : Prop :=
  ∃ n, m.access? p root = some n ∧ n.inner = some operand

/-- What the rows of a node refer to is there, but for the access of its operand. -/
theorem Mark.Writes.has_refs (h : m.Writes p root s file w) (hn : Store.initial ≤ s)
    (hf : s.has (.to file) = true) : ∀ ref ∈ w.refs, s.has ref = true ∨
      ∃ operand i, m.Through p root operand ∧ s.exprAt? file operand = some i ∧
        ref = ⟨.accesses, i.value⟩ := by
  intro ref href
  cases h with
  | @expr kind span note access types detail found item lookups detailed rel =>
    have stored := stored_of_fits lookups
    simp only [Write.refs, List.mem_cons, List.mem_append] at href
    obtain rfl | ((href | href) | href) | href := href
    · exact .inl hf
    · exact .inl (stored.optional (fun y hy => List.mem_of_getLast? hy) ref href)
    · exact .inl (m.around.has_enclosing ref href)
    · exact .inl (has_refs_of_noteFits stored detailed ref href)
    · obtain ⟨b, hb, href⟩ := List.mem_flatMap.mp href
      rw [Option.mem_toList.mp hb] at rel
      obtain ⟨n, rfl, fits⟩ := exists_of_rel_some rel
      refine (has_refs_of_fits fits hn ref href).imp_right ?_
      rintro ⟨operand, ho, i, hi, rfl⟩
      exact ⟨operand, i, ⟨n, (Mark.of_item item).2, ho⟩, hi, rfl⟩
  | stmt _ lookups detailed =>
    simp only [Write.refs, List.mem_cons, List.mem_append] at href
    obtain rfl | href | href := href
    · exact .inl hf
    · exact .inl (m.around.has_enclosing ref href)
    · exact .inl (StmtNote.has_of_detail? (stored_of_fits lookups) detailed ref href)

end

/-! ## Where it stops -/

/-- The operand of the access that a node is has a row, but no access. -/
def Mark.Dangles (p : Package) (root : Path) (m : Mark) (s : Store) : Prop :=
  ∃ operand file i, m.Through p root operand ∧ s.IsFile file m.around.path ∧
    s.exprAt? file operand = some i ∧ s.has ⟨.accesses, i.value⟩ = false

/-- A row of one of some nodes was refused, because its access dangles. -/
def Breaks (p : Package) (root : Path) (marks : List Mark) (f : Failure) (s : Store) : Prop :=
  f = .store (.violation .foreignKey) ∧ ∃ m ∈ marks, m.Dangles p root s

variable {p : Package} {root : Path} {file : FileId} {m : Mark} {s s' : Session} {e : Failure}

/-- The pass only ends at a node whose access dangles. -/
theorem Stops.dangles (h : Stops p root file m s e s') (free : s.Unhindered)
    (hf : s.store.IsFile file m.around.path) :
    e = .store (.violation .foreignKey) ∧ m.Dangles p root s'.store := by
  cases h with
  | halts before halts _ => exact (halts.hindered before.ready (before.unhindered free)).elim
  | refused before hw refused =>
    have here := hf.of_le before.inserts.le
    obtain ⟨t, ok⟩ | ⟨foreignKey, ref, href, lacks⟩ := Write.record_ends before.ready.sound hw.tidy
    · cases ok.symm.trans refused
    cases foreignKey.symm.trans refused
    obtain there | ⟨operand, i, through, found, rfl⟩ :=
      hw.has_refs (before.unhindered free).isNew here.has ref href
    · cases there.symm.trans lacks
    · exact ⟨rfl, operand, file, i, through, here, found, lacks⟩

theorem run_proceeds (hr : s.corpusRoot = root) (f : SourceFile) :
    (run p f).Proceeds (Breaks p root (f.marks p)) s fun _ _ => True := by
  intro hs
  refine (run_ends hs hr f).mono ?_ ?_
  · rintro _ s' ⟨file, s₁, supplied, -, trail⟩
    have later := (supplied.mono fun _ => .inl).trans (trail.leadsTo supplied.ready)
    exact ⟨later.mono fun _ _ => trivial, trivial⟩
  · rintro e s' (⟨-, halts⟩ | ⟨file, s₁, supplied, isFile, done, m, rest, s₂, marks, trail, stops⟩) free
    · exact (halts.hindered hs free).elim
    have later := trail.leadsTo supplied.ready
    have hm : m ∈ f.marks p := by
      rw [marks]
      exact List.mem_append_right _ List.mem_cons_self
    have here : s₂.store.IsFile file m.around.path := by
      rw [f.marks_inFile p m hm]
      exact isFile.of_le later.inserts.le
    obtain ⟨refused, dangles⟩ :=
      stops.dangles (later.unhindered (supplied.unhindered free)) here
    exact ⟨refused, m, hm, dangles⟩

end Depth

/-- Only an access that dangles stops an analysis, and only in a mode that makes depths. -/
theorem analyze_proceeds (p : Package) (mode : Mode) (s : Session) :
    (analyze p mode).Proceeds (fun f t => mode.makesDepths = true ∧
      Depth.Breaks p s.corpusRoot p.marks f t) s fun skips _ => skips = p.usableFiles.2 := by
  let R (f : Failure) (t : Store) : Prop :=
    mode.makesDepths = true ∧ Depth.Breaks p s.corpusRoot p.marks f t
  let good (a : Analyze Unit) : Prop :=
    ∀ s₁ : Session, s₁.corpusRoot = s.corpusRoot → a.Proceeds R s₁ fun _ _ => True
  have passes : good (makePasses p p.usableFiles.1 mode.passes) := by
    refine makePasses_good (fun _ _ => Analyze.proceeds_pure trivial) ?_ fun pass hpass f hf => ?_
    · exact fun a b ha hb s₁ hr =>
        (ha s₁ hr).bind fun _ s₂ later _ => hb s₂ (later.root.trans hr)
    · intro s₁ hr
      obtain rfl | ⟨rfl, makes⟩ | rfl | rfl := Mode.of_mem_passes hpass
      · exact Definitions.run_proceeds p f
      · intro hs
        refine (Depth.run_proceeds hr f hs).mono (fun _ _ h => h) fun e t breaks free => ?_
        obtain ⟨rfl, m, hm, dangles⟩ := breaks free
        exact ⟨makes, rfl, m, List.mem_flatMap.mpr ⟨f, hf, hm⟩, dangles⟩
      · exact Allocation.containers_proceeds p f
      · exact Allocation.sizes_proceeds p f
  exact (passes s rfl).bind fun _ _ _ _ => Analyze.proceeds_pure rfl

/-! ## Why an access dangles -/

/-- An access stands where a node that was given is none: at the same span of the same file. -/
structure Expr.Clashes (given : Package → Path → Depth.Mark → Prop) (p : Package) (root : Path)
    (a : Around) (x : Expr) : Prop where
  access : (x.access? p root a.path).isSome = true
  other : ∃ p' root' m, given p' root' m ∧ m.around.path.components = a.path.components ∧
    m.exprSpan? = some x.span ∧ m.access? p' root' = none

section

variable {given : Package → Path → Depth.Mark → Prop} {p : Package} {root : Path} {s : Store}

/-- The row of an expression without an access is that of a node that is none. -/
theorem Invariant.given_of_no_access (hs : s.Sound) (hi : (rows given).Holds s) {file : FileId}
    {path : Path} (hf : s.IsFile file path) {span : Span} {i : ExprId}
    (found : s.exprAt? file span = some i) (lacks : s.has ⟨.accesses, i.value⟩ = false) :
    ∃ p root m, given p root m ∧ m.around.path.components = path.components ∧
      m.exprSpan? = some span ∧ m.access? p root = none := by
  obtain ⟨e, he, rfl⟩ := Option.map_eq_some_iff.mp found
  have place := List.find?_some he
  simp only [Bool.and_eq_true, beq_iff_eq] at place
  obtain ⟨rfl, rfl⟩ := place
  obtain ⟨p, root, m, hm, row⟩ := hi e (List.mem_of_find?_eq_some he)
  refine ⟨p, root, m, hm, row.isFile.components hs hf, row.span, ?_⟩
  obtain ⟨b?, fits, only, -⟩ := row.access
  cases b? with
  | none =>
    generalize m.access? p root = note at fits ⊢
    cases fits
    rfl
  | some b =>
    have mem : b.row e.id ∈ s.accessesOf e.id := by
      rw [only]
      exact List.mem_singleton_self _
    have there : s.has ⟨.accesses, e.id.value⟩ = true :=
      Store.has_iff.mpr ⟨b.row e.id, List.mem_of_mem_filter mem, rfl⟩
    cases there.symm.trans lacks

theorem Depth.Mark.Dangles.clashes {m : Depth.Mark} (h : m.Dangles p root s) (hs : s.Sound)
    (hi : (Invariant.rows given).Holds s) :
    ∃ a e x step, m = .expr a e ∧ e.step? p = some (x, step) ∧
      (e.access? p root a.path).isSome = true ∧ x.Clashes given p root a := by
  obtain ⟨operand, file, i, ⟨n, hn, inner⟩, isFile, found, lacks⟩ := h
  cases m with
  | expr a e =>
    obtain ⟨x, step, b, stepped, rfl, hx, -⟩ := (e.rooted_of_access hn).through inner
    refine ⟨a, e, x, step, rfl, stepped, Option.isSome_of_eq_some hn, Option.isSome_of_eq_some hx, ?_⟩
    exact Invariant.given_of_no_access hs hi isFile found lacks
  | name | literal | signature | block | stmt => cases hn

end

/-! ## Calls -/

namespace Contexts

variable {ι : Type} [DecidableEq ι] {w : Contexts ι} {c : Call ι}

/-- Whether the store refuses the rows of a call. -/
def Refuses (w : Contexts ι) (c : Call ι) (v : Violation) : Prop :=
  ∃ s, analyze c.package c.mode (w.session c) = .error (.store (.violation v)) s

/-- A call makes depths of an expression whose operand clashes with what was given in some calls. -/
def Clashes (w : Contexts ι) (cs : List (Call ι)) (c : Call ι) : Prop :=
  c.mode.makesDepths = true ∧ ∃ a e x step, .expr a e ∈ c.package.marks ∧
    e.step? c.package = some (x, step) ∧
    (e.access? c.package (w.context c.context).corpusRoot a.path).isSome = true ∧
    x.Clashes (w.Given cs) c.package (w.context c.context).corpusRoot a

/-- Where a call ends that may make any number of transactions. -/
theorem call_ends (hn : ∀ i, (w.context i).IsNew) (hw : w.store = .initial)
    (before : List (Call ι)) (hc : c.writesLeft = none) :
    (analyze c.package c.mode).Ends ((w.calls before).session c)
      (fun skips _ => skips = c.package.usableFiles.2)
      fun f _ => f = .store (.violation .foreignKey) ∧ w.Clashes (before ++ [c]) c := by
  let given := w.Given (before ++ [c])
  let s := (w.calls before).session c
  have kept : Kept (Invariant.rows given) w (w.calls before) :=
    calls_rows hn hw (List.subset_append_left before [c])
  have root : s.corpusRoot = (w.context c.context).corpusRoot := kept.root c.context
  have ready : s.Ready := ⟨kept.sound, kept.coherent _ _⟩
  have free : s.Unhindered := ⟨hc, hw ▸ kept.le⟩
  have here : c ∈ before ++ [c] := List.mem_append_right _ List.mem_cons_self
  have keeps : (Invariant.rows given).KeptBy (w.context c.context).corpusRoot
      (analyze c.package c.mode) :=
    Invariant.analyze fun makes m hm => ⟨c, here, makes, rfl, rfl, hm⟩
  refine ((analyze_proceeds c.package c.mode s ready).and
    (keeps.ends s ready root kept.holds)).mono (fun _ _ h => h.1.2) ?_
  rintro f s' ⟨stopped, kept'⟩
  obtain ⟨makes, rfl, m, hm, dangles⟩ := stopped free
  rw [root] at dangles
  obtain ⟨a, e, x, step, rfl, clashes⟩ := dangles.clashes kept'.ready.sound kept'.holds
  exact ⟨rfl, makes, a, e, x, step, hm, clashes⟩

/-- From an empty store on, whatever is analyzed and wherever an analysis stops, a call that may make
any number of transactions succeeds. The store only refuses an access through an operand that clashes
with a node that was given in one of the calls, as a row that refers to one that is not there. -/
theorem call_answers_or_clashes (hn : ∀ i, (w.context i).IsNew) (hw : w.store = .initial)
    (before : List (Call ι)) (hc : c.writesLeft = none) :
    (w.calls before).Answers c c.package.usableFiles.2 ∨
      (w.calls before).Refuses c .foreignKey ∧ w.Clashes (before ++ [c]) c := by
  have ends := call_ends hn hw before hc
  unfold Analyze.Ends at ends
  cases h : analyze c.package c.mode ((w.calls before).session c) with
  | ok skips s =>
    rw [h] at ends
    exact .inl ⟨s, ends ▸ h⟩
  | error f s =>
    rw [h] at ends
    obtain ⟨rfl, clashes⟩ := ends
    exact .inr ⟨⟨s, h⟩, clashes⟩

omit [DecidableEq ι] in
theorem GivesTrees.not_clashes {cs : List (Call ι)} (h : w.GivesTrees cs) (hc : c ∈ cs) :
    ¬ w.Clashes cs c := by
  rintro ⟨makes, a, e, x, step, he, stepped, -, clash⟩
  obtain ⟨p, root, m, hm, path, span, none⟩ := clash.other
  have consistent := h.consistent
  have operand : w.Given cs c.package (w.context c.context).corpusRoot (.expr a x) :=
    consistent.operand ⟨c, hc, makes, rfl, rfl, he⟩ stepped
  have same := consistent.same operand hm path.symm rfl span
  have access : ((Depth.Mark.expr a x).access? c.package _).isSome = true := clash.access
  rw [none] at same
  rw [Option.map_eq_none_iff.mp same] at access
  cases access

/-- Calls that may make any number of transactions succeed if a file is always given with the same
tree. -/
theorem GivesTrees.call_answers (hn : ∀ i, (w.context i).IsNew) (hw : w.store = .initial)
    {before : List (Call ι)} (ht : w.GivesTrees (before ++ [c])) (hc : c.writesLeft = none) :
    (w.calls before).Answers c c.package.usableFiles.2 := by
  have ends := (call_ends hn hw before hc).mono (fun _ _ h => h) fun _ _ h =>
    ht.not_clashes (List.mem_append_right before List.mem_cons_self) h.2
  obtain ⟨skips, s, h, rfl⟩ := ends.exists_ok
  exact ⟨s, h⟩

end Contexts

/-! ## Nodes that stand in one place -/

/-- A package with a name in parentheses that stands at the span of a literal. -/
def Package.overlapping : Package where
  dir := ⟨"corpus"⟩
  name := "a"
  files := [⟨⟨"corpus/a.go"⟩, ⟨"a", ⟨1, 9, 1, 10⟩, none, none⟩,
    [.gen ⟨⟨2, 1, 2, 10⟩, .var, [.value ⟨2, 5, 2, 10⟩ [⟨"x", ⟨2, 5, 2, 6⟩, none, some 0⟩] none
      [⟨⟨2, 9, 2, 10⟩, none, .basicLit .int "1"⟩]]⟩,
    .gen ⟨⟨3, 1, 3, 12⟩, .var, [.value ⟨3, 5, 3, 12⟩ [⟨"y", ⟨3, 5, 3, 6⟩, none, none⟩] none
      [⟨⟨3, 9, 3, 12⟩, none, .paren ⟨⟨2, 9, 2, 10⟩, none, .ident "x" (some 0)⟩⟩]]⟩]⟩]
  types := ⟨#[]⟩
  objects := ⟨#[⟨"x", .var, some ⟨⟨"corpus/a.go"⟩, ⟨2, 5⟩⟩, none⟩]⟩
  diagnostics := []

def Call.overlapping : Call Unit := ⟨(), .overlapping, .all, none⟩

namespace Contexts

def vacant : Contexts Unit := ⟨.initial, fun _ => ⟨⟨"corpus"⟩, .empty 4, .empty 4⟩⟩

theorem failure_of_overlapping :
    failure? (analyze .overlapping .all) (vacant.session .overlapping) =
      some (.store (.violation .foreignKey)) := by
  decide +kernel

/-- The call fails on the name in parentheses: at its span the literal is stored, without an access. -/
theorem call_overlapping_refused :
    vacant.Refuses .overlapping .foreignKey ∧ ∀ skips, ¬ vacant.Answers .overlapping skips := by
  obtain ⟨s, h⟩ := error_of_failure? failure_of_overlapping
  refine ⟨⟨s, h⟩, ?_⟩
  rintro skips ⟨s', ok⟩
  cases h.symm.trans ok

/-- The name clashes with the literal. -/
theorem call_overlapping_clashes :
    ((∀ i, (vacant.context i).IsNew) ∧ vacant.store = .initial ∧
        Call.overlapping.writesLeft = none) ∧
      vacant.Refuses .overlapping .foreignKey ∧ vacant.Clashes [.overlapping] .overlapping := by
  have new (i : Unit) : (vacant.context i).IsNew := ⟨rfl, rfl⟩
  refine ⟨⟨new, rfl, rfl⟩, ?_⟩
  refine (call_answers_or_clashes new rfl [] (c := .overlapping) rfl).resolve_left ?_
  rintro ⟨s', ok⟩
  obtain ⟨s, h⟩ := error_of_failure? failure_of_overlapping
  cases h.symm.trans ok

end Contexts
end AccessDepth
