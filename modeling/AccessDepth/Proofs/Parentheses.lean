import AccessDepth.Proofs.Depth.Recording
import AccessDepth.Proofs.Parentheses.Accesses

/-!
# AccessDepth.Proofs.Parentheses

The depth pass sees through parentheses.

* `AccessRow.Agrees`, `AccessRow.IsAround` — two rows tell the same of an access but for what it goes
  through; a row is that of the parentheses around another one.
* `Store.SeesThrough` — what the passes over a file and over the file with parentheses leave.
* `Twins` — the two passes on their way. `Twins.step` records a node in both, `Twins.run` all nodes.
* `run_seesThrough` — so the passes end.
-/

namespace AccessDepth

open Plan (AccessNote)

/-- Two rows tell the same of an access, but for the expression and what it goes through. -/
structure AccessRow.Agrees (r r' : AccessRow) : Prop where
  kind : r'.kind = r.kind
  depth : r'.depth = r.depth
  uncertainty : r'.uncertainty = r.uncertainty
  baseName : r'.baseName = r.baseName
  baseVariable : r'.baseVariable = r.baseVariable

/-- A row is that of the parentheses around the access of another one. -/
structure AccessRow.IsAround (r r' : AccessRow) : Prop where
  kind : r'.kind = .paren
  inner : r'.inner = some ⟨r.expr.value⟩
  depth : r'.depth = r.depth
  uncertainty : r'.uncertainty = r.uncertainty
  baseName : r'.baseName = r.baseName
  baseVariable : r'.baseVariable = r.baseVariable

/-- The expressions of a file are recorded in two stores, in the second one with parentheses around the
expression at a place. Every expression has an access in both or in none, and the two agree. The
parentheses have one if what they enclose does. -/
structure Store.SeesThrough (s t : Store) (f : SourceFile) (file : FileId) (place fresh : Span) :
    Prop where
  recorded : ∀ span ∈ f.exprSpans, (s.exprAt? file span).isSome = true ∧
    (t.exprAt? file span).isSome = true
  agrees : ∀ span ∈ f.exprSpans,
    Option.Rel AccessRow.Agrees (s.accessAt? file span) (t.accessAt? file span)
  parens : (t.exprAt? file fresh).isSome = true
  around : Option.Rel AccessRow.IsAround (t.accessAt? file place) (t.accessAt? file fresh)

theorem Plan.AccessNote.Lands.baseVariable_eq_none {s : Store} {file : FileId}
    {v : Option VariableId} {n : AccessNote} {r : AccessRow} (h : n.Lands s file v r)
    (uncertain : 0 < n.uncertainty) : r.baseVariable = none := by
  cases hi : n.inner with
  | none =>
    rw [(h.root hi).2]
    exact if_pos uncertain
  | some operand =>
    obtain ⟨_, -, -, base⟩ := h.through operand hi
    rw [base]
    exact if_pos uncertain

namespace Depth

/-! ## Two passes -/

section

variable {p : Package} {root : Path} {place fresh : Span} {file : FileId} {m : Mark} {marks : List Mark}
  {s t s' t' : Session}

/-- Two passes over a file side by side, of which the second one meets parentheses. -/
structure Abreast (place fresh : Span) (file : FileId) (s t : Session) : Prop where
  sites : s.SameSites t
  agrees : ∀ span, span ≠ fresh →
    Option.Rel AccessRow.Agrees (s.store.accessAt? file span) (t.store.accessAt? file span)
  vacant : s.store.accessAt? file fresh = none

/-- The second pass has met the parentheses, or not yet what they enclose. -/
structure Twins (place fresh : Span) (file : FileId) (s t : Session) : Prop
    extends Abreast place fresh file s t where
  around : Option.Rel AccessRow.IsAround (t.store.accessAt? file place)
    (t.store.accessAt? file fresh)

/-- An operand has the same variable, found behind the parentheses if they enclose it. -/
theorem Twins.operand (h : Twins place fresh file s t) {span : Span} {x y : AccessRow}
    (hx : s.store.accessAt? file span = some x)
    (hy : t.store.accessAt? file (if span = place then fresh else span) = some y) :
    y.baseVariable = x.baseVariable := by
  have elsewhere : span ≠ fresh := by
    rintro rfl
    cases hx.symm.trans h.vacant
  have agrees := h.agrees span elsewhere
  rw [hx] at agrees
  split at hy
  · rename_i here
    have around := h.around
    rw [hy, ← here] at around
    generalize t.store.accessAt? file span = z at agrees around
    cases agrees with
    | some agrees =>
      cases around with
      | some around => exact around.baseVariable.trans agrees.baseVariable
  · rw [hy] at agrees
    cases agrees with
    | some agrees => exact agrees.baseVariable

/-- An access that goes through the parentheses instead of what they enclose has the same row. -/
theorem Twins.agrees_of_lands (h : Twins place fresh file s t) {n : AccessNote}
    {v : Option VariableId} {r r' : AccessRow} (hr : n.Lands s.store file v r)
    (hr' : (n.reroute place fresh).Lands t.store file v r') : r.Agrees r' where
  kind := hr'.kind.trans hr.kind.symm
  depth := hr'.depth.trans hr.depth.symm
  uncertainty := hr'.uncertainty.trans hr.uncertainty.symm
  baseName := hr'.baseName.trans hr.baseName.symm
  baseVariable := by
    cases hi : n.inner with
    | none =>
      have hi' : (n.reroute place fresh).inner = none := by simp [AccessNote.reroute, hi]
      rw [(hr.root hi).2, (hr'.root hi').2]
      rfl
    | some operand =>
      have hi' : (n.reroute place fresh).inner =
          some (if operand = place then fresh else operand) := by simp [AccessNote.reroute, hi]
      obtain ⟨x, hx, -, base⟩ := hr.through operand hi
      obtain ⟨y, hy, -, base'⟩ := hr'.through _ hi'
      rw [base, base', h.operand hx hy]
      rfl

/-- A node and what becomes of it are recorded. -/
theorem Twins.own (h : Twins place fresh file s t) (suits : m.Suits p root place fresh)
    (first : Registers p root file m s s')
    (second : Registers p root file (m.encloseBelow place fresh) t t') :
    Abreast place fresh file s' t' := by
  obtain ⟨v, s₁, seek, sites, own⟩ := first.own
  obtain ⟨v', t₁, seek', sites', own'⟩ := second.own
  rw [suits.seek] at seek'
  obtain ⟨rfl, same⟩ := m.steady_seek p root h.sites seek seek'
  constructor
  case sites => exact sites.symm.trans (same.trans sites')
  case agrees =>
    intro span elsewhere
    have spans := m.exprSpan?_encloseBelow place fresh
    by_cases here : m.exprSpan? = some span
    · have row := (own span here).2
      have row' := (own' span (spans.trans here)).2
      rw [suits.access] at row'
      generalize m.access? p root = note at row row'
      generalize s'.store.accessAt? file span = r at row
      generalize t'.store.accessAt? file span = r' at row'
      cases row with
      | none =>
        cases row'
        exact .none
      | some lands =>
        cases row' with
        | some lands' => exact .some (h.agrees_of_lands lands lands')
    · rw [first.accessAt? here, second.accessAt? (spans ▸ here)]
      exact h.agrees span elsewhere
  case vacant => exact (first.accessAt? suits.elsewhere).trans h.vacant

/-- The row of parentheses goes through the row of what they enclose. -/
theorem isAround_of_lands {s t : Store} {n : AccessNote} {v v' : Option VariableId} {r r' : AccessRow}
    (hr : n.Lands s file v r) (there : t.accessAt? file place = some r)
    (hr' : (n.via place .paren 0 0).Lands t file v' r') : r.IsAround r' := by
  obtain ⟨x, hx, inner, base⟩ := hr'.through place rfl
  cases there.symm.trans hx
  have depth : r'.depth = n.depth + 0 := hr'.depth
  have uncertainty : r'.uncertainty = n.uncertainty + 0 := hr'.uncertainty
  refine ⟨hr'.kind, inner, ?_, ?_, hr'.baseName.trans hr.baseName.symm, ?_⟩
  · rw [depth, hr.depth, Int.add_zero]
  · rw [uncertainty, hr.uncertainty, Int.add_zero]
  · rw [base]
    split
    · rename_i uncertain
      have uncertain : 0 < n.uncertainty + 0 := uncertain
      rw [hr.baseVariable_eq_none (by omega)]
    · rfl

theorem seek_parens {a : Plan.Around} {e : Expr} (here : e.span = place) :
    (Mark.expr a (e.enclose place fresh)).seek p root = pure none := by
  have unnamed : (Mark.expr a (e.enclose place fresh)).nameSite? p root = none := by
    rw [Expr.enclose_eq, if_pos here]
    rfl
  have unrooted : ((Mark.expr a (e.enclose place fresh)).access? p root).bind (·.rootSite?) = none := by
    rw [Mark.access?, Expr.access?_parens here]
    cases (e.encloseBelow place fresh).access? p root a.path <;> rfl
  rw [Mark.seek, unnamed, unrooted]
  rfl

/-- The parentheses are recorded after what they enclose. -/
theorem around_parens {a : Plan.Around} {e : Expr} (here : e.span = place) {t₁ : Session}
    (below : Registers p root file (.expr a (e.encloseBelow place fresh)) t t₁)
    (parens : Registers p root file (.expr a (e.enclose place fresh)) t₁ t') :
    Option.Rel AccessRow.IsAround (t₁.store.accessAt? file place)
      (t'.store.accessAt? file fresh) := by
  obtain ⟨_, _, -, -, own⟩ := below.own
  obtain ⟨_, _, -, -, own'⟩ := parens.own
  have row := (own place (congrArg some here)).2
  have row' := (own' fresh (by rw [Expr.enclose_eq, if_pos here]; rfl)).2
  simp only [Mark.access?] at row row'
  rw [Expr.access?_parens here] at row'
  generalize (e.encloseBelow place fresh).access? p root a.path = note at row row'
  generalize t'.store.accessAt? file fresh = r' at row'
  cases hr : t₁.store.accessAt? file place with
  | none =>
    rw [hr] at row
    cases row
    cases row'
    exact .none
  | some r =>
    rw [hr] at row
    cases row with
    | some lands =>
      cases row' with
      | some lands' => exact .some (isAround_of_lands lands hr lands')

/-- A step of two passes: a node is recorded, with the parentheses around it if they are put there. -/
theorem Twins.step (h : Twins place fresh file s t) (apart : place ≠ fresh)
    (suits : m.Suits p root place fresh) (first : Registers p root file m s s')
    (second : Registered p root file (m.enclose place fresh) t t') :
    Twins place fresh file s' t' := by
  cases second with
  | @cons _ _ _ t₁ _ below rest =>
    have own := h.own suits first below
    by_cases here : m.exprSpan? = some place
    · obtain ⟨a, e, rfl⟩ := suits.operand here
      have here := Option.some.inj here
      rw [Mark.parens, if_pos here] at rest
      cases rest with
      | cons parens done =>
        cases done
        have around := around_parens here below parens
        have spans : (Mark.expr a (e.enclose place fresh)).exprSpan? = some fresh := by
          rw [Expr.enclose_eq, if_pos here]
          rfl
        have kept {span : Span} (elsewhere : span ≠ fresh) :
            t'.store.accessAt? file span = t₁.store.accessAt? file span :=
          parens.accessAt? (by simp [spans, elsewhere.symm])
        obtain ⟨_, _, seek, sites, -⟩ := parens.own
        rw [seek_parens here] at seek
        cases seek
        refine ⟨⟨own.sites.trans sites, fun span elsewhere => ?_, own.vacant⟩, ?_⟩
        · rw [kept elsewhere]
          exact own.agrees span elsewhere
        · rw [kept apart]
          exact around
    · rw [m.parens_of_ne here] at rest
      cases rest
      have spans := m.exprSpan?_encloseBelow place fresh
      refine ⟨own, ?_⟩
      rw [below.accessAt? (spans ▸ here), below.accessAt? (spans ▸ suits.elsewhere)]
      exact h.around

/-- A run of two passes. -/
theorem Twins.run (h : Twins place fresh file s t) (apart : place ≠ fresh)
    (suits : ∀ m ∈ marks, m.Suits p root place fresh)
    (first : Registered p root file marks s s')
    (second : Registered p root file (marks.flatMap (Mark.enclose place fresh)) t t') :
    Twins place fresh file s' t' := by
  induction first generalizing t with
  | nil =>
    cases second
    exact h
  | cons head _ ih =>
    rw [List.flatMap_cons] at second
    obtain ⟨t₁, head', rest⟩ := second.split
    have next := h.step apart (suits _ List.mem_cons_self) head head'
    exact ih next (fun m hm => suits m (List.mem_cons_of_mem _ hm)) rest

end

theorem Twins.start {place fresh : Span} {file : FileId} {s : Session}
    (vacant : ∀ span, s.store.exprAt? file span = none) : Twins place fresh file s s := by
  have none (span : Span) : s.store.accessAt? file span = none := by
    rw [Store.accessAt?, vacant, Option.bind_none]
  refine ⟨⟨.refl s, fun span _ => ?_, none fresh⟩, ?_⟩
  · rw [none]
    exact .none
  · rw [none, none]
    exact .none

/-- Parentheses are transparent. Of a file with distinct spans of which no expression is stored, let an
expression that is no name of a package before a selector be put into parentheses that have a new span
and its type. Then the pass over the file and the one over the file with the parentheses leave
the same accesses, with that of the parentheses in addition. Nothing but a store that takes no more
transactions, or without the row of no variable, stops either of them. -/
theorem run_seesThrough {p : Package} {s : Session} {f : SourceFile} {e : Expr} {fresh : Span}
    (hs : s.Ready) (empty : ∀ r ∈ s.store.expressions, ¬ s.store.IsFile r.file f.path)
    (distinct : f.exprSpans.Nodup) (new : fresh ∉ f.exprSpans) (he : f.Holds (.expr e))
    (operand : ∀ span type sel, f.Holds (.expr ⟨span, type, .selector e sel⟩) →
      p.isPackageName e = false) :
    (s.Unhindered → (∃ t, run p f s = .ok () t) ∧ ∃ t', run p (f.enclose e.span fresh) s = .ok () t') ∧
      ∀ t t', run p f s = .ok () t → run p (f.enclose e.span fresh) s = .ok () t' →
        ∃ file, t.store.IsFile file f.path ∧ t'.store.IsFile file f.path ∧
          t.store.SeesThrough t'.store f file e.span fresh := by
  have spans := SourceFile.exprSpans_perm p f
  have ends := run_registers hs empty (spans.nodup_iff.mpr distinct)
  have ends' := run_registers (f := f.enclose e.span fresh) hs empty
    (SourceFile.nodup_spans_enclose p distinct new)
  refine ⟨fun free => ?_, fun t t' h h' => ?_⟩
  · obtain ⟨⟨⟩, t, h, -⟩ := (ends.mono (fun _ _ h => h) fun _ _ hindered => hindered free).exists_ok
    obtain ⟨⟨⟩, t', h', -⟩ := (ends'.mono (fun _ _ h => h) fun _ _ hindered => hindered free).exists_ok
    exact ⟨⟨t, h⟩, t', h'⟩
  obtain ⟨file, s₁, asked, ready, isFile, vacant, registered⟩ := ends.of_ok h
  obtain ⟨file', s₁', asked', -, -, -, registered'⟩ := ends'.of_ok h'
  have asked' : Analyze.fileId f.path s = .ok file' s₁' := asked'
  cases asked.symm.trans asked'
  have apart : e.span ≠ fresh := fun same => new (same ▸ he.mem_exprSpans)
  have marks := SourceFile.marks_enclose e.span fresh p f
  have twins := (Twins.start vacant).run apart (he.suits distinct new operand) registered
    (marks ▸ registered')
  have later := (registered.goesOn ready).leadsTo.inserts.le
  have later' := (registered'.goesOn ready).leadsTo.inserts.le
  refine ⟨file, isFile.of_le later, isFile.of_le later', ?_⟩
  exact {
    recorded := fun span hspan => ⟨registered.recorded ready (spans.mem_iff.mpr hspan),
      registered'.recorded ready (he.mem_spans_enclose p (.inl hspan))⟩
    agrees := fun span hspan => twins.agrees span fun same => new (same ▸ hspan)
    parens := registered'.recorded ready (he.mem_spans_enclose p (.inr rfl))
    around := twins.around }

/-- The operand of the dereference in the small package, put into parentheses: `*(X)`. -/
theorem run_sample_seesThrough :
    ∃ t t', run .sample .sample .sample = .ok () t ∧
      run .sample (SourceFile.sample.enclose ⟨4, 3, 4, 4⟩ ⟨4, 3, 4, 6⟩) .sample = .ok () t' ∧
        ∃ file, t.store.IsFile file ⟨"corpus/a.go"⟩ ∧ t'.store.IsFile file ⟨"corpus/a.go"⟩ ∧
          t.store.SeesThrough t'.store .sample file ⟨4, 3, 4, 4⟩ ⟨4, 3, 4, 6⟩ := by
  let e : Expr := ⟨⟨4, 3, 4, 4⟩, some 1, .ident "X" (some 0)⟩
  have ready : Session.sample.Ready := ⟨Store.initial_sound, Session.sample_coherent⟩
  have held : SourceFile.sample.Holds (.expr e) := by
    have body := SourceFile.Holds.func (f := .sample) (List.mem_cons_of_mem _ List.mem_cons_self)
    have deref := (body.child (c := .stmt _) (by simp [Node.children]; rfl)).child List.mem_cons_self
    exact deref.child List.mem_cons_self
  have new : (⟨4, 3, 4, 6⟩ : Span) ∉ SourceFile.sample.exprSpans := by decide +kernel
  have seen := run_seesThrough (p := .sample) ready (fun r hr => by cases hr) (by decide +kernel) new
    held fun _ _ _ _ => by decide +kernel
  obtain ⟨⟨t, h⟩, t', h'⟩ := seen.1 ⟨rfl, le_refl _⟩
  exact ⟨t, t', h, h', seen.2 t t' h h'⟩

end Depth
end AccessDepth
