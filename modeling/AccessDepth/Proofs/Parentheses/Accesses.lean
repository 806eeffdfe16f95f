import AccessDepth.Proofs.Depth.Sites
import AccessDepth.Proofs.Parentheses.Tree
import AccessDepth.Proofs.VariableUses

/-!
# AccessDepth.Proofs.Parentheses.Accesses

The accesses of a syntax tree with one pair of parentheses more.

* `AccessNote.reroute` — an access through the expression that is enclosed goes through the parentheses.
* `Expr.access?_encloseBelow` — that is all that becomes of the access of an expression, unless the
  parentheses hide the name of a package from a selector.
* `Expr.access?_parens` — what is enclosed is seen through the parentheses.
* `Mark.Suits.seek` — the same sites are looked up.
-/

namespace AccessDepth

open Plan (AccessNote)

/-! ## Syntax -/

namespace Expr

variable {place fresh : Span}

theorem type_enclose (e : Expr) : (e.enclose place fresh).type = e.type := by
  rw [enclose_eq]
  split <;> rfl

theorem enclose_of_ne {e : Expr} (h : e.span ≠ place) :
    e.enclose place fresh = e.encloseBelow place fresh := by
  rw [enclose_eq, if_neg h]

theorem unparen_enclose (e : Expr) :
    (e.enclose place fresh).unparen = (e.encloseBelow place fresh).unparen := by
  rw [enclose_eq]
  split <;> rfl

theorem kind_unparen_enclose (e : Expr) :
    (e.enclose place fresh).unparen.node.kind = e.unparen.node.kind := by
  rw [unparen_enclose]
  obtain ⟨span, type, node⟩ := e
  cases node with
  | paren x => exact kind_unparen_enclose x
  | _ => rfl
termination_by structural e

theorem isPackageName_encloseBelow (p : Package) (e : Expr) :
    p.isPackageName (e.encloseBelow place fresh) = p.isPackageName e := by
  obtain ⟨span, type, node⟩ := e
  cases node <;> rfl

theorem isPackageName_enclose (p : Package) {e : Expr}
    (h : e.span = place → p.isPackageName e = false) :
    p.isPackageName (e.enclose place fresh) = p.isPackageName e := by
  rw [enclose_eq]
  split
  · rename_i here
    rw [h here]
    rfl
  · exact isPackageName_encloseBelow p e

end Expr

/-- The operand of an expression of a file stands in the file. -/
theorem SourceFile.Holds.operand {p : Package} {f : SourceFile} {e x : Expr} {step : Step}
    (h : f.Holds (.expr e)) (hs : e.step? p = some (x, step)) : f.Holds (.expr x) := by
  obtain ⟨span, type, node⟩ := e
  cases node with
  | paren y | star y | selector y sel | index y i | slice y low high max =>
    cases hs
    exact h.child (by simp [Node.children, ExprNode.children])
  | unary op y =>
    cases op <;>
    · cases hs
      try exact h.child (by simp [Node.children, ExprNode.children])
  | bad | ident | ellipsis | basicLit | funcLit | compositeLit | indexList | typeAssert | call
  | binary | keyValue | arrayType | structType | funcType | interfaceType | mapType | chanType =>
    cases hs

def Heading.exprSpan? : Heading → Option Span
  | .expr _ span => some span
  | .stmt _ _ => none

/-- No name of a package stands at a place as the operand of a selector. -/
def SourceFile.NamesNoPackageAt (p : Package) (f : SourceFile) (place : Span) : Prop :=
  ∀ span type x sel, f.Holds (.expr ⟨span, type, .selector x sel⟩) → x.span = place →
    p.isPackageName x = false

/-! ## Accesses -/

namespace Plan.AccessNote

variable {place fresh : Span} {a b : AccessNote}

/-- The access where the expression at a place has been put into parentheses. -/
def reroute (place fresh : Span) (a : AccessNote) : AccessNote :=
  { a with inner := a.inner.map fun operand => if operand = place then fresh else operand }

theorem after_congr (depth : a.depth = b.depth) (uncertainty : a.uncertainty = b.uncertainty)
    (name : a.baseName = b.baseName) (base : a.base = b.base) (operand : Span) (step : Step) :
    a.after operand step = b.after operand step := by
  simp only [after_eq, via, depth, uncertainty, name, base]

theorem rootSite?_reroute (a : AccessNote) :
    (a.reroute place fresh).rootSite? = a.rootSite? := by
  obtain ⟨kind, inner, depth, uncertainty, baseName, base⟩ := a
  cases inner <;> rfl

theorem after_reroute_of_ne {operand : Span} (h : operand ≠ place) (step : Step) :
    (a.reroute place fresh).after operand step =
      (a.after operand step).map (reroute place fresh) := by
  have same : (a.reroute place fresh).after operand step = a.after operand step :=
    after_congr rfl rfl rfl rfl operand step
  rw [same, after_eq]
  cases step.effect <;> simp [via, reroute, h]

theorem after_via_paren (step : Step) :
    ((a.reroute place fresh).via place .paren 0 0).after fresh step =
      (a.after place step).map (reroute place fresh) := by
  have same : ((a.reroute place fresh).via place .paren 0 0).after fresh step = a.after fresh step := by
    apply after_congr <;> simp [via, reroute]
  rw [same, after_eq, after_eq]
  cases step.effect <;> simp [via, reroute]

end Plan.AccessNote

section

variable {p : Package} {root path : Path} {f : SourceFile} {place fresh : Span}

/-- What is enclosed is seen through the parentheses. -/
theorem Expr.access?_parens {e : Expr} (h : e.span = place) :
    (e.enclose place fresh).access? p root path =
      ((e.encloseBelow place fresh).access? p root path).map (·.via place .paren 0 0) := by
  rw [enclose_eq, if_pos h]
  subst h
  simp only [access?, ExprNode.access?]
  cases (e.encloseBelow e.span fresh).access? p root path <;> rfl

theorem Expr.access?_enclose {e : Expr}
    (he : (e.encloseBelow place fresh).access? p root path =
      (e.access? p root path).map (AccessNote.reroute place fresh)) :
    ∃ g, (e.enclose place fresh).access? p root path = (e.access? p root path).map g := by
  by_cases here : e.span = place
  · exact ⟨_, by rw [access?_parens here, he, Option.map_map]⟩
  · exact ⟨_, by rw [enclose_of_ne here, he]⟩

/-- A step from an operand is the one from what becomes of the operand. -/
theorem Expr.after_enclose {x : Expr}
    (hx : (x.encloseBelow place fresh).access? p root path =
      (x.access? p root path).map (AccessNote.reroute place fresh)) (step : Step) :
    ((x.enclose place fresh).access? p root path).bind
        (·.after (x.enclose place fresh).span step) =
      ((x.access? p root path).bind (·.after x.span step)).map (AccessNote.reroute place fresh) := by
  by_cases here : x.span = place
  · have span : (x.enclose place fresh).span = fresh := by rw [enclose_eq, if_pos here]
    rw [access?_parens here, hx, span, here]
    cases x.access? p root path with
    | none => rfl
    | some a => exact a.after_via_paren step
  · rw [enclose_of_ne here, hx]
    cases x.access? p root path with
    | none => rfl
    | some a => exact a.after_reroute_of_ne here step

theorem Package.memberAccess?_enclose {x : Expr} {sel : Ident}
    (h : x.span = place → p.isPackageName x = false) :
    p.memberAccess? root (x.enclose place fresh) sel =
      (p.memberAccess? root x sel).map (AccessNote.reroute place fresh) := by
  unfold Package.memberAccess?
  rw [x.isPackageName_enclose p h]
  cases p.objects.get? sel.object with
  | none => rfl
  | some o =>
    simp only
    split <;> rfl

/-- The access of an expression changes in nothing but what it goes through. -/
theorem Expr.access?_encloseBelow (plain : f.NamesNoPackageAt p place) (e : Expr)
    (he : f.Holds (.expr e)) :
    (e.encloseBelow place fresh).access? p root path =
      (e.access? p root path).map (AccessNote.reroute place fresh) := by
  obtain ⟨span, type, node⟩ := e
  cases node with
  | paren x | star x => exact after_enclose (access?_encloseBelow plain x (he.operand (p := p) rfl)) _
  | index x y | slice x low high max =>
    simp only [encloseBelow, ExprNode.enclose, access?, ExprNode.access?, x.type_enclose]
    exact after_enclose (access?_encloseBelow plain x (he.operand (p := p) rfl)) _
  | unary op x =>
    cases op with
    | addr | deref =>
      exact after_enclose (access?_encloseBelow plain x (he.operand (p := p) rfl)) _
    | neg | pos | not | xor | recv | tilde => rfl
  | selector x sel =>
    have operand := access?_encloseBelow plain x (he.operand (p := p) rfl)
    have step := after_enclose operand (.select (p.types.shape x.type))
    have member : p.memberAccess? root (x.enclose place fresh) sel =
        (p.memberAccess? root x sel).map (AccessNote.reroute place fresh) :=
      p.memberAccess?_enclose (plain span type x sel he)
    obtain ⟨g, hg⟩ := access?_enclose operand
    simp only [encloseBelow, ExprNode.enclose, access?, ExprNode.access?, x.type_enclose,
      x.kind_unparen_enclose]
    rw [hg] at step ⊢
    cases p.objects.get? sel.object with
    | none => rfl
    | some o =>
      simp only
      split
      · generalize x.access? p root path = access at step ⊢
        cases access with
        | none => exact member
        | some a =>
          simp only [Option.map_some, Option.bind_some] at step ⊢
          split
          · exact member
          · exact step
      · rfl
  | ident name object =>
    simp only [encloseBelow, ExprNode.enclose, access?, ExprNode.access?]
    cases p.objects.get? object with
    | none => rfl
    | some o =>
      simp only
      split <;> rfl
  | call => rfl
  | bad | ellipsis | basicLit | funcLit | compositeLit | indexList | typeAssert
  | binary | keyValue | arrayType | structType | funcType | interfaceType | mapType | chanType => rfl
termination_by structural e

end

/-! ## Nodes -/

theorem SourceFile.holds_of_mark {p : Package} {f : SourceFile} {a : Plan.Around} {e : Expr}
    (h : .expr a e ∈ f.marks p) : f.Holds (.expr e) := by
  obtain h | ⟨fs, n, encloses, own⟩ := mem_marks.mp h
  · cases h
  · obtain ⟨x, -, hx⟩ | hn := mem_ownMarks.mp own
    · cases x <;> cases hx
    · cases n with
      | expr e =>
        cases hn
        exact encloses.holds
      | stmt s => cases s <;> cases hn
      | func | gen => cases hn

namespace Depth

variable {p : Package} {root : Path} {f : SourceFile} {place fresh : Span} {m : Mark}

theorem Mark.exprSpan?_encloseBelow (place fresh : Span) (m : Mark) :
    (m.encloseBelow place fresh).exprSpan? = m.exprSpan? := by
  cases m <;> rfl

theorem Mark.nameSite?_encloseBelow (m : Mark) :
    (m.encloseBelow place fresh).nameSite? p root = m.nameSite? p root := by
  cases m with
  | expr a e =>
    obtain ⟨span, type, node⟩ := e
    cases node <;> rfl
  | name | literal | signature | block | stmt => rfl

theorem Mark.parens_of_ne (h : m.exprSpan? ≠ some place) : m.parens place fresh = [] := by
  cases m with
  | expr a e => exact if_neg fun here => h (congrArg some here)
  | name | literal | signature | block | stmt => rfl

/-- What a node of a file is, if the expression at a place of the file is put into parentheses: it
stands elsewhere, or it is the expression, and its access changes in nothing but what it goes through. -/
structure Mark.Suits (p : Package) (root : Path) (place fresh : Span) (m : Mark) : Prop where
  elsewhere : m.exprSpan? ≠ some fresh
  operand : m.exprSpan? = some place → ∃ a e, m = .expr a e
  access : (m.encloseBelow place fresh).access? p root =
    (m.access? p root).map (AccessNote.reroute place fresh)

/-- The same sites are looked up. -/
theorem Mark.Suits.seek (h : m.Suits p root place fresh) :
    (m.encloseBelow place fresh).seek p root = m.seek p root := by
  have site : ((m.encloseBelow place fresh).access? p root).bind (·.rootSite?) =
      (m.access? p root).bind (·.rootSite?) := by
    rw [h.access]
    cases m.access? p root with
    | none => rfl
    | some a => exact a.rootSite?_reroute
  rw [Mark.seek, Mark.seek, m.nameSite?_encloseBelow, site]

/-- Parentheses have their own span, and stand after the expression at the place. -/
theorem Mark.spans_enclose (place fresh : Span) (m : Mark) :
    (m.enclose place fresh).filterMap Mark.exprSpan? = m.exprSpan?.toList ∨
      m.exprSpan? = some place ∧ (m.enclose place fresh).filterMap Mark.exprSpan? = [place, fresh] := by
  by_cases here : m.exprSpan? = some place
  · cases m with
    | expr a e =>
      obtain rfl := Option.some.inj here
      refine .inr ⟨rfl, ?_⟩
      rw [enclose, parens, if_pos rfl, Expr.enclose_eq, if_pos rfl]
      rfl
    | name | literal | signature | block | stmt => exact .inl rfl
  · rw [enclose, m.parens_of_ne here]
    refine .inl ?_
    cases m <;> rfl

end Depth

/-! ## Files -/

namespace SourceFile

open Depth (Mark)

variable {p : Package} {root : Path} {f : SourceFile} {place fresh : Span}

def exprSpans (f : SourceFile) : List Span := f.headings.filterMap Heading.exprSpan?

theorem exprSpans_perm (p : Package) (f : SourceFile) :
    ((f.marks p).filterMap Mark.exprSpan?).Perm f.exprSpans := by
  have perm := (Depth.accounts_file p f).headings.filterMap Heading.exprSpan?
  rw [List.filterMap_map] at perm
  have same : Heading.exprSpan? ∘ Mark.heading = Mark.exprSpan? := by
    funext m
    cases m <;> rfl
  rwa [same] at perm

theorem Holds.mem_exprSpans {e : Expr} (h : f.Holds (.expr e)) : e.span ∈ f.exprSpans := by
  have mem : Heading.expr e.node.kind e.span ∈ f.headings :=
    List.mem_cons_of_mem _ (List.mem_flatMap.mpr ⟨_, mem_nodes_iff.mpr h, by
      simp [Node.headings, Node.heading?]⟩)
  exact List.mem_filterMap.mpr ⟨_, mem, rfl⟩

theorem Holds.eq_mark {e : Expr} (h : f.Holds (.expr e)) (distinct : f.exprSpans.Nodup) {m : Mark}
    (hm : m ∈ f.marks p) (hs : m.exprSpan? = some e.span) : ∃ a, m = .expr a e := by
  obtain ⟨a, -, he⟩ := h.exists_mark (p := p)
  have spans := (exprSpans_perm p f).nodup_iff.mpr distinct
  exact ⟨a, eq_of_nodup_filterMap spans hm he hs rfl⟩

/-- The spans stay distinct. -/
theorem nodup_spans_enclose (p : Package) (distinct : f.exprSpans.Nodup) (new : fresh ∉ f.exprSpans) :
    (((f.enclose place fresh).marks p).filterMap Mark.exprSpan?).Nodup := by
  have spans := exprSpans_perm p f
  have elsewhere : ∀ m ∈ f.marks p, m.exprSpan? ≠ some fresh := fun m hm hs =>
    new (spans.mem_iff.mp (List.mem_filterMap.mpr ⟨m, hm, hs⟩))
  have told : ∀ m ∈ f.marks p, ∀ span ∈ (m.enclose place fresh).filterMap Mark.exprSpan?,
      m.exprSpan? = some span ∨ m.exprSpan? = some place ∧ span = fresh := by
    intro m _ span hs
    obtain own | ⟨here, both⟩ := m.spans_enclose place fresh
    · exact .inl (Option.mem_toList.mp (own ▸ hs))
    · rw [both] at hs
      obtain rfl | hs := List.mem_cons.mp hs
      · exact .inl here
      · exact .inr ⟨here, List.mem_singleton.mp hs⟩
  rw [marks_enclose, List.filterMap_flatMap, List.nodup_flatMap]
  constructor
  · intro m hm
    obtain own | ⟨here, both⟩ := m.spans_enclose place fresh
    · rw [own]
      cases m.exprSpan? <;> simp
    · have apart : place ≠ fresh := fun same => elsewhere m hm (same ▸ here)
      simp [both, apart]
  · refine (List.pairwise_filterMap.mp (spans.nodup_iff.mpr distinct)).imp_of_mem ?_
    intro m m' hm hm' ne span hs hs'
    obtain first | ⟨first, rfl⟩ := told m hm span hs
    · obtain second | ⟨-, rfl⟩ := told m' hm' span hs'
      · exact ne _ first _ second rfl
      · exact elsewhere m hm first
    · obtain second | ⟨second, -⟩ := told m' hm' _ hs'
      · exact elsewhere m' hm' second
      · exact ne _ first _ second rfl

/-- The parentheses are recorded, and so is what was recorded before. -/
theorem Holds.mem_spans_enclose {e : Expr} (h : f.Holds (.expr e)) (p : Package) {span : Span}
    (hs : span ∈ f.exprSpans ∨ span = fresh) :
    span ∈ ((f.enclose e.span fresh).marks p).filterMap Mark.exprSpan? := by
  rw [marks_enclose, List.filterMap_flatMap, List.mem_flatMap]
  obtain hs | rfl := hs
  · obtain ⟨m, hm, here⟩ := List.mem_filterMap.mp ((exprSpans_perm p f).mem_iff.mpr hs)
    exact ⟨m, hm, List.mem_filterMap.mpr
      ⟨_, List.mem_cons_self, (m.exprSpan?_encloseBelow e.span fresh).trans here⟩⟩
  · obtain ⟨a, -, hm⟩ := h.exists_mark (p := p)
    have parens : Mark.expr a (e.enclose e.span span) ∈ (Mark.expr a e).enclose e.span span :=
      List.mem_cons_of_mem _ (by simp [Mark.parens])
    refine ⟨_, hm, List.mem_filterMap.mpr ⟨_, parens, ?_⟩⟩
    rw [Expr.enclose_eq, if_pos rfl]
    rfl

/-- The nodes of a file around an expression that is no name of a package before a selector. -/
theorem Holds.suits {e : Expr} (h : f.Holds (.expr e)) (distinct : f.exprSpans.Nodup)
    (new : fresh ∉ f.exprSpans)
    (operand : ∀ span type sel, f.Holds (.expr ⟨span, type, .selector e sel⟩) →
      p.isPackageName e = false) :
    ∀ m ∈ f.marks p, m.Suits p root e.span fresh := by
  have spans := exprSpans_perm p f
  have plain : f.NamesNoPackageAt p e.span := by
    intro span type x sel hx same
    have there := hx.operand (p := p) rfl
    obtain ⟨a, -, hm⟩ := there.exists_mark (p := p)
    obtain ⟨b, he⟩ := h.eq_mark distinct hm (congrArg some same)
    cases he
    exact operand span type sel hx
  intro m hm
  refine ⟨fun hs => ?_, fun hs => ?_, ?_⟩
  · exact new (spans.mem_iff.mp (List.mem_filterMap.mpr ⟨m, hm, hs⟩))
  · obtain ⟨a, rfl⟩ := h.eq_mark distinct hm hs
    exact ⟨a, e, rfl⟩
  · cases m with
    | expr a x => exact x.access?_encloseBelow plain (holds_of_mark hm)
    | name | literal | signature | block | stmt => rfl

end SourceFile
end AccessDepth
