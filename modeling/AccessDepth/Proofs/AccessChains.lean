import AccessDepth.Proofs.AccessRows
import Mathlib.Algebra.Ring.Int.Defs

/-!
# AccessDepth.Proofs.AccessChains

How stored accesses go through each other.

* `SourceFile.accessTree` — the expression nodes of a file in the order in which they are recorded,
  each with its span and the access that it is.
* `Contexts.GivesTrees` — a file is always given with the same tree, in which no span is repeated.
* `AccessRow.Through` — an access is one step of its kind away from an earlier one of its file.
* `Store.Follows` — the accesses on the way from one to another.
* `Contexts.accesses_addUp` — so every stored access goes through others until a name or a call is
  reached, and its depth and uncertainty are what the steps add up to.
-/

namespace AccessDepth

open Plan (Around AccessNote)

/-! ## What is given -/

def Plan.AccessNote.unplaced (n : AccessNote) : AccessNote := { n with base := none }

/-- The expression nodes of a file, each with its span and the access that it is. -/
def SourceFile.accessTree (p : Package) (root : Path) (f : SourceFile) :
    List (Span × Option AccessNote) :=
  (f.marks p).filterMap fun m =>
    m.exprSpan?.map fun span => (span, (m.access? p root).map AccessNote.unplaced)

section

variable {p p' : Package} {root root' path : Path}

theorem Plan.AccessNote.map_after {a a' : Option AccessNote}
    (h : a.map AccessNote.unplaced = a'.map AccessNote.unplaced) (operand : Span) (step : Step) :
    (a.bind (·.after operand step)).map AccessNote.unplaced =
      (a'.bind (·.after operand step)).map AccessNote.unplaced := by
  have first (a : Option AccessNote) : (a.bind (·.after operand step)).map AccessNote.unplaced =
      (a.map AccessNote.unplaced).bind (·.after operand step) := by
    cases a with
    | none => rfl
    | some a => cases he : step.effect <;> simp [AccessNote.after_eq, he, AccessNote.unplaced, via]
  rw [first, first, h]

/-- Two packages whose tables resolve the same things. -/
structure Package.ResolvesLike (p p' : Package) : Prop where
  objects : ∀ ref, p.objects.get? ref = p'.objects.get? ref
  shapes : ∀ ref, p.types.shape ref = p'.types.shape ref

theorem Package.ResolvesLike.memberAccess (h : p.ResolvesLike p') (root root' : Path) (x : Expr)
    (sel : Ident) :
    (p.memberAccess? root x sel).map AccessNote.unplaced =
      (p'.memberAccess? root' x sel).map AccessNote.unplaced := by
  have name : p.isPackageName x = p'.isPackageName x := by
    simp only [Package.isPackageName, h.objects]
  simp only [Package.memberAccess?, h.objects, name]
  split
  · split <;> rfl
  · rfl

mutual

theorem Expr.access_unplaced (h : p.ResolvesLike p') (e : Expr) :
    (e.access? p root path).map AccessNote.unplaced =
      (e.access? p' root' path).map AccessNote.unplaced := by
  obtain ⟨span, type, node⟩ := e
  exact ExprNode.access_unplaced h span node
termination_by structural e

theorem ExprNode.access_unplaced (h : p.ResolvesLike p') (span : Span) (node : ExprNode) :
    (node.access? p root path span).map AccessNote.unplaced =
      (node.access? p' root' path span).map AccessNote.unplaced := by
  cases node with
  | ident name object =>
    simp only [ExprNode.access?, h.objects]
    split
    · split <;> rfl
    · rfl
  | call => rfl
  | paren x | star x => exact AccessNote.map_after (Expr.access_unplaced h x) _ _
  | index x | slice x =>
    simp only [ExprNode.access?, h.shapes]
    exact AccessNote.map_after (Expr.access_unplaced h x) _ _
  | unary op x =>
    cases op with
    | addr | deref => exact AccessNote.map_after (Expr.access_unplaced h x) _ _
    | neg | pos | not | xor | recv | tilde => rfl
  | selector x sel =>
    have operand := Expr.access_unplaced h x
    have member := h.memberAccess root root' x sel
    simp only [ExprNode.access?, h.objects, h.shapes]
    generalize x.access? p root path = a at operand ⊢
    generalize x.access? p' root' path = a' at operand ⊢
    split
    · split
      · cases a with
        | none =>
          cases a' with
          | none => exact member
          | some => cases operand
        | some a =>
          cases a' with
          | none => cases operand
          | some a' =>
            simp only
            split
            · exact member
            · exact AccessNote.map_after operand _ _
      · rfl
    · rfl
  | bad | ellipsis | basicLit | funcLit | compositeLit | indexList | typeAssert | binary | keyValue
  | arrayType | structType | funcType | interfaceType | mapType | chanType => rfl
termination_by structural node

end

/-- The tree of a file depends on the tables only through what they resolve, and not on the root. -/
theorem SourceFile.accessTree_eq (h : p.ResolvesLike p') (root root' : Path) (f : SourceFile) :
    f.accessTree p root = f.accessTree p' root' := by
  have types : p.typeOfName = p'.typeOfName := by
    funext i
    simp only [Package.typeOfName, h.objects]
  have decls (ds : List Decl) : Depth.declsMarks p f.path ds = Depth.declsMarks p' f.path ds := by
    induction ds with
    | nil => rfl
    | cons d ds ih => cases d <;> simp [Depth.declsMarks, Depth.funcDeclMarks, types, ih]
  have access (m : Depth.Mark) : (m.access? p root).map AccessNote.unplaced =
      (m.access? p' root').map AccessNote.unplaced := by
    cases m with
    | expr a e => exact e.access_unplaced h
    | name | literal | signature | block | stmt => rfl
  simp only [accessTree, SourceFile.marks, decls, access]

end

/-- Nodes are given with their operands, and what is given at a place is always the same access. -/
structure Consistent (given : Package → Path → Depth.Mark → Prop) : Prop where
  operand : ∀ {p root a e x step}, given p root (.expr a e) → e.step? p = some (x, step) →
    given p root (.expr a x)
  same : ∀ {p root m p' root' m' span}, given p root m → given p' root' m' →
    m.around.path.components = m'.around.path.components → m.exprSpan? = some span →
      m'.exprSpan? = some span →
        (m.access? p root).map AccessNote.unplaced = (m'.access? p' root').map AccessNote.unplaced

namespace Contexts

variable {ι : Type} [DecidableEq ι] {w : Contexts ι} {cs : List (Call ι)}

/-- What a call sees of a file in its depth pass. -/
def tree (w : Contexts ι) (c : Call ι) (f : SourceFile) : List (Span × Option AccessNote) :=
  f.accessTree c.package (w.context c.context).corpusRoot

/-- A file is always given with the same tree, resolved in the same way, and no two of its expression
nodes share a span. -/
structure GivesTrees (w : Contexts ι) (cs : List (Call ι)) : Prop where
  same : ∀ c ∈ cs, ∀ c' ∈ cs, c.mode.makesDepths = true → c'.mode.makesDepths = true →
    ∀ f ∈ c.package.usableFiles.1, ∀ f' ∈ c'.package.usableFiles.1,
      f.path.components = f'.path.components → w.tree c f = w.tree c' f'
  distinct : ∀ c ∈ cs, c.mode.makesDepths = true → ∀ f ∈ c.package.usableFiles.1,
    ((w.tree c f).map (·.1)).Nodup

omit [DecidableEq ι] in
/-- If a file is always given with the same tree, so are its nodes. -/
theorem GivesTrees.consistent (h : w.GivesTrees cs) : Consistent (w.Given cs) where
  operand := by
    rintro p root a e x step ⟨c, hc, makes, rfl, rfl, hm⟩ hs
    obtain ⟨f, hf, hm⟩ := List.mem_flatMap.mp hm
    exact ⟨c, hc, makes, rfl, rfl, List.mem_flatMap.mpr ⟨f, hf, f.operand_mem hm hs⟩⟩
  same := by
    rintro p root m p' root' m' span ⟨c, hc, makes, rfl, rfl, hm⟩ ⟨c', hc', makes', rfl, rfl, hm'⟩
      path hs hs'
    obtain ⟨f, hf, hm⟩ := List.mem_flatMap.mp hm
    obtain ⟨f', hf', hm'⟩ := List.mem_flatMap.mp hm'
    rw [f.marks_inFile _ m hm, f'.marks_inFile _ m' hm'] at path
    have same := h.same c hc c' hc' makes makes' f hf f' hf' path
    have there : (span, (m.access? c.package (w.context c.context).corpusRoot).map
        AccessNote.unplaced) ∈ w.tree c' f' :=
      same ▸ List.mem_filterMap.mpr ⟨m, hm, by simp [hs]⟩
    have there' : (span, (m'.access? c'.package (w.context c'.context).corpusRoot).map
        AccessNote.unplaced) ∈ w.tree c' f' :=
      List.mem_filterMap.mpr ⟨m', hm', by simp [hs']⟩
    have one := List.inj_on_of_nodup_map (h.distinct c' hc' makes' f' hf') there there' rfl
    exact congrArg Prod.snd one

end Contexts

/-! ## From access to access -/

/-- An access is one step of its kind away from another one of its file, which was recorded before
it. -/
structure AccessRow.Through (s : Store) (r r' : AccessRow) : Prop where
  inner : r.inner = some ⟨r'.expr.value⟩
  earlier : r'.expr.value < r.expr.value
  file : ∃ e ∈ s.expressions, ∃ e' ∈ s.expressions,
    e.id = r.expr ∧ e'.id = r'.expr ∧ e'.file = e.file
  baseName : r'.baseName = r.baseName
  depth : r'.depth = r.depth - r.kind.depthStep
  uncertainty : r'.uncertainty = r.uncertainty - r.kind.uncertaintyStep

/-- The accesses on the way from one to another, each with the one that it goes through after it. The
last one is left out. -/
inductive Store.Follows (s : Store) : AccessRow → List AccessRow → AccessRow → Prop
  | nil {r : AccessRow} : Follows s r [] r
  | cons {r r' last : AccessRow} {rs : List AccessRow} : r' ∈ s.accesses →
      r.inner = some ⟨r'.expr.value⟩ → Follows s r' rs last → Follows s r (r :: rs) last

section

variable {s : Store} {given : Package → Path → Depth.Mark → Prop}

/-- If the expression of an access has a row, the same access is stored, perhaps with another base. -/
theorem Consistent.stored (hc : Consistent given) (hs : s.Sound)
    (hi : (Invariant.rows given).Holds s) {p : Package} {root : Path} {a : Around} {x : Expr}
    {n : AccessNote} (hg : given p root (.expr a x)) (hn : x.access? p root a.path = some n)
    {file : FileId} (hf : s.IsFile file a.path) {id : ExprId}
    (found : s.exprAt? file x.span = some id) :
    ∃ e ∈ s.expressions, e.id = id ∧ e.file = file ∧
      ∃ (n' : AccessNote) (b : NewAccess), n'.unplaced = n.unplaced ∧ n'.Fits s file b ∧
        b.row id ∈ s.accesses := by
  obtain ⟨e, he, rfl⟩ := Option.map_eq_some_iff.mp found
  have place := List.find?_some he
  simp only [Bool.and_eq_true, beq_iff_eq] at place
  obtain ⟨rfl, span⟩ := place
  have mem := List.mem_of_find?_eq_some he
  obtain ⟨p', root', m, hm, row⟩ := hi e mem
  have same := hc.same hg hm (hf.components hs row.isFile) (by rw [Depth.Mark.exprSpan?, span])
    row.span
  have here : (Depth.Mark.expr a x).access? p root = some n := hn
  rw [here] at same
  obtain ⟨n', hn', alike⟩ := Option.map_eq_some_iff.mp same.symm
  obtain ⟨found, fits, only, -⟩ := row.access
  rw [hn'] at fits
  cases fits with
  | @some _ b fits =>
    have stored : b.row e.id ∈ s.accessesOf e.id := by
      rw [only]
      exact List.mem_singleton_self _
    exact ⟨e, mem, rfl, rfl, n', b, alike, fits, List.mem_of_mem_filter stored⟩

/-- The access that one goes through is stored. -/
theorem AccessRow.IsOf.through (hc : Consistent given) (hs : s.Sound)
    (hi : (Invariant.rows given).Holds s) {p : Package} {root : Path} {a : Around} {x : Expr}
    {e : ExprRow} {r : AccessRow} (hg : given p root (.expr a x)) (h : r.IsOf s p root a x e)
    {i : AccessId} (hr : r.inner = some i) :
    ∃ r' ∈ s.accesses, r'.expr.value = i.value ∧ r.Through s r' := by
  obtain ⟨n, b, hn, fits, rfl, earlier⟩ := h.access
  obtain ⟨j, hj, rfl⟩ := Option.map_eq_some_iff.mp hr
  obtain ⟨operand, through, found⟩ := fits.inner_some hj
  obtain ⟨y, step, m, hy, rfl, hm, after⟩ := (x.rooted_of_access hn).through through
  obtain ⟨-, name, -, depth, uncertainty⟩ := AccessNote.after_steps after
  obtain ⟨e', he', rfl, file, n', b', alike, fits', stored⟩ :=
    hc.stored hs hi (hc.operand hg hy) hm h.isFile found
  obtain ⟨-, -, sameDepth, sameUncertainty, sameName, -⟩ := AccessNote.mk.inj alike
  refine ⟨b'.row e'.id, stored, rfl, ?_⟩
  constructor
  case inner => exact hr
  case earlier => exact earlier _ hj
  case file => exact ⟨e, h.mem, e', he', rfl, rfl, file⟩
  all_goals simp only [NewAccess.row]
  case baseName => rw [fits'.baseName, fits.baseName, name]; exact sameName
  case depth =>
    have : n'.depth = m.depth := sameDepth
    rw [fits'.depth, fits.depth, fits.kind]
    omega
  case uncertainty =>
    have : n'.uncertainty = m.uncertainty := sameUncertainty
    rw [fits'.uncertainty, fits.uncertainty, fits.kind]
    omega

/-- An access goes through others until a name or a call is reached. -/
theorem Store.follows_root (hs : s.Sound) (hi : (Invariant.rows given).Holds s)
    (hc : Consistent given) {r : AccessRow} (hr : r ∈ s.accesses) :
    ∃ rs last, s.Follows r rs last ∧ last.inner = none ∧
      (last.kind = .ident ∨ last.kind = .functionCall) ∧
      r.depth = last.depth + (rs.map (·.kind.depthStep)).sum ∧
      r.uncertainty = (rs.map (·.kind.uncertaintyStep)).sum := by
  induction hn : r.expr.value.toNat using Nat.strongRecOn generalizing r with
  | ind number ih =>
    obtain ⟨p, root, a, x, e, hg, row⟩ := Invariant.isOf_of_mem hs hi hr
    cases inner : r.inner with
    | none =>
      obtain ⟨kind, certain, -⟩ := row.exclusive.root inner
      exact ⟨[], r, .nil, inner, kind, by simp, by simpa using certain⟩
    | some i =>
      obtain ⟨r', hr', -, through⟩ := row.through hc hs hi hg inner
      have positive : 0 < r.expr.value := row.id ▸ row.number_pos
      have earlier := through.earlier
      obtain ⟨rs, last, follows, root, kind, depth, uncertainty⟩ :=
        ih r'.expr.value.toNat (by omega) hr' rfl
      refine ⟨r :: rs, last, .cons hr' through.inner follows, root, kind, ?_, ?_⟩
      · have := through.depth
        rw [List.map_cons, List.sum_cons]
        omega
      · have := through.uncertainty
        rw [List.map_cons, List.sum_cons]
        omega

end

namespace Contexts

variable {ι : Type} [DecidableEq ι] {w : Contexts ι} {cs : List (Call ι)}

/-- From an empty store, wherever the analyses stop: if a file is always given with the same tree,
each access goes through a stored one that is one step of its kind away, until a name or a call is
reached, and its depth and uncertainty are what the steps add up to. -/
theorem accesses_addUp (hn : ∀ i, (w.context i).IsNew) (hw : w.store = .initial)
    (ht : w.GivesTrees cs) :
    let s := (w.calls cs).store
    ∀ r ∈ s.accesses,
      (∀ i, r.inner = some i → ∃ r' ∈ s.accesses, r'.expr.value = i.value ∧ r.Through s r') ∧
      ∃ rs last, s.Follows r rs last ∧ last.inner = none ∧
        (last.kind = .ident ∨ last.kind = .functionCall) ∧
        r.depth = last.depth + (rs.map (·.kind.depthStep)).sum ∧
        r.uncertainty = (rs.map (·.kind.uncertaintyStep)).sum := by
  intro s r hr
  have kept := calls_rows hn hw (List.Subset.refl cs)
  obtain ⟨p, root, a, x, e, hg, row⟩ := Invariant.isOf_of_mem kept.sound kept.holds hr
  refine ⟨fun i hi => row.through ht.consistent kept.sound kept.holds hg hi, ?_⟩
  exact Store.follows_root kept.sound kept.holds ht.consistent hr

/-- The small package in two modules with roots of their own: once until some transactions are made,
and then as a package of another name. -/
theorem accesses_sample_addUp :
    let w : Contexts Bool := ⟨.initial, fun i => ⟨⟨if i then "corpus" else "."⟩, .empty 4, .empty 1⟩⟩
    let cs : List (Call Bool) :=
      [⟨true, .sample, .all, some 12⟩, ⟨false, { Package.sample with name := "b" }, .depth, none⟩]
    let s := (w.calls cs).store
    s.accesses.length = 2 ∧ ∀ r ∈ s.accesses,
      (∀ i, r.inner = some i → ∃ r' ∈ s.accesses, r'.expr.value = i.value ∧ r.Through s r') ∧
      ∃ rs last, s.Follows r rs last ∧ last.inner = none ∧
        (last.kind = .ident ∨ last.kind = .functionCall) ∧
        r.depth = last.depth + (rs.map (·.kind.depthStep)).sum ∧
        r.uncertainty = (rs.map (·.kind.uncertaintyStep)).sum := by
  intro w cs s
  have new (i : Bool) : (w.context i).IsNew := ⟨rfl, rfl⟩
  have tree (c : Call Bool) (hc : c ∈ cs) (f : SourceFile) (hf : f ∈ c.package.usableFiles.1) :
      f = .sample ∧ w.tree c f = SourceFile.sample.accessTree .sample ⟨"corpus"⟩ := by
    simp only [cs, List.mem_cons, List.not_mem_nil, or_false] at hc
    obtain rfl | rfl := hc <;> obtain rfl := List.mem_singleton.mp hf
    · exact ⟨rfl, rfl⟩
    · exact ⟨rfl, SourceFile.accessTree_eq ⟨fun _ => rfl, fun _ => rfl⟩ _ _ _⟩
  have given : w.GivesTrees cs := by
    constructor
    · intro c hc c' hc' _ _ f hf f' hf' _
      rw [(tree c hc f hf).2, (tree c' hc' f' hf').2]
    · intro c hc _ f hf
      rw [(tree c hc f hf).2]
      decide +kernel
  exact ⟨by decide +kernel, accesses_addUp new rfl given⟩

end Contexts
end AccessDepth
