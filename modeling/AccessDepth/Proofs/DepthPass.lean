import AccessDepth.Proofs.Plan.Accesses
import AccessDepth.Proofs.Plan.Analysis

/-!
# AccessDepth.Proofs.DepthPass

What the depth pass leaves in the store.

* `Mark.exprSpan?`, `Mark.access?` — where a node has an expression row, and the access that it is.
* `Package.marks` — the nodes of a package in the order in which they are recorded.
* `Store.RecordsAccesses` — the accesses of the expressions of a file are those that the syntax tells,
  each with the variable at its root.
* `analyze_recordsAccesses` — so they are after an analysis, if no two nodes of the file share a span.
-/

namespace AccessDepth

open Plan (Around ExprNote AccessNote Item Op Machine Setting)

namespace Depth

/-- The span of the row of a node among the expressions, if it has one. -/
def Mark.exprSpan? : Mark → Option Span
  | .expr _ e => some e.span
  | .name _ i => some i.span
  | .literal _ l => some l.span
  | .signature _ span _ => some span
  | .block .. | .stmt .. => none

/-- The access that a node is. Names that are no operands are none. -/
def Mark.access? (p : Package) (root : Path) : Mark → Option AccessNote
  | .expr a e => e.access? p root a.path
  | _ => none

section

variable {p : Package} {root : Path}

theorem record_notMem_mention {a : Around} {item : Item} (site : Option SourceSite) :
    Op.record a item ∉ Plan.mention site := by
  cases site <;> simp [Plan.mention]

/-- A node with an expression row is recorded with its access, after what it goes by. -/
theorem Mark.code_eq (p : Package) (root : Path) {m : Mark} {span : Span} (h : m.exprSpan? = some span) :
    ∃ before kind detail,
      m.code p root =
        before ++ [.record m.around (.expr kind span detail (m.access? p root))] ∧
      ∀ a item, Op.record a item ∉ before := by
  cases m with
  | block | stmt => cases h
  | expr a e =>
    cases h
    refine ⟨Plan.mention (mentioned p root e) ++ ((exprNote p root e).2.2.map (.type p.types) ++
      [.type p.types (exprNote p root e).1]), e.node.kind, (exprNote p root e).2.1, ?_, ?_⟩
    · simp [Mark.code, exprCode, Mark.around, Mark.access?]
    · simp [record_notMem_mention]
  | name a i =>
    cases h
    refine ⟨Plan.mention (p.declaration? root i.object) ++ [.type p.types (p.typeOfName i)], .ident,
      .ident i.name (p.declaration? root i.object), ?_, ?_⟩
    · simp [Mark.code, nameCode, exprCode, Mark.around, Mark.access?]
    · simp [record_notMem_mention]
  | literal a l =>
    cases h
    exact ⟨[.type p.types none], .basicLit, .none, rfl, by simp⟩
  | signature a span type =>
    cases h
    exact ⟨[.type p.types type], .funcType, .none, rfl, by simp⟩

/-- The only expression that is recorded of a node stands at its span. -/
theorem Mark.place_of_code {m : Mark} {a : Around} {item : Item}
    (h : Op.record a item ∈ m.code p root) (ht : item.table = .expressions) :
    a = m.around ∧ ∃ span, m.exprSpan? = some span ∧ item.place = Cell.ofSpan span := by
  cases hs : m.exprSpan? with
  | some span =>
    obtain ⟨before, kind, detail, code, free⟩ := m.code_eq p root hs
    rw [code] at h
    obtain h | h := List.mem_append.mp h
    · exact absurd h (free a item)
    · cases List.mem_singleton.mp h
      exact ⟨rfl, span, rfl, rfl⟩
  | none =>
    cases m with
    | expr | name | literal | signature => cases hs
    | block a span =>
      cases List.mem_singleton.mp h
      cases ht
    | stmt a s =>
      simp only [Mark.code, List.mem_append, List.mem_map, reduceCtorEq, and_false, exists_false,
        false_or, List.mem_singleton] at h
      cases h
      cases ht

end

end Depth

/-! ## The nodes of a package -/

/-- The nodes that the depth pass records, in order. -/
def Package.marks (p : Package) : List Depth.Mark := p.usableFiles.1.flatMap (·.marks p)

/-- Where the nodes of a file have their rows among the expressions. -/
def Package.exprSpans (p : Package) (path : Path) : List Span :=
  (p.marks.filter (·.around.path = path)).filterMap (·.exprSpan?)

/-- The node that has the row of a span of a file: the first one that stands there. -/
def Package.nodeAt? (p : Package) (path : Path) (span : Span) : Option Depth.Mark :=
  p.marks.find? fun k => k.around.path = path && k.exprSpan? = some span

/-- Modes that make the depth pass. -/
def Mode.makesDepths : Mode → Bool
  | .depth | .all => true
  | _ => false

/-- The passes of a mode. Only a mode that makes depths makes the depth pass. -/
theorem Mode.of_mem_passes {m : Mode} {pass : Package → SourceFile → Analyze Unit}
    (h : pass ∈ m.passes) : pass = Definitions.run ∨ pass = Depth.run ∧ m.makesDepths = true ∨
      pass = Allocation.containers ∨ pass = Allocation.sizes := by
  cases m <;> simp only [passes, List.mem_cons, List.not_mem_nil, or_false] at h
  case all => exact h.imp_right fun h => .inl ⟨h, rfl⟩
  all_goals simp [makesDepths, h]

namespace Package

variable {p : Package} {root : Path} {files : List SourceFile}

theorem mark_of_passCode {a : Around} {item : Item}
    (h : Op.record a item ∈ Plan.passCode files (·.depthCode p root))
    (ht : item.table = .expressions) :
    ∃ k ∈ files.flatMap (·.marks p), a = k.around ∧
      ∃ span, k.exprSpan? = some span ∧ item.place = Cell.ofSpan span := by
  obtain ⟨f, hf, h⟩ := List.mem_flatMap.mp h
  obtain h | h := List.mem_cons.mp h
  · cases h
  · obtain ⟨k, hk, h⟩ := List.mem_flatMap.mp h
    exact ⟨k, List.mem_flatMap.mpr ⟨f, hf, hk⟩, k.place_of_code h ht⟩

/-- A mode that makes the depth pass makes it at the end. -/
theorem code_of_makesDepths (p : Package) (root : Path) {m : Mode} (h : m.makesDepths = true) :
    ∃ before, p.code root m =
        before ++ Plan.passCode p.usableFiles.1 (·.depthCode p root) ∧
      ∀ a item, Op.record a item ∈ before → item.table ≠ .expressions := by
  cases m with
  | defs | make | allocSizes => cases h
  | depth =>
    refine ⟨[], by simp [code, Mode.codes], ?_⟩
    intro a item hm
    cases hm
  | all =>
    refine ⟨p.code root .defs, by simp [code, Mode.codes], fun a item hm ht => ?_⟩
    obtain ⟨f, -, ho⟩ := p.code_of root .defs _ hm
    have defines := (Plan.of_record.mp ho).2
    rw [ht] at defines
    simp [Mode.tables, Definitions.tables] at defines

theorem nodeAt?_of_nodup {k : Depth.Mark} (hk : k ∈ p.marks) {span : Span}
    (hs : k.exprSpan? = some span) (hn : (p.exprSpans k.around.path).Nodup) :
    p.nodeAt? k.around.path span = some k := by
  obtain ⟨before, after, split⟩ := List.append_of_mem hk
  refine List.find?_eq_some_iff_append.mpr ⟨by simp [hs], before, after, split, fun k' hk' => ?_⟩
  simp only [Bool.not_eq_true', Bool.and_eq_false_imp, decide_eq_true_eq, decide_eq_false_iff_not]
  intro hp hs'
  unfold exprSpans at hn
  rw [split, List.filter_append, List.filterMap_append, List.filter_cons_of_pos (by simp),
    List.filterMap_cons_some hs] at hn
  have here : span ∈ (before.filter (·.around.path = k.around.path)).filterMap (·.exprSpan?) :=
    List.mem_filterMap.mpr ⟨k', List.mem_filter.mpr ⟨hk', by simpa using hp⟩, hs'⟩
  exact List.disjoint_of_nodup_append hn here List.mem_cons_self

/-- The code of a package at the node that has the row of a span: nothing is recorded there before it,
and no variables are added after it. -/
theorem code_at (p : Package) (root : Path) {m : Mode} (hm : m.makesDepths = true) {path : Path}
    {span : Span} {k : Depth.Mark} (hk : p.nodeAt? path span = some k) :
    k.around.path = path ∧ ∃ before kind detail after,
      p.code root m =
        before ++ .record k.around (.expr kind span detail (k.access? p root)) :: after ∧
      (∀ b item, .record b item ∈ before → item.table = .expressions →
        b.path.text = path.text → item.place ≠ Cell.ofSpan span) ∧
      ∀ o ∈ after, o.table ≠ .variables := by
  obtain ⟨first, whole, defines⟩ := p.code_of_makesDepths root hm
  rw [nodeAt?, marks, List.find?_flatMap] at hk
  obtain ⟨files, f, files', hfiles, hk, others⟩ := List.findSome?_eq_some_iff.mp hk
  obtain ⟨here, marks, marks', hmarks, earlier⟩ := List.find?_eq_some_iff_append.mp hk
  simp only [Bool.and_eq_true, decide_eq_true_eq] at here
  obtain ⟨hp, hs⟩ := here
  obtain ⟨near, kind, detail, code, free⟩ := k.code_eq p root hs
  have later : Plan.passCode p.usableFiles.1 (·.depthCode p root) =
      (Plan.passCode files (·.depthCode p root) ++
        (.file f.path :: Depth.codeOf p root marks) ++ near) ++
      .record k.around (.expr kind span detail (k.access? p root)) ::
        (Depth.codeOf p root marks' ++ Plan.passCode files' (·.depthCode p root)) := by
    rw [hfiles, Plan.passCode, List.flatMap_append, List.flatMap_cons, SourceFile.depthCode, hmarks,
      Depth.codeOf_append, ← List.singleton_append (l := marks'), Depth.codeOf_append,
      Depth.codeOf_singleton, code]
    simp [Plan.passCode]
  refine ⟨hp, first ++ (Plan.passCode files (·.depthCode p root) ++
    (.file f.path :: Depth.codeOf p root marks) ++ near), kind, detail,
    Depth.codeOf p root marks' ++ Plan.passCode files' (·.depthCode p root), ?_, ?_, ?_⟩
  · exact whole.trans ((congrArg (first ++ ·) later).trans (List.append_assoc ..).symm)
  · intro b item hb ht hpath hplace
    have elsewhere {k' : Depth.Mark}
        (hk' : (decide (k'.around.path = path) && decide (k'.exprSpan? = some span)) = false)
        (ha : b = k'.around) (found : ∃ s, k'.exprSpan? = some s ∧ item.place = Cell.ofSpan s) :
        False := by
      obtain ⟨s, hs', he⟩ := found
      obtain rfl := Cell.ofSpan_inj.mp (he.symm.trans hplace)
      subst ha
      simp [show k'.around.path = path from congrArg Path.mk hpath, hs'] at hk'
    simp only [List.mem_append] at hb
    obtain hb | (hb | hb) | hb := hb
    · exact defines b item hb ht
    · obtain ⟨k', hk', ha, found⟩ := mark_of_passCode hb ht
      obtain ⟨g, hg, hk'⟩ := List.mem_flatMap.mp hk'
      have none := List.find?_eq_none.mp (others g hg) k' hk'
      exact elsewhere (Bool.eq_false_iff.mpr none) ha found
    · obtain hb | hb := List.mem_cons.mp hb
      · cases hb
      · obtain ⟨k', hk', hb⟩ := List.mem_flatMap.mp hb
        obtain ⟨ha, found⟩ := k'.place_of_code hb ht
        exact elsewhere ((Bool.not_eq_true' _).mp (earlier k' hk')) ha found
    · exact free b item hb
  · intro o ho hv
    have within : o ∈ Plan.passCode p.usableFiles.1 (·.depthCode p root) :=
      later ▸ List.mem_append_right _ (List.mem_cons_of_mem _ ho)
    obtain ⟨f', -, ho⟩ := p.code_of root .depth o (by simpa [Package.code, Mode.codes] using within)
    cases ho with
    | file | type => cases hv
    | @record b item _ ht =>
      have depths : item.table ∈ [Table.expressions, .statements] := ht
      rw [show item.table = .variables from hv] at depths
      simp at depths

theorem nodeAt?_isSome {a : Around} {item : Item} (h : Op.record a item ∈ p.code root .depth)
    (ht : item.table = .expressions) {span : Span} (hs : item.place = Cell.ofSpan span) :
    (p.nodeAt? a.path span).isSome = true := by
  have h' : Op.record a item ∈ Plan.passCode p.usableFiles.1 (·.depthCode p root) := by
    simpa [Package.code, Mode.codes] using h
  obtain ⟨k, hk, rfl, span', hspan, hplace⟩ := mark_of_passCode h' ht
  obtain rfl := Cell.ofSpan_inj.mp (hplace.symm.trans hs)
  exact List.find?_isSome.mpr ⟨k, hk, by simp [hspan]⟩

end Package

/-! ## The accesses of a file -/

/-- The accesses of the expressions of a file are those that the syntax tells. -/
structure Store.RecordsAccesses (s : Store) (p : Package) (root path : Path) : Prop where
  /-- A node with an expression row has the access that it is, with the variable that is recorded
  where the root of the access is declared, and no other one. -/
  recorded : ∀ k ∈ p.marks, k.around.path = path → ∀ span, k.exprSpan? = some span →
    ∃ file id, s.fileNamed? path.text = some file ∧ s.exprAt? file span = some id ∧
      ∃ x, (k.access? p root).mapM (·.row? s file id) = some x ∧ s.accessesOf id = x.toList
  /-- An access of an expression of the file is that of a node. -/
  only : ∀ r ∈ s.accesses, ∀ e ∈ s.expressions, e.id = r.expr →
    s.fileNamed? path.text = some e.file →
      ∃ a x n, .expr a x ∈ p.marks ∧ a.path = path ∧ x.span = e.span ∧
        x.access? p root path = some n ∧ n.row? s e.file e.id = some r

namespace Plan

variable {s : Store} {m' : Machine} {p : Package} {root path : Path} {mode : Mode}

theorem access_of_run (hs : s.Sound) (hm : mode.makesDepths = true)
    (h : run (p.code root mode) ⟨s, []⟩ = .ok m') {span : Span} {k : Depth.Mark}
    (hk : p.nodeAt? path span = some k)
    (free : ∀ place, ¬ s.Occupied .expressions path.text place) :
    ∃ file id, m'.store.fileNamed? path.text = some file ∧ m'.store.exprAt? file span = some id ∧
      ∃ x, (k.access? p root).mapM (·.row? m'.store file id) = some x ∧
        m'.store.accessesOf id = x.toList := by
  obtain ⟨rfl, before, kind, detail, after, code, first, hv⟩ := p.code_at root hm hk
  rw [code] at h
  exact accessesOf_of_run hs h (free _) first hv

/-- What the code of a package leaves, if no two nodes of a file share a span and the file had no
expressions before. -/
theorem recordsAccesses_of_run (hs : s.Sound) (hm : mode.makesDepths = true)
    (h : run (p.code root mode) ⟨s, []⟩ = .ok m') (hn : (p.exprSpans path).Nodup)
    (free : ∀ place, ¬ s.Occupied .expressions path.text place) :
    m'.store.RecordsAccesses p root path := by
  have sound' := (run_inserts (P := fun _ => True) (fun _ _ _ _ => trivial) h).sound hs
  have recorded (k : Depth.Mark) (hk : k ∈ p.marks) (hp : k.around.path = path) (span : Span)
      (hspan : k.exprSpan? = some span) :
      ∃ file id, m'.store.fileNamed? path.text = some file ∧
        m'.store.exprAt? file span = some id ∧
        ∃ x, (k.access? p root).mapM (·.row? m'.store file id) = some x ∧
          m'.store.accessesOf id = x.toList := by
    subst hp
    exact access_of_run hs hm h (Package.nodeAt?_of_nodup hk hspan hn) free
  refine ⟨recorded, fun r hr e he hre hf => ?_⟩
  have occupied : m'.store.Occupied .expressions path.text (Cell.ofSpan e.span) :=
    ⟨e.file, hf, e, he, rfl⟩
  obtain ho | ⟨a, item, hi, ht, hp, hplace⟩ := occupied_run hs h (by simp [Table.placed]) occupied
  · exact absurd ho (free _)
  obtain ⟨first, whole, defines⟩ := p.code_of_makesDepths root hm
  rw [whole] at hi
  obtain hi | hi := List.mem_append.mp hi
  · exact absurd ht (defines a item hi)
  obtain ⟨k, hk, rfl, span, hspan, hs'⟩ := Package.mark_of_passCode hi ht
  obtain rfl := Cell.ofSpan_inj.mp (hs'.symm.trans hplace)
  have hkp : k.around.path = path := congrArg Path.mk hp
  obtain ⟨file, id, hfile, hid, x, hx, hacc⟩ := recorded k hk hkp _ hspan
  cases hf.symm.trans hfile
  cases (sound'.exprAt?_eq he).symm.trans hid
  have here : r ∈ m'.store.accessesOf e.id :=
    List.mem_filter.mpr ⟨hr, by simpa using hre.symm⟩
  rw [hacc] at here
  cases x with
  | none => cases here
  | some x =>
    obtain rfl := List.mem_singleton.mp here
    cases k with
    | expr a node =>
      have span : node.span = e.span := Option.some.inj hspan
      cases ha : node.access? p root a.path with
      | none =>
        rw [Depth.Mark.access?, ha] at hx
        cases hx
      | some n =>
        rw [Depth.Mark.access?, ha] at hx
        obtain ⟨_, hn', hx⟩ := Option.map_eq_some_iff.mp hx
        cases hx
        exact ⟨a, node, n, hk, hkp, span, hkp ▸ ha, hn'⟩
    | name | literal | signature => cases hx
    | block | stmt => cases hspan

end Plan

/-- An analysis that makes the depth pass succeeds on a sound store whose caches agree with it. If no
two nodes of a file share a span and the file had no expressions, the accesses of its expressions are
those that the syntax tells. -/
theorem analyze_recordsAccesses {p : Package} {m : Mode} {s s' : Session} {skips : List Skip}
    {path : Path} (hm : m.makesDepths = true) (hstore : s.store.Sound) (ha : s.Coherent)
    (hs : SpelledAlike fun path => p.HasPath path ∨ s.store.HasPath path)
    (h : analyze p m s = .ok skips s') (hn : (p.exprSpans path).Nodup)
    (free : ∀ file, s.store.fileNamed? path.text = some file →
      ∀ e ∈ s.store.expressions, e.file ≠ file) :
    s'.store.RecordsAccesses p s.corpusRoot path := by
  obtain ⟨types, whole⟩ := run_of_analyze ha hs h
  refine Plan.recordsAccesses_of_run hstore hm whole hn fun place ho => ?_
  obtain ⟨file, hf, e, he, hk⟩ := ho
  exact free file hf e he (Cell.ofId_inj.mp (List.cons.inj hk).1)

/-- A package that spells one file in two ways: `var x`, `func f() { y; x }`, where the table says that
`x` is declared in `corpus//a.go`. -/
def Package.aliased : Package where
  dir := ⟨"corpus"⟩
  name := "a"
  files := [{
    path := ⟨"corpus/a.go"⟩
    package := ⟨"a", ⟨1, 9, 1, 10⟩, none, none⟩
    decls :=
      [.gen ⟨⟨2, 1, 2, 10⟩, .var, [.value ⟨2, 5, 2, 10⟩ [⟨"x", ⟨2, 5, 2, 6⟩, none, none⟩] none []]⟩,
      .func ⟨⟨3, 1, 6, 2⟩, none, ⟨"f", ⟨3, 6, 3, 7⟩, none, none⟩,
        ⟨⟨3, 1, 3, 9⟩, none, ⟨none, []⟩, none⟩,
        some ⟨⟨3, 10, 6, 2⟩,
          [.expr ⟨4, 2, 4, 3⟩ ⟨⟨4, 2, 4, 3⟩, none, .ident "y" (some 1)⟩,
          .expr ⟨5, 2, 5, 3⟩ ⟨⟨5, 2, 5, 3⟩, none, .ident "x" (some 0)⟩]⟩⟩] }]
  types := ⟨#[]⟩
  objects := ⟨#[⟨"x", .var, some ⟨⟨"corpus//a.go"⟩, ⟨2, 5⟩⟩, none⟩,
    ⟨"y", .const, some ⟨⟨"corpus/b.go"⟩, ⟨1, 7⟩⟩, none⟩]⟩
  diagnostics := []

/-- A package that has a file twice, where a literal of the first one stands at the same span as a
variable of the second one. -/
def Package.repeated : Package where
  dir := ⟨"corpus"⟩
  name := "a"
  files :=
    [⟨⟨"corpus/a.go"⟩, ⟨"a", ⟨1, 9, 1, 10⟩, none, none⟩,
      [.gen ⟨⟨2, 1, 2, 10⟩, .var, [.value ⟨2, 5, 2, 10⟩ [⟨"x", ⟨2, 5, 2, 6⟩, none, none⟩] none
        [⟨⟨2, 9, 2, 10⟩, none, .basicLit .int "1"⟩]]⟩]⟩,
    ⟨⟨"corpus/a.go"⟩, ⟨"a", ⟨1, 9, 1, 10⟩, none, none⟩,
      [.gen ⟨⟨2, 1, 2, 10⟩, .var, [.value ⟨2, 1, 2, 2⟩ [] none
        [⟨⟨2, 9, 2, 10⟩, none, .ident "x" (some 0)⟩]]⟩]⟩]
  types := ⟨#[]⟩
  objects := ⟨#[⟨"x", .var, some ⟨⟨"corpus/a.go"⟩, ⟨2, 5⟩⟩, none⟩]⟩
  diagnostics := []

def Package.aliasedStore (fileCapacity : Nat) : Store :=
  ((analyze aliased .all).leaves (.start .initial ⟨"corpus"⟩ 4 fileCapacity)).store

/-- Where paths are spelled in two ways, the variable of an access depends on what a cache holds; and
where a package has a file twice, an access is missing although the spans of each file are distinct. -/
theorem Package.accesses_of_aliased_and_repeated :
    ((aliased.exprSpans ⟨"corpus/a.go"⟩).Nodup ∧
      succeeds (analyze aliased .all) (.start .initial ⟨"corpus"⟩ 4 1) = true ∧
      succeeds (analyze aliased .all) (.start .initial ⟨"corpus"⟩ 4 4) = true ∧
      (aliasedStore 1).vars.map (fun r => (r.id, r.position)) =
        [(.unknown, ⟨0, 0⟩), (⟨2⟩, ⟨2, 5⟩)] ∧
      (aliasedStore 1).accesses.map (·.baseVariable) = [some .unknown] ∧
      (aliasedStore 4).accesses.map (·.baseVariable) = [some ⟨2⟩]) ∧
    (∀ f ∈ repeated.files, ((f.marks repeated).filterMap (·.exprSpan?)).Nodup) ∧
      succeeds (analyze repeated .all) .sample = true ∧
      (Expr.access? repeated ⟨"corpus"⟩ ⟨"corpus/a.go"⟩
        ⟨⟨2, 9, 2, 10⟩, none, .ident "x" (some 0)⟩).isSome = true ∧
      ((analyze repeated .all).leaves .sample).store.accesses = [] := by
  decide +kernel

/-- The small package: the dereference of its variable. -/
theorem analyze_sample_recordsAccesses :
    ∃ skips s', analyze .sample .all .sample = .ok skips s' ∧
      s'.store.RecordsAccesses .sample ⟨"corpus"⟩ ⟨"corpus/a.go"⟩ := by
  obtain ⟨skips, s', h⟩ := Package.sample_succeeds
  have spans : (Package.sample.exprSpans ⟨"corpus/a.go"⟩).Nodup := by decide +kernel
  exact ⟨skips, s', h, analyze_recordsAccesses rfl Store.initial_sound
    Session.sample_coherent Session.sample_spelledAlike h spans fun _ _ e he => by cases he⟩

end AccessDepth
