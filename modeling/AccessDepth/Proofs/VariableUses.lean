import AccessDepth.Proofs.Declared
import AccessDepth.Proofs.Depth.Accounts
import AccessDepth.Proofs.DepthPass
import AccessDepth.Proofs.Plan.Visits

/-!
# AccessDepth.Proofs.VariableUses

The depth pass finds the variables that the definitions pass records.

* `Expr.RefersTo` — an identifier stands for a variable that is declared elsewhere.
* `Package.Declares` — a site is that of a declaring identifier in one of the files.
* `Store.Uses` — the access at a span has the variable that is recorded at a site.
* `analyze_findsVariables` — after both passes, every identifier that refers to a declared variable is
  an access to the variable of its site.
-/

namespace AccessDepth

open Plan (AccessNote Item Op Machine Setting run)

/-- An identifier stands for a variable that is declared at a site, and not where it stands itself. -/
def Expr.RefersTo (p : Package) (path : Path) (e : Expr) (site : SourceSite) : Prop :=
  ∃ name object o, e.node = .ident name object ∧ p.objects.get? object = some o ∧ o.kind = .var ∧
    o.decl = some site ∧ o.declaredAt path e.span.start = false

/-- A declaring identifier of one of the files, other than `_`, starts at the site. -/
def Package.Declares (p : Package) (site : SourceSite) : Prop :=
  ∃ g ∈ p.usableFiles.1, site.file.same g.path = true ∧ g.Declares p site.position

/-- Nothing else of the file has its row among the expressions at the span of an expression. -/
def Package.HasOwnSpan (p : Package) (path : Path) (e : Expr) : Prop :=
  ∀ k ∈ p.marks, k.around.path = path → k.exprSpan? = some e.span → ∃ a, k = .expr a e

/-- The store has no variables and no expressions of the files of a package. -/
def Store.LacksPackage (s : Store) (p : Package) : Prop :=
  ∀ f ∈ p.usableFiles.1, ∀ file, s.fileNamed? f.path.text = some file →
    (∀ v ∈ s.vars, v.file ≠ file) ∧ ∀ e ∈ s.expressions, e.file ≠ file

/-- The expression at a span of a file is an identifier access, and its base is the variable at a site,
which is not the unknown one. -/
def Store.Uses (s : Store) (path : Path) (span : Span) (site : SourceSite) : Prop :=
  ∃ file id, s.fileNamed? path.text = some file ∧ s.exprAt? file span = some id ∧
    ∃ r ∈ s.accesses, r.expr = id ∧ r.kind = .ident ∧
      ∃ v ∈ s.vars, r.baseVariable = some v.id ∧ v.id ≠ .unknown ∧
        s.fileNamed? site.file.text = some v.file ∧ v.position = site.position

/-! ## Identifiers -/

section

variable {p : Package} {root path : Path} {f : SourceFile} {e : Expr} {site : SourceSite}

theorem SourceFile.Holds.exists_mark (h : f.Holds (.expr e)) :
    ∃ a : Plan.Around, a.path = f.path ∧ .expr a e ∈ f.marks p := by
  obtain ⟨before, below, m, after, marks, stands, -⟩ :=
    (Depth.accounts_file p f).nodes _ (SourceFile.mem_nodes_iff.mpr h) (by simp [Node.heading?])
  have hm : m ∈ f.marks p := by simp [marks]
  cases stands with
  | @expr a => exact ⟨a, f.marks_inFile p _ hm, hm⟩

theorem Package.nodeAt?_of_hasOwnSpan (hf : f ∈ p.usableFiles.1) (he : f.Holds (.expr e))
    (own : p.HasOwnSpan f.path e) :
    ∃ a : Plan.Around, a.path = f.path ∧ p.nodeAt? f.path e.span = some (.expr a e) := by
  obtain ⟨a, ha, hm⟩ := he.exists_mark (p := p)
  have found : (p.nodeAt? f.path e.span).isSome = true :=
    List.find?_isSome.mpr ⟨_, List.mem_flatMap.mpr ⟨f, hf, hm⟩, by
      simp [Depth.Mark.around, Depth.Mark.exprSpan?, ha]⟩
  obtain ⟨k, hk⟩ := Option.isSome_iff_exists.mp found
  have here := List.find?_some hk
  simp only [Bool.and_eq_true, decide_eq_true_eq] at here
  obtain ⟨b, rfl⟩ := own k (List.mem_of_find?_eq_some hk) here.1 here.2
  exact ⟨b, here.1, hk⟩

theorem Package.hasOwnSpan_of_nodup (hf : f ∈ p.usableFiles.1) (he : f.Holds (.expr e))
    (hn : (p.exprSpans f.path).Nodup) : p.HasOwnSpan f.path e := by
  obtain ⟨a, ha, hm⟩ := he.exists_mark (p := p)
  have here := Package.nodeAt?_of_nodup (List.mem_flatMap.mpr ⟨f, hf, hm⟩) rfl (ha.symm ▸ hn)
  intro k hk hp hs
  have there := Package.nodeAt?_of_nodup hk hs (hp.symm ▸ hn)
  rw [hp] at there
  rw [show (Depth.Mark.expr a e).around.path = f.path from ha, there] at here
  exact ⟨a, Option.some.inj here⟩

theorem Expr.RefersTo.access?_eq (h : e.RefersTo p path site)
    (hroot : site.file.startsWith root = true) :
    ∃ name, e.access? p root path = some (.root name (some site)) := by
  obtain ⟨span, type, node⟩ := e
  obtain ⟨name, object, o, rfl, ho, hk, hd, elsewhere⟩ := h
  have declared : p.declaration? root object = some site := by
    simp [Package.declaration?, ho, hd, SourceSite.within, hroot]
  refine ⟨name, ?_⟩
  simp [Expr.access?, ExprNode.access?, ho, hk, elsewhere, declared]

end

theorem Plan.AccessNote.row?_root (s : Store) (file : FileId) (id : ExprId) (name : String)
    (site : SourceSite) :
    (AccessNote.root name (some site)).row? s file id =
      some { expr := id, kind := .ident, inner := none, baseName := some name,
             baseVariable := some ((s.variableOf? site).getD .unknown),
             depth := 0, uncertainty := 0 } := rfl

/-! ## Variables -/

theorem Store.row_of_variableOf? {s : Store} {site : SourceSite} {id : VariableId}
    (h : s.variableOf? site = some id) :
    ∃ v ∈ s.vars, v.id = id ∧ s.fileNamed? site.file.text = some v.file ∧
      v.position = site.position := by
  obtain ⟨file, hf, h⟩ := Option.bind_eq_some_iff.mp h
  obtain ⟨v, hv, rfl⟩ := Option.map_eq_some_iff.mp h
  have here := List.find?_some hv
  simp only [Bool.and_eq_true, beq_iff_eq] at here
  obtain ⟨rfl, hp⟩ := here
  exact ⟨v, List.mem_of_find?_eq_some hv, rfl, hf, hp⟩

theorem Store.Sound.ne_unknown {s t : Store} (hs : s.Sound) (ht : t.Sound) (hn : Store.initial ≤ s)
    (hle : s ≤ t) {path : Path} {v : VariableRow} (hv : v ∈ t.vars)
    (hf : t.fileNamed? path.text = some v.file)
    (free : ∀ file, s.fileNamed? path.text = some file → ∀ v ∈ s.vars, v.file ≠ file) :
    v.id ≠ .unknown := by
  intro unknown
  have old : unknownVariable ∈ s.vars := (hn .variables).subset (List.mem_singleton_self _)
  obtain rfl : v = unknownVariable :=
    ht.eq_of_number (u := .variables) rfl hv ((hle .variables).subset old)
      (congrArg RowId.value unknown)
  have there : s.has ⟨.files, unknownVariable.file.value⟩ = true :=
    has_iff.mpr ⟨unknownFile, (hn .files).subset (List.mem_singleton_self _), rfl⟩
  exact free _ (ht.fileNamed?_of_has hs hle hf there) _ old rfl

namespace Package

variable {p : Package} {site : SourceSite}

theorem Declares.records (root : Path) (h : p.Declares site)
    (spelled : ∀ g ∈ p.usableFiles.1, site.file.same g.path = true → site.file = g.path) :
    ∃ a name isConst role, a.path = site.file ∧
      Op.record a (.var name site.position isConst role) ∈ p.code root .all := by
  obtain ⟨g, hg, same, declares⟩ := h
  obtain ⟨a, name, isConst, role, ha, hm⟩ := declares.records
  refine ⟨a, name, isConst, role, ha.trans (spelled g hg same).symm, ?_⟩
  have first : SourceFile.definitionsCode p ∈ Mode.codes p root .all := List.mem_cons_self
  exact List.mem_flatMap.mpr ⟨_, first, List.mem_flatMap.mpr ⟨g, hg, hm⟩⟩

end Package

namespace Plan

variable {p : Package} {root : Path} {s : Store} {m : Machine} {f : SourceFile} {e : Expr}
  {site : SourceSite}

/-- What both passes leave at a site where a file declares a variable. -/
theorem variable_of_run (hs : s.Sound) (hn : Store.initial ≤ s)
    (h : run (p.code root .all) ⟨s, []⟩ = .ok m) (free : s.LacksPackage p)
    (spelled : ∀ g ∈ p.usableFiles.1, site.file.same g.path = true → site.file = g.path)
    (declares : p.Declares site) :
    ∃ v ∈ m.store.vars, m.store.variableOf? site = some v.id ∧ v.id ≠ .unknown ∧
      m.store.fileNamed? site.file.text = some v.file ∧ v.position = site.position := by
  have inserts : Inserts (fun _ => True) s m.store := run_inserts (fun _ _ _ _ => trivial) h
  obtain ⟨a, name, isConst, role, ha, recorded⟩ := declares.records root spelled
  have occupied : m.store.Occupied .variables site.file.text (Cell.ofPosition site.position) :=
    (occupied_run_iff hs h (by decide) (by decide)).mpr
      (.inr ⟨a, _, recorded, rfl, congrArg Path.text ha, rfl⟩)
  obtain ⟨id, hid⟩ := Option.isSome_iff_exists.mp (Store.variableOf?_isSome.mpr occupied)
  obtain ⟨v, hv, rfl, hfile, hposition⟩ := Store.row_of_variableOf? hid
  obtain ⟨g, hg, same, -⟩ := declares
  have new : ∀ file, s.fileNamed? site.file.text = some file → ∀ v ∈ s.vars, v.file ≠ file := by
    rw [spelled g hg same]
    exact fun file hfile => (free g hg file hfile).1
  exact ⟨v, hv, hid, hs.ne_unknown (inserts.sound hs) hn inserts.le hv hfile new, hfile, hposition⟩

/-- What both passes leave at an identifier that refers to a declared variable. -/
theorem uses_of_run (hs : s.Sound) (hn : Store.initial ≤ s)
    (h : run (p.code root .all) ⟨s, []⟩ = .ok m) (free : s.LacksPackage p)
    (inCorpus : ∀ g ∈ p.usableFiles.1, g.path.startsWith root = true)
    (spelled : ∀ g ∈ p.usableFiles.1, site.file.same g.path = true → site.file = g.path)
    (hf : f ∈ p.usableFiles.1) (he : f.Holds (.expr e)) (own : p.HasOwnSpan f.path e)
    (refers : e.RefersTo p f.path site) (declares : p.Declares site) :
    m.store.Uses f.path e.span site := by
  obtain ⟨v, hv, hid, known, hfile, hposition⟩ := variable_of_run hs hn h free spelled declares
  have near : site.file.startsWith root = true := by
    obtain ⟨g, hg, same, -⟩ := declares
    rw [spelled g hg same]
    exact inCorpus g hg
  obtain ⟨a, ha, hk⟩ := Package.nodeAt?_of_hasOwnSpan hf he own
  have vacant (place : List Cell) : ¬ s.Occupied .expressions f.path.text place := by
    rintro ⟨file, hfile, x, hx, hkey⟩
    exact (free f hf file hfile).2 x hx (Cell.ofId_inj.mp (List.cons.inj hkey).1)
  obtain ⟨file, id, hnamed, hexpr, row, hrow, accesses⟩ := access_of_run hs rfl h hk vacant
  obtain ⟨name, access⟩ := refers.access?_eq near
  rw [Depth.Mark.access?, ha, access, Option.mapM_some] at hrow
  obtain ⟨r, hr, rfl⟩ := Option.map_eq_some_iff.mp hrow
  have only : r ∈ m.store.accessesOf id := accesses ▸ List.mem_singleton_self r
  rw [AccessNote.row?_root, hid] at hr
  cases hr
  exact ⟨file, id, hnamed, hexpr, _, (List.mem_filter.mp only).1, rfl, rfl, v, hv, rfl, known,
    hfile, hposition⟩

end Plan

/-- Both passes succeed on a package whose files lie in the corpus, and the store had no rows for
them. Then an identifier with a span of its own, which stands for a variable that any of the files
declares elsewhere, is an access to the variable that is recorded there. -/
theorem analyze_findsVariables {p : Package} {s s' : Session} {skips : List Skip}
    (hstore : s.store.Sound) (hn : Store.initial ≤ s.store) (ha : s.Coherent)
    (hs : SpelledAlike fun path => p.HasPath path ∨ s.store.HasPath path)
    (inCorpus : ∀ f ∈ p.usableFiles.1, f.path.startsWith s.corpusRoot = true)
    (free : s.store.LacksPackage p) (h : analyze p .all s = .ok skips s') :
    ∀ f ∈ p.usableFiles.1, ∀ e, f.Holds (.expr e) → p.HasOwnSpan f.path e →
      ∀ site, e.RefersTo p f.path site → p.Declares site → s'.store.Uses f.path e.span site := by
  intro f hf e he own site refers declares
  obtain ⟨types, whole⟩ := run_of_analyze ha hs h
  refine Plan.uses_of_run hstore hn whole free inCorpus (fun g hg same => ?_) hf he own refers
    declares
  obtain ⟨-, object, o, -, ho, -, hd, -⟩ := refers
  exact hs _ _ (.inl (.decl ho hd)) (.inl (Package.hasPath_of_usable hg)) same

/-! ## Nested declarations -/

def Expr.setter : Expr :=
  ⟨⟨5, 5, 5, 26⟩, none, .funcLit
    ⟨⟨5, 5, 5, 16⟩, none, ⟨none, [⟨⟨5, 10, 5, 15⟩, [⟨"n", ⟨5, 10, 5, 11⟩, none, some 1⟩],
      ⟨⟨5, 12, 5, 15⟩, none, .ident "int" none⟩, none⟩]⟩, none⟩
    ⟨⟨5, 17, 5, 26⟩, [.assign ⟨5, 19, 5, 24⟩ [⟨⟨5, 19, 5, 20⟩, none, .ident "v" (some 0)⟩] .assign
      [⟨⟨5, 23, 5, 24⟩, none, .ident "n" (some 1)⟩]]⟩⟩

/-- A file that declares variables in a clause of a `select` and in a function literal:
`func f() { select { case v := <-c: g(func(n int) { v = n }) } }`. -/
def SourceFile.nested : SourceFile where
  path := ⟨"corpus/a.go"⟩
  package := ⟨"a", ⟨1, 9, 1, 10⟩, none, none⟩
  decls := [.func ⟨⟨2, 1, 7, 2⟩, none, ⟨"f", ⟨2, 6, 2, 7⟩, none, none⟩,
    ⟨⟨2, 1, 2, 9⟩, none, ⟨none, []⟩, none⟩,
    some ⟨⟨2, 10, 7, 2⟩, [.select ⟨3, 2, 6, 3⟩ ⟨⟨3, 9, 6, 3⟩, [.commClause ⟨4, 2, 5, 27⟩
      (some (.assign ⟨4, 7, 4, 15⟩ [⟨⟨4, 7, 4, 8⟩, none, .ident "v" (some 0)⟩] .define
        [⟨⟨4, 12, 4, 15⟩, none, .unary .recv ⟨⟨4, 14, 4, 15⟩, none, .ident "c" none⟩⟩]))
      [.expr ⟨5, 3, 5, 27⟩ ⟨⟨5, 3, 5, 27⟩, none,
        .call ⟨⟨5, 3, 5, 4⟩, none, .ident "g" none⟩ [.setter] false⟩]]⟩]⟩⟩]

/-- The package of that file. -/
def Package.nested : Package where
  dir := ⟨"corpus"⟩
  name := "a"
  files := [.nested]
  types := ⟨#[]⟩
  objects := ⟨#[⟨"v", .var, some ⟨⟨"corpus/a.go"⟩, ⟨4, 7⟩⟩, none⟩,
    ⟨"n", .var, some ⟨⟨"corpus/a.go"⟩, ⟨5, 10⟩⟩, none⟩]⟩
  diagnostics := []

/-- Both variables of that package, where the literal uses them. -/
theorem analyze_nested_findsVariables :
    ∃ skips s', analyze .nested .all .sample = .ok skips s' ∧
      s'.store.Uses ⟨"corpus/a.go"⟩ ⟨5, 19, 5, 20⟩ ⟨⟨"corpus/a.go"⟩, ⟨4, 7⟩⟩ ∧
      s'.store.Uses ⟨"corpus/a.go"⟩ ⟨5, 23, 5, 24⟩ ⟨⟨"corpus/a.go"⟩, ⟨5, 10⟩⟩ := by
  obtain ⟨skips, s', h⟩ : ∃ skips s', analyze .nested .all .sample = .ok skips s' :=
    ok_of_succeeds (by decide +kernel)
  have spoken : Package.nested.paths = [⟨"corpus/a.go"⟩, ⟨"corpus/a.go"⟩, ⟨"corpus/a.go"⟩] := rfl
  have spelled := Session.spelledAlike_of_single (p := .nested) fun path hp => by
    simpa [spoken] using hp.mem_paths
  have files : Package.nested.usableFiles.1 = [.nested] := rfl
  have hf : SourceFile.nested ∈ Package.nested.usableFiles.1 := files ▸ List.mem_singleton_self _
  have free : Session.sample.store.LacksPackage .nested := by
    rw [Store.LacksPackage, files]
    intro f hf file hfile
    obtain rfl := List.mem_singleton.mp hf
    cases hfile
  have spans : (Package.nested.exprSpans ⟨"corpus/a.go"⟩).Nodup := by decide +kernel
  have body : SourceFile.nested.Holds (.func _) := .func List.mem_cons_self
  have select : SourceFile.nested.Holds (.stmt _) := body.child List.mem_cons_self
  have clause : SourceFile.nested.Holds (.stmt _) := select.child List.mem_cons_self
  have comm : SourceFile.nested.Holds (.stmt _) := clause.child List.mem_cons_self
  have call : SourceFile.nested.Holds (.stmt _) :=
    clause.child (List.mem_cons_of_mem _ List.mem_cons_self)
  have setter : SourceFile.nested.Holds (.expr .setter) :=
    (call.child List.mem_cons_self).child (List.mem_cons_of_mem _ List.mem_cons_self)
  have assign : SourceFile.nested.Holds (.stmt _) :=
    setter.child (List.mem_cons_of_mem _ List.mem_cons_self)
  have v : SourceFile.nested.Holds (.expr ⟨⟨5, 19, 5, 20⟩, none, .ident "v" (some 0)⟩) :=
    assign.child List.mem_cons_self
  have n : SourceFile.nested.Holds (.expr ⟨⟨5, 23, 5, 24⟩, none, .ident "n" (some 1)⟩) :=
    assign.child (List.mem_cons_of_mem _ List.mem_cons_self)
  have finds := analyze_findsVariables Store.initial_sound (le_refl _) Session.sample_coherent
    spelled (by decide +kernel) free h _ hf
  refine ⟨skips, s', h, ?_, ?_⟩
  · exact finds _ v (Package.hasOwnSpan_of_nodup hf v spans) _
      ⟨"v", some 0, _, rfl, rfl, rfl, rfl, by decide +kernel⟩
      ⟨.nested, hf, by decide +kernel, _, "v", comm, by decide +kernel, by decide⟩
  · exact finds _ n (Package.hasOwnSpan_of_nodup hf n spans) _
      ⟨"n", some 1, _, rfl, rfl, rfl, rfl, by decide +kernel⟩
      ⟨.nested, hf, by decide +kernel, _, "n", setter, by decide +kernel, by decide⟩

end AccessDepth
