import AccessDepth.Proofs.Plan.Scopes
import AccessDepth.Proofs.VariableUses
import Mathlib.Data.List.Perm.Basic

/-!
# AccessDepth.Proofs.FunctionContext

Both passes agree on the functions around what they record.

* `Package.Encloses`, `Package.Places` — what stands inside which functions in the files of a path.
* `Package.Distinct` — functions, declaring identifiers and rows of a path stand at different places.
* `Store.TellsContext` — the rows of a path tell the functions around what they stand for.
* `analyze_tellsContext` — so they do after both passes.
  `analyze_losesContext` — not if one file is spelled in two ways.
-/

namespace AccessDepth

open Plan (Around ComesFrom Item Machine Op Setting run)

/-! ## Files of a path -/

namespace Package

variable (p : Package) (path : Path)

def filesAt : List SourceFile := p.usableFiles.1.filter (·.path = path)

/-- A node stands in a file of a path inside some functions. -/
def Encloses (fs : List Position) (n : Node) : Prop := ∃ f ∈ p.filesAt path, f.Encloses fs n

/-- Something with a row of its own stands in a file of a path inside some functions. -/
def Places (fs : List Position) (h : Heading) : Prop := ∃ f ∈ p.filesAt path, f.Places fs h

/-- In the files of a path no two functions stand at one position, no two declaring identifiers start at
one position, and no two expressions and no two statements or blocks have one span. -/
structure Distinct : Prop where
  functions : (((p.filesAt path).flatMap SourceFile.nodes).filterMap Node.function?).Nodup
  names : (((p.filesAt path).flatMap SourceFile.nodes).flatMap
    fun n => (n.declared p path).map (·.2)).Nodup
  rows : (((p.filesAt path).flatMap SourceFile.headings).map Heading.place).Nodup

variable {p path} {f : SourceFile}

theorem mem_filesAt : f ∈ p.filesAt path ↔ f ∈ p.usableFiles.1 ∧ f.path = path := by
  simp [filesAt]

namespace Distinct

variable {fs gs : List Position} {n m : Node}

theorem nodes_eq (p : Package) (path : Path) :
    (p.filesAt path).flatMap SourceFile.nodes =
      ((p.filesAt path).flatMap SourceFile.placed).map (·.2) := by
  rw [List.map_flatMap]
  exact congrArg (List.flatMap · _) (funext fun f => f.map_placed.symm)

theorem mem_placed (h : p.Encloses path fs n) :
    (fs, n) ∈ (p.filesAt path).flatMap SourceFile.placed := by
  obtain ⟨f, hf, h⟩ := h
  exact List.mem_flatMap.mpr ⟨f, hf, SourceFile.mem_placed.mpr h⟩

theorem eq_of_function? (d : p.Distinct path) (hn : p.Encloses path fs n)
    (hm : p.Encloses path gs m) {g : Position} (hg : n.function? = some g)
    (hg' : m.function? = some g) : gs = fs ∧ m = n := by
  have distinct := d.functions
  rw [nodes_eq, List.filterMap_map] at distinct
  exact Prod.mk.inj (eq_of_nodup_filterMap distinct (mem_placed hm) (mem_placed hn) hg' hg)

theorem eq_of_declared (d : p.Distinct path) (hn : p.Encloses path fs n)
    (hm : p.Encloses path gs m) {name name' : String} {position : Position}
    (hd : (name, position) ∈ n.declared p path) (hd' : (name', position) ∈ m.declared p path) :
    gs = fs ∧ m = n := by
  have distinct := d.names
  rw [nodes_eq, List.flatMap_map] at distinct
  exact Prod.mk.inj (eq_of_nodup_flatMap distinct (mem_placed hm) (mem_placed hn)
    (List.mem_map.mpr ⟨_, hd', rfl⟩) (List.mem_map.mpr ⟨_, hd, rfl⟩))

/-- What has a row is told by the place of the row. -/
theorem eq_of_place (d : p.Distinct path) {h h' : Heading} (hp : p.Places path fs h)
    (hp' : p.Places path gs h') (same : h'.place = h.place) : gs = fs ∧ h' = h := by
  have marks : ((p.filesAt path).flatMap SourceFile.headings).Perm
      (((p.filesAt path).flatMap (SourceFile.marks p)).map Depth.Mark.heading) := by
    rw [List.map_flatMap]
    exact List.Perm.flatMap_left _ fun f _ => (Depth.accounts_file p f).headings.symm
  have distinct := (marks.map Heading.place).nodup_iff.mp d.rows
  rw [List.map_map] at distinct
  obtain ⟨f, hf, hp⟩ := hp
  obtain ⟨f', hf', hp'⟩ := hp'
  obtain ⟨k, hk, around, rfl⟩ := SourceFile.places_iff.mp hp
  obtain ⟨k', hk', around', rfl⟩ := SourceFile.places_iff.mp hp'
  obtain rfl : k' = k := List.inj_on_of_nodup_map distinct (List.mem_flatMap.mpr ⟨f', hf', hk'⟩)
    (List.mem_flatMap.mpr ⟨f, hf, hk⟩) same
  exact ⟨(congrArg Around.functions (around.symm.trans around')).symm, rfl⟩

end Distinct

/-! ## Items -/

variable {root : Path} {a : Around} {item : Item}

theorem code_all (p : Package) (root : Path) :
    p.code root .all = Plan.passCode p.usableFiles.1 (·.definitionsCode p) ++
      Plan.passCode p.usableFiles.1 (·.depthCode p root) := by
  simp [code, Mode.codes]

/-- What both passes record: what there is at the nodes of the files, and the rows of what stands in
them. -/
theorem of_record (h : Op.record a item ∈ p.code root .all) :
    (∃ fs n, p.Encloses a.path fs n ∧
      Op.record a item ∈ Definitions.headCode p ⟨a.path, fs⟩ n) ∨
    ∃ g, p.Places a.path a.functions g ∧ item.heading? = some g := by
  rw [code_all] at h
  obtain h | h := List.mem_append.mp h
  · obtain ⟨f, hf, h⟩ := List.mem_flatMap.mp h
    obtain ⟨fs, n, hn, h⟩ := SourceFile.record_mem_definitionsCode.mp h
    have path : a.path = f.path := by
      obtain ⟨rfl, -⟩ | ⟨rfl, -⟩ := Definitions.of_headCode h
      · rfl
      · exact Definitions.below_path _ n
    exact .inl ⟨fs, n, ⟨f, mem_filesAt.mpr ⟨hf, path.symm⟩, hn⟩, path ▸ h⟩
  · obtain ⟨f, hf, h⟩ := List.mem_flatMap.mp h
    obtain h | h := List.mem_cons.mp h
    · cases h
    obtain ⟨k, hk, h⟩ := List.mem_flatMap.mp h
    obtain ⟨rfl, rfl⟩ := Depth.Mark.record_mem_code.mp h
    have path : k.around.path = f.path := f.marks_inFile p k hk
    refine .inr ⟨k.heading, ⟨f, mem_filesAt.mpr ⟨hf, path.symm⟩, ?_⟩, k.heading?_item⟩
    exact SourceFile.places_iff.mpr ⟨k, hk, by rw [← path], rfl⟩

theorem mem_code_of_definitions (root : Path) (hf : f ∈ p.usableFiles.1) {o : Op}
    (ho : o ∈ f.definitionsCode p) : o ∈ p.code root .all := by
  rw [code_all]
  exact List.mem_append_left _ (List.mem_flatMap.mpr ⟨f, hf, ho⟩)

theorem Places.record (root : Path) {fs : List Position} {g : Heading} (h : p.Places path fs g) :
    ∃ a item, Op.record a item ∈ p.code root .all ∧ a.path = path ∧ item.table = g.table ∧
      item.place = Cell.ofSpan g.span := by
  obtain ⟨f, at_, h⟩ := h
  obtain ⟨hf, rfl⟩ := mem_filesAt.mp at_
  obtain ⟨k, hk, around, rfl⟩ := SourceFile.places_iff.mp h
  refine ⟨k.around, k.item p root, ?_, congrArg Around.path around, ?_⟩
  · rw [code_all]
    refine List.mem_append_right _ (List.mem_flatMap.mpr ⟨f, hf, List.mem_cons_of_mem _ ?_⟩)
    exact List.mem_flatMap.mpr ⟨k, hk, Depth.Mark.record_mem_code.mpr ⟨rfl, rfl⟩⟩
  · cases k <;> exact ⟨rfl, rfl⟩

/-- Every function of a file is recorded. -/
theorem Encloses.record (root : Path) {fs : List Position} {n : Node} {g : Position}
    (h : p.Encloses path fs n) (hg : n.function? = some g) :
    ∃ a item, Op.record a item ∈ p.code root .all ∧ a.path = path ∧ item.table = .functions ∧
      item.place = Cell.ofPosition g := by
  obtain ⟨f, at_, h⟩ := h
  obtain ⟨hf, rfl⟩ := mem_filesAt.mp at_
  obtain ⟨o, ho, site⟩ := List.mem_filterMap.mp (h.recorded (p := p) hg)
  cases o with
  | file | type => cases site
  | record a item =>
    cases item with
    | function =>
      obtain ⟨path, rfl⟩ := SourceSite.mk.inj (Option.some.inj site)
      exact ⟨a, _, mem_code_of_definitions root hf ho, path, rfl, rfl⟩
    | _ => cases site

theorem Encloses.record_var (root : Path) {fs : List Position} {n : Node} {name : String}
    {position : Position} (h : p.Encloses path fs n) (hd : (name, position) ∈ n.declared p path)
    (hne : name ≠ "_") :
    ∃ a item, Op.record a item ∈ p.code root .all ∧ a.path = path ∧ item.table = .variables ∧
      item.place = Cell.ofPosition position := by
  obtain ⟨f, at_, h⟩ := h
  obtain ⟨hf, rfl⟩ := mem_filesAt.mp at_
  have declares : f.Declares p position := ⟨n, name, h.holds, hd, hne⟩
  obtain ⟨a, name, isConst, role, ha, hm⟩ := declares.records
  exact ⟨a, _, mem_code_of_definitions root hf hm, ha, rfl, rfl⟩

theorem of_record_heading (h : Op.record a item ∈ p.code root .all) {g : Heading}
    (hg : item.heading? = some g) : p.Places a.path a.functions g := by
  obtain ⟨fs, n, -, h⟩ | ⟨g', hp, hg'⟩ := of_record h
  · obtain ⟨-, _, _, _, _, _, _, rfl, -⟩ | ⟨-, _, _, _, _, rfl, -⟩ := Definitions.of_headCode h <;>
      cases hg
  · exact Option.some.inj (hg'.symm.trans hg) ▸ hp

/-- The functions that are recorded are those of the files. -/
theorem of_record_function {name : Option String} {position : Position}
    {variadic generic literal : Bool} {signature : List SignatureItem}
    (h : Op.record a (.function name position variadic generic literal signature) ∈
      p.code root .all) :
    ∃ n, p.Encloses a.path a.functions n ∧ n.function? = some position ∧
      (literal = false ↔ ∃ d, n = .func d) := by
  obtain ⟨fs, n, hn, h⟩ | ⟨g, -, hg⟩ := of_record h
  · obtain ⟨ha, _, _, _, _, _, _, hi, hf, hl⟩ | ⟨-, _, _, _, _, hi, -⟩ :=
      Definitions.of_headCode h
    · cases hi
      rw [ha]
      exact ⟨n, hn, hf, hl⟩
    · cases hi
  · cases hg

theorem of_record_var {name : String} {position : Position} {isConst : Bool} {role : VariableRole}
    (h : Op.record a (.var name position isConst role) ∈ p.code root .all) :
    ∃ fs n, p.Encloses a.path fs n ∧ (name, position) ∈ n.declared p a.path ∧
      a.functions = n.inside fs := by
  obtain ⟨fs, n, hn, h⟩ | ⟨g, -, hg⟩ := of_record h
  · obtain ⟨-, _, _, _, _, _, _, hi, -⟩ | ⟨ha, _, _, _, _, hi, hd⟩ := Definitions.of_headCode h
    · cases hi
    · cases hi
      rw [n.below_eq] at ha
      exact ⟨fs, n, hn, hd, congrArg Around.functions ha⟩
  · cases hg

end Package

/-! ## Rows -/

/-- The rows of a path tell the functions around what they stand for, and everything that stands in its
files has its row. -/
structure Store.TellsContext (s : Store) (p : Package) (path : Path) : Prop where
  expr : ∀ r ∈ s.expressions, s.fileNamed? path.text = some r.file →
    ∃ fs, (∀ gs, p.Places path gs (.expr r.kind r.span) ↔ gs = fs) ∧
      s.Context r.file fs r.enclosing
  stmt : ∀ r ∈ s.statements, s.fileNamed? path.text = some r.file →
    ∃ fs, (∀ gs, p.Places path gs (.stmt r.kind r.span) ↔ gs = fs) ∧
      s.Context r.file fs r.enclosing
  /-- The parent of a literal is the innermost function around it. Declarations have none. -/
  function : ∀ r ∈ s.functions, s.fileNamed? path.text = some r.file →
    ∃ fs n, (∀ gs m, p.Encloses path gs m ∧ m.function? = some r.position ↔ gs = fs ∧ m = n) ∧
      (∃ e, s.Context r.file fs e ∧ r.parent = e.innermost) ∧
      ∀ d, n = .func d → r.parent = none
  /-- A receiver, a parameter or a result is inside its own function. -/
  var : ∀ r ∈ s.vars, s.fileNamed? path.text = some r.file →
    ∃ fs n, (∀ gs m, p.Encloses path gs m ∧ (r.name, r.position) ∈ m.declared p path ↔
        gs = fs ∧ m = n) ∧
      (∃ e, s.Context r.file (n.inside fs) e ∧ r.function = e.innermost) ∧
      (r.isGlobal = true ↔ n.inside fs = [])
  rows : ∀ fs g, p.Places path fs g → s.Occupied g.table path.text (Cell.ofSpan g.span)
  functions : ∀ fs n g, p.Encloses path fs n → n.function? = some g →
    s.Occupied .functions path.text (Cell.ofPosition g)
  vars : ∀ fs n name position, p.Encloses path fs n → (name, position) ∈ n.declared p path →
    name ≠ "_" → s.Occupied .variables path.text (Cell.ofPosition position)

theorem Store.Context.innermost_isNone {s : Store} {file : FileId} {fs : List Position}
    {e : Enclosing} (h : s.Context file fs e) : e.innermost.isNone = true ↔ fs = [] := by
  obtain ⟨ids, hids, rfl⟩ := h
  cases fs with
  | nil =>
    cases hids
    simp
  | cons g fs =>
    rw [List.mapM_cons] at hids
    obtain ⟨id, -, hids⟩ := Option.bind_eq_some_iff.mp hids
    obtain ⟨rest, -, hids⟩ := Option.bind_eq_some_iff.mp hids
    cases hids
    simp

/-- No row of a placed table stands in a file of a path. -/
def Store.LacksFile (s : Store) (path : Path) : Prop :=
  ∀ u ∈ Table.placed, ∀ place, ¬ s.Occupied u path.text place

namespace Plan

variable {s : Store} {m : Machine} {p : Package} {root path : Path}

theorem comesFrom_of_run (hs : s.Sound) (h : run (p.code root .all) ⟨s, []⟩ = .ok m)
    (lacks : s.LacksFile path) {u : Table} (hu : u ∈ Table.placed) {r : Row u}
    (hr : r ∈ m.store.rows u) {file : FileId} {place : List Cell}
    (hf : m.store.fileNamed? path.text = some file) (hk : Row.key u r = .ofId file :: place) :
    ∃ a item, Op.record a item ∈ p.code root .all ∧ ComesFrom m.store a item ⟨u, r⟩ := by
  have inserts : Inserts (fun _ => True) s m.store := run_inserts (fun _ _ _ _ => trivial) h
  refine run_comesFrom (p.announced root) (fun _ hx => absurd hx List.not_mem_nil) h hu hr fun old => ?_
  exact lacks u hu place (occupied_of_row hs (inserts.sound hs) inserts.le hu old hf hk)

theorem occupied_of_code (hs : s.Sound) (h : run (p.code root .all) ⟨s, []⟩ = .ok m) {u : Table}
    (hu : u ∈ Store.namedTables) {place : List Cell}
    (recorded : ∃ a item, Op.record a item ∈ p.code root .all ∧ a.path = path ∧ item.table = u ∧
      item.place = place) : m.store.Occupied u path.text place := by
  obtain ⟨a, item, hm, rfl, rfl, rfl⟩ := recorded
  exact (occupied_run_iff hs h hu item.table_placed).mpr (.inr ⟨a, item, hm, rfl, rfl, rfl⟩)

/-- What both passes leave of the files of a path that had no rows. -/
theorem tellsContext_of_run (hs : s.Sound) (h : run (p.code root .all) ⟨s, []⟩ = .ok m)
    (distinct : p.Distinct path) (lacks : s.LacksFile path) : m.store.TellsContext p path := by
  have sound : m.store.Sound := (run_inserts (P := fun _ => True) (fun _ _ _ _ => trivial) h).sound hs
  have samePath {a : Around} {file : FileId} (hf : m.store.fileNamed? path.text = some file)
      (hf' : m.store.fileNamed? a.path.text = some file) : a.path = path :=
    congrArg Path.mk (sound.fileNamed?_inj hf' hf)
  constructor
  case expr =>
    intro r hr hf
    obtain ⟨a, item, hm, origin⟩ :=
      comesFrom_of_run hs h lacks (u := .expressions) (by decide) hr hf rfl
    obtain ⟨⟨detail, access, rfl⟩, hf', context⟩ := origin.expr
    obtain rfl := samePath hf hf'
    have here := Package.of_record_heading hm rfl
    exact ⟨a.functions, fun gs => ⟨fun hp => (distinct.eq_of_place here hp rfl).1,
      fun he => he ▸ here⟩, context⟩
  case stmt =>
    intro r hr hf
    obtain ⟨a, item, hm, origin⟩ :=
      comesFrom_of_run hs h lacks (u := .statements) (by decide) hr hf rfl
    obtain ⟨⟨detail, rfl⟩, hf', context⟩ := origin.stmt
    obtain rfl := samePath hf hf'
    have here := Package.of_record_heading hm rfl
    exact ⟨a.functions, fun gs => ⟨fun hp => (distinct.eq_of_place here hp rfl).1,
      fun he => he ▸ here⟩, context⟩
  case function =>
    intro r hr hf
    obtain ⟨a, item, hm, origin⟩ :=
      comesFrom_of_run hs h lacks (u := .functions) (by decide) hr hf rfl
    obtain ⟨⟨signature, rfl⟩, hf', e, context, parent⟩ := origin.function
    obtain rfl := samePath hf hf'
    obtain ⟨n, hn, hg, literal⟩ := Package.of_record_function hm
    refine ⟨a.functions, n, fun gs k => ⟨fun ⟨hk, hk'⟩ => distinct.eq_of_function? hn hk hg hk',
      fun ⟨he, he'⟩ => he ▸ he' ▸ ⟨hn, hg⟩⟩, ⟨e, context, ?_⟩, fun d hd => ?_⟩
    · cases hl : r.literal with
      | true => simpa [hl] using parent
      | false =>
        obtain ⟨d, rfl⟩ := literal.mp hl
        obtain ⟨f, -, hn⟩ := hn
        have none : e.innermost = none :=
          Option.isNone_iff_eq_none.mp (context.innermost_isNone.mpr hn.func_eq_nil)
        simpa [hl, none] using parent
    · simpa [literal.mpr ⟨d, hd⟩] using parent
  case var =>
    intro r hr hf
    obtain ⟨a, item, hm, origin⟩ :=
      comesFrom_of_run hs h lacks (u := .variables) (by decide) hr hf rfl
    obtain ⟨⟨role, rfl⟩, hf', e, context, function, isGlobal⟩ := origin.var
    obtain rfl := samePath hf hf'
    obtain ⟨fs, n, hn, hd, functions⟩ := Package.of_record_var hm
    rw [functions] at context
    refine ⟨fs, n, fun gs k => ⟨fun ⟨hk, hk'⟩ => distinct.eq_of_declared hn hk hd hk',
      fun ⟨he, he'⟩ => he ▸ he' ▸ ⟨hn, hd⟩⟩, ⟨e, context, function⟩, ?_⟩
    rw [isGlobal, context.innermost_isNone]
  case rows =>
    intro fs g hp
    have named : g.table ∈ Store.namedTables := by
      cases g with
      | expr | stmt => simp [Heading.table, Store.namedTables]
    exact occupied_of_code hs h named (hp.record root)
  case functions => exact fun fs n g hn hg => occupied_of_code hs h (by decide) (hn.record root hg)
  case vars =>
    exact fun fs n name position hn hd hne =>
      occupied_of_code hs h (by decide) (hn.record_var root hd hne)

end Plan

/-- Both passes succeed on a package. In the files of a path that had no rows, and whose functions,
declaring identifiers and rows stand at different places, the rows tell the functions around what they
stand for. -/
theorem analyze_tellsContext {p : Package} {s s' : Session} {skips : List Skip}
    (hstore : s.store.Sound) (ha : s.Coherent)
    (hs : SpelledAlike fun path => p.HasPath path ∨ s.store.HasPath path)
    (h : analyze p .all s = .ok skips s') :
    ∀ f ∈ p.usableFiles.1, p.Distinct f.path → s.store.LacksFile f.path →
      s'.store.TellsContext p f.path := by
  intro f _ distinct lacks
  obtain ⟨types, whole⟩ := run_of_analyze ha hs h
  exact Plan.tellsContext_of_run hstore whole distinct lacks

/-- The package with a literal in a function: the contexts of its one file. -/
theorem analyze_nested_tellsContext :
    ∃ skips s', analyze .nested .all .sample = .ok skips s' ∧
      s'.store.TellsContext .nested ⟨"corpus/a.go"⟩ := by
  obtain ⟨skips, s', h⟩ : ∃ skips s', analyze .nested .all .sample = .ok skips s' :=
    ok_of_succeeds (by decide +kernel)
  have spoken : Package.nested.paths = [⟨"corpus/a.go"⟩, ⟨"corpus/a.go"⟩, ⟨"corpus/a.go"⟩] := rfl
  have spelled := Session.spelledAlike_of_single (p := .nested) fun path hp => by
    simpa [spoken] using hp.mem_paths
  have hf : SourceFile.nested ∈ Package.nested.usableFiles.1 := List.mem_singleton_self _
  have distinct : Package.nested.Distinct ⟨"corpus/a.go"⟩ :=
    ⟨by decide +kernel, by decide +kernel, by decide +kernel⟩
  have lacks : Session.sample.store.LacksFile ⟨"corpus/a.go"⟩ := by
    rintro u - place ⟨file, hfile, -⟩
    cases hfile
  exact ⟨skips, s', h, analyze_tellsContext Store.initial_sound Session.sample_coherent spelled h _ hf
    distinct lacks⟩

/-- A package of two files: `var y = x`, where the table says that `x` is declared in `corpus//a.go`, and
`func f() { z }` in `corpus/a.go`. -/
def Package.respelled : Package where
  dir := ⟨"corpus"⟩
  name := "a"
  files :=
    [⟨⟨"corpus/b.go"⟩, ⟨"a", ⟨1, 9, 1, 10⟩, none, none⟩,
      [.gen ⟨⟨2, 1, 2, 10⟩, .var, [.value ⟨2, 5, 2, 10⟩ [⟨"y", ⟨2, 5, 2, 6⟩, none, none⟩] none
        [⟨⟨2, 9, 2, 10⟩, none, .ident "x" (some 0)⟩]]⟩]⟩,
    ⟨⟨"corpus/a.go"⟩, ⟨"a", ⟨1, 9, 1, 10⟩, none, none⟩,
      [.func ⟨⟨2, 1, 4, 2⟩, none, ⟨"f", ⟨2, 6, 2, 7⟩, none, none⟩,
        ⟨⟨2, 1, 2, 9⟩, none, ⟨none, []⟩, none⟩,
        some ⟨⟨2, 10, 4, 2⟩,
          [.expr ⟨3, 2, 3, 3⟩ ⟨⟨3, 2, 3, 3⟩, none, .ident "z" none⟩]⟩⟩]⟩]
  types := ⟨#[]⟩
  objects := ⟨#[⟨"x", .var, some ⟨⟨"corpus//a.go"⟩, ⟨2, 5⟩⟩, none⟩]⟩
  diagnostics := []

def Package.respelledStore (fileCapacity : Nat) : Store :=
  ((analyze respelled .all).leaves (.start .initial ⟨"corpus"⟩ 4 fileCapacity)).store

/-- Where one file is spelled in two ways, the function around a statement may be lost: with a cache for
one file, the depth pass finds the other spelling of the file in the cache, where no function is
recorded. -/
theorem analyze_losesContext :
    (∀ f ∈ Package.respelled.usableFiles.1,
      Package.respelled.Distinct f.path ∧ Store.initial.LacksFile f.path) ∧
    Package.respelled.Places ⟨"corpus/a.go"⟩ [⟨2, 6⟩] (.stmt .expr ⟨3, 2, 3, 3⟩) ∧
    (succeeds (analyze Package.respelled .all) (.start .initial ⟨"corpus"⟩ 4 1) = true ∧
      succeeds (analyze Package.respelled .all) (.start .initial ⟨"corpus"⟩ 4 4) = true) ∧
    (Package.respelledStore 1).functions.map (fun r => (r.id, r.position)) = [(⟨1⟩, ⟨2, 6⟩)] ∧
    (Package.respelledStore 1).statements.map (fun r => (r.span, r.enclosing)) =
      [(⟨3, 2, 3, 3⟩, ⟨none, none⟩), (⟨2, 10, 4, 2⟩, ⟨none, none⟩)] ∧
    (Package.respelledStore 4).statements.map (fun r => (r.span, r.enclosing)) =
      [(⟨3, 2, 3, 3⟩, ⟨some ⟨1⟩, some ⟨1⟩⟩), (⟨2, 10, 4, 2⟩, ⟨some ⟨1⟩, some ⟨1⟩⟩)] := by
  have files : Package.respelled.usableFiles.1 = Package.respelled.files := rfl
  refine ⟨fun f hf => ?_, ?_, by decide +kernel⟩
  · rw [files] at hf
    obtain rfl | hf := List.mem_cons.mp hf
    · exact ⟨⟨by decide +kernel, by decide +kernel, by decide +kernel⟩,
        fun u _ place ⟨file, hfile, _⟩ => nomatch hfile⟩
    · obtain rfl := List.mem_singleton.mp hf
      exact ⟨⟨by decide +kernel, by decide +kernel, by decide +kernel⟩,
        fun u _ place ⟨file, hfile, _⟩ => nomatch hfile⟩
  · have hf : Package.respelled.files[1] ∈ Package.respelled.filesAt ⟨"corpus/a.go"⟩ :=
      List.mem_singleton_self _
    have f : Package.respelled.files[1].Encloses _ (.func _) := .func List.mem_cons_self
    have x : Package.respelled.files[1].Encloses _ (.stmt _) := f.child List.mem_cons_self
    exact ⟨_, hf, .node x rfl⟩

end AccessDepth
