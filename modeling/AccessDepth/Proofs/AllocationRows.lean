import AccessDepth.Proofs.Allocation.Passes
import AccessDepth.Proofs.NodeRows

/-!
# AccessDepth.Proofs.AllocationRows

Which rows the allocation passes leave for a file.

* `Package.callStarts` — where the calls in the files of a path start.
* `Surveys.Entered.row_of_write`, `write_of_row` — a pass that has made its transactions has a row for
  each, and no others.
* `Store.RecordsMakes`, `RecordsAllocations` — there is one row for every call that the walk meets, with
  its data, and none of anything else.
* `analyze_recordsAllocations` — so it is after an analysis, if no two calls start at one position.
  `analyze_missesArguments` — calls in the arguments of another one are not met.
-/

namespace AccessDepth

open Plan (Write)
open Allocation (calls makeWrite? sizeWrite? makeWrite?_iff sizeWrite?_iff)

/-! ## Positions of calls -/

def Node.callStart? : Node → Option Position
  | .expr ⟨span, _, .call ..⟩ => some span.start
  | _ => none

/-- Where the calls of a file start. -/
def SourceFile.callStarts (f : SourceFile) : List Position := f.nodes.filterMap Node.callStart?

/-- Where the calls in the usable files of a path start. -/
def Package.callStarts (p : Package) (path : Path) : List Position :=
  (p.usableFiles.1.filter (·.path.same path)).flatMap SourceFile.callStarts

theorem Expr.CallsBuiltin.callStart? {p : Package} {e : Expr} {name : String} {args : List Expr}
    (h : e.CallsBuiltin p name args) : (Node.expr e).callStart? = some e.span.start := by
  cases h
  rfl

/-- If the calls in the files of a path start at different positions, one of them is told by its
position, and so is its file. -/
theorem eq_of_callStart? {zs : List (SourceFile × FileId)} {path : Path}
    (distinct : (((zs.map Prod.fst).filter (·.path.same path)).flatMap
      SourceFile.callStarts).Nodup)
    {z z' : SourceFile × FileId} (hz : z ∈ zs) (hz' : z' ∈ zs)
    (here : z.1.path.components = path.components)
    (here' : z'.1.path.components = path.components) {n n' : Node} (hn : z.1.Holds n)
    (hn' : z'.1.Holds n') {position : Position} (at_ : n.callStart? = some position)
    (at' : n'.callStart? = some position) : z = z' ∧ n = n' := by
  rw [List.filter_map, List.flatMap_map] at distinct
  have among {z : SourceFile × FileId} (hz : z ∈ zs)
      (here : z.1.path.components = path.components) :
      z ∈ zs.filter ((·.path.same path) ∘ Prod.fst) :=
    List.mem_filter.mpr ⟨hz, by simpa [Path.same] using here⟩
  have start {z : SourceFile × FileId} {n : Node} (hn : z.1.Holds n)
      (h : n.callStart? = some position) : position ∈ z.1.callStarts :=
    List.mem_filterMap.mpr ⟨n, SourceFile.mem_nodes_iff.mpr hn, h⟩
  obtain rfl : z = z' :=
    eq_of_nodup_flatMap distinct (among hz here) (among hz' here') (start hn at_) (start hn' at')
  have own : z.1.callStarts.Nodup := (List.nodup_flatMap.mp distinct).1 z (among hz here)
  exact ⟨rfl, eq_of_nodup_filterMap own (SourceFile.mem_nodes_iff.mpr hn)
    (SourceFile.mem_nodes_iff.mpr hn') at_ at'⟩

/-! ## Rows and transactions -/

/-- The transactions of a pass go to one table, and each takes the position of a call. -/
structure AtCalls (u : Table) (write? : FileId → Node → Option Write) : Prop where
  placed : u ∈ Table.placed
  table : ∀ {file n w}, write? file n = some w → w.table = u
  file : ∀ {file n w}, write? file n = some w → w.file = file
  call : ∀ {file n w}, write? file n = some w →
    ∃ position, n.callStart? = some position ∧ w.place = Cell.ofPosition position
  taken : ∀ {file n w t}, write? file n = some w → w.Settled t → w.Taken t

def Store.StandsAt (t : Store) (path : Path) (position : Position) {u : Table} (r : Row u) : Prop :=
  ∃ file, t.IsFile file path ∧ Row.key u r = .ofId file :: Cell.ofPosition position

def Store.IsFreeOf (s : Store) (u : Table) (path : Path) : Prop :=
  ∀ r ∈ s.rows u, ∀ position, ¬ s.StandsAt path position r

namespace Analyze.Surveys.Entered

variable {stop : Node → Bool} {write? : FileId → Node → Option Write} {u : Table}
  {zs : List (SourceFile × FileId)} {s t : Store} {path : Path} {position : Position}

/-- A row of a path is that of a transaction for a call in one of its files. -/
theorem write_of_row (h : Entered stop write? zs s t) (calls : AtCalls u write?) (hs : s.Sound)
    (ht : t.Sound) (free : s.IsFreeOf u path) {r : Row u} (hr : r ∈ t.rows u)
    (stands : t.StandsAt path position r) :
    ∃ z ∈ zs, z.1.path.components = path.components ∧ ∃ n ∈ z.1.ends stop,
      n.callStart? = some position ∧ ∃ w number, write? z.2 n = some w ∧
        (⟨u, r⟩ : AnyRow) = ⟨w.table, w.row number⟩ := by
  obtain ⟨file, isFile, key⟩ := stands
  obtain old | ⟨w, ⟨z, hz, hw⟩, number, he⟩ := h.gains.rows u calls.placed r hr
  · have there := hs.references u r old _ (Plan.mem_references_of_key calls.placed key)
    exact absurd ⟨file, isFile.of_has ht h.gains.le there, key⟩ (free r old position)
  · obtain ⟨n, hn, hw⟩ := List.mem_filterMap.mp hw
    obtain ⟨position', start, place⟩ := calls.call hw
    obtain rfl := calls.table hw
    cases he
    have same := key.symm.trans (w.key_row number)
    rw [calls.file hw, place] at same
    obtain ⟨hf, hp⟩ := List.cons.inj same
    obtain rfl := Cell.ofId_inj.mp hf
    obtain rfl := Cell.ofPosition_inj.mp hp
    exact ⟨z, hz, (h.stand z hz).components ht isFile, n, hn, start, w, number, hw, rfl⟩

variable (distinct : (((zs.map Prod.fst).filter (·.path.same path)).flatMap
  SourceFile.callStarts).Nodup)
include distinct

/-- A transaction for a call in a file of the path has its row. -/
theorem row_of_write (h : Entered stop write? zs s t) (calls : AtCalls u write?) (hs : s.Sound)
    (ht : t.Sound) (free : s.IsFreeOf u path) {z : SourceFile × FileId} (hz : z ∈ zs)
    (here : z.1.path.components = path.components) {n : Node} (hn : n ∈ z.1.ends stop)
    {w : Write} (hw : write? z.2 n = some w) (hp : n.callStart? = some position) :
    ∃ r ∈ t.rows u, t.StandsAt path position r ∧
      ∃ number, (⟨u, r⟩ : AnyRow) = ⟨w.table, w.row number⟩ := by
  have settled := h.settled z hz w (List.mem_filterMap.mpr ⟨n, hn, hw⟩)
  obtain ⟨r, hr, key⟩ := calls.taken hw settled
  obtain ⟨position', start, place⟩ := calls.call hw
  obtain rfl := Option.some.inj (hp.symm.trans start)
  obtain rfl := calls.table hw
  rw [calls.file hw, place] at key
  have isFile : t.IsFile z.2 path := by
    obtain ⟨r, hr, hid, hc⟩ := h.stand z hz
    exact ⟨r, hr, hid, hc.trans here⟩
  have stands : t.StandsAt path position r := ⟨z.2, isFile, key⟩
  refine ⟨r, hr, stands, ?_⟩
  obtain ⟨z', hz', here', n', hn', hp', w', number, hw', he⟩ :=
    h.write_of_row calls hs ht free hr stands
  obtain ⟨rfl, rfl⟩ := eq_of_callStart? distinct hz hz' here here'
    (SourceFile.mem_ends_iff.mp hn).1.holds (SourceFile.mem_ends_iff.mp hn').1.holds hp hp'
  cases hw.symm.trans hw'
  exact ⟨number, he⟩

/-- Two rows at one position of the path are the same. -/
theorem eq_of_standsAt (h : Entered stop write? zs s t) (calls : AtCalls u write?) (hs : s.Sound)
    (ht : t.Sound) (free : s.IsFreeOf u path) {r r' : Row u} (hr : r ∈ t.rows u)
    (hr' : r' ∈ t.rows u) (stands : t.StandsAt path position r)
    (stands' : t.StandsAt path position r') : r = r' := by
  obtain ⟨z, hz, here, n, hn, hp, w, number, hw, he⟩ :=
    h.write_of_row calls hs ht free hr stands
  obtain ⟨z', hz', here', n', hn', hp', w', number', hw', he'⟩ :=
    h.write_of_row calls hs ht free hr' stands'
  obtain ⟨rfl, rfl⟩ := eq_of_callStart? distinct hz hz' here here'
    (SourceFile.mem_ends_iff.mp hn).1.holds (SourceFile.mem_ends_iff.mp hn').1.holds hp hp'
  cases hw.symm.trans hw'
  obtain rfl := calls.table hw
  cases he
  cases he'
  exact ht.eq_of_key hr hr' ((w.key_row _).trans (w.key_row _).symm)

end Analyze.Surveys.Entered

/-! ## Rows of a file -/

theorem makeWrite?_atCalls (p : Package) : AtCalls .makeSites (makeWrite? p) where
  placed := by decide
  table hw := by
    obtain ⟨_, _, _, rfl, -, rfl⟩ := makeWrite?_iff.mp hw
    rfl
  file hw := by
    obtain ⟨_, _, _, rfl, -, rfl⟩ := makeWrite?_iff.mp hw
    rfl
  call hw := by
    obtain ⟨e, _, _, rfl, ⟨_, _, called, -⟩, rfl⟩ := makeWrite?_iff.mp hw
    exact ⟨_, called.callStart?, rfl⟩
  taken hw hs := by
    obtain ⟨_, _, _, rfl, -, rfl⟩ := makeWrite?_iff.mp hw
    exact hs

theorem Expr.Allocates.called {p : Package} {e type : Expr} {builtin : String} {size : Int}
    (h : e.Allocates p builtin type size) :
    (builtin = "make" ∨ builtin = "new") ∧ ∃ args, e.CallsBuiltin p builtin args := by
  cases h with
  | make called => exact ⟨.inl rfl, _, called⟩
  | new called => exact ⟨.inr rfl, _, called⟩

theorem sizeWrite?_atCalls (p : Package) : AtCalls .sizedAllocSites (sizeWrite? p) where
  placed := by decide
  table hw := by
    obtain ⟨_, _, _, _, rfl, -, rfl⟩ := sizeWrite?_iff.mp hw
    rfl
  file hw := by
    obtain ⟨_, _, _, _, rfl, -, rfl⟩ := sizeWrite?_iff.mp hw
    rfl
  call hw := by
    obtain ⟨e, _, _, _, rfl, allocates, rfl⟩ := sizeWrite?_iff.mp hw
    obtain ⟨-, _, called⟩ := allocates.called
    exact ⟨_, called.callStart?, rfl⟩
  taken hw hs := by
    obtain ⟨_, builtin, _, _, rfl, allocates, rfl⟩ := sizeWrite?_iff.mp hw
    obtain ⟨make, new⟩ | taken := hs
    · exact absurd allocates.called.1 (not_or.mpr ⟨make, new⟩)
    · exact taken

/-- The rows of the containers that are built in a file: one for every call that a walk meets which
looks at nothing below a call of `make`, with its container and capacity; and none but for such calls
in the files of the path. -/
structure Store.RecordsMakes (t : Store) (p : Package) (f : SourceFile) : Prop where
  found : ∀ e container capacity, f.Meets (calls p ["make"]) (.expr e) →
    e.Makes p container capacity → ∃ r ∈ t.makeSites, t.IsFile r.file f.path ∧
      r.position = e.span.start ∧ r.container = container ∧ r.capacity = capacity
  once : ∀ r ∈ t.makeSites, ∀ r' ∈ t.makeSites, t.IsFile r.file f.path →
    t.IsFile r'.file f.path → r.position = r'.position → r = r'
  only : ∀ r ∈ t.makeSites, t.IsFile r.file f.path → ∃ g ∈ p.usableFiles.1,
    g.path.components = f.path.components ∧ ∃ e, g.Meets (calls p ["make"]) (.expr e) ∧
      e.span.start = r.position ∧ e.Makes p r.container r.capacity

/-- The rows of what is allocated in a file: one for every call that a walk meets which looks at nothing
below a call of `make` or `new`, with the type and the size; and none but for such calls in the files
of the path. -/
structure Store.RecordsAllocations (t : Store) (p : Package) (f : SourceFile) : Prop where
  found : ∀ e builtin type size, f.Meets (calls p ["make", "new"]) (.expr e) →
    e.Allocates p builtin type size → ∃ r ∈ t.sizedAllocSites, t.IsFile r.file f.path ∧
      r.position = e.span.start ∧ r.builtin = builtin ∧ r.typeName = type.render p.types ∧
        r.size = size
  once : ∀ r ∈ t.sizedAllocSites, ∀ r' ∈ t.sizedAllocSites, t.IsFile r.file f.path →
    t.IsFile r'.file f.path → r.position = r'.position → r = r'
  only : ∀ r ∈ t.sizedAllocSites, t.IsFile r.file f.path → ∃ g ∈ p.usableFiles.1,
    g.path.components = f.path.components ∧ ∃ e type,
      g.Meets (calls p ["make", "new"]) (.expr e) ∧ e.span.start = r.position ∧
        e.Allocates p r.builtin type r.size ∧ r.typeName = type.render p.types

section

variable {p : Package} {f : SourceFile} {zs : List (SourceFile × FileId)} {s t : Store}

open Analyze.Surveys (Entered)

theorem exists_zip (files : zs.map Prod.fst = p.usableFiles.1) (hf : f ∈ p.usableFiles.1) :
    ∃ z ∈ zs, z.1 = f :=
  List.mem_map.mp (files ▸ hf)

theorem mem_usable_of_zip (files : zs.map Prod.fst = p.usableFiles.1) {z : SourceFile × FileId}
    (hz : z ∈ zs) : z.1 ∈ p.usableFiles.1 :=
  files ▸ List.mem_map_of_mem hz

theorem recordsMakes_of_entered (h : Entered (calls p ["make"]) (makeWrite? p) zs s t)
    (files : zs.map Prod.fst = p.usableFiles.1) (hs : s.Sound) (ht : t.Sound)
    (free : s.IsFreeOf .makeSites f.path) (hf : f ∈ p.usableFiles.1)
    (distinct : (p.callStarts f.path).Nodup) : t.RecordsMakes p f := by
  rw [Package.callStarts, ← files] at distinct
  have atCalls := makeWrite?_atCalls p
  constructor
  case found =>
    rintro e container capacity meets makes
    obtain ⟨z, hz, rfl⟩ := exists_zip files hf
    have hw : makeWrite? p z.2 (.expr e) = some _ :=
      makeWrite?_iff.mpr ⟨e, container, capacity, rfl, makes, rfl⟩
    obtain ⟨type, args, called, -⟩ := makes
    have stops : calls p ["make"] (.expr e) = true :=
      Allocation.calls_iff.mpr ⟨e, "make", _, rfl, List.mem_cons_self, called⟩
    obtain ⟨r, hr, ⟨file, isFile, key⟩, number, he⟩ := h.row_of_write distinct atCalls hs ht free hz rfl
      (SourceFile.mem_ends_iff.mpr ⟨meets, stops⟩) hw called.callStart?
    cases he
    exact ⟨_, hr, Cell.ofId_inj.mp (List.cons.inj key).1 ▸ isFile, rfl, rfl, rfl⟩
  case once =>
    intro r hr r' hr' isFile isFile' same
    exact h.eq_of_standsAt distinct atCalls hs ht free (u := .makeSites) hr hr'
      ⟨r.file, isFile, rfl⟩ ⟨r'.file, isFile', same ▸ rfl⟩
  case only =>
    intro r hr isFile
    obtain ⟨z, hz, here, n, hn, -, w, number, hw, he⟩ := h.write_of_row atCalls hs ht free
      (u := .makeSites) hr ⟨r.file, isFile, rfl⟩
    obtain ⟨e, container, capacity, rfl, makes, rfl⟩ := makeWrite?_iff.mp hw
    cases he
    exact ⟨z.1, mem_usable_of_zip files hz, here, e, (SourceFile.mem_ends_iff.mp hn).1, rfl, makes⟩

theorem recordsAllocations_of_entered
    (h : Entered (calls p ["make", "new"]) (sizeWrite? p) zs s t)
    (files : zs.map Prod.fst = p.usableFiles.1) (hs : s.Sound) (ht : t.Sound)
    (free : s.IsFreeOf .sizedAllocSites f.path) (hf : f ∈ p.usableFiles.1)
    (distinct : (p.callStarts f.path).Nodup) : t.RecordsAllocations p f := by
  rw [Package.callStarts, ← files] at distinct
  have atCalls := sizeWrite?_atCalls p
  constructor
  case found =>
    rintro e builtin type size meets allocates
    obtain ⟨z, hz, rfl⟩ := exists_zip files hf
    have hw : sizeWrite? p z.2 (.expr e) = some _ :=
      sizeWrite?_iff.mpr ⟨e, builtin, type, size, rfl, allocates, rfl⟩
    obtain ⟨named, args, called⟩ := allocates.called
    have stops : calls p ["make", "new"] (.expr e) = true :=
      Allocation.calls_iff.mpr ⟨e, builtin, args, rfl, by simpa using named, called⟩
    obtain ⟨r, hr, ⟨file, isFile, key⟩, number, he⟩ := h.row_of_write distinct atCalls hs ht free hz rfl
      (SourceFile.mem_ends_iff.mpr ⟨meets, stops⟩) hw called.callStart?
    cases he
    exact ⟨_, hr, Cell.ofId_inj.mp (List.cons.inj key).1 ▸ isFile, rfl, rfl, rfl, rfl⟩
  case once =>
    intro r hr r' hr' isFile isFile' same
    exact h.eq_of_standsAt distinct atCalls hs ht free (u := .sizedAllocSites) hr hr'
      ⟨r.file, isFile, rfl⟩ ⟨r'.file, isFile', same ▸ rfl⟩
  case only =>
    intro r hr isFile
    obtain ⟨z, hz, here, n, hn, -, w, number, hw, he⟩ := h.write_of_row atCalls hs ht free
      (u := .sizedAllocSites) hr ⟨r.file, isFile, rfl⟩
    obtain ⟨e, builtin, type, size, rfl, allocates, rfl⟩ := sizeWrite?_iff.mp hw
    cases he
    exact ⟨z.1, mem_usable_of_zip files hz, here, e, type, (SourceFile.mem_ends_iff.mp hn).1, rfl,
      allocates, rfl⟩

/-- A pass that is the only one of its mode enters its files. -/
theorem entered_of_analyze {s s' : Session} {skips : List Skip} {mode : Mode}
    {stop : Node → Bool} {write? : FileId → Node → Option Write}
    {pass : Package → SourceFile → Analyze Unit} (hs : s.Ready)
    (surveys : Analyze.Surveys stop write? (pass p)) (one : mode.passes = [pass])
    (h : analyze p mode s = .ok skips s') :
    s'.Ready ∧ ∃ zs : List (SourceFile × FileId), zs.map Prod.fst = p.usableFiles.1 ∧
      Entered stop write? zs s.store s'.store := by
  have passes := surveys.enters p.usableFiles.1 hs
  have all : (analyze p mode).Ends s (fun _ s' => s'.Ready ∧
      ∃ zs : List (SourceFile × FileId), zs.map Prod.fst = p.usableFiles.1 ∧
        Entered stop write? zs s.store s'.store) fun _ _ => True := by
    unfold analyze
    rw [one]
    exact (passes.bind fun _ _ h => Analyze.ends_pure h).bind fun _ _ h => Analyze.ends_pure h
  exact all.of_ok h

end

/-- After an analysis for containers or for sizes, every call of a file that the walk meets has one row,
with its data, and there are no rows but for such calls; if the calls in the files of the path start at
different positions and the store had no rows of the kind for the path. What is met is all that does
not stand below another call of the kind. -/
theorem analyze_recordsAllocations {p : Package} {f : SourceFile} {s : Session} (hs : s.Ready)
    (hf : f ∈ p.usableFiles.1) (distinct : (p.callStarts f.path).Nodup) :
    (∀ skips s', (∀ r ∈ s.store.makeSites, ¬ s.store.IsFile r.file f.path) →
      analyze p .make s = .ok skips s' → s'.store.RecordsMakes p f) ∧
    ∀ skips s', (∀ r ∈ s.store.sizedAllocSites, ¬ s.store.IsFile r.file f.path) →
      analyze p .allocSizes s = .ok skips s' → s'.store.RecordsAllocations p f := by
  refine ⟨fun skips s' free h => ?_, fun skips s' free h => ?_⟩
  · obtain ⟨ready, zs, files, entered⟩ :=
      entered_of_analyze hs (Allocation.containers_surveys p) rfl h
    refine recordsMakes_of_entered entered files hs.sound ready.sound ?_ hf distinct
    rintro r hr position ⟨file, isFile, key⟩
    exact free r hr (Cell.ofId_inj.mp (List.cons.inj key).1 ▸ isFile)
  · obtain ⟨ready, zs, files, entered⟩ :=
      entered_of_analyze hs (Allocation.sizes_surveys p) rfl h
    refine recordsAllocations_of_entered entered files hs.sound ready.sound ?_ hf distinct
    rintro r hr position ⟨file, isFile, key⟩
    exact free r hr (Cell.ofId_inj.mp (List.cons.inj key).1 ▸ isFile)

def Expr.makeInts : Expr :=
  .calling ⟨4, 13, 4, 27⟩ "make" [.ints ⟨4, 18, 4, 23⟩ (some 0), .integer ⟨4, 25, 4, 26⟩ "3"]

def Expr.callWithLiteral : Expr :=
  .calling ⟨4, 2, 4, 30⟩ "g" [⟨⟨4, 4, 4, 29⟩, none, .funcLit ⟨⟨4, 4, 4, 10⟩, none, ⟨none, []⟩, none⟩
    ⟨⟨4, 11, 4, 29⟩, [.expr ⟨4, 13, 4, 27⟩ .makeInts]⟩⟩]

/-- In the argument of another call, and in a function literal there. -/
theorem analyze_callWithLiteral_recordsAllocations :
    (∃ skips s', analyze (.running [8] [.callWithLiteral]) .make .sample = .ok skips s' ∧
      ∃ r ∈ s'.store.makeSites, r.position = ⟨4, 13⟩ ∧ r.container = .slice ∧ r.capacity = 3) ∧
    ∃ skips s', analyze (.running [8] [.callWithLiteral]) .allocSizes .sample = .ok skips s' ∧
      ∃ r ∈ s'.store.sizedAllocSites, r.position = ⟨4, 13⟩ ∧ r.builtin = "make" ∧
        r.typeName = "int" ∧ r.size = 24 := by
  have ready : Session.sample.Ready := ⟨Store.initial_sound, Session.sample_coherent⟩
  have hf : SourceFile.running [.callWithLiteral] ∈
      (Package.running [8] [.callWithLiteral]).usableFiles.1 := List.mem_cons_self
  have distinct : ((Package.running [8] [.callWithLiteral]).callStarts ⟨"corpus/a.go"⟩).Nodup := by
    decide +kernel
  have records := analyze_recordsAllocations ready hf distinct
  have inner {names : List String}
      (goes : calls (.running [8] [.callWithLiteral]) names (.expr .callWithLiteral) = false) :
      (SourceFile.running [.callWithLiteral]).Meets
        (calls (.running [8] [.callWithLiteral]) names) (.expr .makeInts) := by
    have body : (SourceFile.running [.callWithLiteral]).Meets
        (calls (.running [8] [.callWithLiteral]) names) (.func _) := .func List.mem_cons_self
    have call := (body.child rfl List.mem_cons_self).child rfl List.mem_cons_self
    have literal := call.child goes (List.mem_cons_of_mem _ List.mem_cons_self)
    exact (literal.child rfl List.mem_cons_self).child rfl List.mem_cons_self
  have counts : Counts [.ints ⟨4, 18, 4, 23⟩ (some 0), .integer ⟨4, 25, 4, 26⟩ "3"] 3 :=
    ⟨.inl rfl, _, rfl, "3", rfl, by decide +kernel⟩
  have called : Expr.makeInts.CallsBuiltin (.running [8] [.callWithLiteral]) "make" _ :=
    .call rfl fun o ho => nomatch ho
  constructor
  · obtain ⟨skips, s', h⟩ :
        ∃ skips s', analyze (.running [8] [.callWithLiteral]) .make .sample = .ok skips s' :=
      ok_of_succeeds (by decide +kernel)
    obtain ⟨r, hr, -, position, data⟩ := (records.1 skips s' (fun r hr => nomatch hr) h).found
      _ _ _ (inner (by decide +kernel)) ⟨_, _, called, .slice rfl, .known counts⟩
    exact ⟨skips, s', h, r, hr, position, data⟩
  · obtain ⟨skips, s', h⟩ :
        ∃ skips s', analyze (.running [8] [.callWithLiteral]) .allocSizes .sample = .ok skips s' :=
      ok_of_succeeds (by decide +kernel)
    obtain ⟨r, hr, -, position, data⟩ := (records.2 skips s' (fun r hr => nomatch hr) h).found
      _ _ _ _ (inner (by decide +kernel)) (.make called rfl
        (.known ⟨8, 3, ⟨8, rfl, rfl⟩, counts, rfl, by decide, by decide⟩))
    exact ⟨skips, s', h, r, hr, position, data⟩

/-- The calls `make([]int, len(make([]int, 3)))`, each at a position of its own. -/
def Expr.makeOfMake : Expr :=
  .calling ⟨3, 2, 3, 38⟩ "make" [.ints ⟨3, 7, 3, 12⟩ none,
    .calling ⟨3, 14, 3, 37⟩ "len" [.calling ⟨3, 18, 3, 36⟩ "make"
      [.ints ⟨3, 23, 3, 28⟩ none, .integer ⟨3, 30, 3, 31⟩ "3"]]]

/-- In the arguments of a call of `make` no other one is recorded, by either pass. -/
theorem analyze_missesArguments :
    ((Package.running [] [.makeOfMake]).callStarts ⟨"corpus/a.go"⟩).Nodup ∧
    (∃ e, (SourceFile.running [.makeOfMake]).Holds (.expr e) ∧ e.span.start = ⟨3, 18⟩ ∧
      e.Makes (.running [] [.makeOfMake]) .slice 3 ∧
      ∃ type size, e.Allocates (.running [] [.makeOfMake]) "make" type size) ∧
    (∃ skips s', analyze (.running [] [.makeOfMake]) .make .sample = .ok skips s' ∧
      ∀ r ∈ s'.store.makeSites, r.position ≠ ⟨3, 18⟩) ∧
    ∃ skips s', analyze (.running [] [.makeOfMake]) .allocSizes .sample = .ok skips s' ∧
      ∀ r ∈ s'.store.sizedAllocSites, r.position ≠ ⟨3, 18⟩ := by
  refine ⟨by decide +kernel, ?_, ?_, ?_⟩
  · have body : (SourceFile.running [.makeOfMake]).Holds (.func _) := .func List.mem_cons_self
    have outer := (body.child List.mem_cons_self).child List.mem_cons_self
    have len := outer.child (List.mem_cons_of_mem _ (List.mem_cons_of_mem _ List.mem_cons_self))
    have called : Expr.CallsBuiltin (.running [] [.makeOfMake]) "make"
        (.calling ⟨3, 18, 3, 36⟩ "make" [.ints ⟨3, 23, 3, 28⟩ none, .integer ⟨3, 30, 3, 31⟩ "3"]) _ :=
      .call rfl fun o ho => nomatch ho
    refine ⟨_, len.child (List.mem_cons_of_mem _ List.mem_cons_self), rfl,
      ⟨_, _, called, .slice rfl, .known ⟨.inl rfl, _, rfl, "3", rfl, by decide +kernel⟩⟩, _, -1,
      .make called rfl (.unknown ?_)⟩
    rintro n ⟨_, _, ⟨_, hs, -⟩, -⟩
    cases hs
  · obtain ⟨skips, s', h⟩ : ∃ skips s', analyze (.running [] [.makeOfMake]) .make .sample =
        .ok skips s' := ok_of_succeeds (by decide +kernel)
    have none : ∀ r ∈ ((analyze (.running [] [.makeOfMake]) .make).leaves .sample).store.makeSites,
        r.position ≠ ⟨3, 18⟩ := by decide +kernel
    rw [Analyze.leaves, h] at none
    exact ⟨skips, s', h, none⟩
  · obtain ⟨skips, s', h⟩ : ∃ skips s', analyze (.running [] [.makeOfMake]) .allocSizes .sample =
        .ok skips s' := ok_of_succeeds (by decide +kernel)
    have none : ∀ r ∈ ((analyze (.running [] [.makeOfMake]) .allocSizes).leaves
        .sample).store.sizedAllocSites, r.position ≠ ⟨3, 18⟩ := by decide +kernel
    rw [Analyze.leaves, h] at none
    exact ⟨skips, s', h, none⟩

end AccessDepth
