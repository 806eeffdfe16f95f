import AccessDepth.Proofs.Allocation.Passes

/-!
# AccessDepth.Proofs.AllocationSizes

The capacities and sizes that are recorded of allocations.

* `Literal.int?_nonneg` — a literal without a sign is not negative.
* `analyze_makeSites`, `analyze_sizedAllocSites` — what an analysis adds to the two tables is recorded of
  calls, on every session, in every mode and whether it succeeds or fails.
* `Exact` — a number is the one that is known, or -1 where none is.
* `analyze_exactAllocations` — capacities and sizes are exact, if no literal has a sign and no type a
  negative size. `analyze_negativeAllocations` — they are not, otherwise.
-/

namespace AccessDepth

open Plan (Write)
open Allocation (calls makeWrite? sizeWrite? makeWrite?_iff sizeWrite?_iff)

/-! ## Literals -/

namespace Literal

theorem eq_minus_of_lower {c : Char} (h : lower c = '-') : c = '-' := by
  unfold lower Char.toLower at h
  split at h
  · rename_i hc
    have moved : (c.val + ('a'.val - 'A'.val)).toNat = '-'.val.toNat :=
      congrArg (fun d => d.val.toNat) h
    have low : 'A'.val.toNat ≤ c.val.toNat := hc.1
    have high : c.val.toNat ≤ 'Z'.val.toNat := hc.2
    rw [UInt32.toNat_add] at moved
    simp only [Char.reduceVal, UInt32.reduceSub, UInt32.reduceToNat] at moved low high
    omega
  · exact h

theorem split_subset (cs : List Char) : (split cs).2 ⊆ cs := by
  unfold split
  split <;> simp

/-- A literal without a sign is not negative. -/
theorem int?_nonneg {text : String} {n : Int} (h : int? text = some n)
    (unsigned : '-' ∉ text.toList) : 0 ≤ n := by
  obtain ⟨m, hm, hn⟩ := Option.bind_eq_some_iff.mp h
  obtain ⟨-, hn⟩ := Option.ite_none_right_eq_some.mp hn
  cases hn
  have plain : '-' ∉ (split ((text.toList.filter (· ≠ '_')).map lower)).2 := by
    intro hc
    obtain ⟨c, hc, he⟩ := List.mem_map.mp (split_subset _ hc)
    exact unsigned (eq_minus_of_lower he ▸ (List.mem_filter.mp hc).1)
  unfold integer? at hm
  split at hm
  · obtain ⟨k, -, rfl⟩ := Option.map_eq_some_iff.mp hm
    exact Int.natCast_nonneg k
  · rename_i hcs
    exact absurd (hcs ▸ List.mem_cons_self) plain
  · obtain ⟨k, -, rfl⟩ := Option.map_eq_some_iff.mp hm
    exact Int.natCast_nonneg k

end Literal

/-! ## What is recorded -/

section

variable (p : Package) (mode : Mode) (s : Session)

/-- What an analysis adds in a mode with one pass is recorded at nodes that the walk meets. -/
theorem analyze_written {stop : Node → Bool} {write? : FileId → Node → Option Write}
    {pass : Package → SourceFile → Analyze Unit} (h : Analyze.Surveys stop write? (pass p))
    (one : mode.passes = [pass]) {u : Table} (hu : u ∈ Table.placed) {r : Row u}
    (hr : r ∈ ((analyze p mode).leaves s).store.rows u) :
    r ∈ s.store.rows u ∨ ∃ f ∈ p.usableFiles.1, ∃ n file w number, f.Meets stop n ∧
      write? file n = some w ∧ (⟨u, r⟩ : AnyRow) = ⟨w.table, w.row number⟩ := by
  have passes := h.gains p.usableFiles.1 s
  have gained : s.store.Gains (Analyze.Surveys.Makes stop write? p.usableFiles.1)
      ((analyze p mode).leaves s).store := by
    refine Analyze.Ends.leaves (P := fun s' => s.store.Gains _ s'.store) ?_
    unfold analyze
    rw [one]
    exact (passes.bind fun _ _ h => Analyze.ends_pure h).bind fun _ _ h => Analyze.ends_pure h
  refine (gained.rows u hu r hr).imp_right ?_
  rintro ⟨w, ⟨f, hf, file, hw⟩, number, he⟩
  obtain ⟨n, hn, hw⟩ := List.mem_filterMap.mp hw
  exact ⟨f, hf, n, file, w, number, (SourceFile.mem_ends_iff.mp hn).1, hw, he⟩

theorem analyze_unwritten {u : Table} (h : ¬ mode.Adds u) {r : Row u}
    (hr : r ∈ ((analyze p mode).leaves s).store.rows u) : r ∈ s.store.rows u := by
  have steps := @analyze_steps_adds (fun _ => True) p (fun _ _ => trivial) mode
  have added : Inserts (mode.Adds ·) s.store ((analyze p mode).leaves s).store :=
    Analyze.Ends.leaves (P := fun s' => Inserts (mode.Adds ·) s.store s'.store) (steps.adds s)
  exact added.rows_eq h ▸ hr

/-- The containers that an analysis records are built by calls that its walk meets. -/
theorem analyze_makeSites {r : MakeSiteRow}
    (hr : r ∈ ((analyze p mode).leaves s).store.makeSites) :
    r ∈ s.store.makeSites ∨ ∃ f ∈ p.usableFiles.1, ∃ e,
      f.Meets (calls p ["make"]) (.expr e) ∧ e.span.start = r.position ∧
        e.Makes p r.container r.capacity := by
  cases mode with
  | defs | depth | all =>
    refine .inl (analyze_unwritten p _ s (u := .makeSites) ?_ hr)
    simp [Mode.Adds, Definitions.Adds, Depth.Adds, Depth.Supply, Table.owner]
  | make =>
    refine (analyze_written p .make s (Allocation.containers_surveys p) rfl (u := .makeSites)
      (by decide) hr).imp_right ?_
    rintro ⟨f, hf, n, file, w, number, meets, hw, he⟩
    obtain ⟨e, container, capacity, rfl, makes, rfl⟩ := makeWrite?_iff.mp hw
    cases he
    exact ⟨f, hf, e, meets, rfl, makes⟩
  | allocSizes =>
    refine (analyze_written p .allocSizes s (Allocation.sizes_surveys p) rfl (u := .makeSites)
      (by decide) hr).imp_right ?_
    rintro ⟨f, hf, n, file, w, number, meets, hw, he⟩
    obtain ⟨e, builtin, type, size, rfl, allocates, rfl⟩ := sizeWrite?_iff.mp hw
    cases he

/-- The allocations that an analysis records are made by calls that its walk meets. -/
theorem analyze_sizedAllocSites {r : SizedAllocRow}
    (hr : r ∈ ((analyze p mode).leaves s).store.sizedAllocSites) :
    r ∈ s.store.sizedAllocSites ∨ ∃ f ∈ p.usableFiles.1, ∃ e type,
      f.Meets (calls p ["make", "new"]) (.expr e) ∧ e.span.start = r.position ∧
        e.Allocates p r.builtin type r.size ∧ r.typeName = type.render p.types := by
  cases mode with
  | defs | depth | all =>
    refine .inl (analyze_unwritten p _ s (u := .sizedAllocSites) ?_ hr)
    simp [Mode.Adds, Definitions.Adds, Depth.Adds, Depth.Supply, Table.owner]
  | make =>
    refine (analyze_written p .make s (Allocation.containers_surveys p) rfl
      (u := .sizedAllocSites) (by decide) hr).imp_right ?_
    rintro ⟨f, hf, n, file, w, number, meets, hw, he⟩
    obtain ⟨e, container, capacity, rfl, makes, rfl⟩ := makeWrite?_iff.mp hw
    cases he
  | allocSizes =>
    refine (analyze_written p .allocSizes s (Allocation.sizes_surveys p) rfl
      (u := .sizedAllocSites) (by decide) hr).imp_right ?_
    rintro ⟨f, hf, n, file, w, number, meets, hw, he⟩
    obtain ⟨e, builtin, type, size, rfl, allocates, rfl⟩ := sizeWrite?_iff.mp hw
    cases he
    exact ⟨f, hf, e, type, meets, rfl, allocates, rfl⟩

end

/-! ## Exact numbers -/

/-- A number is the one that is known, or -1 where none is. -/
structure Exact (Known : Int → Prop) (n : Int) : Prop where
  atLeast : -1 ≤ n
  unknown : n = -1 ↔ ∀ m, ¬ Known m
  known : ∀ m, Known m → n = m

theorem OrUnknown.exact {Known : Int → Prop} {n : Int} (h : OrUnknown Known n)
    (unique : ∀ m m', Known m → Known m' → m = m') (natural : ∀ m, Known m → 0 ≤ m) :
    Exact Known n := by
  cases h with
  | known hn =>
    have nonneg := natural n hn
    exact ⟨by omega, ⟨fun he => by omega, fun none => absurd hn (none n)⟩,
      fun m hm => unique n m hn hm⟩
  | unknown none =>
    exact ⟨Int.le_refl _, ⟨fun _ => none, fun _ => rfl⟩, fun m hm => absurd hm (none m)⟩

theorem Expr.IsLiteral.unique {e : Expr} {m n : Int} (hm : e.IsLiteral m) (hn : e.IsLiteral n) :
    m = n := by
  obtain ⟨_, hm, hv⟩ := hm
  obtain ⟨_, hn, hv'⟩ := hn
  cases hm.symm.trans hn
  exact Option.some.inj (hv.symm.trans hv')

theorem Counts.unique {args : List Expr} {m n : Int} (hm : Counts args m) (hn : Counts args n) :
    m = n := by
  obtain ⟨-, last, hl, hm⟩ := hm
  obtain ⟨-, _, hl', hn⟩ := hn
  cases hl.symm.trans hl'
  exact hm.unique hn

theorem Expr.HasSize.unique {types : TypeTable} {e : Expr} {m n : Int} (hm : e.HasSize types m)
    (hn : e.HasSize types n) : m = n := by
  obtain ⟨_, hs, rfl⟩ := hm
  obtain ⟨_, hs', rfl⟩ := hn
  rw [Option.some.inj (hs.symm.trans hs')]

theorem TotalSize.unique {types : TypeTable} {elt : Expr} {args : List Expr} {m n : Int}
    (hm : TotalSize types elt args m) (hn : TotalSize types elt args n) : m = n := by
  obtain ⟨_, _, hs, hc, rfl, -⟩ := hm
  obtain ⟨_, _, hs', hc', rfl, -⟩ := hn
  rw [hs.unique hs', hc.unique hc']

def Node.isSigned : Node → Bool
  | .expr ⟨_, _, .basicLit .int text⟩ => text.toList.contains '-'
  | _ => false

/-- No integer literal of the files has a sign. -/
def Package.Unsigned (p : Package) : Prop :=
  ∀ f ∈ p.usableFiles.1, ∀ n, f.Holds n → n.isSigned = false

/-- No type has a negative size. -/
def Package.Measured (p : Package) : Prop :=
  ∀ e ∈ p.types.entries, ∀ size, e.size = some size → 0 ≤ size.toInt

theorem SourceFile.Holds.unparen {f : SourceFile} {e : Expr} (h : f.Holds (.expr e)) :
    f.Holds (.expr e.unparen) := by
  fun_induction Expr.unparen e with
  | case1 span type x ih => exact ih (h.child (List.mem_singleton_self _))
  | case2 e other => exact h

section

variable {p : Package} {f : SourceFile} {e : Expr} {args : List Expr} {n : Int}

theorem Package.Unsigned.counts_nonneg (h : p.Unsigned) (hf : f ∈ p.usableFiles.1)
    (he : f.Holds (.expr e)) {name : String} (called : e.CallsBuiltin p name args)
    (counts : Counts args n) : 0 ≤ n := by
  obtain ⟨-, last, hl, text, here, value⟩ := counts
  cases called with
  | call =>
    have arg : f.Holds (.expr last) :=
      he.child (List.mem_map_of_mem (List.mem_cons_of_mem _ (List.mem_of_getLast? hl)))
    have plain := h f hf _ arg.unparen
    refine Literal.int?_nonneg value ?_
    generalize last.unparen = literal at here plain
    obtain ⟨span, type, node⟩ := literal
    cases here
    simpa [Node.isSigned] using plain

theorem Package.Measured.size_nonneg (h : p.Measured) (hs : e.HasSize p.types n) : 0 ≤ n := by
  obtain ⟨size, hs, rfl⟩ := hs
  obtain ⟨r, -, hs⟩ := Option.bind_eq_some_iff.mp hs
  obtain ⟨entry, he, hs⟩ := Option.bind_eq_some_iff.mp hs
  exact h entry (Array.mem_of_getElem? he) size hs

end

/-- The capacity of a container is exact: that of a call of `make` at its position. -/
def MakeSiteRow.IsExact (r : MakeSiteRow) (p : Package) : Prop :=
  ∃ f ∈ p.usableFiles.1, ∃ e type args, f.Holds (.expr e) ∧ e.span.start = r.position ∧
    e.CallsBuiltin p "make" (type :: args) ∧ type.Describes r.container ∧
      Exact (Counts (type :: args)) r.capacity

/-- The size of an allocation by a call is exact. -/
inductive SizedAllocRow.Fits (r : SizedAllocRow) (p : Package) (e : Expr) : Prop
  | make {type elt : Expr} {args : List Expr} : r.builtin = "make" →
      e.CallsBuiltin p "make" (type :: args) → type.unparen.node = .arrayType none elt →
      r.typeName = elt.render p.types → Exact (TotalSize p.types elt (type :: args)) r.size →
      Fits r p e
  | new {type : Expr} : r.builtin = "new" → e.CallsBuiltin p "new" [type] →
      r.typeName = type.render p.types → Exact (type.HasSize p.types) r.size → Fits r p e

/-- The size of an allocation is exact: that of a call at its position. -/
def SizedAllocRow.IsExact (r : SizedAllocRow) (p : Package) : Prop :=
  ∃ f ∈ p.usableFiles.1, ∃ e, f.Holds (.expr e) ∧ e.span.start = r.position ∧ r.Fits p e

/-- Where no literal has a sign and no type a negative size, all capacities and sizes that an analysis
records are exact, whatever came of it and whatever is cached: at least -1, which stands for those
that are not known or do not fit in 64 signed bits. -/
theorem analyze_exactAllocations {p : Package} (unsigned : p.Unsigned) (measured : p.Measured)
    (mode : Mode) (s : Session) :
    (∀ r ∈ ((analyze p mode).leaves s).store.makeSites,
      r ∈ s.store.makeSites ∨ r.IsExact p) ∧
      ∀ r ∈ ((analyze p mode).leaves s).store.sizedAllocSites,
        r ∈ s.store.sizedAllocSites ∨ r.IsExact p := by
  refine ⟨fun r hr => (analyze_makeSites p mode s hr).imp_right ?_,
    fun r hr => (analyze_sizedAllocSites p mode s hr).imp_right ?_⟩
  · rintro ⟨f, hf, e, meets, position, type, args, called, describes, capacity⟩
    have natural (m : Int) (hm : Counts (type :: args) m) : 0 ≤ m :=
      unsigned.counts_nonneg hf meets.holds called hm
    exact ⟨f, hf, e, type, args, meets.holds, position, called, describes,
      capacity.exact (fun _ _ => Counts.unique) natural⟩
  · rintro ⟨f, hf, e, type, meets, position, allocates, name⟩
    refine ⟨f, hf, e, meets.holds, position, ?_⟩
    generalize hb : r.builtin = builtin at allocates
    generalize hn : r.size = size at allocates
    cases allocates with
    | @make slice _ args _ called here recorded =>
      have natural (m : Int) (hm : TotalSize p.types type (slice :: args) m) : 0 ≤ m := by
        obtain ⟨_, _, hs, hc, rfl, -⟩ := hm
        exact Int.mul_nonneg (measured.size_nonneg hs)
          (unsigned.counts_nonneg hf meets.holds called hc)
      exact .make hb called here name (hn ▸ recorded.exact (fun _ _ => TotalSize.unique) natural)
    | new called recorded =>
      exact .new hb called name
        (hn ▸ recorded.exact (fun _ _ => Expr.HasSize.unique) fun _ => measured.size_nonneg)

def Expr.exactCalls : List Expr :=
  [.calling ⟨3, 2, 3, 25⟩ "make" [.ints ⟨3, 7, 3, 12⟩ (some 0), .integer ⟨3, 14, 3, 15⟩ "2",
      ⟨⟨3, 17, 3, 23⟩, none, .paren (.integer ⟨3, 18, 3, 22⟩ "0x10")⟩],
    .calling ⟨4, 2, 4, 10⟩ "new" [⟨⟨4, 6, 4, 9⟩, some 0, .ident "int" none⟩]]

/-- Elements of eight bytes: the sixteen take 128. -/
theorem analyze_exactCalls_exactAllocations :
    (∃ r ∈ ((analyze (.running [8] Expr.exactCalls) .make).leaves .sample).store.makeSites,
      r.capacity = 16 ∧ r.IsExact (.running [8] Expr.exactCalls)) ∧
    ∃ r ∈ ((analyze (.running [8] Expr.exactCalls) .allocSizes).leaves .sample).store.sizedAllocSites,
      r.size = 128 ∧ r.IsExact (.running [8] Expr.exactCalls) := by
  have unsigned : (Package.running [8] Expr.exactCalls).Unsigned := by
    have plain : ∀ n ∈ (SourceFile.running Expr.exactCalls).nodes, n.isSigned = false := by
      decide +kernel
    intro f hf n hn
    obtain rfl := List.mem_singleton.mp hf
    exact plain n (SourceFile.mem_nodes_iff.mpr hn)
  have measured : (Package.running [8] Expr.exactCalls).Measured := by
    intro e he size hs
    obtain rfl := List.mem_singleton.mp (Array.mem_toList_iff.mpr he)
    cases hs
    decide
  have made : ∃ r ∈ ((analyze (.running [8] Expr.exactCalls) .make).leaves .sample).store.makeSites,
      r ∉ Session.sample.store.makeSites ∧ r.capacity = 16 := by decide +kernel
  have allocated :
      ∃ r ∈ ((analyze (.running [8] Expr.exactCalls) .allocSizes).leaves .sample).store.sizedAllocSites,
        r ∉ Session.sample.store.sizedAllocSites ∧ r.size = 128 := by decide +kernel
  obtain ⟨r, hr, new, capacity⟩ := made
  obtain ⟨t, ht, new', size⟩ := allocated
  refine ⟨⟨r, hr, capacity, ?_⟩, t, ht, size, ?_⟩
  · exact ((analyze_exactAllocations unsigned measured .make .sample).1 r hr).resolve_left new
  · exact ((analyze_exactAllocations unsigned measured .allocSizes .sample).2 t ht).resolve_left new'

/-- The calls `make([]int, -5)` and `new(int)`, the five in one literal with its sign. -/
def Expr.signedCalls : List Expr :=
  [.calling ⟨3, 2, 3, 17⟩ "make" [.ints ⟨3, 7, 3, 12⟩ (some 0), .integer ⟨3, 14, 3, 16⟩ "-5"],
    .calling ⟨4, 2, 4, 10⟩ "new" [⟨⟨4, 6, 4, 9⟩, some 1, .ident "int" none⟩]]

/-- Signs and negative sizes are taken as they are: a capacity of -5, a size of -40 and one of -8. -/
theorem analyze_negativeAllocations :
    (∃ r ∈ ((analyze (.running [8, -8] Expr.signedCalls) .make).leaves .sample).store.makeSites,
      r.capacity = -5) ∧
    (∃ r ∈ ((analyze (.running [8, -8] Expr.signedCalls) .allocSizes).leaves
      .sample).store.sizedAllocSites, r.builtin = "make" ∧ r.size = -40) ∧
    ∃ r ∈ ((analyze (.running [8, -8] Expr.signedCalls) .allocSizes).leaves
      .sample).store.sizedAllocSites, r.builtin = "new" ∧ r.size = -8 := by
  decide +kernel

end AccessDepth
