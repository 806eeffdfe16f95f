import AccessDepth.Proofs.Plan.Allocation

/-!
# AccessDepth.Proofs.Allocation.Sites

What the allocation passes record of a call, read off the syntax.

* `Expr.CallsBuiltin` — an expression calls a builtin function.
* `OrUnknown` — the number that is recorded where another one may not be known.
* `Expr.Makes`, `Expr.Allocates` — what a call builds, with its capacity or with its size in bytes.
* `Allocation.calls` — where the walk of a pass stops.
* `Allocation.makeWrite?`, `sizeWrite?` — the transaction that a pass makes at a node.
* `makeWrite?_iff`, `sizeWrite?_iff` — they are made for just these calls.
-/

namespace AccessDepth

open Plan (Write)

/-! ## Calls -/

/-- An expression calls a builtin function with some arguments. A name that denotes nothing is that of
the builtin. -/
inductive Expr.CallsBuiltin (p : Package) (name : String) : Expr → List Expr → Prop
  | call {span : Span} {type : Option TypeRef} {fn : Expr} {args : List Expr} {spread : Bool}
      {object : Option ObjectRef} :
      fn.unparen.node = .ident name object →
      (∀ o, p.objects.get? object = some o → o.kind = .builtin) →
      CallsBuiltin p name ⟨span, type, .call fn args spread⟩ args

/-- A type expression describes a container. -/
inductive Expr.Describes (type : Expr) : ContainerKind → Prop
  | slice {elt : Expr} : type.unparen.node = .arrayType none elt → Describes type .slice
  | map {key value : Expr} : type.unparen.node = .mapType key value → Describes type .map
  | chan {dir : ChanDir} {value : Expr} : type.unparen.node = .chanType dir value →
      Describes type .chan

def Expr.IsLiteral (e : Expr) (n : Int) : Prop :=
  ∃ text, e.unparen.node = .basicLit .int text ∧ Literal.int? text = some n

/-- The arguments of a `make` ask for so many elements: the last one of two or three is a literal. -/
def Counts (args : List Expr) (n : Int) : Prop :=
  (args.length = 2 ∨ args.length = 3) ∧ ∃ last, args.getLast? = some last ∧ last.IsLiteral n

def Expr.HasSize (types : TypeTable) (e : Expr) (n : Int) : Prop :=
  ∃ size, e.type.bind types.sizeOf? = some size ∧ n = size.toInt

/-- So many elements of a type take so many bytes, and the number fits in 64 signed bits. -/
def TotalSize (types : TypeTable) (elt : Expr) (args : List Expr) (n : Int) : Prop :=
  ∃ size count, elt.HasSize types size ∧ Counts args count ∧ n = size * count ∧
    Int64.minValue.toInt ≤ n ∧ n ≤ Int64.maxValue.toInt

/-- The number that is recorded for a number that may not be known. -/
inductive OrUnknown (Known : Int → Prop) : Int → Prop
  | known {n : Int} : Known n → OrUnknown Known n
  | unknown : (∀ n, ¬ Known n) → OrUnknown Known (-1)

/-- An expression builds a container with a capacity. -/
def Expr.Makes (p : Package) (e : Expr) (container : ContainerKind) (capacity : Int) : Prop :=
  ∃ type args, e.CallsBuiltin p "make" (type :: args) ∧ type.Describes container ∧
    OrUnknown (Counts (type :: args)) capacity

/-- An expression allocates so many bytes for what a type expression describes. -/
inductive Expr.Allocates (p : Package) (e : Expr) : String → Expr → Int → Prop
  | make {type elt : Expr} {args : List Expr} {size : Int} :
      e.CallsBuiltin p "make" (type :: args) → type.unparen.node = .arrayType none elt →
      OrUnknown (TotalSize p.types elt (type :: args)) size → Allocates p e "make" elt size
  | new {type : Expr} {size : Int} :
      e.CallsBuiltin p "new" [type] → OrUnknown (type.HasSize p.types) size →
      Allocates p e "new" type size

theorem OrUnknown.iff_getD {Known : Int → Prop} {x : Option Int} (h : ∀ n, x = some n ↔ Known n)
    {n : Int} : OrUnknown Known n ↔ n = x.getD Allocation.unknown := by
  constructor
  · rintro (known | unknown)
    · rw [(h n).mpr known]
      rfl
    · rw [Option.eq_none_iff_forall_ne_some.mpr fun m hm => unknown m ((h m).mp hm)]
      rfl
  · rintro rfl
    cases x with
    | none => exact .unknown fun n hn => nomatch (h n).mpr hn
    | some m => exact .known ((h m).mp rfl)

namespace Allocation

variable {p : Package} {file : FileId} {e : Expr} {args : List Expr} {n : Node} {w : Write}

/-! ## Arguments -/

theorem isBuiltin_iff {fn : Expr} {name : String} :
    isBuiltin p fn name = true ↔ ∃ object, fn.unparen.node = .ident name object ∧
      ∀ o, p.objects.get? object = some o → o.kind = .builtin := by
  unfold isBuiltin
  cases fn.unparen.node with
  | ident n object =>
    simp only [Bool.and_eq_true, decide_eq_true_eq, Option.all_eq_true, ExprNode.ident.injEq]
    constructor
    · rintro ⟨rfl, h⟩
      exact ⟨object, ⟨rfl, rfl⟩, h⟩
    · rintro ⟨_, ⟨rfl, rfl⟩, h⟩
      exact ⟨rfl, h⟩
  | _ => simp

theorem eq_of_isBuiltin {fn : Expr} {a b : String} (ha : isBuiltin p fn a = true)
    (hb : isBuiltin p fn b = true) : a = b := by
  obtain ⟨_, ha, -⟩ := isBuiltin_iff.mp ha
  obtain ⟨_, hb, -⟩ := isBuiltin_iff.mp hb
  exact (ExprNode.ident.inj (ha.symm.trans hb)).1

theorem callsBuiltin_iff {span : Span} {type : Option TypeRef} {fn : Expr} {args' : List Expr}
    {spread : Bool} {name : String} :
    Expr.CallsBuiltin p name ⟨span, type, .call fn args spread⟩ args' ↔
      isBuiltin p fn name = true ∧ args' = args := by
  rw [isBuiltin_iff]
  constructor
  · rintro ⟨named, builtin⟩
    exact ⟨⟨_, named, builtin⟩, rfl⟩
  · rintro ⟨⟨_, named, builtin⟩, rfl⟩
    exact .call named builtin

theorem containerOf?_iff {type : Expr} {container : ContainerKind} :
    containerOf? type = some container ↔ type.Describes container := by
  constructor
  · intro h
    unfold containerOf? at h
    split at h <;> cases h
    case h_1 here => exact .slice here
    case h_2 here => exact .map here
    case h_3 here => exact .chan here
  · rintro (here | here | here) <;> simp [containerOf?, here]

theorem literalValue?_iff {m : Int} : literalValue? e = some m ↔ e.IsLiteral m := by
  unfold literalValue? Expr.IsLiteral
  constructor
  · intro h
    split at h
    · exact ⟨_, ‹_›, h⟩
    · cases h
  · rintro ⟨text, here, h⟩
    simp only [here, h]

theorem capacity?_iff {m : Int} : capacity? args = some m ↔ Counts args m := by
  have operand : ∀ last, capacityOperand? args = some last ↔
      (args.length = 2 ∨ args.length = 3) ∧ args.getLast? = some last := by
    intro last
    match args with
    | [] | [_] | [_, _] | [_, _, _] => simp [capacityOperand?]
    | _ :: _ :: _ :: _ :: _ => simp [capacityOperand?]
  rw [capacity?, Option.bind_eq_some_iff]
  simp only [operand, literalValue?_iff, Counts, and_assoc, exists_and_left]

theorem totalSize_orUnknown {types : TypeTable} {elt : Expr} {size : Int} :
    OrUnknown (TotalSize types elt args) size ↔
      size = match elt.type.bind types.sizeOf?, capacity? args with
        | some element, some count => totalSize element.toInt count
        | _, _ => unknown := by
  let known? : Option Int := (elt.type.bind types.sizeOf?).bind fun element =>
    (capacity? args).bind fun count =>
      if Literal.fits (element.toInt * count) then some (element.toInt * count) else none
  have known (n : Int) : known? = some n ↔ TotalSize types elt args n := by
    simp only [known?, Option.bind_eq_some_iff, capacity?_iff, TotalSize, Expr.HasSize]
    constructor
    · rintro ⟨element, he, count, hc, h⟩
      obtain ⟨fits, h⟩ := Option.ite_none_right_eq_some.mp h
      cases h
      simp only [Literal.fits, Bool.and_eq_true, decide_eq_true_eq] at fits
      exact ⟨_, count, ⟨element, he, rfl⟩, hc, rfl, fits⟩
    · rintro ⟨_, count, ⟨element, he, rfl⟩, hc, rfl, fits⟩
      have fits : Literal.fits (element.toInt * count) = true := by
        simpa only [Literal.fits, Bool.and_eq_true, decide_eq_true_eq] using fits
      exact ⟨element, he, count, hc, by rw [if_pos fits]⟩
  rw [OrUnknown.iff_getD known]
  refine Eq.congr_right ?_
  simp only [known?]
  cases elt.type.bind types.sizeOf? with
  | none => rfl
  | some element =>
    cases capacity? args with
    | none => rfl
    | some count =>
      simp only [Option.bind_some, totalSize]
      split <;> rfl

theorem hasSize_orUnknown {types : TypeTable} {size : Int} :
    OrUnknown (e.HasSize types) size ↔
      size = ((e.type.bind types.sizeOf?).map Int64.toInt).getD unknown :=
  OrUnknown.iff_getD fun n => by
    rw [Option.map_eq_some_iff, Expr.HasSize]
    simp only [eq_comm]

/-! ## Transactions -/

/-- Where a walk stops that looks for calls of some builtin functions. -/
def calls (p : Package) (names : List String) : Node → Bool
  | .expr ⟨_, _, .call fn _ _⟩ => names.any (isBuiltin p fn)
  | _ => false

theorem calls_iff {names : List String} :
    calls p names n = true ↔ ∃ e name args, n = .expr e ∧ name ∈ names ∧
      e.CallsBuiltin p name args := by
  constructor
  · intro h
    unfold calls at h
    split at h
    · obtain ⟨name, hn, named⟩ := List.any_eq_true.mp h
      exact ⟨_, name, _, rfl, hn, callsBuiltin_iff.mpr ⟨named, rfl⟩⟩
    · cases h
  · rintro ⟨e, name, args, rfl, hn, named, builtin⟩
    exact List.any_eq_true.mpr ⟨name, hn, isBuiltin_iff.mpr ⟨_, named, builtin⟩⟩

section

variable (p : Package) (file : FileId)

/-- The transaction at a node of the pass over containers. -/
def makeWrite? : Node → Option Write
  | .expr ⟨span, _, .call fn args _⟩ =>
    if isBuiltin p fn "make" then
      (args.head?.bind containerOf?).map fun container =>
        .makeSite ⟨file, span.start, container, (capacity? args).getD unknown⟩
    else none
  | _ => none

def allocWrite? (span : Span) (builtin : String) (found : Option (String × Int)) : Option Write :=
  found.map fun found => .sizedAlloc ⟨file, span.start, builtin, found.1, found.2⟩

/-- The transaction at a node of the pass over sizes. -/
def sizeWrite? : Node → Option Write
  | .expr ⟨span, _, .call fn args _⟩ =>
    if isBuiltin p fn "make" then allocWrite? file span "make" (madeSlice? p.types args)
    else if isBuiltin p fn "new" then allocWrite? file span "new" (newAllocation? p.types args)
    else none
  | _ => none

end

/-- The pass over containers records the calls that build them, and nothing else. -/
theorem makeWrite?_iff : makeWrite? p file n = some w ↔
    ∃ e container capacity, n = .expr e ∧ e.Makes p container capacity ∧
      w = .makeSite ⟨file, e.span.start, container, capacity⟩ := by
  constructor
  · intro h
    unfold makeWrite? at h
    split at h
    · rename_i span type fn args spread
      obtain ⟨named, h⟩ := Option.ite_none_right_eq_some.mp h
      obtain ⟨container, hc, rfl⟩ := Option.map_eq_some_iff.mp h
      obtain ⟨first, hf, hc⟩ := Option.bind_eq_some_iff.mp hc
      obtain ⟨rest, rfl⟩ := List.head?_eq_some_iff.mp hf
      exact ⟨_, container, _, rfl, ⟨first, rest, callsBuiltin_iff.mpr ⟨named, rfl⟩,
        containerOf?_iff.mp hc, (OrUnknown.iff_getD fun _ => capacity?_iff).mpr rfl⟩, rfl⟩
    · cases h
  · rintro ⟨e, container, capacity, rfl, ⟨type, args, ⟨named, builtin⟩, describes, recorded⟩, rfl⟩
    have named := isBuiltin_iff.mpr ⟨_, named, builtin⟩
    obtain rfl := (OrUnknown.iff_getD fun _ => capacity?_iff).mp recorded
    simp [makeWrite?, named, containerOf?_iff.mpr describes]

theorem madeSlice?_iff {types : TypeTable} {name : String} {size : Int} :
    madeSlice? types args = some (name, size) ↔ ∃ type rest elt, args = type :: rest ∧
      type.unparen.node = .arrayType none elt ∧ name = elt.render types ∧
      OrUnknown (TotalSize types elt args) size := by
  simp only [totalSize_orUnknown]
  unfold madeSlice?
  constructor
  · intro h
    split at h
    · rename_i elt slice
      obtain ⟨type, hf, here⟩ := Option.map_eq_some_iff.mp slice
      obtain ⟨rest, rfl⟩ := List.head?_eq_some_iff.mp hf
      cases h
      exact ⟨type, rest, elt, rfl, here, rfl, rfl⟩
    · cases h
  · rintro ⟨type, rest, elt, rfl, slice, rfl, rfl⟩
    split
    · rename_i _ here
      cases (congrArg some slice).symm.trans here
      rfl
    · rename_i other
      exact absurd (congrArg some slice) (other elt)

theorem newAllocation?_iff {types : TypeTable} {name : String} {size : Int} :
    newAllocation? types args = some (name, size) ↔ ∃ type, args = [type] ∧
      name = type.render types ∧ OrUnknown (type.HasSize types) size := by
  simp only [hasSize_orUnknown]
  unfold newAllocation?
  constructor
  · intro h
    split at h
    · cases h
      exact ⟨_, rfl, rfl, rfl⟩
    · cases h
  · rintro ⟨type, rfl, rfl, rfl⟩
    rfl

theorem allocWrite?_iff {span : Span} {builtin : String} {found : Option (String × Int)} :
    allocWrite? file span builtin found = some w ↔ ∃ name size, found = some (name, size) ∧
      w = .sizedAlloc ⟨file, span.start, builtin, name, size⟩ := by
  rw [allocWrite?, Option.map_eq_some_iff, Prod.exists]
  simp only [eq_comm]

/-- The pass over sizes records the calls that allocate, and nothing else. -/
theorem sizeWrite?_iff : sizeWrite? p file n = some w ↔
    ∃ e builtin type size, n = .expr e ∧ e.Allocates p builtin type size ∧
      w = .sizedAlloc ⟨file, e.span.start, builtin, type.render p.types, size⟩ := by
  constructor
  · intro h
    unfold sizeWrite? at h
    split at h
    · split at h
      · rename_i named
        obtain ⟨name, size, made, rfl⟩ := allocWrite?_iff.mp h
        obtain ⟨type, rest, elt, rfl, slice, rfl, recorded⟩ := madeSlice?_iff.mp made
        exact ⟨_, _, elt, size, rfl,
          .make (callsBuiltin_iff.mpr ⟨named, rfl⟩) slice recorded, rfl⟩
      · obtain ⟨named, h⟩ := Option.ite_none_right_eq_some.mp h
        obtain ⟨name, size, found, rfl⟩ := allocWrite?_iff.mp h
        obtain ⟨type, rfl, rfl, recorded⟩ := newAllocation?_iff.mp found
        exact ⟨_, _, type, size, rfl, .new (callsBuiltin_iff.mpr ⟨named, rfl⟩) recorded, rfl⟩
    · cases h
  · rintro ⟨e, builtin, type, size, rfl, allocates, rfl⟩
    cases allocates with
    | make called slice recorded =>
      obtain ⟨named, builtin⟩ := called
      have named := isBuiltin_iff.mpr ⟨_, named, builtin⟩
      simp only [sizeWrite?, named, if_true]
      exact allocWrite?_iff.mpr
        ⟨_, size, madeSlice?_iff.mpr ⟨_, _, type, rfl, slice, rfl, recorded⟩, rfl⟩
    | new called recorded =>
      obtain ⟨named, builtin⟩ := called
      have named := isBuiltin_iff.mpr ⟨_, named, builtin⟩
      rename_i fn _ _ _
      have other : isBuiltin p fn "make" = false := by
        rw [Bool.eq_false_iff]
        intro make
        exact absurd (eq_of_isBuiltin make named) (by decide)
      simp only [sizeWrite?, other, named, if_true]
      exact allocWrite?_iff.mpr
        ⟨_, size, newAllocation?_iff.mpr ⟨type, rfl, rfl, recorded⟩, rfl⟩

end Allocation
end AccessDepth
