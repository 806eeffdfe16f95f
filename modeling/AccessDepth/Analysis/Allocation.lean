import AccessDepth.Analysis.Scope
import AccessDepth.Literal
import AccessDepth.Package.Outline
import AccessDepth.Package.Render

/-!
# AccessDepth.Analysis.Allocation

The allocation passes.

* `Allocation.containers` — calls of `make` that build a slice, a map or a channel, with the
  capacity where it is a literal.
* `Allocation.sizes` — calls of `make` that build a slice and calls of `new`, with their size in
  bytes where it is known.

A builtin is known by its name, unless the name denotes something else. A capacity or size that is
not known is recorded as -1. Neither pass looks below a call that it records, nor below a `make` of
anything else; the second one looks below no call of `make` or `new`.
-/

namespace AccessDepth
namespace Allocation

/-- Recorded where a capacity or size is not known. -/
def unknown : Int := -1

/-- Whether an expression names a builtin function. -/
def callsBuiltin (w : Scope) (fn : Expr) (name : String) : Bool :=
  match fn.unparen.node with
  | .ident n object => n = name && (w.object? object).all fun o => o.kind = .builtin
  | _ => false

/-- The value of an expression that is an integer literal. -/
def literalValue? (e : Expr) : Option Int :=
  match e.unparen.node with
  | .basicLit .int text => Literal.int? text
  | _ => none

/-- The argument that gives the capacity: the last one of two or three. -/
def capacityOperand? : List Expr → Option Expr
  | [_, length] => some length
  | [_, _, capacity] => some capacity
  | _ => none

/-- The container that a type expression describes. -/
def containerOf? (type : Expr) : Option ContainerKind :=
  match type.unparen.node with
  | .arrayType none _ => some .slice
  | .mapType .. => some .map
  | .chanType .. => some .chan
  | _ => none

/-- The capacity of a `make` call by its arguments. -/
def capacity? (args : List Expr) : Option Int := (capacityOperand? args).bind literalValue?

def makeHook (w : Scope) (n : Node) (below : Analyze Unit) : Analyze Unit :=
  match n with
  | .expr ⟨span, _, .call fn args _⟩ =>
    if callsBuiltin w fn "make" then
      match args.head?.bind containerOf? with
      | some container => do
        let _ ← Analyze.commit (recordMakeSite {
          file := w.file, position := span.start, container := container
          capacity := (capacity? args).getD unknown })
        pure ()
      | none => pure ()
    else below
  | _ => below

/-- The calls of a file that build containers. -/
def containers (package : Package) (f : SourceFile) : Analyze Unit := do
  let w ← Scope.ofFile package f
  Outline.visitAll (makeHook w) f.outlines

/-- The size of so many elements, unless it does not fit in 64 signed bits. -/
def totalSize (element count : Int) : Int :=
  if Literal.fits (element * count) then element * count else unknown

/-- The element type and the size of a slice that `make` builds. -/
def madeSlice? (types : TypeTable) (args : List Expr) : Option (String × Int) :=
  match args.head?.map fun type : Expr => type.unparen.node with
  | some (ExprNode.arrayType none elt) =>
    let size := match elt.type.bind types.sizeOf?, capacity? args with
      | some element, some count => totalSize element.toInt count
      | _, _ => unknown
    some (elt.render types, size)
  | _ => none

/-- The type and the size of what `new` allocates. -/
def newAllocation? (types : TypeTable) : List Expr → Option (String × Int)
  | [type] =>
    some (type.render types, ((type.type.bind types.sizeOf?).map Int64.toInt).getD unknown)
  | _ => none

/-- Records what a builtin allocates, if it allocates anything. -/
def recordAlloc (w : Scope) (span : Span) (builtin : String) (found : Option (String × Int)) :
    Analyze Unit :=
  match found with
  | some (typeName, size) => do
    let _ ← Analyze.commit (recordSizedAlloc {
      file := w.file, position := span.start, builtin := builtin, typeName := typeName,
      size := size })
    pure ()
  | none => pure ()

def sizedHook (w : Scope) (n : Node) (below : Analyze Unit) : Analyze Unit :=
  match n with
  | .expr ⟨span, _, .call fn args _⟩ =>
    if callsBuiltin w fn "make" then
      recordAlloc w span "make" (madeSlice? w.package.types args)
    else if callsBuiltin w fn "new" then
      recordAlloc w span "new" (newAllocation? w.package.types args)
    else below
  | _ => below

/-- The calls of a file that allocate. -/
def sizes (package : Package) (f : SourceFile) : Analyze Unit := do
  let w ← Scope.ofFile package f
  Outline.visitAll (sizedHook w) f.outlines

end Allocation
end AccessDepth
