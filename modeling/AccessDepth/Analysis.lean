import AccessDepth.Analysis.Allocation
import AccessDepth.Analysis.Definitions
import AccessDepth.Analysis.Depth

/-!
# AccessDepth.Analysis

Analyzing a package.

* `analyze` — makes the passes of a mode over the usable files of a package. Where a mode makes two
  passes, the first one is finished for every file before the second one starts, so that a use finds
  the variable wherever in the package it is declared.
-/

namespace AccessDepth

/-- A pass over files, one after the other. -/
def passOver (pass : SourceFile → Analyze Unit) : List SourceFile → Analyze Unit
  | [] => pure ()
  | f :: fs => do
    pass f
    passOver pass fs

/-- The passes that a mode makes, in order. -/
def Mode.passes (m : Mode) : List (Package → SourceFile → Analyze Unit) :=
  match m with
  | .defs => [Definitions.run]
  | .depth => [Depth.run]
  | .all => [Definitions.run, Depth.run]
  | .make => [Allocation.containers]
  | .allocSizes => [Allocation.sizes]

/-- Makes passes over files, one pass after the other. -/
def makePasses (package : Package) (files : List SourceFile) :
    List (Package → SourceFile → Analyze Unit) → Analyze Unit
  | [] => pure ()
  | pass :: passes => do
    passOver (pass package) files
    makePasses package files passes

/-- Makes the passes of a mode over a package. Tells what was skipped. -/
def analyze (package : Package) (mode : Mode) : Analyze (List Skip) := do
  let (files, skips) := package.usableFiles
  makePasses package files mode.passes
  pure skips

end AccessDepth
