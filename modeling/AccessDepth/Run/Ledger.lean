import AccessDepth.Disk

/-!
# AccessDepth.Run.Ledger

The log of completed directories: one path a line, only ever added to.

* `Ledger.line` — the line of a path.
* `Ledger.paths` — the paths of a text; equal ones count once and keep their first spelling.
* `Ledger.read`, `prepare`, `append` — the log on a disk.

A line ends before its line feed and before a carriage return in front of that; one more carriage
return at the end of a line is no part of the path either. Blank lines are no paths.
-/

namespace AccessDepth
namespace Ledger

/-- The line of a path, with the end of the line. -/
def line (dir : Path) : List Char := dir.text.toList ++ ['\n']

/-- A text without one carriage return at its end. -/
def dropReturn (cs : List Char) : List Char :=
  match cs.reverse with
  | '\r' :: rest => rest.reverse
  | _ => cs

/-- The lines of a text. The end of a line is a line feed, with or without a carriage return before
it; the last line may lack its end. -/
def lines : List Char → List (List Char)
  | [] => []
  | '\n' :: cs => [] :: lines cs
  | c :: cs =>
    if c = '\r' ∧ cs.head? = some '\n' then lines cs
    else
      match cs, lines cs with
      | [], _ => [[c]]
      | _ :: _, [] => [[c]]
      | _ :: _, l :: ls => (c :: l) :: ls

/-- The path of a line. -/
def pathOf? (l : List Char) : Option Path :=
  match dropReturn l with
  | [] => none
  | cs => some ⟨String.ofList cs⟩

/-- A path that is equal to none of the ones before it. -/
def addNew (known : List Path) (p : Path) : List Path :=
  if known.any p.same then known else known ++ [p]

/-- The paths of a log. -/
def paths (text : List Char) : List Path := ((lines text).filterMap pathOf?).foldl addNew []

/-- The paths of a log on a disk; a log that is not there is empty. -/
def read (d : Disk) (p : Path) : Except FileProblem (List Path) :=
  match d.readText p with
  | .ok text => .ok (paths text.toList)
  | .error .notFound => .ok []
  | .error e => .error e

/-- Makes a log that can be added to, if it is not there. -/
def prepare (p : Path) : Disk.Change := do
  Disk.createParents p
  Disk.append p .empty

/-- Adds a path at the end of a log. -/
def append (p dir : Path) : Disk.Change := Disk.append p (String.ofList (line dir)).toUTF8

end Ledger
end AccessDepth
