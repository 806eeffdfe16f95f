import AccessDepth.Json.Decode
import AccessDepth.Json.Reader
import AccessDepth.Json.Writer
import AccessDepth.Store

/-!
# AccessDepth.Store.Image

The text under which a store is kept: an object with the rows of each table, a row being the array
of its cells.

* `Row.ofCells?` — the row of a table with given cells, if there is one.
* `Store.toText`, `Store.ofText?` — the text of a store, and the store of a text.
-/

namespace AccessDepth

/-- Takes cells from the front of a row. -/
abbrev CellReader := StateT (List Cell) Option

namespace CellReader

def next : CellReader Cell := do
  match ← get with
  | [] => failure
  | c :: cs =>
    set cs
    pure c

def int : CellReader Int := do
  match ← next with
  | .int n => pure n
  | _ => failure

def text : CellReader String := do
  match ← next with
  | .text s => pure s
  | _ => failure

/-- A cell that may be empty. -/
def optional {α : Type} (read : CellReader α) : CellReader (Option α) := do
  match ← get with
  | .null :: cs =>
    set cs
    pure none
  | _ => some <$> read

def bool : CellReader Bool := do
  match ← int with
  | 0 => pure false
  | 1 => pure true
  | _ => failure

def word : CellReader UInt32 := do
  let n ← int
  if 0 ≤ n ∧ n < UInt32.size then pure (UInt32.ofNat n.toNat) else failure

def int64 : CellReader Int64 := do
  let n ← int
  if Int64.minValue.toInt ≤ n ∧ n ≤ Int64.maxValue.toInt then pure (Int64.ofInt n) else failure

def term {α : Type} [Vocabulary α] : CellReader α := do
  match Vocabulary.parse? (← text) with
  | some x => pure x
  | none => failure

def id {t : Table} : CellReader (RowId t) := RowId.mk <$> int

def position : CellReader Position := return ⟨← word, ← word⟩

def span : CellReader Span := return ⟨← word, ← word, ← word, ← word⟩

def enclosing : CellReader Enclosing := return ⟨← optional id, ← optional id⟩

/-- How a local variable is bound: at most one of three marks is set. -/
def role : CellReader VariableRole := do
  match ← bool, ← bool, ← bool with
  | false, false, false => pure .local
  | true, false, false => pure .param
  | false, true, false => pure .result
  | false, false, true => pure .receiver
  | _, _, _ => failure

/-- A place of definition, of which all cells are empty or none is. -/
def definition : CellReader (Option (FileId × Position)) := do
  match ← optional id, ← optional word, ← optional word with
  | some file, some line, some column => pure (some (file, ⟨line, column⟩))
  | none, none, none => pure none
  | _, _, _ => failure

/-- The row of a table. -/
def row : (t : Table) → CellReader (Row t)
  | .files => return { id := ← id, path := ← text }
  | .types => return { id := ← id, kind := ← term, name := ← text, length := ← optional int64 }
  | .typeInts => return { type := ← id, signed := ← bool }
  | .typeArrays => return { type := ← id, base := ← id, size := ← int64 }
  | .typeElems => return { type := ← id, base := ← id }
  | .typeMaps => return { type := ← id, key := ← id, value := ← id }
  | .typeChans => return { type := ← id, direction := ← term, base := ← id }
  | .typeMembers =>
    return { type := ← id, position := ← int, embedded := ← bool, name := ← optional text,
             member := ← id }
  | .typeNamed =>
    return { type := ← id, package := ← optional text, name := ← text, underlying := ← id }
  | .typeFuncs => return { type := ← id, variadic := ← bool, generic := ← bool }
  | .typeFuncSigs =>
    return { type := ← id, role := ← term, position := ← int, member := ← id,
             name := ← optional text }
  | .typeUnions => return { type := ← id, position := ← int, term := ← id, tilde := ← bool }
  | .functions =>
    return { id := ← id, name := ← optional text, file := ← id, position := ← position,
             variadic := ← bool, generic := ← bool, literal := ← bool, parent := ← optional id,
             type := ← optional id }
  | .functionSigs =>
    return { function := ← id, role := ← term, position := ← int, type := ← optional id,
             name := ← optional text }
  | .variables =>
    return { id := ← id, name := ← text, file := ← id, position := ← position,
             type := ← optional id, isGlobal := ← bool, isConst := ← bool,
             function := ← optional id }
  | .localVariables => return { id := ← id, role := ← role }
  | .statements =>
    return { id := ← id, kind := ← term, file := ← id, span := ← span, enclosing := ← enclosing }
  | .assignOperands => return { stmt := ← id, side := ← term, position := ← int, expr := ← id }
  | .returnResults => return { stmt := ← id, position := ← int, expr := ← id }
  | .defers => return { stmt := ← id, call := ← id }
  | .typeSwitches => return { stmt := ← id, bound := ← optional text, assertion := ← id }
  | .typeSwitchCases =>
    return { stmt := ← id, clause := ← int, position := ← int, place := ← position,
             type := ← optional id }
  | .expressions =>
    return { id := ← id, kind := ← term, type := ← optional id, file := ← id, span := ← span,
             enclosing := ← enclosing }
  | .identDetails => return { expr := ← id, name := ← text, definition := ← definition }
  | .selectorDetails => return { expr := ← id, base := ← id, field := ← text }
  | .typeAssertDetails => return { expr := ← id, base := ← id, type := ← optional id }
  | .callDetails =>
    return { expr := ← id, position := ← int, function := ← id, argument := ← optional id }
  | .accesses =>
    return { expr := ← id, kind := ← term, inner := ← optional id, baseName := ← optional text,
             baseVariable := ← optional id, depth := ← int, uncertainty := ← int }
  | .makeSites =>
    return { id := ← id, file := ← id, position := ← position, container := ← term,
             capacity := ← int }
  | .sizedAllocSites =>
    return { id := ← id, file := ← id, position := ← position, builtin := ← text,
             typeName := ← text, size := ← int }

end CellReader

namespace Row

/-- The row of a table with these cells, if there is one. -/
def ofCells? (t : Table) (cells : List Cell) : Option (Row t) :=
  match CellReader.row t cells with
  | some (r, []) => some r
  | _ => none

end Row

namespace Cell

def toJson : Cell → Json
  | .null => .null
  | .int n => .int n
  | .text s => .str s

def ofJson? : Json → Option Cell
  | .null => some .null
  | .int n => some (.int n)
  | .str s => some (.text s)
  | _ => none

end Cell

namespace Store

def toText (s : Store) : String :=
  Json.text <| .obj <| (Vocabulary.all : List Table).map fun t =>
    (Vocabulary.text t, .ofList (fun r => .ofList Cell.toJson (Row.cells t r)) (s.rows t))

/-- How deep the text of a store nests: tables, rows, cells. -/
def imageDepth : Nat := 3

/-- The store with the rows of one table from the text of a store. -/
def withTable (v : Json) (s : Store) (t : Table) : Option Store := do
  let rows ← v.member? (Vocabulary.text t)
  let rows ← rows.list? fun r => (r.list? Cell.ofJson?).bind (Row.ofCells? t)
  some (s.withRows t rows)

def ofText? (text : String) : Option Store := do
  let v ← Json.parse imageDepth text
  (Vocabulary.all : List Table).foldlM (withTable v) {}

end Store

end AccessDepth
