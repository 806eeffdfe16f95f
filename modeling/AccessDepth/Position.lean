import AccessDepth.Json.Decode

/-!
# AccessDepth.Position

Places in a source file. Lines and columns are unsigned words of 32 bits and start at 1.

* `Position` — a line and a column.
* `Span` — where a node starts and where it ends, the end column excluded. A span read from an
  export is not checked; `Span.of?` refuses one that ends before it starts.
-/

namespace AccessDepth

structure Position where
  line : UInt32
  column : UInt32
  deriving DecidableEq, Repr, Inhabited

structure Span where
  startLine : UInt32
  startColumn : UInt32
  endLine : UInt32
  endColumn : UInt32
  deriving DecidableEq, Repr, Inhabited

namespace Position

def toJson (p : Position) : Json :=
  .obj [("line", .ofUInt32 p.line), ("column", .ofUInt32 p.column)]

def ofJson? (v : Json) : Option Position := do
  let [line, column] ← v.slots [.req "line", .req "column"] | none
  some { line := ← Json.required Json.uint32? line, column := ← Json.required Json.uint32? column }

end Position

namespace Span

def start (s : Span) : Position := ⟨s.startLine, s.startColumn⟩

/-- The position behind the last character. -/
def stop (s : Span) : Position := ⟨s.endLine, s.endColumn⟩

/-- Whether the span does not end before it starts. -/
def isOrdered (s : Span) : Bool :=
  s.startLine < s.endLine || (s.startLine == s.endLine && s.startColumn ≤ s.endColumn)

/-- The span with these bounds, if it does not end before it starts. -/
def of? (startLine startColumn endLine endColumn : UInt32) : Option Span :=
  let s : Span := ⟨startLine, startColumn, endLine, endColumn⟩
  if s.isOrdered then some s else none

/-- The span as `l:c-l:c`. -/
def text (s : Span) : String :=
  s!"{s.startLine.toNat}:{s.startColumn.toNat}-{s.endLine.toNat}:{s.endColumn.toNat}"

def toJson (s : Span) : Json :=
  .obj [("start_line", .ofUInt32 s.startLine), ("start_column", .ofUInt32 s.startColumn),
    ("end_line", .ofUInt32 s.endLine), ("end_column", .ofUInt32 s.endColumn)]

def ofJson? (v : Json) : Option Span := do
  let [startLine, startColumn, endLine, endColumn] ←
    v.slots [.req "start_line", .req "start_column", .req "end_line", .req "end_column"] | none
  some {
    startLine := ← Json.required Json.uint32? startLine
    startColumn := ← Json.required Json.uint32? startColumn
    endLine := ← Json.required Json.uint32? endLine
    endColumn := ← Json.required Json.uint32? endColumn }

end Span

end AccessDepth
