import AccessDepth.Vocabulary

/-!
# AccessDepth.Kind

The vocabularies of the store and of the command line.

* `TypeKind`, `ExprKind`, `StmtKind` — what a type, expression or statement row describes.
* `AccessKind` — how an expression reaches memory.
* `SignatureRole`, `ContainerKind`, `OperandSide` — parts of signatures, `make` calls and
  assignments.
* `Mode` — which passes a run makes.
-/

namespace AccessDepth

inductive TypeKind where
  | invalid | bool | int | float | complex | array | pointer | address | slice | string | function
  | struct | interface | map | channel | named | nil | typeParam | tuple | union
  deriving DecidableEq, Repr, Inhabited

instance : Vocabulary TypeKind where
  all := [.invalid, .bool, .int, .float, .complex, .array, .pointer, .address, .slice, .string,
    .function, .struct, .interface, .map, .channel, .named, .nil, .typeParam, .tuple, .union]
  text
    | .invalid => "invalid"
    | .bool => "bool"
    | .int => "int"
    | .float => "float"
    | .complex => "complex"
    | .array => "array"
    | .pointer => "pointer"
    | .address => "address"
    | .slice => "slice"
    | .string => "string"
    | .function => "function"
    | .struct => "struct"
    | .interface => "interface"
    | .map => "map"
    | .channel => "channel"
    | .named => "named"
    | .nil => "nil"
    | .typeParam => "type_param"
    | .tuple => "tuple"
    | .union => "union"

inductive ExprKind where
  | bad | ident | ellipsis | basicLit | funcLit | compositeLit | paren | selector | index
  | indexList | slice | typeAssert | call | star | unary | binary | keyValue | arrayType
  | structType | funcType | interfaceType | mapType | chanType
  deriving DecidableEq, Repr, Inhabited

instance : Vocabulary ExprKind where
  all := [.bad, .ident, .ellipsis, .basicLit, .funcLit, .compositeLit, .paren, .selector, .index,
    .indexList, .slice, .typeAssert, .call, .star, .unary, .binary, .keyValue, .arrayType,
    .structType, .funcType, .interfaceType, .mapType, .chanType]
  text
    | .bad => "bad"
    | .ident => "ident"
    | .ellipsis => "ellipsis"
    | .basicLit => "basic_lit"
    | .funcLit => "func_lit"
    | .compositeLit => "composite_lit"
    | .paren => "paren"
    | .selector => "selector"
    | .index => "index"
    | .indexList => "index_list"
    | .slice => "slice"
    | .typeAssert => "type_assert"
    | .call => "call"
    | .star => "star"
    | .unary => "unary"
    | .binary => "binary"
    | .keyValue => "key_value"
    | .arrayType => "array_type"
    | .structType => "struct_type"
    | .funcType => "func_type"
    | .interfaceType => "interface_type"
    | .mapType => "map_type"
    | .chanType => "chan_type"

inductive StmtKind where
  | other | bad | decl | empty | labeled | expr | send | incDec | assign | go | defer | return
  | branch | block | if | caseClause | switch | typeSwitch | commClause | select | for | range
  deriving DecidableEq, Repr, Inhabited

instance : Vocabulary StmtKind where
  all := [.other, .bad, .decl, .empty, .labeled, .expr, .send, .incDec, .assign, .go, .defer,
    .return, .branch, .block, .if, .caseClause, .switch, .typeSwitch, .commClause, .select, .for,
    .range]
  text
    | .other => "other"
    | .bad => "bad"
    | .decl => "decl"
    | .empty => "empty"
    | .labeled => "labeled"
    | .expr => "expr"
    | .send => "send"
    | .incDec => "inc_dec"
    | .assign => "assign"
    | .go => "go"
    | .defer => "defer"
    | .return => "return"
    | .branch => "branch"
    | .block => "block"
    | .if => "if"
    | .caseClause => "case_clause"
    | .switch => "switch"
    | .typeSwitch => "type_switch"
    | .commClause => "comm_clause"
    | .select => "select"
    | .for => "for"
    | .range => "range"

/-- How an expression reaches memory. -/
inductive AccessKind where
  /-- A variable used by its name. -/
  | ident
  /-- `*a` -/
  | deref
  /-- `&a` -/
  | ref
  /-- `s.f` where `s` is a structure. -/
  | fieldAccess
  /-- `p.f` where `p` is a pointer. -/
  | indirectFieldAccess
  | sliceIndex
  | arrayIndex
  | mapIndex
  | paren
  /-- `a.f` where the type of `a` is not known. -/
  | unknownFieldAccess
  | unknownIndex
  | sliceOfSlice
  | sliceOfArray
  | unknownSlice
  /-- What a call returns. -/
  | functionCall
  | other
  deriving DecidableEq, Repr, Inhabited

instance : Vocabulary AccessKind where
  all := [.ident, .deref, .ref, .fieldAccess, .indirectFieldAccess, .sliceIndex, .arrayIndex,
    .mapIndex, .paren, .unknownFieldAccess, .unknownIndex, .sliceOfSlice, .sliceOfArray,
    .unknownSlice, .functionCall, .other]
  text
    | .ident => "ident"
    | .deref => "deref"
    | .ref => "ref"
    | .fieldAccess => "field_access"
    | .indirectFieldAccess => "indirect_field_access"
    | .sliceIndex => "slice_index"
    | .arrayIndex => "array_index"
    | .mapIndex => "map_index"
    | .paren => "paren"
    | .unknownFieldAccess => "unknown_field_access"
    | .unknownIndex => "unknown_index"
    | .sliceOfSlice => "slice_of_slice"
    | .sliceOfArray => "slice_of_array"
    | .unknownSlice => "unknown_slice"
    | .functionCall => "function_call"
    | .other => "other"

/-- What an entry of a signature is. -/
inductive SignatureRole where
  | receiver | param | result | typeParam
  deriving DecidableEq, Repr, Inhabited

instance : Vocabulary SignatureRole where
  all := [.receiver, .param, .result, .typeParam]
  text
    | .receiver => "receiver"
    | .param => "param"
    | .result => "result"
    | .typeParam => "type_param"

/-- What a `make` call builds. -/
inductive ContainerKind where
  | slice | map | chan
  deriving DecidableEq, Repr, Inhabited

instance : Vocabulary ContainerKind where
  all := [.slice, .map, .chan]
  text
    | .slice => "slice"
    | .map => "map"
    | .chan => "chan"

/-- On which side of an assignment an operand stands. -/
inductive OperandSide where
  | left | right
  deriving DecidableEq, Repr, Inhabited

instance : Vocabulary OperandSide where
  all := [.left, .right]
  text
    | .left => "lhs"
    | .right => "rhs"

/-- How a function binds a local variable. -/
inductive VariableRole where
  /-- Declared in the body. -/
  | local
  | param | result | receiver
  deriving DecidableEq, Repr, Inhabited

instance : Vocabulary VariableRole where
  all := [.local, .param, .result, .receiver]
  text
    | .local => "local"
    | .param => "param"
    | .result => "result"
    | .receiver => "receiver"

/-- What a unit must bring for a pass. -/
inductive LoadMode where
  /-- With the types and objects that the exporter resolved. -/
  | resolved
  | syntaxOnly
  deriving DecidableEq, Repr, Inhabited

instance : Vocabulary LoadMode where
  all := [.resolved, .syntaxOnly]
  text
    | .resolved => "resolved"
    | .syntaxOnly => "syntax_only"

/-- Which passes a run makes. -/
inductive Mode where
  /-- Functions and variables. -/
  | defs
  /-- Statements, expressions and memory accesses. -/
  | depth
  /-- Definitions of the whole corpus, then depth. -/
  | all
  /-- Calls that build containers; needs no types. -/
  | make
  /-- Calls that allocate, with their sizes in bytes. -/
  | allocSizes
  deriving DecidableEq, Repr, Inhabited

instance : Vocabulary Mode where
  all := [.defs, .depth, .all, .make, .allocSizes]
  text
    | .defs => "defs"
    | .depth => "depth"
    | .all => "all"
    | .make => "make"
    | .allocSizes => "alloc-sizes"
  name
    | .defs => "defs"
    | .depth => "depth"
    | .all => "all"
    | .make => "make"
    | .allocSizes => "alloc_sizes"

namespace Mode

/-- Only the container pass does without types. -/
def loadMode : Mode → LoadMode
  | .make => .syntaxOnly
  | .defs | .depth | .all | .allocSizes => .resolved

/-- The name of the log of completed directories. Each mode resumes on its own. -/
def logName (m : Mode) : String := s!"memdepth-{Vocabulary.text m}.log"

/-- The passes over the whole corpus, in order. Each has a log of its own. -/
def phases : Mode → List Mode
  | .all => [.defs, .depth]
  | m => [m]

def writesDefinitions (m : Mode) : Bool := m = .defs || m = .all

def writesDepth (m : Mode) : Bool := m = .depth || m = .all

end Mode

end AccessDepth
