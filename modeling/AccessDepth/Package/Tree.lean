import AccessDepth.Package.Objects

/-!
# AccessDepth.Package.Tree

The syntax tree of a Go source file, as an exporter hands it over.

* `Expr`, `Stmt`, `GenDecl`, `FuncDecl`, `SourceFile` — the tree.
* `Expr.unparen` — an expression without the parentheses around it.

Expressions carry their static type and identifiers the object that they denote; both are missing
where the exporter resolved nothing.
-/

namespace AccessDepth

/-- A name that is not an operand. -/
structure Ident where
  name : String
  span : Span
  type : Option TypeRef
  object : Option ObjectRef
  deriving DecidableEq

namespace Ident

def isBlank (i : Ident) : Bool := i.name = "_"

end Ident

inductive LitKind where
  | int | float | imag | char | string
  deriving DecidableEq, Repr, Inhabited

instance : Vocabulary LitKind where
  all := [.int, .float, .imag, .char, .string]
  text
    | .int => "int"
    | .float => "float"
    | .imag => "imag"
    | .char => "char"
    | .string => "string"

/-- A literal that is not an operand: an import path or a field tag. -/
structure BasicLit where
  span : Span
  kind : LitKind
  value : String
  deriving DecidableEq

inductive DeclToken where
  | import | const | type | var
  deriving DecidableEq, Repr, Inhabited

instance : Vocabulary DeclToken where
  all := [.import, .const, .type, .var]
  text
    | .import => "import"
    | .const => "const"
    | .type => "type"
    | .var => "var"

inductive AssignOp where
  /-- `=` -/
  | assign
  /-- `:=` -/
  | define
  /-- `+=` and its like. -/
  | compound
  deriving DecidableEq, Repr, Inhabited

instance : Vocabulary AssignOp where
  all := [.assign, .define, .compound]
  text
    | .assign => "assign"
    | .define => "define"
    | .compound => "compound"

inductive BranchToken where
  | break | continue | goto | fallthrough
  deriving DecidableEq, Repr, Inhabited

instance : Vocabulary BranchToken where
  all := [.break, .continue, .goto, .fallthrough]
  text
    | .break => "break"
    | .continue => "continue"
    | .goto => "goto"
    | .fallthrough => "fallthrough"

inductive UnaryOp where
  | addr | deref | neg | pos | not | xor | recv | tilde
  deriving DecidableEq, Repr, Inhabited

instance : Vocabulary UnaryOp where
  all := [.addr, .deref, .neg, .pos, .not, .xor, .recv, .tilde]
  text
    | .addr => "addr"
    | .deref => "deref"
    | .neg => "neg"
    | .pos => "pos"
    | .not => "not"
    | .xor => "xor"
    | .recv => "recv"
    | .tilde => "tilde"

mutual

structure Expr where
  span : Span
  type : Option TypeRef
  node : ExprNode

inductive ExprNode where
  /-- Stands for a syntax error. -/
  | bad
  | ident (name : String) (object : Option ObjectRef)
  /-- `...elt` -/
  | ellipsis (elt : Option Expr)
  | basicLit (kind : LitKind) (value : String)
  | funcLit (type : FuncType) (body : Block)
  /-- `T{elts}` -/
  | compositeLit (type : Option Expr) (elts : List Expr)
  | paren (x : Expr)
  /-- `x.sel` -/
  | selector (x : Expr) (sel : Ident)
  | index (x : Expr) (index : Expr)
  /-- `x[A, B]` -/
  | indexList (x : Expr) (indices : List Expr)
  /-- `x[low:high:max]` -/
  | slice (x : Expr) (low high max : Option Expr)
  /-- `x.(T)`; without a type, `x.(type)`. -/
  | typeAssert (x : Expr) (type : Option Expr)
  /-- `fn(args)`; `spread` tells whether the last argument is followed by `...`. -/
  | call (fn : Expr) (args : List Expr) (spread : Bool)
  /-- `*x`, an indirection or a pointer type. -/
  | star (x : Expr)
  | unary (op : UnaryOp) (x : Expr)
  | binary (op : String) (x y : Expr)
  | keyValue (key value : Expr)
  /-- `[len]elt`; without a length, `[]elt`. -/
  | arrayType (len : Option Expr) (elt : Expr)
  | structType (fields : FieldList)
  | funcType (type : FuncType)
  | interfaceType (methods : FieldList)
  | mapType (key value : Expr)
  | chanType (dir : ChanDir) (value : Expr)

/-- A list of fields in parentheses or braces. -/
structure FieldList where
  span : Option Span
  fields : List Field

/-- A parameter, result, structure field or interface method. -/
structure Field where
  span : Span
  /-- Empty for anonymous parameters and embedded fields. -/
  names : List Ident
  type : Expr
  tag : Option BasicLit

structure FuncType where
  span : Span
  typeParams : Option FieldList
  params : FieldList
  results : Option FieldList

structure Block where
  span : Span
  stmts : List Stmt

/-- One part of a general declaration. -/
inductive Spec where
  | import (span : Span) (name : Option Ident) (path : BasicLit)
  | value (span : Span) (names : List Ident) (type : Option Expr) (values : List Expr)
  | type (span : Span) (name : Ident) (typeParams : Option FieldList) (isAlias : Bool) (type : Expr)

/-- An `import`, `const`, `type` or `var` declaration. -/
structure GenDecl where
  span : Span
  tok : DeclToken
  specs : List Spec

inductive Stmt where
  /-- Stands for a syntax error. -/
  | bad (span : Span)
  | decl (span : Span) (decl : GenDecl)
  | empty (span : Span)
  | labeled (span : Span) (label : Ident) (stmt : Stmt)
  | expr (span : Span) (x : Expr)
  | send (span : Span) (chan value : Expr)
  | incDec (span : Span) (x : Expr) (inc : Bool)
  | assign (span : Span) (lhs : List Expr) (op : AssignOp) (rhs : List Expr)
  | go (span : Span) (call : Expr)
  | defer (span : Span) (call : Expr)
  | return (span : Span) (results : List Expr)
  | branch (span : Span) (tok : BranchToken) (label : Option Ident)
  | block (block : Block)
  | if (span : Span) (init : Option Stmt) (cond : Expr) (body : Block) (els : Option Stmt)
  /-- `case list:` or `default:` of a switch. -/
  | caseClause (span : Span) (list : List Expr) (body : List Stmt)
  | switch (span : Span) (init : Option Stmt) (tag : Option Expr) (body : Block)
  | typeSwitch (span : Span) (init : Option Stmt) (assign : Stmt) (body : Block)
  /-- `case comm:` or `default:` of a select. -/
  | commClause (span : Span) (comm : Option Stmt) (body : List Stmt)
  | select (span : Span) (body : Block)
  | for (span : Span) (init : Option Stmt) (cond : Option Expr) (post : Option Stmt) (body : Block)
  | range (span : Span) (key value : Option Expr) (define : Bool) (x : Expr) (body : Block)
  /-- A statement of no other form. -/
  | other (span : Span)

end

/-- A declaration of a function or method; one without a body is defined elsewhere. -/
structure FuncDecl where
  span : Span
  recv : Option FieldList
  name : Ident
  type : FuncType
  body : Option Block

/-- A declaration of a file. -/
inductive Decl where
  /-- Stands for a syntax error. -/
  | bad (span : Span)
  | func (decl : FuncDecl)
  | gen (decl : GenDecl)

structure SourceFile where
  path : Path
  /-- The name in the package clause. -/
  package : Ident
  decls : List Decl

namespace ExprNode

/-- The kind of row that is written for an expression. -/
def kind : ExprNode → ExprKind
  | .bad => .bad
  | .ident .. => .ident
  | .ellipsis _ => .ellipsis
  | .basicLit .. => .basicLit
  | .funcLit .. => .funcLit
  | .compositeLit .. => .compositeLit
  | .paren _ => .paren
  | .selector .. => .selector
  | .index .. => .index
  | .indexList .. => .indexList
  | .slice .. => .slice
  | .typeAssert .. => .typeAssert
  | .call .. => .call
  | .star _ => .star
  | .unary .. => .unary
  | .binary .. => .binary
  | .keyValue .. => .keyValue
  | .arrayType .. => .arrayType
  | .structType _ => .structType
  | .funcType _ => .funcType
  | .interfaceType _ => .interfaceType
  | .mapType .. => .mapType
  | .chanType .. => .chanType

end ExprNode

namespace Expr

/-- The name, if the expression is a bare identifier. -/
def identName? : Expr → Option String
  | ⟨_, _, .ident name _⟩ => some name
  | _ => none

/-- The expression without the parentheses around it. -/
def unparen : Expr → Expr
  | ⟨_, _, .paren x⟩ => x.unparen
  | e => e
termination_by structural e => e

end Expr

namespace Stmt

def span : Stmt → Span
  | .bad span | .decl span _ | .empty span | .labeled span _ _ | .expr span _ | .send span _ _
  | .incDec span _ _ | .assign span _ _ _ | .go span _ | .defer span _ | .return span _
  | .branch span _ _ | .if span _ _ _ _ | .caseClause span _ _ | .switch span _ _ _
  | .typeSwitch span _ _ _ | .commClause span _ _ | .select span _ | .for span _ _ _ _
  | .range span _ _ _ _ _ | .other span => span
  | .block b => b.span

end Stmt

end AccessDepth
