import AccessDepth.Vocabulary

/-!
# AccessDepth.Store.Table

The tables of the store and what holds of their columns.

* `Table` — the tables; `Vocabulary.text` is a table's name.
* `Table.columns` — the columns of a table in order. A column may belong to the key, whose values no
  two rows share, and may refer to the rows of a table by their number.
* `Violation` — the rule of the schema that a row would break.
-/

namespace AccessDepth

inductive Table where
  | files | types | typeInts | typeArrays | typeElems | typeMaps | typeChans | typeMembers
  | typeNamed | typeFuncs | typeFuncSigs | typeUnions | functions | functionSigs | variables
  | localVariables | statements | assignOperands | returnResults | defers | typeSwitches
  | typeSwitchCases | expressions | identDetails | selectorDetails | typeAssertDetails
  | callDetails | accesses | makeSites | sizedAllocSites
  deriving DecidableEq, Repr, Inhabited

instance : Vocabulary Table where
  all := [.files, .types, .typeInts, .typeArrays, .typeElems, .typeMaps, .typeChans, .typeMembers,
    .typeNamed, .typeFuncs, .typeFuncSigs, .typeUnions, .functions, .functionSigs, .variables,
    .localVariables, .statements, .assignOperands, .returnResults, .defers, .typeSwitches,
    .typeSwitchCases, .expressions, .identDetails, .selectorDetails, .typeAssertDetails,
    .callDetails, .accesses, .makeSites, .sizedAllocSites]
  text
    | .files => "files"
    | .types => "types"
    | .typeInts => "type_ints"
    | .typeArrays => "type_arrays"
    | .typeElems => "type_elems"
    | .typeMaps => "type_maps"
    | .typeChans => "type_chans"
    | .typeMembers => "type_members"
    | .typeNamed => "type_named"
    | .typeFuncs => "type_funcs"
    | .typeFuncSigs => "type_func_sigs"
    | .typeUnions => "type_unions"
    | .functions => "functions"
    | .functionSigs => "function_sigs"
    | .variables => "variables"
    | .localVariables => "local_variables"
    | .statements => "statements"
    | .assignOperands => "stmt_assign_operands"
    | .returnResults => "stmt_return_results"
    | .defers => "stmt_defers"
    | .typeSwitches => "stmt_type_switches"
    | .typeSwitchCases => "stmt_type_switch_cases"
    | .expressions => "expressions"
    | .identDetails => "expr_idents"
    | .selectorDetails => "expr_selectors"
    | .typeAssertDetails => "expr_type_asserts"
    | .callDetails => "expr_calls"
    | .accesses => "memory_accesses"
    | .makeSites => "make_sites"
    | .sizedAllocSites => "sized_alloc_sites"

/-- A column of a table. -/
structure Column where
  name : String
  inKey : Bool
  target : Option Table
  deriving DecidableEq

namespace Column

/-- A column that is neither in the key nor a reference. -/
def plain (name : String) : Column := ⟨name, false, none⟩

def key (name : String) : Column := ⟨name, true, none⟩

def ref (name : String) (target : Table) : Column := ⟨name, false, some target⟩

def keyRef (name : String) (target : Table) : Column := ⟨name, true, some target⟩

end Column

namespace Table

/-- The columns of a table, in order. A table that others refer to has its row number first. -/
def columns : Table → List Column
  | .files => [.plain "id", .key "path"]
  | .types => [.plain "id", .plain "kind", .key "name", .plain "length"]
  | .typeInts => [.keyRef "type_id" .types, .plain "signed"]
  | .typeArrays => [.keyRef "type_id" .types, .ref "base_id" .types, .plain "size"]
  | .typeElems => [.keyRef "type_id" .types, .ref "base_id" .types]
  | .typeMaps => [.keyRef "type_id" .types, .ref "key_id" .types, .ref "value_id" .types]
  | .typeChans => [.keyRef "type_id" .types, .plain "direction", .ref "base_id" .types]
  | .typeMembers =>
    [.keyRef "type_id" .types, .key "position", .plain "embedded", .plain "name",
      .ref "member_type_id" .types]
  | .typeNamed =>
    [.keyRef "type_id" .types, .plain "package", .plain "name", .ref "underlying_id" .types]
  | .typeFuncs => [.keyRef "type_id" .types, .plain "is_variadic", .plain "is_generic"]
  | .typeFuncSigs =>
    [.keyRef "type_id" .types, .key "role", .key "position", .ref "member_type_id" .types,
      .plain "name"]
  | .typeUnions =>
    [.keyRef "type_id" .types, .key "position", .ref "term_type_id" .types, .plain "tilde"]
  | .functions =>
    [.plain "id", .plain "name", .keyRef "file_id" .files, .key "line", .key "column",
      .plain "is_variadic", .plain "is_generic", .plain "is_literal", .ref "parent_id" .functions,
      .ref "type_id" .types]
  | .functionSigs =>
    [.keyRef "function_id" .functions, .key "role", .key "position", .ref "type_id" .types,
      .plain "name"]
  | .variables =>
    [.plain "id", .plain "name", .keyRef "file_id" .files, .key "line", .key "column",
      .ref "type_id" .types, .plain "is_global", .plain "is_const", .ref "function_id" .functions]
  | .localVariables =>
    [.keyRef "variable_id" .variables, .plain "is_param", .plain "is_result", .plain "is_receiver"]
  | .statements =>
    [.plain "id", .plain "kind", .keyRef "file_id" .files, .key "line", .key "column",
      .key "end_line", .key "end_column", .ref "function_id" .functions,
      .ref "parent_function_id" .functions]
  | .assignOperands =>
    [.keyRef "stmt_id" .statements, .key "side", .key "position", .ref "expr_id" .expressions]
  | .returnResults => [.keyRef "stmt_id" .statements, .key "position", .ref "expr_id" .expressions]
  | .defers => [.keyRef "stmt_id" .statements, .ref "call_expr_id" .expressions]
  | .typeSwitches =>
    [.keyRef "stmt_id" .statements, .plain "bound_name", .ref "assert_expr_id" .expressions]
  | .typeSwitchCases =>
    [.keyRef "stmt_id" .statements, .key "clause", .key "position", .plain "line", .plain "column",
      .ref "type_id" .types]
  | .expressions =>
    [.plain "id", .plain "kind", .ref "type_id" .types, .keyRef "file_id" .files, .key "line",
      .key "column", .key "end_line", .key "end_column", .ref "function_id" .functions,
      .ref "parent_function_id" .functions]
  | .identDetails =>
    [.keyRef "expr_id" .expressions, .plain "name", .ref "def_file_id" .files, .plain "def_line",
      .plain "def_column"]
  | .selectorDetails =>
    [.keyRef "expr_id" .expressions, .ref "base_expr_id" .expressions, .plain "field"]
  | .typeAssertDetails =>
    [.keyRef "expr_id" .expressions, .ref "base_expr_id" .expressions, .ref "type_id" .types]
  | .callDetails =>
    [.keyRef "expr_id" .expressions, .key "position", .ref "function_expr_id" .expressions,
      .ref "arg_expr_id" .expressions]
  | .accesses =>
    [.keyRef "expr_id" .expressions, .plain "kind", .ref "inner_expr_id" .accesses,
      .plain "base_name", .ref "base_variable_id" .variables, .plain "depth", .plain "uncertainty"]
  | .makeSites =>
    [.plain "id", .keyRef "file_id" .files, .key "line", .key "column", .plain "container",
      .plain "capacity"]
  | .sizedAllocSites =>
    [.plain "id", .keyRef "file_id" .files, .key "line", .key "column", .plain "builtin",
      .plain "type_name", .plain "size"]

/-- The names of the key's columns, in order, each after the table's name. -/
def keyNames (t : Table) : List String :=
  (t.columns.filter (·.inKey)).map fun c => Vocabulary.text t ++ "." ++ c.name

/-- The tables in an order in which a table comes after all tables that refer to it. -/
def dependentsFirst : List Table :=
  [.sizedAllocSites, .makeSites, .accesses, .callDetails, .typeAssertDetails, .selectorDetails,
    .identDetails, .typeSwitchCases, .typeSwitches, .defers, .returnResults, .assignOperands,
    .expressions, .statements, .localVariables, .variables, .functionSigs, .functions, .typeUnions,
    .typeFuncSigs, .typeFuncs, .typeNamed, .typeMembers, .typeChans, .typeMaps, .typeElems,
    .typeArrays, .typeInts, .types, .files]

end Table

/-- The rule of the schema that a row would break. -/
inductive Violation where
  /-- A condition on the row itself. -/
  | check (condition : String)
  /-- Another row of the table has the same key. -/
  | unique (table : Table)
  /-- The row refers to one that is not there. -/
  | foreignKey
  deriving DecidableEq

namespace Violation

def message : Violation → String
  | .check condition => "CHECK constraint failed: " ++ condition
  | .unique table => "UNIQUE constraint failed: " ++ ", ".intercalate table.keyNames
  | .foreignKey => "FOREIGN KEY constraint failed"

end Violation

end AccessDepth
