import AccessDepth.Proofs.Store.Sound

/-!
# AccessDepth.Proofs.Store.Content

What a store says, apart from the numbers of its rows.

* `RowName` — a file by its path, a type by its name, and everything else by where it stands.
* `Store.nameOf` — the name of the row of a number.
* `Store.describe` — the values of a row without its own number, and with the names of the rows that
  it refers to.
* `Store.content` — the descriptions of the rows of a table.
* `Store.describe_of_le` — a store that keeps the rules goes on to say what it says when it grows.
-/

namespace AccessDepth

/-- What a row is called. An access is called as its expression is. -/
inductive RowName where
  | file (path : String)
  | type (name : String)
  | place (path : String) (position : Position)
  | span (path : String) (span : Span)

/-- The value of a column: a reference is the name of the row that it leads to. -/
inductive Value where
  | cell (c : Cell)
  | name (n : Option RowName)

namespace Store

def byNumber (s : Store) (u : Table) (n : Int) : Option (Row u) :=
  (s.rows u).find? fun r => Row.number u r == n

def pathOf (s : Store) (file : FileId) : Option String :=
  (s.byNumber .files file.value).map FileRow.path

/-- The tables whose rows have names of their own. -/
def namedTables : List Table := [.files, .types, .functions, .variables, .statements, .expressions]

/-- The name of a row, if its table is one of these. -/
def rowName (s : Store) : (u : Table) → Row u → Option RowName
  | .files, r => some (.file r.path)
  | .types, r => some (.type r.name)
  | .functions, r => (s.pathOf r.file).map (.place · r.position)
  | .variables, r => (s.pathOf r.file).map (.place · r.position)
  | .statements, r => (s.pathOf r.file).map (.span · r.span)
  | .expressions, r => (s.pathOf r.file).map (.span · r.span)
  | _, _ => none

def namer (u : Table) : Table := if u = .accesses then .expressions else u

/-- The name of the row of a number. -/
def nameOf (s : Store) (u : Table) (n : Int) : Option RowName :=
  (s.byNumber (namer u) n).bind (s.rowName (namer u))

def value (s : Store) (c : Column) (cell : Cell) : Value :=
  match c.target, cell with
  | some u, .int n => .name (s.nameOf u n)
  | _, _ => .cell cell

/-- The values of a row without its own number. -/
def describe (s : Store) (u : Table) (r : Row u) : List Value :=
  ((u.columns.zip (Row.cells u r)).drop (if u.isNumbered then 1 else 0)).map fun c =>
    s.value c.1 c.2

/-- What the rows of a table say. -/
def content (s : Store) (u : Table) : List (List Value) := (s.rows u).map (s.describe u)

/-! ## Growth -/

variable {s t : Store} {u : Table}

theorem byNumber_of_le (h : s ≤ t) {n : Int} {r : Row u} (hr : s.byNumber u n = some r) :
    t.byNumber u n = some r :=
  (h u).find?_eq_some hr

theorem pathOf_of_le (h : s ≤ t) {file : FileId} {path : String}
    (hp : s.pathOf file = some path) : t.pathOf file = some path :=
  find?_map_of_prefix (h .files) hp

theorem rowName_of_le (h : s ≤ t) {r : Row u} {x : RowName} (hx : s.rowName u r = some x) :
    t.rowName u r = some x := by
  cases u with
  | files | types => exact hx
  | functions | «variables» | statements | expressions =>
    obtain ⟨path, hp, rfl⟩ := Option.map_eq_some_iff.mp hx
    exact Option.map_eq_some_iff.mpr ⟨path, pathOf_of_le h hp, rfl⟩
  | _ => cases hx

theorem nameOf_of_le (h : s ≤ t) {n : Int} {x : RowName} (hx : s.nameOf u n = some x) :
    t.nameOf u n = some x := by
  obtain ⟨r, hr, hx⟩ := Option.bind_eq_some_iff.mp hx
  exact Option.bind_eq_some_iff.mpr ⟨r, byNumber_of_le h hr, rowName_of_le h hx⟩

namespace Sound

variable (hs : s.Sound)
include hs

theorem byNumber_eq_some (hu : u.isNumbered = true) {n : Int} {r : Row u} :
    s.byNumber u n = some r ↔ r ∈ s.rows u ∧ Row.number u r = n := by
  constructor
  · intro h
    exact ⟨List.mem_of_find?_eq_some h, by simpa using List.find?_some h⟩
  · rintro ⟨hr, rfl⟩
    cases h : s.byNumber u (Row.number u r) with
    | none => exact absurd (List.find?_eq_none.mp h r hr) (by simp)
    | some r' =>
      have hr' := List.mem_of_find?_eq_some h
      have hn : Row.number u r' = Row.number u r := by simpa using List.find?_some h
      rw [hs.eq_of_number hu hr' hr hn]

theorem pathOf_isSome {file : FileId} (h : s.has ⟨.files, file.value⟩ = true) :
    (s.pathOf file).isSome = true := by
  obtain ⟨r, hr, hn⟩ := has_iff.mp h
  have found : s.byNumber .files file.value = some r :=
    (hs.byNumber_eq_some rfl).mpr ⟨hr, hn⟩
  simp only [pathOf, found, Option.map_some, Option.isSome_some]

theorem rowName_isSome {r : Row u} (hr : r ∈ s.rows u) (hu : u ∈ namedTables) :
    (s.rowName u r).isSome = true := by
  have inFile {f : FileId} (href : ⟨.files, f.value⟩ ∈ Row.references u r) :
      ∃ path, s.pathOf f = some path :=
    Option.isSome_iff_exists.mp (hs.pathOf_isSome (hs.references u r hr _ href))
  simp only [namedTables, List.mem_cons, List.not_mem_nil, or_false] at hu
  obtain rfl | rfl | rfl | rfl | rfl | rfl := hu
  · rfl
  · rfl
  all_goals
    obtain ⟨path, hp⟩ := inFile (f := r.file)
      (by simp [Row.references, Table.columns, Row.cells, Column.keyRef, Column.plain, Cell.ofId])
    simp [rowName, hp]

omit hs in
theorem numbered_of_named (hu : u ∈ namedTables) : u.isNumbered = true ∧ namer u = u := by
  simp only [namedTables, List.mem_cons, List.not_mem_nil, or_false] at hu
  obtain rfl | rfl | rfl | rfl | rfl | rfl := hu <;> decide

theorem nameOf_number {r : Row u} (hr : r ∈ s.rows u) (hu : u ∈ namedTables) :
    s.nameOf u (Row.number u r) = s.rowName u r := by
  obtain ⟨hn, ha⟩ := numbered_of_named hu
  have found : s.byNumber u (Row.number u r) = some r := (hs.byNumber_eq_some hn).mpr ⟨hr, rfl⟩
  rw [nameOf, ha, found, Option.bind_some]

omit hs in
theorem target_of_reference {v : Table} {r : Row v} {ref : Reference}
    (href : ref ∈ Row.references v r) : ref.table ∈ namedTables ∨ ref.table = .accesses := by
  obtain ⟨⟨c, cell⟩, hc, href⟩ := List.mem_filterMap.mp href
  have column := (List.of_mem_zip hc).1
  have targets (v : Table) : ∀ c ∈ v.columns, ∀ u ∈ c.target, u ∈ namedTables ∨ u = .accesses := by
    cases v <;> decide
  refine targets v c column ref.table ?_
  split at href
  · rename_i ht _
    cases href
    exact ht
  · cases href

/-- Every row that is referred to has a name. -/
theorem nameOf_isSome {v : Table} {r : Row v} (hr : r ∈ s.rows v) {ref : Reference}
    (href : ref ∈ Row.references v r) : (s.nameOf ref.table ref.number).isSome = true := by
  have named {u : Table} (hu : u ∈ namedTables) {n : Int} (h : s.has ⟨u, n⟩ = true) :
      (s.nameOf u n).isSome = true := by
    obtain ⟨x, hx, rfl⟩ := has_iff.mp h
    rw [hs.nameOf_number hx hu]
    exact hs.rowName_isSome hx hu
  have there := hs.references v r hr ref href
  obtain ⟨u, n⟩ := ref
  obtain hu | rfl := target_of_reference href
  · exact named hu there
  · obtain ⟨x, hx, rfl⟩ := has_iff.mp there
    have inner : (⟨.expressions, x.expr.value⟩ : Reference) ∈ Row.references .accesses x := by
      simp [Row.references, Table.columns, Row.cells, Column.keyRef, Cell.ofId]
    exact named (u := .expressions) (by simp [namedTables]) (hs.references _ x hx _ inner)

/-- A store goes on to say of a row what it says when it grows. -/
theorem describe_of_le (hle : s ≤ t) {r : Row u} (hr : r ∈ s.rows u) :
    t.describe u r = s.describe u r := by
  unfold describe
  refine List.map_congr_left fun c hc => ?_
  obtain ⟨column, cell⟩ := c
  unfold value
  simp only
  split
  · rename_i v n hv
    have href : (⟨v, n⟩ : Reference) ∈ Row.references u r := by
      refine List.mem_filterMap.mpr ⟨(column, .int n), List.mem_of_mem_drop hc, ?_⟩
      simp only [hv]
    obtain ⟨x, hx⟩ := Option.isSome_iff_exists.mp (hs.nameOf_isSome hr href)
    rw [hx, nameOf_of_le hle hx]
  · rfl

end Sound

/-! ## Rows that are looked up -/

section

variable (hs : s.Sound)
include hs

theorem nameOf_fileNamed? {path : String} {id : FileId} (h : s.fileNamed? path = some id) :
    s.nameOf .files id.value = some (.file path) := by
  obtain ⟨r, hr, rfl⟩ := Option.map_eq_some_iff.mp h
  have hp : r.path = path := by simpa using List.find?_some hr
  rw [← hp]
  exact hs.nameOf_number (u := .files) (List.mem_of_find?_eq_some hr) (by simp [namedTables])

theorem pathOf_fileNamed? {path : String} {id : FileId} (h : s.fileNamed? path = some id) :
    s.pathOf id = some path := by
  obtain ⟨r, hr, rfl⟩ := Option.map_eq_some_iff.mp h
  have hp : r.path = path := by simpa using List.find?_some hr
  have found : s.byNumber .files r.id.value = some r :=
    (hs.byNumber_eq_some rfl).mpr ⟨List.mem_of_find?_eq_some hr, rfl⟩
  simp only [pathOf, found, Option.map_some, hp]

theorem nameOf_typeNamed? {name : String} {id : TypeId} (h : s.typeNamed? name = some id) :
    s.nameOf .types id.value = some (.type name) := by
  obtain ⟨r, hr, rfl⟩ := Option.map_eq_some_iff.mp h
  have hn : r.name = name := by simpa using List.find?_some hr
  rw [← hn]
  exact hs.nameOf_number (u := .types) (List.mem_of_find?_eq_some hr) (by simp [namedTables])

variable {path : String} {file : FileId} (hf : s.fileNamed? path = some file)
include hf

theorem nameOf_functionAt? {position : Position} {id : FunctionId}
    (h : s.functionAt? file position = some id) :
    s.nameOf .functions id.value = some (.place path position) := by
  obtain ⟨r, hr, rfl⟩ := Option.map_eq_some_iff.mp h
  obtain ⟨rfl, rfl⟩ : r.file = file ∧ r.position = position := by
    simpa using List.find?_some hr
  have named := hs.nameOf_number (u := .functions) (List.mem_of_find?_eq_some hr)
    (by simp [namedTables])
  exact named.trans (by simp only [rowName, pathOf_fileNamed? hs hf, Option.map_some])

theorem nameOf_variableAt? {position : Position} {id : VariableId}
    (h : s.variableAt? file position = some id) :
    s.nameOf .variables id.value = some (.place path position) := by
  obtain ⟨r, hr, rfl⟩ := Option.map_eq_some_iff.mp h
  obtain ⟨rfl, rfl⟩ : r.file = file ∧ r.position = position := by
    simpa using List.find?_some hr
  have named := hs.nameOf_number (u := .variables) (List.mem_of_find?_eq_some hr)
    (by simp [namedTables])
  exact named.trans (by simp only [rowName, pathOf_fileNamed? hs hf, Option.map_some])

theorem nameOf_exprAt? {span : Span} {id : ExprId} (h : s.exprAt? file span = some id) :
    s.nameOf .expressions id.value = some (.span path span) := by
  obtain ⟨r, hr, rfl⟩ := Option.map_eq_some_iff.mp h
  obtain ⟨rfl, rfl⟩ : r.file = file ∧ r.span = span := by simpa using List.find?_some hr
  have named := hs.nameOf_number (u := .expressions) (List.mem_of_find?_eq_some hr)
    (by simp [namedTables])
  exact named.trans (by simp only [rowName, pathOf_fileNamed? hs hf, Option.map_some])

end

end Store
end AccessDepth
