import AccessDepth.Proofs.Depth.Walk
import AccessDepth.Proofs.Plan.Allocation

/-!
# AccessDepth.Proofs.Plan.Operations

Which operations the passes make.

* `Plan.Of` — code that records items of some tables in one file, and looks types up in the table of
  one package.
* `SourceFile.definitionsCode_of`, `depthCode_of`, `containersCode_of`, `sizesCode_of` — the code of
  each pass is of that kind.
-/

namespace AccessDepth

open Plan (Op)

namespace Plan

/-- What a pass over a file does: it adds file rows, looks up types of the package, and records items
of some tables in the file. -/
inductive Op.Of (p : Package) (path : Path) (tables : List Table) : Op → Prop
  | file (q : Path) : Op.Of p path tables (.file q)
  | type (ref : Option TypeRef) : Op.Of p path tables (.type p.types ref)
  | record {a : Around} {item : Item} : a.path = path → item.table ∈ tables →
      Op.Of p path tables (.record a item)

/-- Code of such operations. -/
def Of (p : Package) (path : Path) (tables : List Table) (code : List Op) : Prop :=
  ∀ o ∈ code, o.Of p path tables

section

variable {p : Package} {path : Path} {tables : List Table} {o : Op} {code code' : List Op}

@[simp] theorem of_nil : Of p path tables [] := by
  intro o ho
  cases ho

@[simp] theorem of_cons : Of p path tables (o :: code) ↔ o.Of p path tables ∧ Of p path tables code :=
  List.forall_mem_cons

@[simp] theorem of_append :
    Of p path tables (code ++ code') ↔ Of p path tables code ∧ Of p path tables code' :=
  List.forall_mem_append

@[simp] theorem of_file {q : Path} : (Op.file q).Of p path tables := .file q

@[simp] theorem of_type {ref : Option TypeRef} : (Op.type p.types ref).Of p path tables := .type ref

@[simp] theorem of_record {a : Around} {item : Item} :
    (Op.record a item).Of p path tables ↔ a.path = path ∧ item.table ∈ tables := by
  constructor
  · rintro ⟨⟩
    exact ⟨‹_›, ‹_›⟩
  · exact fun h => .record h.1 h.2

theorem of_map {α : Type} {f : α → Op} {xs : List α} (h : ∀ x ∈ xs, (f x).Of p path tables) :
    Of p path tables (xs.map f) := by
  intro o ho
  obtain ⟨x, hx, rfl⟩ := List.mem_map.mp ho
  exact h x hx

theorem of_flatMap {α : Type} {f : α → List Op} {xs : List α}
    (h : ∀ x ∈ xs, Of p path tables (f x)) : Of p path tables (xs.flatMap f) := by
  intro o ho
  obtain ⟨x, hx, ho⟩ := List.mem_flatMap.mp ho
  exact h x hx o ho

theorem of_mention (site : Option SourceSite) : Of p path tables (mention site) := by
  cases site <;> simp [mention]

theorem Op.Of.mono {tables' : List Table} (h : o.Of p path tables) (ht : tables ⊆ tables') :
    o.Of p path tables' := by
  cases h with
  | file => exact .file _
  | type => exact .type _
  | record hp hi => exact .record hp (ht hi)

theorem Op.Of.closed (h : o.Of p path tables) (hc : p.types.Closed) : o.Closed := by
  cases h with
  | file | record => trivial
  | type => exact hc

end
end Plan

open Plan (Around Item of_map of_flatMap of_mention)

/-! ## Definitions -/

namespace Definitions

variable (p : Package)

def tables : List Table := [.functions, .variables]

theorem functionCode_of {a : Around} {name : Option String} {position : Position}
    {type : Option TypeRef} {literal : Bool} {syntaxType : FuncType} :
    Plan.Of p a.path tables (functionCode p a name position type literal syntaxType) := by
  simp only [functionCode, Plan.of_append, Plan.of_cons, Plan.of_nil, Plan.of_type, Plan.of_record,
    and_true, true_and]
  exact ⟨of_map fun _ _ => .type _, by simp [tables, Item.table]⟩

theorem variableCode_of {a : Around} {name : String} {position : Position}
    {type : Option TypeRef} {isConst : Bool} {role : VariableRole} :
    Plan.Of p a.path tables (variableCode p a name position type isConst role) := by
  unfold variableCode
  split <;> simp [tables, Item.table]

theorem namesCode_of {a : Around} {type : Option TypeRef} {isConst : Bool}
    {role : VariableRole} {is : List Ident} :
    Plan.Of p a.path tables (namesCode p a type isConst role is) := by
  induction is with
  | nil => exact Plan.of_nil
  | cons i is ih => exact Plan.of_append.mpr ⟨variableCode_of p, ih⟩

theorem fieldsCode_of {a : Around} {role : VariableRole} {fs : List Field} :
    Plan.Of p a.path tables (fieldsCode p a role fs) := by
  induction fs with
  | nil => exact Plan.of_nil
  | cons f fs ih => exact Plan.of_append.mpr ⟨namesCode_of p, ih⟩

theorem optionalFieldsCode_of {a : Around} {role : VariableRole} {fields : Option FieldList} :
    Plan.Of p a.path tables (optionalFieldsCode p a role fields) := by
  cases fields with
  | none => exact Plan.of_nil
  | some l => exact fieldsCode_of p

theorem parametersCode_of {a : Around} {type : FuncType} :
    Plan.Of p a.path tables (parametersCode p a type) :=
  Plan.of_append.mpr ⟨fieldsCode_of p, optionalFieldsCode_of p⟩

theorem newNamesCode_of {a : Around} {es : List Expr} :
    Plan.Of p a.path tables (newNamesCode p a es) := by
  induction es with
  | nil => exact Plan.of_nil
  | cons e es ih =>
    refine Plan.of_append.mpr ⟨?_, ih⟩
    unfold newNameCode
    split
    · split
      · split
        · exact variableCode_of p
        · exact Plan.of_nil
      · exact Plan.of_nil
    · exact Plan.of_nil

theorem specsCode_of {a : Around} {isConst : Bool} {ss : List Spec} :
    Plan.Of p a.path tables (specsCode p a isConst ss) := by
  induction ss with
  | nil => exact Plan.of_nil
  | cons s ss ih =>
    cases s with
    | value => exact Plan.of_append.mpr ⟨namesCode_of p, ih⟩
    | «import» | type => exact ih

theorem below_path (a : Around) (n : Node) : (below a n).path = a.path := by
  unfold below
  split
  · rfl
  · split <;> rfl
  · rfl

theorem headCode_of {a : Around} {n : Node} : Plan.Of p a.path tables (headCode p a n) := by
  unfold headCode
  split
  · rename_i d
    have inner := below_path a (.func d)
    exact Plan.of_append.mpr ⟨functionCode_of p,
      Plan.of_append.mpr ⟨inner ▸ optionalFieldsCode_of p, inner ▸ parametersCode_of p⟩⟩
  · split
    · exact specsCode_of p
    · exact specsCode_of p
    · exact Plan.of_nil
  · split
    · exact newNamesCode_of p
    · exact newNamesCode_of p
    · exact Plan.of_nil
  · rename_i e
    split
    · exact Plan.of_append.mpr
        ⟨functionCode_of p, below_path a (.expr e) ▸ parametersCode_of p⟩
    · exact Plan.of_nil

mutual

theorem outlineCode_of (a : Around) (o : Outline) : Plan.Of p a.path tables (outlineCode p a o) := by
  cases o with
  | node head children =>
    unfold outlineCode
    have rest := outlinesCode_of (below a head) children
    rw [below_path] at rest
    exact Plan.of_append.mpr ⟨headCode_of p, rest⟩
termination_by structural o

theorem outlinesCode_of (a : Around) (os : List Outline) :
    Plan.Of p a.path tables (outlinesCode p a os) := by
  cases os with
  | nil => exact Plan.of_nil
  | cons o os => exact Plan.of_append.mpr ⟨outlineCode_of a o, outlinesCode_of a os⟩
termination_by structural os

end

end Definitions

/-! ## Allocations -/

namespace Allocation

variable (p : Package) (items? : Node → Option (List Item)) (tables : List Table)

mutual

theorem outlineCode_of (h : ∀ n, ∀ items ∈ items? n, ∀ item ∈ items, item.table ∈ tables)
    (a : Around) (o : Outline) : Plan.Of p a.path tables (outlineCode items? a o) := by
  cases o with
  | node head children =>
    unfold outlineCode
    cases hi : items? head with
    | some items => exact of_map fun item hm => .record rfl (h head items hi item hm)
    | none => exact outlinesCode_of h a children
termination_by structural o

theorem outlinesCode_of (h : ∀ n, ∀ items ∈ items? n, ∀ item ∈ items, item.table ∈ tables)
    (a : Around) (os : List Outline) : Plan.Of p a.path tables (outlinesCode items? a os) := by
  cases os with
  | nil => exact Plan.of_nil
  | cons o os => exact Plan.of_append.mpr ⟨outlineCode_of h a o, outlinesCode_of h a os⟩
termination_by structural os

end

theorem made?_table {n : Node} {items : List Item} (h : made? p n = some items) :
    ∀ item ∈ items, item.table ∈ [Table.makeSites] := by
  unfold made? at h
  split at h
  · split at h
    · cases h
      intro item hi
      obtain ⟨c, -, rfl⟩ := List.mem_map.mp hi
      simp [Item.table]
    · cases h
  · cases h

theorem allocItems_table {span : Span} {builtin : String} {found : Option (String × Int)} :
    ∀ item ∈ allocItems span builtin found, item.table ∈ [Table.sizedAllocSites] := by
  intro item hi
  cases found with
  | none => cases hi
  | some found =>
    obtain rfl := List.mem_singleton.mp hi
    simp [Item.table]

theorem sized?_table {n : Node} {items : List Item} (h : sized? p n = some items) :
    ∀ item ∈ items, item.table ∈ [Table.sizedAllocSites] := by
  unfold sized? at h
  split at h
  · split at h
    · cases h
      exact allocItems_table
    · split at h
      · cases h
        exact allocItems_table
      · cases h
  · cases h

end Allocation

/-! ## Depths -/

namespace Depth

def tables : List Table := [.expressions, .statements]

theorem code_of (p : Package) (root : Path) (m : Mark) :
    Plan.Of p m.around.path tables (m.code p root) := by
  cases m with
  | expr a e =>
    simp only [Mark.code, exprCode, Mark.around, Plan.of_append, Plan.of_cons, Plan.of_nil,
      Plan.of_type, Plan.of_record, and_true, true_and]
    exact ⟨⟨of_mention _, of_map fun _ _ => .type _⟩, by simp [tables, Item.table]⟩
  | name a i => simp [Mark.code, nameCode, exprCode, Mark.around, of_mention, tables, Item.table]
  | literal | signature | block =>
    simp [Mark.code, exprCode, Mark.around, tables, Item.table]
  | stmt a s =>
    simp only [Mark.code, Mark.around, Plan.of_append, Plan.of_cons, Plan.of_nil, Plan.of_record,
      and_true]
    exact ⟨of_map fun _ _ => .type _, by simp [tables, Item.table]⟩

end Depth

/-! ## Files -/

namespace SourceFile

variable (p : Package) (f : SourceFile)

theorem definitionsCode_of : Plan.Of p f.path Definitions.tables (f.definitionsCode p) :=
  Plan.of_cons.mpr ⟨.file _, Definitions.outlinesCode_of p (.top f.path) f.outlines⟩

theorem depthCode_of (root : Path) : Plan.Of p f.path Depth.tables (f.depthCode p root) := by
  refine Plan.of_cons.mpr ⟨.file _, of_flatMap fun m hm => ?_⟩
  have path := f.marks_inFile p m hm
  exact path ▸ Depth.code_of p root m

theorem containersCode_of : Plan.Of p f.path [.makeSites] (f.containersCode p) :=
  Plan.of_cons.mpr ⟨.file _, Allocation.outlinesCode_of p _ _
    (fun _ _ h => Allocation.made?_table p h) (.top f.path) f.outlines⟩

theorem sizesCode_of : Plan.Of p f.path [.sizedAllocSites] (f.sizesCode p) :=
  Plan.of_cons.mpr ⟨.file _, Allocation.outlinesCode_of p _ _
    (fun _ _ h => Allocation.sized?_table p h) (.top f.path) f.outlines⟩

end SourceFile
end AccessDepth
