import AccessDepth.Proofs.Depth.Places
import AccessDepth.Proofs.Plan.Operations

/-!
# AccessDepth.Proofs.Declared

The names that a file declares, and that the definitions pass records all of them.

* `Node.declared` — the declaring identifiers of a node: names of `var` and `const` declarations, new
  targets of `:=` and of `range`, and receivers, parameters and results.
* `SourceFile.Declares` — such an identifier of a file, at any depth, starts at a position.
* `SourceFile.definitionsCode_eq` — the definitions pass over a file, node by node, each inside the
  functions that enclose it.
* `SourceFile.Declares.records` — the definitions pass records a variable there.
-/

namespace AccessDepth

open Plan (Around Item Op)

/-! ## Declaring identifiers -/

def FieldList.names (l : FieldList) : List Ident := l.fields.flatMap (·.names)

def FuncType.names (t : FuncType) : List Ident :=
  t.params.names ++ t.results.toList.flatMap FieldList.names

def Spec.names : Spec → List Ident
  | .value _ is _ _ => is
  | .import .. | .type .. => []

namespace Ident

/-- A name with the position where it starts. -/
def spelling (i : Ident) : String × Position := (i.name, i.span.start)

end Ident

def Expr.newName? (p : Package) (path : Path) (e : Expr) : Option (String × Position) :=
  match e.node with
  | .ident name object =>
    if (p.objects.get? object).any (·.declaredAt path e.span.start) then
      some (name, e.span.start)
    else none
  | _ => none

/-- The declaring identifiers of a node of a file, without those of the nodes below it. -/
def Node.declared (p : Package) (path : Path) : Node → List (String × Position)
  | .func d => (d.recv.toList.flatMap FieldList.names ++ d.type.names).map Ident.spelling
  | .gen ⟨_, .var, specs⟩ | .gen ⟨_, .const, specs⟩ => (specs.flatMap Spec.names).map Ident.spelling
  | .stmt (.assign _ lhs .define _) => lhs.filterMap (·.newName? p path)
  | .stmt (.range _ key value true _ _) =>
    (key.toList ++ value.toList).filterMap (·.newName? p path)
  | .expr ⟨_, _, .funcLit type _⟩ => type.names.map Ident.spelling
  | _ => []

/-- A declaring identifier of a file, other than `_`, starts at a position. -/
def SourceFile.Declares (p : Package) (f : SourceFile) (position : Position) : Prop :=
  ∃ n name, f.Holds n ∧ (name, position) ∈ n.declared p f.path ∧ name ≠ "_"

/-! ## Code -/

namespace Definitions

def Records (a : Around) (code : List Op) (name : String) (position : Position) : Prop :=
  ∃ isConst role, Op.record a (.var name position isConst role) ∈ code

section

variable {p : Package} {a : Around} {code code' : List Op} {name : String} {position : Position}

theorem Records.mono (h : Records a code name position) (hc : code ⊆ code') :
    Records a code' name position := by
  obtain ⟨isConst, role, h⟩ := h
  exact ⟨isConst, role, hc h⟩

theorem Records.left (h : Records a code name position) : Records a (code ++ code') name position :=
  h.mono (List.subset_append_left ..)

theorem Records.right (h : Records a code' name position) :
    Records a (code ++ code') name position :=
  h.mono (List.subset_append_right ..)

theorem records_variable {type : Option TypeRef} {isConst : Bool} {role : VariableRole}
    (hn : name ≠ "_") :
    Records a (variableCode p a name position type isConst role) name position :=
  ⟨isConst, role, by simp [variableCode, hn]⟩

theorem records_names {type : Option TypeRef} {isConst : Bool} {role : VariableRole}
    {is : List Ident} {i : Ident} (hi : i ∈ is) (hn : i.name ≠ "_") :
    Records a (namesCode p a type isConst role is) i.name i.span.start := by
  induction is with
  | nil => cases hi
  | cons j is ih =>
    obtain rfl | hi := List.mem_cons.mp hi
    · exact (records_variable hn).left
    · exact (ih hi).right

theorem records_fields {role : VariableRole} {l : FieldList} {i : Ident} (hi : i ∈ l.names)
    (hn : i.name ≠ "_") : Records a (fieldsCode p a role l.fields) i.name i.span.start := by
  obtain ⟨span, fs⟩ := l
  induction fs with
  | nil => cases hi
  | cons f fs ih =>
    obtain hi | hi := List.mem_append.mp hi
    · exact (records_names hi hn).left
    · exact (ih hi).right

theorem records_optionalFields {role : VariableRole} {l : Option FieldList} {i : Ident}
    (hi : i ∈ l.toList.flatMap FieldList.names) (hn : i.name ≠ "_") :
    Records a (optionalFieldsCode p a role l) i.name i.span.start := by
  cases l with
  | none => cases hi
  | some l => exact records_fields (by simpa using hi) hn

theorem records_parameters {type : FuncType} {i : Ident} (hi : i ∈ type.names)
    (hn : i.name ≠ "_") : Records a (parametersCode p a type) i.name i.span.start := by
  obtain hi | hi := List.mem_append.mp hi
  · exact (records_fields hi hn).left
  · exact (records_optionalFields hi hn).right

theorem records_specs {isConst : Bool} {specs : List Spec} {i : Ident}
    (hi : i ∈ specs.flatMap Spec.names) (hn : i.name ≠ "_") :
    Records a (specsCode p a isConst specs) i.name i.span.start := by
  induction specs with
  | nil => cases hi
  | cons spec specs ih =>
    obtain here | later := List.mem_append.mp hi
    · cases spec with
      | value => exact (records_names here hn).left
      | «import» | type => cases here
    · cases spec with
      | value => exact (ih later).right
      | «import» | type => exact ih later

theorem records_newName {e : Expr} (he : e.newName? p a.path = some (name, position))
    (hn : name ≠ "_") : Records a (newNameCode p a e) name position := by
  unfold Expr.newName? at he
  unfold newNameCode
  cases hnode : e.node with
  | ident x object =>
    rw [hnode] at he
    cases ho : p.objects.get? object with
    | none => simp [ho] at he
    | some o =>
      simp only [ho, Option.any_some, Option.ite_none_right_eq_some, Option.some.injEq,
        Prod.mk.injEq] at he
      obtain ⟨here, rfl, rfl⟩ := he
      simp only [ho, here, if_true]
      exact records_variable hn
  | _ => simp [hnode] at he

theorem records_newNames {es : List Expr}
    (he : (name, position) ∈ es.filterMap (·.newName? p a.path)) (hn : name ≠ "_") :
    Records a (newNamesCode p a es) name position := by
  induction es with
  | nil => cases he
  | cons e es ih =>
    cases hx : e.newName? p a.path with
    | none =>
      rw [List.filterMap_cons_none hx] at he
      exact (ih he).right
    | some x =>
      rw [List.filterMap_cons_some hx] at he
      obtain rfl | he := List.mem_cons.mp he
      · exact (records_newName hx hn).left
      · exact (ih he).right

theorem records_spelled {is : List Ident} (h : (name, position) ∈ is.map Ident.spelling)
    (hi : ∀ i ∈ is, i.name ≠ "_" → Records a code i.name i.span.start) (hn : name ≠ "_") :
    Records a code name position := by
  obtain ⟨i, hm, he⟩ := List.mem_map.mp h
  obtain ⟨rfl, rfl⟩ := Prod.mk.inj he
  exact hi i hm hn

/-- At a node, its declaring identifiers are recorded. -/
theorem records_declared {n : Node} (h : (name, position) ∈ n.declared p a.path)
    (hn : name ≠ "_") :
    ∃ b : Around, b.path = a.path ∧ Records b (headCode p a n) name position := by
  cases n with
  | func d =>
    refine ⟨below a (.func d), rfl, records_spelled h (fun i hi hn => ?_) hn⟩
    obtain hi | hi := List.mem_append.mp hi
    · exact (records_optionalFields hi hn).left.right
    · exact (records_parameters hi hn).right.right
  | gen d =>
    obtain ⟨span, tok, specs⟩ := d
    cases tok with
    | var | const => exact ⟨a, rfl, records_spelled h (fun _ => records_specs) hn⟩
    | «import» | type => cases h
  | stmt s =>
    cases s with
    | assign span lhs op rhs =>
      cases op with
      | define => exact ⟨a, rfl, records_newNames h hn⟩
      | assign | compound => cases h
    | range span key value define x body =>
      cases define with
      | true => exact ⟨a, rfl, records_newNames h hn⟩
      | false => cases h
    | _ => cases h
  | expr e =>
    obtain ⟨span, type, node⟩ := e
    cases node with
    | funcLit t body =>
      refine ⟨below a (.expr ⟨span, type, .funcLit t body⟩), rfl,
        records_spelled h (fun i hi hn => ?_) hn⟩
      exact (records_parameters hi hn).right
    | _ => cases h

/-! ## The walk -/

mutual

theorem outlineCode_eq (o : Outline) (a : Around) :
    outlineCode p a o =
      (o.placed a.functions).flatMap fun x => headCode p ⟨a.path, x.1⟩ x.2 := by
  cases o with
  | node head children =>
    rw [outlineCode, outlinesCode_eq children, head.below_eq, Outline.placed, List.flatMap_cons]
termination_by structural o

theorem outlinesCode_eq (os : List Outline) (a : Around) :
    outlinesCode p a os =
      (Outline.placedAll a.functions os).flatMap fun x => headCode p ⟨a.path, x.1⟩ x.2 := by
  cases os with
  | nil => rfl
  | cons o os =>
    rw [outlinesCode, outlineCode_eq o, outlinesCode_eq os, Outline.placedAll, List.flatMap_append]
termination_by structural os

end

end

end Definitions

namespace SourceFile

variable {p : Package} {f : SourceFile} {b : Around} {item : Item}

/-- The definitions pass over a file, node by node, each inside the functions that enclose it. -/
theorem definitionsCode_eq (p : Package) (f : SourceFile) :
    f.definitionsCode p =
      .file f.path :: f.placed.flatMap fun x => Definitions.headCode p ⟨f.path, x.1⟩ x.2 := by
  rw [definitionsCode, Definitions.outlinesCode_eq]
  rfl

theorem record_mem_definitionsCode :
    Op.record b item ∈ f.definitionsCode p ↔
      ∃ fs n, f.Encloses fs n ∧ Op.record b item ∈ Definitions.headCode p ⟨f.path, fs⟩ n := by
  rw [definitionsCode_eq]
  simp [mem_placed]

/-- The definitions pass records a variable wherever the file declares one. -/
theorem Declares.records {position : Position} (h : f.Declares p position) :
    ∃ a name isConst role, a.path = f.path ∧
      Op.record a (.var name position isConst role) ∈ f.definitionsCode p := by
  obtain ⟨n, name, hn, hd, hne⟩ := h
  obtain ⟨fs, hn⟩ := hn.encloses
  obtain ⟨c, path, isConst, role, hm⟩ :=
    Definitions.records_declared (a := ⟨f.path, fs⟩) hd hne
  exact ⟨c, name, isConst, role, path, record_mem_definitionsCode.mpr ⟨fs, n, hn, hm⟩⟩

end SourceFile
end AccessDepth
