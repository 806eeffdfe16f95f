import AccessDepth.Proofs.Declared
import AccessDepth.Proofs.Depth.Entered
import AccessDepth.Proofs.Depth.Places
import AccessDepth.Proofs.DepthPass
import AccessDepth.Proofs.Plan.Analysis
import AccessDepth.Proofs.Plan.Origins

/-!
# AccessDepth.Proofs.Plan.Scopes

What the code of a package records inside which functions.

* `Definitions.of_headCode` — what is recorded at a node: the function that it is, and its declaring
  identifiers inside that.
* `Definitions.announced_outlines` — the definitions pass records a function before what is inside it.
* `Package.announced` — so does an analysis that makes both passes, since the depth pass comes last.
-/

namespace AccessDepth

open Plan (Announced Around Item Op)

namespace Definitions

/-! ## Variables -/

/-- Code records variables with some names at some positions of a place, and nothing else. -/
def Names (a : Around) (names : List (String × Position)) (code : List Op) : Prop :=
  ∀ b item, Op.record b item ∈ code → b = a ∧
    ∃ name position isConst role, item = .var name position isConst role ∧ (name, position) ∈ names

section

variable {p : Package} {a : Around} {code code' : List Op} {names names' : List (String × Position)}

theorem names_nil : Names a [] [] := fun _ _ ho => absurd ho List.not_mem_nil

theorem Names.append (h : Names a names code) (h' : Names a names' code') :
    Names a (names ++ names') (code ++ code') := by
  intro b item ho
  obtain ho | ho := List.mem_append.mp ho
  · obtain ⟨hb, name, position, isConst, role, hi, hn⟩ := h b item ho
    exact ⟨hb, name, position, isConst, role, hi, List.mem_append_left _ hn⟩
  · obtain ⟨hb, name, position, isConst, role, hi, hn⟩ := h' b item ho
    exact ⟨hb, name, position, isConst, role, hi, List.mem_append_right _ hn⟩

theorem names_variable {name : String} {position : Position} {type : Option TypeRef}
    {isConst : Bool} {role : VariableRole} :
    Names a [(name, position)] (variableCode p a name position type isConst role) := by
  intro b item ho
  unfold variableCode at ho
  split at ho
  · cases ho
  · simp only [List.cons_append, List.nil_append, List.mem_cons, reduceCtorEq, Op.record.injEq,
      List.not_mem_nil, or_false, false_or] at ho
    obtain ⟨rfl, rfl⟩ := ho
    exact ⟨rfl, name, position, isConst, role, rfl, List.mem_singleton_self _⟩

theorem names_names {type : Option TypeRef} {isConst : Bool} {role : VariableRole}
    {is : List Ident} :
    Names a (is.map Ident.spelling) (namesCode p a type isConst role is) := by
  induction is with
  | nil => exact names_nil
  | cons i is ih => exact names_variable.append ih

theorem names_fields {role : VariableRole} {l : FieldList} :
    Names a (l.names.map Ident.spelling) (fieldsCode p a role l.fields) := by
  obtain ⟨span, fs⟩ := l
  induction fs with
  | nil => exact names_nil
  | cons f fs ih =>
    have split : (FieldList.mk span (f :: fs)).names = f.names ++ (FieldList.mk span fs).names := rfl
    rw [split, List.map_append]
    exact names_names.append ih

theorem names_optionalFields {role : VariableRole} {l : Option FieldList} :
    Names a ((l.toList.flatMap FieldList.names).map Ident.spelling)
      (optionalFieldsCode p a role l) := by
  cases l with
  | none => exact names_nil
  | some l => simpa [optionalFieldsCode] using names_fields

theorem names_parameters {type : FuncType} :
    Names a (type.names.map Ident.spelling) (parametersCode p a type) := by
  unfold FuncType.names parametersCode
  rw [List.map_append]
  exact names_fields.append names_optionalFields

theorem names_newName {e : Expr} :
    Names a (e.newName? p a.path).toList (newNameCode p a e) := by
  unfold newNameCode Expr.newName?
  cases e.node with
  | ident name object =>
    cases ho : p.objects.get? object with
    | none => simpa [ho] using names_nil
    | some o =>
      by_cases here : o.declaredAt a.path e.span.start = true
      · simpa [ho, here] using names_variable
      · simpa [ho, here] using names_nil
  | _ => exact names_nil

theorem names_newNames {es : List Expr} :
    Names a (es.filterMap (·.newName? p a.path)) (newNamesCode p a es) := by
  induction es with
  | nil => exact names_nil
  | cons e es ih =>
    have split : (e :: es).filterMap (·.newName? p a.path) =
        (e.newName? p a.path).toList ++ es.filterMap (·.newName? p a.path) := by
      cases h : e.newName? p a.path <;> simp [h]
    rw [split]
    exact names_newName.append ih

theorem names_specs {isConst : Bool} {ss : List Spec} :
    Names a ((ss.flatMap Spec.names).map Ident.spelling) (specsCode p a isConst ss) := by
  induction ss with
  | nil => exact names_nil
  | cons s ss ih =>
    rw [List.flatMap_cons, List.map_append]
    cases s with
    | value => exact names_names.append ih
    | «import» | type => exact names_nil.append ih

/-! ## Nodes -/

theorem of_functionCode {name : Option String} {position : Position} {type : Option TypeRef}
    {literal : Bool} {syntaxType : FuncType} {b : Around} {item : Item}
    (h : Op.record b item ∈ functionCode p a name position type literal syntaxType) :
    b = a ∧ ∃ variadic generic signature,
      item = .function name position variadic generic literal signature := by
  simp only [functionCode, List.mem_append, List.mem_singleton, List.mem_map, reduceCtorEq,
    and_false, exists_false, or_false, false_or, Op.record.injEq] at h
  obtain ⟨rfl, rfl⟩ := h
  exact ⟨rfl, _, _, _, rfl⟩

theorem functionCode_records {name : Option String} {position : Position} {type : Option TypeRef}
    {literal : Bool} {syntaxType : FuncType} :
    ⟨a.path, position⟩ ∈
      (functionCode p a name position type literal syntaxType).filterMap Op.function? := by
  refine List.mem_filterMap.mpr ⟨_, List.mem_append_right _ (List.mem_singleton_self _), rfl⟩

/-- What is recorded at a node: the function that it is, and its declaring identifiers inside that. -/
theorem of_headCode {n : Node} {b : Around} {item : Item}
    (h : Op.record b item ∈ headCode p a n) :
    (b = a ∧ ∃ name position variadic generic literal signature,
      item = .function name position variadic generic literal signature ∧
        n.function? = some position ∧ (literal = false ↔ ∃ d, n = .func d)) ∨
    (b = below a n ∧ ∃ name position isConst role,
      item = .var name position isConst role ∧ (name, position) ∈ n.declared p a.path) := by
  cases n with
  | func d =>
    obtain h | h := List.mem_append.mp h
    · obtain ⟨rfl, variadic, generic, signature, rfl⟩ := of_functionCode h
      exact .inl ⟨rfl, _, _, _, _, _, _, rfl, rfl, by simp⟩
    · have names := names_optionalFields.append names_parameters b item h
      rw [← List.map_append] at names
      exact .inr names
  | gen d =>
    obtain ⟨span, tok, ss⟩ := d
    cases tok with
    | const | var => exact .inr (names_specs b item h)
    | «import» | type => cases h
  | stmt s =>
    cases s with
    | assign span lhs op rhs =>
      cases op with
      | define => exact .inr (names_newNames b item h)
      | assign | compound => cases h
    | range span key value define x body =>
      cases define with
      | true => exact .inr (names_newNames b item h)
      | false => cases h
    | _ => cases h
  | expr e =>
    obtain ⟨span, type, node⟩ := e
    cases node with
    | funcLit t body =>
      obtain h | h := List.mem_append.mp h
      · obtain ⟨rfl, variadic, generic, signature, rfl⟩ := of_functionCode h
        exact .inl ⟨rfl, _, _, _, _, _, _, rfl, rfl, by simp⟩
      · exact .inr (names_parameters b item h)
    | _ => cases h

/-- At a function the function is recorded. -/
theorem headCode_records {n : Node} {g : Position} (h : n.function? = some g) :
    ⟨a.path, g⟩ ∈ (headCode p a n).filterMap Op.function? := by
  cases n with
  | func d =>
    cases h
    unfold headCode
    rw [List.filterMap_append]
    exact List.mem_append_left _ functionCode_records
  | expr e =>
    obtain ⟨span, type, node⟩ := e
    cases node with
    | funcLit t body =>
      cases h
      unfold headCode
      simp only [List.filterMap_append]
      exact List.mem_append_left _ functionCode_records
    | _ => cases h
  | stmt | gen => cases h

/-! ## Functions come first -/

variable {known : List SourceSite}

def Around.Known (known : List SourceSite) (a : Around) : Prop :=
  ∀ g ∈ a.functions, ⟨a.path, g⟩ ∈ known

theorem Names.inside (h : Names a names code) (hk : Around.Known known a) :
    ∀ o ∈ code, o.Inside known := by
  intro o ho
  cases o with
  | file | type => trivial
  | record b item =>
    obtain ⟨rfl, -⟩ := h b item ho
    exact hk

theorem known_below (hk : Around.Known known a) (n : Node) :
    Around.Known (known ++ (headCode p a n).filterMap Op.function?) (below a n) := by
  rw [n.below_eq]
  intro g hg
  obtain hg | hg := List.mem_append.mp hg
  · exact List.mem_append_left _ (hk g hg)
  · exact List.mem_append_right _ (headCode_records (Option.mem_toList.mp hg))

theorem announced_function (hk : Around.Known known a) {name : Option String} {position : Position}
    {type : Option TypeRef} {literal : Bool} {syntaxType : FuncType} {b : Around}
    (hb : b = a.enter position) (rest : Names b names code) :
    Announced known (functionCode p a name position type literal syntaxType ++ code) := by
  refine Plan.announced_append.mpr ⟨Plan.announced_of_inside fun o ho => ?_, ?_⟩
  · cases o with
    | file | type => trivial
    | record b item =>
      obtain ⟨rfl, -⟩ := of_functionCode ho
      exact hk
  · refine Plan.announced_of_inside (rest.inside ?_)
    subst hb
    intro g hg
    obtain hg | hg := List.mem_append.mp hg
    · exact List.mem_append_left _ (hk g hg)
    · obtain rfl := List.mem_singleton.mp hg
      exact List.mem_append_right _ functionCode_records

/-- At a node a function is recorded before what is inside it. -/
theorem announced_head (hk : Around.Known known a) (n : Node) :
    Announced known (headCode p a n) := by
  cases n with
  | func d =>
    exact announced_function hk rfl (names_optionalFields.append names_parameters)
  | gen d =>
    obtain ⟨span, tok, ss⟩ := d
    cases tok with
    | const | var => exact Plan.announced_of_inside (names_specs.inside hk)
    | «import» | type => trivial
  | stmt s =>
    cases s with
    | assign span lhs op rhs =>
      cases op with
      | define => exact Plan.announced_of_inside (names_newNames.inside hk)
      | assign | compound => trivial
    | range span key value define x body =>
      cases define with
      | true => exact Plan.announced_of_inside (names_newNames.inside hk)
      | false => trivial
    | _ => trivial
  | expr e =>
    obtain ⟨span, type, node⟩ := e
    cases node with
    | funcLit t body => exact announced_function hk rfl names_parameters
    | _ => trivial

mutual

theorem announced_outline (o : Outline) {a : Around} {known : List SourceSite}
    (hk : Around.Known known a) : Announced known (outlineCode p a o) := by
  cases o with
  | node head children =>
    unfold outlineCode
    exact Plan.announced_append.mpr
      ⟨announced_head hk head, announced_outlines children (known_below hk head)⟩
termination_by structural o

/-- The definitions pass records a function before what is inside it. -/
theorem announced_outlines (os : List Outline) {a : Around} {known : List SourceSite}
    (hk : Around.Known known a) : Announced known (outlinesCode p a os) := by
  cases os with
  | nil => trivial
  | cons o os =>
    unfold outlinesCode
    refine Plan.announced_append.mpr ⟨announced_outline o hk, announced_outlines os fun g hg => ?_⟩
    exact List.mem_append_left _ (hk g hg)
termination_by structural os

end

end

end Definitions

def Plan.Item.heading? : Item → Option Heading
  | .expr kind span .. => some (.expr kind span)
  | .stmt kind span _ => some (.stmt kind span)
  | _ => none

namespace Depth

variable {p : Package} {root : Path} {m : Mark} {b : Around} {item : Item}

theorem Mark.record_mem_code :
    Op.record b item ∈ m.code p root ↔ b = m.around ∧ item = m.item p root := by
  cases m <;>
    simp [code, exprCode, nameCode, Mark.around, Mark.item, record_notMem_mention]

theorem Mark.heading?_item (m : Mark) : (m.item p root).heading? = some m.heading := by
  cases m with
  | stmt a s => exact congrArg (fun kind => some (Heading.stmt kind s.span)) (stmtNote_kind s)
  | _ => rfl

end Depth

namespace SourceFile

variable {p : Package} {f : SourceFile} {b : Around} {item : Item}

theorem Encloses.recorded {fs : List Position} {n : Node} (h : f.Encloses fs n) {g : Position}
    (hg : n.function? = some g) : ⟨f.path, g⟩ ∈ (f.definitionsCode p).filterMap Op.function? := by
  obtain ⟨o, ho, site⟩ := List.mem_filterMap.mp
    (Definitions.headCode_records (p := p) (a := ⟨f.path, fs⟩) hg)
  refine List.mem_filterMap.mpr ⟨o, ?_, site⟩
  rw [definitionsCode_eq]
  exact List.mem_cons_of_mem _ (List.mem_flatMap.mpr ⟨_, mem_placed.mpr h, ho⟩)

theorem announced_definitions (known : List SourceSite) :
    Announced known (f.definitionsCode p) :=
  ⟨trivial, Definitions.announced_outlines f.outlines (a := .top f.path) nofun⟩

/-- The depth pass over a file is inside functions of the file. -/
theorem inside_depthCode {root : Path} {known : List SourceSite}
    (hk : (f.definitionsCode p).filterMap Op.function? ⊆ known) :
    ∀ o ∈ f.depthCode p root, o.Inside known := by
  intro o ho
  cases o with
  | file | type => trivial
  | record b item =>
    obtain ho | ho := List.mem_cons.mp ho
    · cases ho
    obtain ⟨m, hm, ho⟩ := List.mem_flatMap.mp ho
    obtain ⟨rfl, -⟩ := Depth.Mark.record_mem_code.mp ho
    intro g hg
    have place : m.around = ⟨f.path, m.around.functions⟩ := by
      rw [← f.marks_inFile p m hm]
    obtain ⟨fs, n, hn, hg⟩ := (places_iff.mpr ⟨m, hm, place, rfl⟩).functions g hg
    rw [f.marks_inFile p m hm]
    exact hk (hn.recorded hg)

end SourceFile

namespace Package

variable {p : Package} {root : Path}

/-- An analysis that makes both passes records a function before what is inside it. -/
theorem announced (p : Package) (root : Path) : Announced [] (p.code root .all) := by
  have code : p.code root .all =
      Plan.passCode p.usableFiles.1 (·.definitionsCode p) ++
        Plan.passCode p.usableFiles.1 (·.depthCode p root) := by
    simp [Package.code, Mode.codes]
  rw [code]
  refine Plan.announced_append.mpr
    ⟨Plan.announced_flatMap fun f _ => SourceFile.announced_definitions _,
      Plan.announced_flatMap fun f hf => Plan.announced_of_inside ?_⟩
  refine SourceFile.inside_depthCode fun x hx => List.mem_append_right _ ?_
  obtain ⟨o, ho, hx⟩ := List.mem_filterMap.mp hx
  exact List.mem_filterMap.mpr ⟨o, List.mem_flatMap.mpr ⟨f, hf, ho⟩, hx⟩

end Package
end AccessDepth
