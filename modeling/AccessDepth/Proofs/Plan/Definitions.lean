import AccessDepth.Analysis.Definitions
import AccessDepth.Proofs.Plan.Depth
import Mathlib.Data.List.Basic

/-!
# AccessDepth.Proofs.Plan.Definitions

The definitions pass as code, and that the pass does what its code does.

* `Definitions.headCode` — what is recorded at a node.
* `SourceFile.definitionsCode` — the code of a file, node by node: each before the nodes below it.
* `Definitions.At` — a scope stands where the code says that it stands, and every function around it
  is recorded.
* `Definitions.run_follows` — the pass over a file.
-/

namespace AccessDepth

open Plan (Around Item Op Machine Setting Follows)

namespace Definitions

/-! ## Code -/

section

variable (p : Package)

def signatureOf (type : Option TypeRef) : Option Signature :=
  match type.bind p.types.underlying with
  | some (.signature s) => some s
  | _ => none

def entriesOf (role : SignatureRole) (params : List (Int × SignatureParam)) :
    List (SignatureItem × Option TypeRef) :=
  params.map fun (position, p) =>
    ({ role := role, position := position, type := none, name := p.name }, some p.type)

def allEntriesOf (groups : List (SignatureRole × List SignatureParam)) :
    List (SignatureItem × Option TypeRef) :=
  groups.flatMap fun (role, params) => entriesOf role (numbered 0 params)

def functionCode (a : Around) (name : Option String) (position : Position)
    (type : Option TypeRef) (literal : Bool) (syntaxType : FuncType) : List Op :=
  let s? := signatureOf p type
  let entries := allEntriesOf ((s?.map Signature.groups).getD [])
  let variadic := match s? with
    | some s => s.variadic
    | none => isVariadic syntaxType.params
  let generic := match s? with
    | some s => s.isGeneric
    | none => syntaxType.typeParams.any fun l => !l.fields.isEmpty
  [.type p.types type] ++ entries.map (fun e => .type p.types e.2) ++
    [.record a (.function name position variadic generic literal (entries.map (·.1)))]

def variableCode (a : Around) (name : String) (position : Position) (type : Option TypeRef)
    (isConst : Bool) (role : VariableRole) : List Op :=
  if name = "_" then []
  else [.type p.types type] ++ [.record a (.var name position isConst role)]

def namesCode (a : Around) (type : Option TypeRef) (isConst : Bool) (role : VariableRole) :
    List Ident → List Op
  | [] => []
  | i :: is =>
    variableCode p a i.name i.span.start ((p.typeOfName i).or type) isConst role ++
      namesCode a type isConst role is

def fieldsCode (a : Around) (role : VariableRole) : List Field → List Op
  | [] => []
  | f :: fs => namesCode p a f.type.type false role f.names ++ fieldsCode a role fs

def optionalFieldsCode (a : Around) (role : VariableRole) : Option FieldList → List Op
  | none => []
  | some l => fieldsCode p a role l.fields

def parametersCode (a : Around) (type : FuncType) : List Op :=
  fieldsCode p a .param type.params.fields ++ optionalFieldsCode p a .result type.results

def newNameCode (a : Around) (e : Expr) : List Op :=
  match e.node with
  | .ident name object =>
    match p.objects.get? object with
    | some o =>
      if o.declaredAt a.path e.span.start then
        variableCode p a name e.span.start (e.type.or o.type) false .local
      else []
    | none => []
  | _ => []

def newNamesCode (a : Around) : List Expr → List Op
  | [] => []
  | e :: es => newNameCode p a e ++ newNamesCode a es

def specsCode (a : Around) (isConst : Bool) : List Spec → List Op
  | [] => []
  | .value _ is type _ :: rest =>
    namesCode p a (type.bind (·.type)) isConst .local is ++ specsCode a isConst rest
  | _ :: rest => specsCode a isConst rest

def below (a : Around) : Node → Around
  | .func d => a.enter d.name.span.start
  | .expr e =>
    match e.node with
    | .funcLit .. => a.enter e.span.start
    | _ => a
  | _ => a

/-- What is recorded at a node. -/
def headCode (a : Around) (n : Node) : List Op :=
  match n with
  | .func d =>
    functionCode p a (some d.name.name) d.name.span.start (p.typeOfName d.name) false d.type ++
      (optionalFieldsCode p (below a n) .receiver d.recv ++ parametersCode p (below a n) d.type)
  | .gen d =>
    match d.tok with
    | .const => specsCode p a true d.specs
    | .var => specsCode p a false d.specs
    | _ => []
  | .stmt s =>
    match s with
    | .assign _ lhs .define _ => newNamesCode p a lhs
    | .range _ key value true _ _ => newNamesCode p a (key.toList ++ value.toList)
    | _ => []
  | .expr e =>
    match e.node with
    | .funcLit type _ =>
      functionCode p a none e.span.start e.type true type ++ parametersCode p (below a n) type
    | _ => []

mutual

def outlineCode (a : Around) : Outline → List Op
  | .node head children => headCode p a head ++ outlinesCode (below a head) children
termination_by structural o => o

def outlinesCode (a : Around) : List Outline → List Op
  | [] => []
  | o :: os => outlineCode a o ++ outlinesCode a os
termination_by structural os => os

end

end

end Definitions

/-- The definitions pass over a file. -/
def SourceFile.definitionsCode (p : Package) (f : SourceFile) : List Op :=
  .file f.path :: Definitions.outlinesCode p (.top f.path) f.outlines

namespace Definitions

/-! ## The pass -/

/-- A setting in which the definitions pass can be looked at: nothing is kept but what every
operation keeps. -/
def Fits (σ : Setting) : Prop := ∀ o, σ.Keeps o

/-- A scope of a package stands at a place whose functions are all recorded. -/
structure At (σ : Setting) (p : Package) (w : Scope) (a : Around) (s : Session) : Prop where
  good : σ.Good s
  package : w.package = p
  path : w.path = a.path
  file : s.store.fileNamed? a.path.text = some w.file
  enclosing : w.enclosing = a.enclosing s.store w.file
  recorded : ∀ f ∈ a.functions, (s.store.functionAt? w.file f).isSome = true

section

variable {σ : Setting} {p : Package} {w : Scope} {a : Around} {s s' : Session}
  {types types' : List (Option TypeId)}

theorem At.later (h : At σ p w a s) (hg : σ.Good s') {code : List Op}
    (hr : Plan.run code ⟨s.store, types⟩ = .ok ⟨s'.store, types'⟩) : At σ p w a s' where
  good := hg
  package := h.package
  path := h.path
  file := Store.fileNamed?_of_le (Plan.run_le hr) h.file
  enclosing := by
    have same : a.recorded s'.store w.file = a.recorded s.store w.file := by
      refine List.filterMap_congr fun f hf => ?_
      obtain ⟨id, hid⟩ := Option.isSome_iff_exists.mp (h.recorded f hf)
      rw [hid, Store.functionAt?_of_le (Plan.run_le hr) hid]
    rw [h.enclosing, Around.enclosing, Around.enclosing, same]
  recorded f hf := by
    obtain ⟨id, hid⟩ := Option.isSome_iff_exists.mp (h.recorded f hf)
    exact Option.isSome_of_eq_some (Store.functionAt?_of_le (Plan.run_le hr) hid)

/-- The scope inside a function that was recorded. -/
theorem At.enter (h : At σ p w a s) {position : Position} {id : FunctionId}
    (hid : s.store.functionAt? w.file position = some id) :
    At σ p (w.enter id) (a.enter position) s where
  good := h.good
  package := h.package
  path := h.path
  file := h.file
  enclosing := by
    simp [Scope.enter, Around.enter, Around.enclosing, Around.recorded, hid, h.enclosing,
      List.head?_append]
  recorded f hf := by
    obtain hf | hf := List.mem_append.mp hf
    · exact h.recorded f hf
    · obtain rfl := List.mem_singleton.mp hf
      exact Option.isSome_of_eq_some hid

def Does {α : Type} (σ : Setting) (p : Package) (w : Scope) (a : Around) (code : List Op)
    (x : Analyze α) (post : α → Store → Prop) : Prop :=
  ∀ s, At σ p w a s → Follows σ s [] code x fun y m => m.types = [] ∧ post y m.store

variable {α β : Type}

theorem Does.bind {code code' : List Op} {x : Analyze α} {f : α → Analyze β}
    {mid : α → Store → Prop} {post : β → Machine → Prop} (h : Does σ p w a code x mid)
    (here : At σ p w a s)
    (hf : ∀ y s', At σ p w a s' → mid y s'.store → Follows σ s' [] code' (f y) post) :
    Follows σ s [] (code ++ code') (x >>= f) post := by
  refine (h s here).bind fun y s' types' hg hr hm => ?_
  obtain ⟨rfl, hm⟩ := hm
  exact hf y s' (here.later hg hr) hm

theorem does_nil : Does σ p w a [] (pure ()) fun _ _ => True := by
  intro s here
  exact Plan.follows_pure here.good ⟨rfl, trivial⟩

/-! ## Functions -/

def Filled (types : List (Option TypeId)) (drafts : List (SignatureItem × Option TypeRef))
    (items : List SignatureItem) (m : Machine) : Prop :=
  ∃ ids, m.types = types ++ ids ∧ ids.length = drafts.length ∧
    items = (drafts.map (·.1)).zipWith (fun e t => { e with type := t }) ids

theorem follows_entries (hσ : Fits σ) (here : At σ p w a s) (types : List (Option TypeId))
    (role : SignatureRole) (params : List (Int × SignatureParam)) :
    Follows σ s types ((entriesOf role params).map fun e => .type p.types e.2)
      (entries w role params) (Filled types (entriesOf role params)) := by
  induction params generalizing s types with
  | nil => exact Plan.follows_pure here.good ⟨[], by simp [entriesOf]⟩
  | cons x params ih =>
    obtain ⟨position, param⟩ := x
    unfold entries Scope.typeId
    rw [here.package, entriesOf, List.map_cons, List.map_cons, ← List.singleton_append]
    refine (Plan.follows_typeId here.good (hσ _)).bind fun id s₁ types₁ hg₁ hr₁ ht₁ => ?_
    obtain rfl : types₁ = types ++ [id] := ht₁
    refine (ih (here.later hg₁ hr₁) (types ++ [id])).map fun rest m hm => ?_
    obtain ⟨ids, ht, hl, rfl⟩ := hm
    exact ⟨id :: ids, by simp [ht], by simpa [entriesOf] using hl, rfl⟩

theorem follows_allEntries (hσ : Fits σ) (here : At σ p w a s) (types : List (Option TypeId))
    (groups : List (SignatureRole × List SignatureParam)) :
    Follows σ s types ((allEntriesOf groups).map fun e => .type p.types e.2)
      (allEntries w groups) (Filled types (allEntriesOf groups)) := by
  induction groups generalizing s types with
  | nil => exact Plan.follows_pure here.good ⟨[], by simp [allEntriesOf]⟩
  | cons g groups ih =>
    obtain ⟨role, params⟩ := g
    unfold allEntries
    rw [allEntriesOf, List.flatMap_cons, List.map_append]
    refine (follows_entries hσ here types role (numbered 0 params)).bind
      fun first s₁ types₁ hg₁ hr₁ h₁ => ?_
    refine (ih (here.later hg₁ hr₁) types₁).map fun more m hm => ?_
    obtain ⟨ids, ht, hl, rfl⟩ := h₁
    obtain ⟨ids', ht', hl', rfl⟩ := hm
    obtain rfl : types₁ = types ++ ids := ht
    refine ⟨ids ++ ids', by simp [ht'], ?_, ?_⟩
    · simp only [List.length_append, hl, hl']
      rfl
    · rw [List.map_append, List.zipWith_append (by simp [hl])]
      rfl

theorem function_does (hσ : Fits σ) (site : Site) (syntaxType : FuncType)
    (hp : site.parent = if site.literal then w.enclosing.innermost else none) :
    Does σ p w a
      (functionCode p a site.name site.position site.type site.literal syntaxType)
      (function w site syntaxType)
      fun id t => t.functionAt? w.file site.position = some id := by
  intro s here
  have signature : signature? w site.type = signatureOf p site.type := by
    cases here.package
    rfl
  unfold functionCode function Scope.typeId
  rw [here.package, signature, List.append_assoc]
  refine (Plan.follows_typeId here.good (hσ _)).bind fun id s₁ types₁ hg₁ hr₁ ht₁ => ?_
  obtain rfl : types₁ = [id] := ht₁
  have here₁ := here.later hg₁ hr₁
  refine (follows_allEntries hσ here₁ [id] _).bind fun items s₂ types₂ hg₂ hr₂ h₂ => ?_
  have here₂ := here₁.later hg₂ hr₂
  obtain ⟨ids, ht, -, rfl⟩ := h₂
  obtain rfl : types₂ = id :: ids := ht
  refine (Plan.follows_commit (w := .function _ _) hg₂ here₂.file ?_ rfl (hσ _)).map
    fun r m h => ⟨h.2, ?_⟩
  · rw [hp, here₂.enclosing]
    rfl
  · exact functionAt?_of_recordFunction h.1

/-! ## Variables -/

theorem variable_does (hσ : Fits σ) (name : String) (position : Position)
    (type : Option TypeRef) (isConst : Bool) (role : VariableRole) :
    Does σ p w a (variableCode p a name position type isConst role)
      (namedVariable w name position type isConst role) fun _ _ => True := by
  intro s here
  unfold variableCode namedVariable
  split
  · exact does_nil s here
  · unfold Scope.typeId
    rw [here.package]
    refine (Plan.follows_typeId here.good (hσ _)).bind fun id s₁ types₁ hg₁ hr₁ ht₁ => ?_
    obtain rfl : types₁ = [id] := ht₁
    have here₁ := here.later hg₁ hr₁
    refine (Plan.follows_commit (w := .var _) hg₁ here₁.file ?_ rfl (hσ _)).map
      fun r m h => ⟨h.2, trivial⟩
    rw [here₁.enclosing]
    rfl

theorem typeOfName_eq (here : At σ p w a s) (i : Ident) : w.typeOfName i = p.typeOfName i := by
  rw [Scope.typeOfName, Scope.object?, here.package, Package.typeOfName]

theorem names_does (hσ : Fits σ) (type : Option TypeRef) (isConst : Bool) (role : VariableRole)
    (is : List Ident) :
    Does σ p w a (namesCode p a type isConst role is) (names w type isConst role is)
      fun _ _ => True := by
  induction is with
  | nil => exact does_nil
  | cons i is ih =>
    intro s here
    unfold namesCode names
    rw [typeOfName_eq here]
    exact (variable_does hσ _ _ _ _ _).bind here fun _ s₁ here₁ _ => ih s₁ here₁

theorem fields_does (hσ : Fits σ) (role : VariableRole) (fs : List Field) :
    Does σ p w a (fieldsCode p a role fs) (fields w role fs) fun _ _ => True := by
  induction fs with
  | nil => exact does_nil
  | cons f fs ih =>
    intro s here
    unfold fieldsCode fields
    exact (names_does hσ _ _ _ _).bind here fun _ s₁ here₁ _ => ih s₁ here₁

theorem optionalFields_does (hσ : Fits σ) (role : VariableRole) (list : Option FieldList) :
    Does σ p w a (optionalFieldsCode p a role list) (optionalFields w role list)
      fun _ _ => True := by
  cases list with
  | none => exact does_nil
  | some l => exact fields_does hσ role l.fields

theorem parameters_does (hσ : Fits σ) (type : FuncType) :
    Does σ p w a (parametersCode p a type) (parameters w type) fun _ _ => True := by
  intro s here
  unfold parametersCode parameters
  exact (fields_does hσ .param _).bind here
    fun _ s₁ here₁ _ => optionalFields_does hσ .result _ s₁ here₁

theorem newName_does (hσ : Fits σ) (e : Expr) :
    Does σ p w a (newNameCode p a e) (newName w e) fun _ _ => True := by
  intro s here
  unfold newNameCode newName
  cases e.node with
  | ident name object =>
    simp only [Scope.object?, here.package, here.path]
    cases p.objects.get? object with
    | none => exact does_nil s here
    | some o =>
      simp only
      split
      · exact variable_does hσ _ _ _ _ _ s here
      · exact does_nil s here
  | _ => exact does_nil s here

theorem newNames_does (hσ : Fits σ) (es : List Expr) :
    Does σ p w a (newNamesCode p a es) (newNames w es) fun _ _ => True := by
  induction es with
  | nil => exact does_nil
  | cons e es ih =>
    intro s here
    unfold newNamesCode newNames
    exact (newName_does hσ e).bind here fun _ s₁ here₁ _ => ih s₁ here₁

theorem specs_does (hσ : Fits σ) (isConst : Bool) (ss : List Spec) :
    Does σ p w a (specsCode p a isConst ss) (specs w isConst ss) fun _ _ => True := by
  induction ss with
  | nil => exact does_nil
  | cons spec ss ih =>
    intro s here
    cases spec with
    | value span is type values =>
      unfold specsCode specs
      exact (names_does hσ _ _ _ _).bind here fun _ s₁ here₁ _ => ih s₁ here₁
    | «import» | type =>
      unfold specsCode specs
      exact ih s here

/-! ## Nodes -/

/-- A node is recorded before the nodes below it are looked at, in the scope that it opens. -/
theorem hook_follows (hσ : Fits σ) (here : At σ p w a s) (n : Node) {code : List Op}
    {rest : Pass Unit} (hrest : ∀ w' s', At σ p w' (below a n) s' →
      Follows σ s' [] code (rest w') fun _ m => m.types = []) :
    Follows σ s [] (headCode p a n ++ code) (hook n rest w) fun _ m => m.types = [] := by
  cases n with
  | func d =>
    unfold headCode hook
    simp only [List.append_assoc]
    rw [typeOfName_eq here]
    let site : Site := ⟨some d.name.name, d.name.span.start, p.typeOfName d.name, false, none⟩
    refine (function_does hσ site d.type rfl).bind here fun id s₁ here₁ hid => ?_
    have inner := here₁.enter hid
    refine (optionalFields_does hσ .receiver d.recv).bind inner fun _ s₂ inner₂ _ => ?_
    refine (parameters_does hσ d.type).bind inner₂ fun _ s₃ inner₃ _ => ?_
    exact hrest _ s₃ inner₃
  | gen d =>
    obtain ⟨span, tok, ss⟩ := d
    cases tok with
    | const => exact (specs_does hσ true ss).bind here fun _ s₁ here₁ _ => hrest w s₁ here₁
    | var => exact (specs_does hσ false ss).bind here fun _ s₁ here₁ _ => hrest w s₁ here₁
    | «import» | type => exact hrest w s here
  | stmt st =>
    cases st with
    | assign span lhs op rhs =>
      cases op with
      | define => exact (newNames_does hσ lhs).bind here fun _ s₁ here₁ _ => hrest w s₁ here₁
      | assign | compound => exact hrest w s here
    | range span key value define x body =>
      cases define with
      | true => exact (newNames_does hσ _).bind here fun _ s₁ here₁ _ => hrest w s₁ here₁
      | false => exact hrest w s here
    | _ => exact hrest w s here
  | expr e =>
    obtain ⟨span, type, node⟩ := e
    cases node with
    | funcLit signature body =>
      unfold headCode hook
      simp only [List.append_assoc]
      let site : Site := ⟨none, span.start, type, true, w.enclosing.innermost⟩
      refine (function_does hσ site signature rfl).bind here fun id s₁ here₁ hid => ?_
      have inner := here₁.enter hid
      refine (parameters_does hσ signature).bind inner fun _ s₂ inner₂ _ => ?_
      exact hrest _ s₂ inner₂
    | _ => exact hrest w s here

mutual

theorem visit_follows (hσ : Fits σ) (o : Outline) (w : Scope) (a : Around) (s : Session)
    (here : At σ p w a s) :
    Follows σ s [] (outlineCode p a o) (o.visit hook w) fun _ m => m.types = [] := by
  cases o with
  | node head children =>
    unfold outlineCode Outline.visit
    exact hook_follows hσ here head fun w' s' here' => visitAll_follows hσ children w' _ s' here'
termination_by structural o

theorem visitAll_follows (hσ : Fits σ) (os : List Outline) (w : Scope) (a : Around) (s : Session)
    (here : At σ p w a s) :
    Follows σ s [] (outlinesCode p a os) (Outline.visitAll hook os w) fun _ m => m.types = [] := by
  cases os with
  | nil => exact Plan.follows_pure here.good rfl
  | cons o os =>
    unfold outlinesCode Outline.visitAll
    refine (visit_follows hσ o w a s here).bind fun _ s₁ types₁ hg₁ hr₁ h₁ => ?_
    obtain rfl : types₁ = [] := h₁
    exact visitAll_follows hσ os w a s₁ (here.later hg₁ hr₁)
termination_by structural os

end

/-- The pass over a file on a known path does what its code does. -/
theorem run_follows (hσ : Fits σ) {f : SourceFile} (hf : σ.known f.path) (hg : σ.Good s) :
    Follows σ s [] (f.definitionsCode p) (run p f) fun _ m => m.types = [] := by
  unfold SourceFile.definitionsCode run
  rw [← List.singleton_append]
  refine (Plan.follows_ofFile hg hf (hσ _)).bind fun w s₁ types₁ hg₁ hr₁ h₁ => ?_
  obtain ⟨hw, hfile, rfl⟩ : _ ∧ _ ∧ types₁ = [] := h₁
  have here₁ : At σ p w (.top f.path) s₁ := by
    rw [hw]
    exact ⟨hg₁, rfl, rfl, hfile, rfl, nofun⟩
  exact visitAll_follows hσ f.outlines w _ s₁ here₁

end
end Definitions
end AccessDepth
