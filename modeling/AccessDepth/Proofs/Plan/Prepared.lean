import AccessDepth.Proofs.Interning.Success
import AccessDepth.Proofs.Plan.Analysis
import AccessDepth.Proofs.Plan.Refusal

/-!
# AccessDepth.Proofs.Plan.Prepared

Code whose items can be recorded.

* `Item.Tidy`, `Item.tidy_of_write?` — the rows of an item meet their conditions and do not share a
  key.
* `Item.write?_isSome` — an item has rows where everything that it names is there.
* `Plan.Prepared` — items are tidy, and the files that they name are added before them.
* `Package.code_prepared` — so it is in the code of a package.
-/

namespace AccessDepth

open Plan (Around AccessNote ExprNote StmtNote Item Op Write mention)

namespace Plan

/-! ## What items name -/

namespace ExprNote

def operands : ExprNote → List Span
  | .none | .ident .. => []
  | .selector base _ | .typeAssert base => [base]
  | .call function args => function :: args

def site? : ExprNote → Option SourceSite
  | .ident _ site => site
  | _ => Option.none

end ExprNote

def StmtNote.operands : StmtNote → List Span
  | .none => []
  | .assign lhs rhs => lhs ++ rhs
  | .return results => results
  | .defer call => [call]
  | .typeSwitch _ assertion _ => [assertion]

namespace Item

def operands : Item → List Span
  | .stmt _ _ detail => detail.operands
  | .expr _ _ detail access => detail.operands ++ (access.bind (·.inner)).toList
  | _ => []

def site? : Item → Option SourceSite
  | .expr _ _ detail _ => detail.site?
  | _ => none

end Item

section

variable {s : Store} {file : FileId} {types : List (Option TypeId)}

theorem exprsAt?_isSome {spans : List Span} :
    (s.exprsAt? file spans).isSome = true ↔ ∀ span ∈ spans, (s.exprAt? file span).isSome = true := by
  induction spans with
  | nil => simp [Store.exprsAt?]
  | cons span spans ih =>
    rw [List.forall_mem_cons, ← ih]
    unfold Store.exprsAt?
    rw [List.mapM_cons]
    cases s.exprAt? file span <;> cases spans.mapM (s.exprAt? file) <;> simp

theorem ExprNote.detail?_isSome {note : ExprNote} :
    (note.detail? s file types).isSome = true ↔
      (∀ span ∈ note.operands, (s.exprAt? file span).isSome = true) ∧
        ∀ site ∈ note.site?, (s.fileNamed? site.file.text).isSome = true := by
  cases note with
  | none => simp [detail?, operands, site?]
  | ident name definition =>
    cases definition with
    | none => simp [detail?, operands, site?]
    | some site => cases h : s.fileNamed? site.file.text <;> simp [detail?, operands, site?, h]
  | selector base | typeAssert base =>
    cases h : s.exprAt? file base <;> simp [detail?, operands, site?, h]
  | call function args =>
    simp only [operands, List.forall_mem_cons, ← exprsAt?_isSome]
    cases h : s.exprAt? file function <;> cases h' : s.exprsAt? file args <;>
      simp [detail?, site?, h, h']

theorem StmtNote.detail?_isSome {note : StmtNote} :
    (note.detail? s file types).isSome = true ↔
      ∀ span ∈ note.operands, (s.exprAt? file span).isSome = true := by
  cases note with
  | none => simp [detail?, operands]
  | assign lhs rhs =>
    simp only [operands, List.forall_mem_append, ← exprsAt?_isSome]
    cases h : s.exprsAt? file lhs <;> cases h' : s.exprsAt? file rhs <;> simp [detail?, h, h']
  | «return» results =>
    simp only [operands, ← exprsAt?_isSome]
    cases h : s.exprsAt? file results <;> simp [detail?, h]
  | defer call => cases h : s.exprAt? file call <;> simp [detail?, operands, h]
  | typeSwitch bound assertion cases =>
    cases h : s.exprAt? file assertion <;> simp [detail?, operands, h]

theorem AccessNote.access?_isSome {a : AccessNote} :
    (a.access? s file).isSome = true ↔
      ∀ span ∈ a.inner, (s.exprAt? file span).isSome = true := by
  cases hi : a.inner with
  | none => simp [access?, hi]
  | some span => cases h : s.exprAt? file span <;> simp [access?, hi, h]

/-- An item has rows where everything that it names is there. -/
theorem Item.write?_isSome {item : Item} {around : Around} :
    (item.write? s file types around).isSome = true ↔
      (∀ span ∈ item.operands, (s.exprAt? file span).isSome = true) ∧
        ∀ site ∈ item.site?, (s.fileNamed? site.file.text).isSome = true := by
  cases item with
  | function | var | makeSite | sizedAlloc => simp [write?, operands, site?]
  | stmt kind span detail =>
    simp only [operands, site?, ← @StmtNote.detail?_isSome s file types]
    cases h : detail.detail? s file types <;> simp [write?, h]
  | expr kind span detail access =>
    obtain ⟨noted, hn⟩ : ∃ x : Option (Option NewAccess), access.mapM (·.access? s file) = x :=
      ⟨_, rfl⟩
    have inner : noted.isSome = true ↔
        ∀ span ∈ access.bind (·.inner), (s.exprAt? file span).isSome = true := by
      subst hn
      cases access with
      | none => simp
      | some a =>
        rw [show (some a).bind (·.inner) = a.inner from rfl, ← AccessNote.access?_isSome]
        cases h : a.access? s file <;> simp [h]
    have both : (detail.detail? s file types).isSome = true ∧ noted.isSome = true ↔
        ((Item.expr kind span detail access).write? s file types around).isSome = true := by
      cases h : detail.detail? s file types <;> cases noted <;> simp [write?, h, hn]
    rw [← both, ExprNote.detail?_isSome, inner]
    simp only [operands, site?, List.forall_mem_append, Option.mem_toList]
    exact ⟨fun h => ⟨⟨h.1.1, h.2⟩, h.1.2⟩, fun h => ⟨⟨h.1.1, h.2⟩, h.1.2⟩⟩

end

/-! ## Items whose rows can be added -/

/-- The rows of an item meet their conditions and do not share a key. -/
def Item.Tidy : Item → Prop
  | .function _ _ _ _ _ signature => (signature.map fun e => (e.role, e.position)).Nodup
  | .stmt _ _ (.typeSwitch _ _ cases) => (cases.map fun c => (c.clause, c.position)).Nodup
  | .expr _ _ _ (some a) => 0 ≤ a.uncertainty
  | .sizedAlloc _ builtin _ _ => builtin = "make" ∨ builtin = "new"
  | _ => True

theorem map_zipWith_sublist {α β γ κ : Type} {f : α → β → γ} {key : α → κ} {key' : γ → κ}
    (h : ∀ x y, key' (f x y) = key x) (xs : List α) (ys : List β) :
    ((xs.zipWith f ys).map key').Sublist (xs.map key) := by
  induction xs generalizing ys with
  | nil => simp
  | cons x xs ih =>
    cases ys with
    | nil => simp
    | cons y ys =>
      simp only [List.zipWith_cons_cons, List.map_cons, h]
      exact (ih ys).cons_cons _

theorem Item.tidy_of_write? {s : Store} {file : FileId} {types : List (Option TypeId)}
    {around : Around} {item : Item} {w : Write} (ht : item.Tidy)
    (h : item.write? s file types around = some w) : w.Tidy := by
  cases item with
  | function name position variadic generic literal signature =>
    cases h
    refine Write.tidy_function (List.Nodup.sublist ?_ ht)
    exact map_zipWith_sublist (fun e _ => Eq.refl (e.role, e.position)) signature types.tail
  | var =>
    cases h
    exact Write.tidy_var _
  | stmt kind span detail =>
    obtain ⟨d, hd, h⟩ := Option.bind_eq_some_iff.mp h
    cases h
    refine Write.tidy_stmt fun bound assertion cases hc => ?_
    subst hc
    cases detail with
    | none => cases hd
    | assign lhs rhs =>
      obtain ⟨_, -, hd⟩ := Option.bind_eq_some_iff.mp hd
      obtain ⟨_, -, hd⟩ := Option.bind_eq_some_iff.mp hd
      cases hd
    | «return» | defer =>
      obtain ⟨_, -, hd⟩ := Option.bind_eq_some_iff.mp hd
      cases hd
    | typeSwitch bound' span' items =>
      obtain ⟨_, -, hd⟩ := Option.bind_eq_some_iff.mp hd
      cases hd
      refine List.Nodup.sublist ?_ ht
      exact map_zipWith_sublist (fun c _ => Eq.refl (c.clause, c.position)) items types
  | expr kind span detail access =>
    obtain ⟨d, -, h⟩ := Option.bind_eq_some_iff.mp h
    obtain ⟨a, ha, h⟩ := Option.bind_eq_some_iff.mp h
    cases h
    refine Write.tidy_expr fun n hn => ?_
    subst hn
    cases access with
    | none => cases ha
    | some note =>
      obtain ⟨x, hx, he⟩ := Option.map_eq_some_iff.mp ha
      obtain rfl := Option.some.inj he
      obtain ⟨inner, -, hx⟩ := Option.bind_eq_some_iff.mp hx
      cases hx
      exact ht
  | makeSite | sizedAlloc =>
    cases h
    exact ⟨fun _ _ hr => (nomatch hr), fun _ => .nil⟩

/-! ## Code -/

/-- Items are tidy, and recorded after the rows of the files that they name. Some files have their
rows before. -/
def Prepared (files : List Path) : List Op → Prop
  | [] => True
  | .file path :: code => Prepared (path :: files) code
  | .type .. :: code => Prepared files code
  | .record a item :: code =>
    (item.Tidy ∧ a.path ∈ files ∧ ∀ site ∈ item.site?, site.file ∈ files) ∧ Prepared files code

section

variable {files files' : List Path} {code code' : List Op} {a : Around} {item : Item}

@[simp] theorem prepared_nil : Prepared files [] := trivial

@[simp] theorem prepared_file {path : Path} :
    Prepared files (.file path :: code) ↔ Prepared (path :: files) code := Iff.rfl

@[simp] theorem prepared_type {table : TypeTable} {ref : Option TypeRef} :
    Prepared files (.type table ref :: code) ↔ Prepared files code := Iff.rfl

@[simp] theorem prepared_record : Prepared files (.record a item :: code) ↔
    (item.Tidy ∧ a.path ∈ files ∧ ∀ site ∈ item.site?, site.file ∈ files) ∧ Prepared files code :=
  Iff.rfl

theorem Prepared.mono (h : Prepared files code) (hf : files ⊆ files') : Prepared files' code := by
  induction code generalizing files files' with
  | nil => trivial
  | cons o code ih =>
    cases o with
    | file path => exact ih h (List.cons_subset_cons path hf)
    | type => exact ih h hf
    | record a item =>
      obtain ⟨⟨tidy, here, sites⟩, h⟩ := h
      exact ⟨⟨tidy, hf here, fun site hs => hf (sites site hs)⟩, ih h hf⟩

theorem Prepared.append (h : Prepared files code) (h' : Prepared files code') :
    Prepared files (code ++ code') := by
  induction code generalizing files with
  | nil => exact h'
  | cons o code ih =>
    cases o with
    | file path => exact ih h (h'.mono (List.subset_cons_self path files))
    | type => exact ih h h'
    | record => exact ⟨h.1, ih h.2 h'⟩

theorem prepared_flatMap {α : Type} {f : α → List Op} {xs : List α}
    (h : ∀ x ∈ xs, Prepared files (f x)) : Prepared files (xs.flatMap f) := by
  induction xs with
  | nil => trivial
  | cons x xs ih =>
    exact (h x List.mem_cons_self).append (ih fun y hy => h y (List.mem_cons_of_mem x hy))

theorem prepared_types {α : Type} (table : TypeTable) (ref : α → Option TypeRef) (xs : List α) :
    Prepared files (xs.map (fun x => .type table (ref x)) ++ code) ↔ Prepared files code := by
  induction xs with
  | nil => exact Iff.rfl
  | cons x xs ih => exact ih

theorem prepared_mention (site : Option SourceSite) :
    Prepared files (mention site ++ code) ↔
      Prepared ((site.map (·.file)).toList ++ files) code := by
  cases site <;> exact Iff.rfl

/-- What is there when an item is recorded. -/
theorem Prepared.here {done rest : List Op} (h : Prepared files (done ++ .record a item :: rest)) :
    item.Tidy ∧ (a.path ∈ files ∨ .file a.path ∈ done) ∧
      ∀ site ∈ item.site?, site.file ∈ files ∨ .file site.file ∈ done := by
  induction done generalizing files with
  | nil => exact ⟨h.1.1, .inl h.1.2.1, fun site hs => .inl (h.1.2.2 site hs)⟩
  | cons o done ih =>
    have later {path : Path} (hp : path ∈ files ∨ .file path ∈ done) :
        path ∈ files ∨ .file path ∈ o :: done := hp.imp_right (List.mem_cons_of_mem o)
    cases o with
    | file path =>
      obtain ⟨tidy, own, sites⟩ := ih h
      have added {p : Path} (hp : p ∈ path :: files ∨ .file p ∈ done) :
          p ∈ files ∨ .file p ∈ .file path :: done := by
        obtain hp | hp := hp
        · obtain rfl | hp := List.mem_cons.mp hp
          · exact .inr List.mem_cons_self
          · exact .inl hp
        · exact .inr (List.mem_cons_of_mem _ hp)
      exact ⟨tidy, added own, fun site hs => added (sites site hs)⟩
    | type =>
      obtain ⟨tidy, own, sites⟩ := ih h
      exact ⟨tidy, later own, fun site hs => later (sites site hs)⟩
    | record =>
      obtain ⟨tidy, own, sites⟩ := ih h.2
      exact ⟨tidy, later own, fun site hs => later (sites site hs)⟩

end
end Plan

open Plan (Prepared)

/-! ## Definitions -/

namespace Definitions

variable {p : Package} {files : List Path} {a : Around}

def signaturePlaces (groups : List (SignatureRole × List SignatureParam)) :
    List (SignatureRole × Int) :=
  groups.flatMap fun g => (numbered 0 g.2).map fun x => (g.1, x.1)

theorem signaturePlaces_nodup {groups : List (SignatureRole × List SignatureParam)}
    (h : groups.Pairwise fun g g' => g.1 ≠ g'.1) : (signaturePlaces groups).Nodup := by
  refine List.nodup_flatMap.mpr ⟨fun g _ => ?_, h.imp ?_⟩
  · exact nodup_map_of_key (numbered_nodup 0 g.2) fun x y he => (Prod.mk.inj he).2
  · intro g g' ne key left right
    obtain ⟨x, -, rfl⟩ := List.mem_map.mp left
    obtain ⟨y, -, he⟩ := List.mem_map.mp right
    exact ne (Prod.mk.inj he).1.symm

theorem allEntriesOf_places (groups : List (SignatureRole × List SignatureParam)) :
    (((allEntriesOf groups).map (·.1)).map fun e => (e.role, e.position)) =
      signaturePlaces groups := by
  simp [allEntriesOf, entriesOf, signaturePlaces, List.map_flatMap, Function.comp_def]

theorem functionCode_prepared (ha : a.path ∈ files) {name : Option String} {position : Position}
    {type : Option TypeRef} {literal : Bool} {syntaxType : FuncType} :
    Prepared files (functionCode p a name position type literal syntaxType) := by
  have tidy : (((allEntriesOf (((signatureOf p type).map Signature.groups).getD [])).map (·.1)).map
      fun e => (e.role, e.position)).Nodup := by
    rw [allEntriesOf_places]
    refine signaturePlaces_nodup ?_
    cases signatureOf p type with
    | none => exact .nil
    | some s => exact s.groups_apart
  unfold functionCode
  rw [List.append_assoc]
  refine (Plan.prepared_types p.types (fun e : SignatureItem × Option TypeRef => e.2) _).mpr ?_
  exact Plan.prepared_record.mpr ⟨⟨tidy, ha, fun _ hs => nomatch hs⟩, trivial⟩

theorem variableCode_prepared (ha : a.path ∈ files) {name : String} {position : Position}
    {type : Option TypeRef} {isConst : Bool} {role : VariableRole} :
    Prepared files (variableCode p a name position type isConst role) := by
  unfold variableCode
  split
  · trivial
  · exact ⟨⟨trivial, ha, fun _ hs => nomatch hs⟩, trivial⟩

theorem namesCode_prepared (ha : a.path ∈ files) {type : Option TypeRef} {isConst : Bool}
    {role : VariableRole} {is : List Ident} :
    Prepared files (namesCode p a type isConst role is) := by
  induction is with
  | nil => trivial
  | cons i is ih => exact (variableCode_prepared ha).append ih

theorem fieldsCode_prepared (ha : a.path ∈ files) {role : VariableRole} {fs : List Field} :
    Prepared files (fieldsCode p a role fs) := by
  induction fs with
  | nil => trivial
  | cons f fs ih => exact (namesCode_prepared ha).append ih

theorem optionalFieldsCode_prepared (ha : a.path ∈ files) {role : VariableRole}
    {fields : Option FieldList} : Prepared files (optionalFieldsCode p a role fields) := by
  cases fields with
  | none => trivial
  | some l => exact fieldsCode_prepared ha

theorem parametersCode_prepared (ha : a.path ∈ files) {type : FuncType} :
    Prepared files (parametersCode p a type) :=
  (fieldsCode_prepared ha).append (optionalFieldsCode_prepared ha)

theorem newNamesCode_prepared (ha : a.path ∈ files) {es : List Expr} :
    Prepared files (newNamesCode p a es) := by
  induction es with
  | nil => trivial
  | cons e es ih =>
    refine Prepared.append ?_ ih
    unfold newNameCode
    split
    · split
      · split
        · exact variableCode_prepared ha
        · trivial
      · trivial
    · trivial

theorem specsCode_prepared (ha : a.path ∈ files) {isConst : Bool} {ss : List Spec} :
    Prepared files (specsCode p a isConst ss) := by
  induction ss with
  | nil => trivial
  | cons s ss ih =>
    cases s with
    | value => exact (namesCode_prepared ha).append ih
    | «import» | type => exact ih

theorem headCode_prepared (ha : a.path ∈ files) {n : Node} : Prepared files (headCode p a n) := by
  have inner : (below a n).path ∈ files := (below_path a n).symm ▸ ha
  unfold headCode
  split
  · exact (functionCode_prepared ha).append
      ((optionalFieldsCode_prepared inner).append (parametersCode_prepared inner))
  · split
    · exact specsCode_prepared ha
    · exact specsCode_prepared ha
    · trivial
  · split
    · exact newNamesCode_prepared ha
    · exact newNamesCode_prepared ha
    · trivial
  · split
    · exact (functionCode_prepared ha).append (parametersCode_prepared inner)
    · trivial

mutual

theorem outlineCode_prepared (a : Around) (ha : a.path ∈ files) (o : Outline) :
    Prepared files (outlineCode p a o) := by
  cases o with
  | node head children =>
    unfold outlineCode
    exact (headCode_prepared ha).append
      (outlinesCode_prepared (below a head) ((below_path a head).symm ▸ ha) children)
termination_by structural o

theorem outlinesCode_prepared (a : Around) (ha : a.path ∈ files) (os : List Outline) :
    Prepared files (outlinesCode p a os) := by
  cases os with
  | nil => trivial
  | cons o os => exact (outlineCode_prepared a ha o).append (outlinesCode_prepared a ha os)
termination_by structural os

end

end Definitions

/-! ## Allocations -/

namespace Allocation

variable {p : Package} {files : List Path} {items? : Node → Option (List Item)}

/-- Whether an item can be recorded as soon as its file is there. -/
def Ready (item : Item) : Prop := item.Tidy ∧ item.site? = none

theorem prepared_items {a : Around} (ha : a.path ∈ files) {items : List Item}
    (h : ∀ item ∈ items, Ready item) : Prepared files (items.map (.record a)) := by
  induction items with
  | nil => trivial
  | cons item items ih =>
    obtain ⟨tidy, none⟩ := h item List.mem_cons_self
    refine ⟨⟨tidy, ha, fun _ hs => ?_⟩, ih fun i hi => h i (List.mem_cons_of_mem item hi)⟩
    rw [none] at hs
    cases hs

mutual

theorem outlineCode_prepared (h : ∀ n, ∀ items ∈ items? n, ∀ item ∈ items, Ready item) (a : Around)
    (ha : a.path ∈ files) (o : Outline) : Prepared files (outlineCode items? a o) := by
  cases o with
  | node head children =>
    unfold outlineCode
    cases hi : items? head with
    | some items => exact prepared_items ha (h head items hi)
    | none => exact outlinesCode_prepared h a ha children
termination_by structural o

theorem outlinesCode_prepared (h : ∀ n, ∀ items ∈ items? n, ∀ item ∈ items, Ready item) (a : Around)
    (ha : a.path ∈ files) (os : List Outline) : Prepared files (outlinesCode items? a os) := by
  cases os with
  | nil => trivial
  | cons o os => exact (outlineCode_prepared h a ha o).append (outlinesCode_prepared h a ha os)
termination_by structural os

end

theorem made?_ready {n : Node} {items : List Item} (h : made? p n = some items) :
    ∀ item ∈ items, Ready item := by
  unfold made? at h
  split at h
  · split at h
    · cases h
      intro item hi
      obtain ⟨c, -, rfl⟩ := List.mem_map.mp hi
      exact ⟨trivial, rfl⟩
    · cases h
  · cases h

theorem allocItems_ready {span : Span} {builtin : String} {found : Option (String × Int)}
    (h : builtin = "make" ∨ builtin = "new") : ∀ item ∈ allocItems span builtin found, Ready item := by
  intro item hi
  cases found with
  | none => cases hi
  | some found =>
    obtain rfl := List.mem_singleton.mp hi
    exact ⟨h, rfl⟩

theorem sized?_ready {n : Node} {items : List Item} (h : sized? p n = some items) :
    ∀ item ∈ items, Ready item := by
  unfold sized? at h
  split at h
  · split at h
    · cases h
      exact allocItems_ready (.inl rfl)
    · split at h
      · cases h
        exact allocItems_ready (.inr rfl)
      · cases h
  · cases h

end Allocation

/-! ## Depths -/

namespace Plan.AccessNote

theorem uncertainty_after {a n : AccessNote} {operand : Span} {step : Step}
    (h : a.after operand step = some n) (ha : 0 ≤ a.uncertainty) : 0 ≤ n.uncertainty := by
  have via (kind : AccessKind) (depth : Int) {more : Int} (hm : 0 ≤ more) :
      0 ≤ (a.via operand kind depth more).uncertainty := Int.add_nonneg ha hm
  cases step with
  | deref | ref | paren =>
    cases h
    exact via _ _ (by decide)
  | select shape | index shape | slice shape =>
    cases shape with
    | none =>
      cases h
      exact via _ _ (by decide)
    | some shape =>
      cases shape <;> first | cases h; exact via _ _ (by decide) | cases h

theorem uncertainty_of_bind {access : Option AccessNote} {operand : Span} {step : Step}
    {n : AccessNote} (ha : ∀ a ∈ access, 0 ≤ a.uncertainty)
    (h : access.bind (·.after operand step) = some n) : 0 ≤ n.uncertainty := by
  obtain ⟨a, hx, hn⟩ := Option.bind_eq_some_iff.mp h
  exact uncertainty_after hn (ha a hx)

end Plan.AccessNote

section

variable (p : Package) (root path : Path)

theorem Package.uncertainty_of_member {x : Expr} {sel : Ident} {n : AccessNote}
    (h : p.memberAccess? root x sel = some n) : 0 ≤ n.uncertainty := by
  unfold Package.memberAccess? at h
  split at h
  · split at h
    · cases h
      exact Int.le_refl 0
    · cases h
  · cases h

mutual

theorem Expr.uncertainty_nonneg (e : Expr) : ∀ n ∈ e.access? p root path, 0 ≤ n.uncertainty := by
  cases e with
  | mk span type node =>
    intro n hn
    exact ExprNode.uncertainty_nonneg span node n hn
termination_by structural e

theorem ExprNode.uncertainty_nonneg (span : Span) (node : ExprNode) :
    ∀ n ∈ node.access? p root path span, 0 ≤ n.uncertainty := by
  intro n hn
  cases node with
  | ident name object =>
    unfold ExprNode.access? at hn
    split at hn
    · split at hn
      · cases hn
        exact Int.le_refl 0
      · cases hn
    · cases hn
  | call =>
    cases hn
    exact Int.le_refl 0
  | paren x | star x | index x | slice x =>
    exact Plan.AccessNote.uncertainty_of_bind (x.uncertainty_nonneg) hn
  | unary op x =>
    have operand := x.uncertainty_nonneg
    cases op <;> first
      | exact Plan.AccessNote.uncertainty_of_bind operand hn
      | cases hn
  | selector x sel =>
    have operand := x.uncertainty_nonneg
    unfold ExprNode.access? at hn
    split at hn
    · split at hn
      · split at hn
        · split at hn
          · exact p.uncertainty_of_member root hn
          · exact Plan.AccessNote.uncertainty_after hn (operand _ ‹_›)
        · exact p.uncertainty_of_member root hn
      · cases hn
    · cases hn
  | _ => cases hn
termination_by structural node

end

end

namespace Depth

variable {p : Package} {files : List Path}

theorem exprCode_prepared {a : Around} {span : Span} {kind : ExprKind} {type : Option TypeRef}
    {detail : ExprNote} {access : Option AccessNote} (ha : a.path ∈ files)
    (hd : ∀ site ∈ detail.site?, site.file ∈ files) (hu : ∀ n ∈ access, 0 ≤ n.uncertainty) :
    Prepared files (exprCode p a span kind type detail access) := by
  have tidy : (Item.expr kind span detail access).Tidy := by
    cases access with
    | none => trivial
    | some n => exact hu n rfl
  exact ⟨⟨tidy, ha, hd⟩, trivial⟩

theorem switchCases_first {cases : List (Int × Stmt)} {c : SwitchCase × Option TypeRef}
    (h : c ∈ switchCasesOf cases) : ∃ s, (c.1.clause, s) ∈ cases := by
  induction cases with
  | nil => cases h
  | cons x rest ih =>
    obtain ⟨clause, s⟩ := x
    cases s with
    | caseClause span list body =>
      obtain h | h := List.mem_append.mp h
      · obtain ⟨y, -, rfl⟩ := List.mem_map.mp h
        exact ⟨_, List.mem_cons_self⟩
      · obtain ⟨s, hs⟩ := ih h
        exact ⟨s, List.mem_cons_of_mem _ hs⟩
    | _ =>
      obtain ⟨s, hs⟩ := ih h
      exact ⟨s, List.mem_cons_of_mem _ hs⟩

/-- No two types of a type switch are at one position of one clause. -/
theorem switchCases_nodup {cases : List (Int × Stmt)} (h : (cases.map (·.1)).Nodup) :
    (((switchCasesOf cases).map (·.1)).map fun c => (c.clause, c.position)).Nodup := by
  induction cases with
  | nil => exact .nil
  | cons x rest ih =>
    obtain ⟨clause, s⟩ := x
    obtain ⟨new, others⟩ := List.nodup_cons.mp h
    cases s with
    | caseClause span list body =>
      unfold switchCasesOf
      rw [List.map_append, List.map_append]
      refine List.Nodup.append ?_ (ih others) fun key left right => ?_
      · have keys : ((clauseCases clause list).map (·.1)).map (fun c => (c.clause, c.position)) =
            (numbered 0 list).map fun x => (clause, x.1) := by
          simp [clauseCases, Function.comp_def]
        rw [keys]
        exact nodup_map_of_key (numbered_nodup 0 list) fun x y he => (Prod.mk.inj he).2
      · simp only [List.mem_map] at left right
        obtain ⟨_, ⟨c, hc, rfl⟩, rfl⟩ := left
        obtain ⟨_, ⟨c', hc', rfl⟩, he⟩ := right
        obtain ⟨y, -, rfl⟩ := List.mem_map.mp hc
        obtain ⟨s', hs'⟩ := switchCases_first hc'
        refine new (List.mem_map.mpr ⟨_, hs', ?_⟩)
        exact (Prod.mk.inj he).1
    | _ => exact ih others

theorem stmtNote_tidy (s : Stmt) (span : Span) :
    (Item.stmt (stmtNote s).1 span (stmtNote s).2.1).Tidy := by
  cases s with
  | typeSwitch span' init assign body =>
    cases hg : guardOf assign with
    | none => simp [stmtNote, hg, Item.Tidy]
    | some g =>
      obtain ⟨bound, assertion⟩ := g
      simp only [stmtNote, hg]
      exact switchCases_nodup (numbered_nodup 0 body.stmts)
  | _ => trivial

theorem site_of_exprNote (p : Package) (root : Path) (e : Expr) :
    (exprNote p root e).2.1.site? = mentioned p root e := by
  obtain ⟨span, type, node⟩ := e
  cases node <;> rfl

theorem mem_of_mention {site : Option SourceSite} {path : Path} (hp : path ∈ files) :
    path ∈ (site.map (·.file)).toList ++ files := List.mem_append_right _ hp

theorem site_mem {site : Option SourceSite} :
    ∀ x ∈ site, x.file ∈ (site.map (·.file)).toList ++ files := by
  rintro x rfl
  simp

theorem code_prepared (p : Package) (root : Path) (m : Mark) (ha : m.around.path ∈ files) :
    Prepared files (m.code p root) := by
  cases m with
  | expr a e =>
    unfold Mark.code
    simp only [List.append_assoc]
    refine (Plan.prepared_mention _).mpr ((Plan.prepared_types p.types id _).mpr ?_)
    refine exprCode_prepared (mem_of_mention ha) ?_ (e.uncertainty_nonneg p root a.path)
    rw [site_of_exprNote]
    exact site_mem
  | name a i =>
    unfold Mark.code nameCode
    exact (Plan.prepared_mention _).mpr
      (exprCode_prepared (mem_of_mention ha) site_mem fun _ hn => nomatch hn)
  | literal a l | signature a span type =>
    exact exprCode_prepared ha (fun _ hs => nomatch hs) fun _ hn => nomatch hn
  | block a span => exact ⟨⟨trivial, ha, fun _ hs => nomatch hs⟩, trivial⟩
  | stmt a s =>
    unfold Mark.code
    refine (Plan.prepared_types p.types id _).mpr ?_
    exact ⟨⟨stmtNote_tidy s s.span, ha, fun _ hs => nomatch hs⟩, trivial⟩

end Depth

/-! ## Packages -/

namespace SourceFile

variable (p : Package) (f : SourceFile)

theorem definitionsCode_prepared : Prepared [] (f.definitionsCode p) :=
  Definitions.outlinesCode_prepared (.top f.path) List.mem_cons_self f.outlines

theorem depthCode_prepared (root : Path) : Prepared [] (f.depthCode p root) := by
  refine Plan.prepared_file.mpr (Plan.prepared_flatMap fun m hm => ?_)
  exact Depth.code_prepared p root m (f.marks_inFile p m hm ▸ List.mem_cons_self)

theorem containersCode_prepared : Prepared [] (f.containersCode p) :=
  Allocation.outlinesCode_prepared (fun _ _ h => Allocation.made?_ready h) (.top f.path)
    List.mem_cons_self f.outlines

theorem sizesCode_prepared : Prepared [] (f.sizesCode p) :=
  Allocation.outlinesCode_prepared (fun _ _ h => Allocation.sized?_ready h) (.top f.path)
    List.mem_cons_self f.outlines

end SourceFile

theorem Package.code_prepared (p : Package) (root : Path) (m : Mode) :
    Prepared [] (p.code root m) := by
  refine Plan.prepared_flatMap fun code hc => Plan.prepared_flatMap fun f _ => ?_
  cases m with
  | defs =>
    obtain rfl := List.mem_singleton.mp hc
    exact f.definitionsCode_prepared p
  | depth =>
    obtain rfl := List.mem_singleton.mp hc
    exact f.depthCode_prepared p root
  | all =>
    simp only [Mode.codes, List.mem_cons, List.not_mem_nil, or_false] at hc
    obtain rfl | rfl := hc
    · exact f.definitionsCode_prepared p
    · exact f.depthCode_prepared p root
  | make =>
    obtain rfl := List.mem_singleton.mp hc
    exact f.containersCode_prepared p
  | allocSizes =>
    obtain rfl := List.mem_singleton.mp hc
    exact f.sizesCode_prepared p

end AccessDepth
