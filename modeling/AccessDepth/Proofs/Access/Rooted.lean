import AccessDepth.Proofs.Access
import AccessDepth.Proofs.Depth.Walk

/-!
# AccessDepth.Proofs.Access.Rooted

What an access starts from, and what its steps add up to.

* `AccessKind.depthStep`, `AccessKind.uncertaintyStep` — what an access of a kind adds to the access
  that it goes through.
* `Expr.step?` — the operand of an expression, with the step from the one to the other.
* `Expr.Rooted` — an access goes from its root step by step. So does what `Expr.access?` tells.
* `Expr.chainRoot?` — what stands at the root of an expression.
* `SourceFile.operand_mem` — the operand of a node of a file is a node of the file.
-/

namespace AccessDepth

open Plan (Around AccessNote)

namespace AccessKind

def depthStep : AccessKind → Int
  | .deref | .indirectFieldAccess | .sliceIndex | .mapIndex => 1
  | .ref | .sliceOfArray => -1
  | _ => 0

def uncertaintyStep : AccessKind → Int
  | .unknownFieldAccess | .unknownIndex | .unknownSlice => 1
  | _ => 0

end AccessKind

theorem Step.effect_steps {step : Step} {e : StepEffect} (h : step.effect = some e) :
    e.depth = e.kind.depthStep ∧ e.uncertainty = e.kind.uncertaintyStep := by
  cases step with
  | deref | ref | paren =>
    cases h
    exact ⟨rfl, rfl⟩
  | select shape | index shape | slice shape =>
    cases shape with
    | none =>
      cases h
      exact ⟨rfl, rfl⟩
    | some shape => cases shape <;> cases h <;> exact ⟨rfl, rfl⟩

namespace Plan.AccessNote

variable {a n : AccessNote} {operand : Span} {step : Step}

theorem after_eq (a : AccessNote) (operand : Span) (step : Step) :
    a.after operand step =
      step.effect.map fun e => a.via operand e.kind e.depth e.uncertainty := by
  cases step with
  | deref | ref | paren => rfl
  | select shape | index shape | slice shape =>
    cases shape with
    | none => rfl
    | some shape => cases shape <;> rfl

theorem after_steps (h : a.after operand step = some n) :
    n.inner = some operand ∧ n.baseName = a.baseName ∧ n.base = a.base ∧
      n.depth = a.depth + n.kind.depthStep ∧
      n.uncertainty = a.uncertainty + n.kind.uncertaintyStep := by
  rw [after_eq] at h
  obtain ⟨e, he, rfl⟩ := Option.map_eq_some_iff.mp h
  obtain ⟨depth, uncertainty⟩ := Step.effect_steps he
  exact ⟨rfl, rfl, rfl, by simp [via, depth], by simp [via, uncertainty]⟩

end Plan.AccessNote

/-! ## Accesses from their roots -/

/-- The operand of an expression that an access of the expression goes through, with the step. -/
def Expr.step? (p : Package) (e : Expr) : Option (Expr × Step) :=
  match e.node with
  | .paren x => some (x, .paren)
  | .star x | .unary .deref x => some (x, .deref)
  | .unary .addr x => some (x, .ref)
  | .selector x _ => some (x, .select (p.types.shape x.type))
  | .index x _ => some (x, .index (p.types.shape x.type))
  | .slice x _ _ _ => some (x, .slice (p.types.shape x.type))
  | _ => none

section

variable (p : Package) (root path : Path)

/-- An access goes from its root step by step. -/
inductive Expr.Rooted : Expr → AccessNote → Prop
  | name {span type name object o} : p.objects.get? object = some o → o.kind = .var →
      o.declaredAt path span.start = false →
        Rooted ⟨span, type, .ident name object⟩ (.root name (p.declaration? root object))
  | member {span type x sel} : p.isPackageName x = true →
      Rooted ⟨span, type, .selector x sel⟩ (.member sel.name (p.declaration? root sel.object))
  | call {span type fn args spread} : Rooted ⟨span, type, .call fn args spread⟩ .call
  | step {e x : Expr} {step : Step} {a n : AccessNote} : e.step? p = some (x, step) →
      x.access? p root path = some a → Rooted x a → a.after x.span step = some n → Rooted e n

variable {p root path}

theorem Package.rooted_of_memberAccess {span : Span} {type : Option TypeRef} {x : Expr} {sel : Ident}
    {n : AccessNote} (h : p.memberAccess? root x sel = some n) :
    Expr.Rooted p root path ⟨span, type, .selector x sel⟩ n := by
  unfold Package.memberAccess? at h
  split at h
  · split at h
    · rename_i hx
      cases h
      simp only [Bool.and_eq_true] at hx
      exact .member hx.2
    · cases h
  · cases h

mutual

theorem Expr.rooted_of_access (e : Expr) {n : AccessNote} (h : e.access? p root path = some n) :
    e.Rooted p root path n := by
  obtain ⟨span, type, node⟩ := e
  exact ExprNode.rooted_of_access node h
termination_by structural e

theorem ExprNode.rooted_of_access (node : ExprNode) {span : Span} {type : Option TypeRef}
    {n : AccessNote} (h : node.access? p root path span = some n) :
    Expr.Rooted p root path ⟨span, type, node⟩ n := by
  cases node with
  | ident name object =>
    unfold ExprNode.access? at h
    split at h
    · split at h
      · rename_i o ho hv
        cases h
        simp only [Bool.and_eq_true, decide_eq_true_eq, Bool.not_eq_true'] at hv
        exact .name ho hv.1 hv.2
      · cases h
    · cases h
  | call fn args spread =>
    cases h
    exact .call
  | paren x | star x | index x i | slice x low high max =>
    obtain ⟨a, ha, hn⟩ := Option.bind_eq_some_iff.mp h
    exact .step rfl ha (Expr.rooted_of_access x ha) hn
  | unary op x =>
    cases op with
    | addr | deref =>
      obtain ⟨a, ha, hn⟩ := Option.bind_eq_some_iff.mp h
      exact .step rfl ha (Expr.rooted_of_access x ha) hn
    | neg | pos | not | xor | recv | tilde => cases h
  | selector x sel =>
    unfold ExprNode.access? at h
    split at h
    · split at h
      · split at h
        · split at h
          · exact Package.rooted_of_memberAccess h
          · rename_i a ha _
            exact .step rfl ha (Expr.rooted_of_access x ha) h
        · exact Package.rooted_of_memberAccess h
      · cases h
    · cases h
  | bad | ellipsis | basicLit | funcLit | compositeLit | indexList | typeAssert | binary | keyValue
  | arrayType | structType | funcType | interfaceType | mapType | chanType => cases h
termination_by structural node

end

end

/-! ## Roots -/

inductive ChainRoot where
  | object (name : String) (ref : Option ObjectRef)
  | call

def ChainRoot.Starts (p : Package) (root : Path) : ChainRoot → AccessNote → Prop
  | .object name ref, n => n.baseName = some name ∧ n.base = p.declaration? root ref
  | .call, n => n.baseName = none ∧ n.base = none

mutual

/-- What stands at the root of an expression. -/
def Expr.chainRoot? (p : Package) : Expr → Option ChainRoot
  | ⟨_, _, node⟩ => node.chainRoot? p
termination_by structural e => e

def ExprNode.chainRoot? (p : Package) : ExprNode → Option ChainRoot
  | .ident name object => some (.object name object)
  | .call .. => some .call
  | .paren x | .star x | .unary _ x | .index x _ | .slice x _ _ _ => x.chainRoot? p
  | .selector x sel =>
    if p.isPackageName x then some (.object sel.name sel.object) else x.chainRoot? p
  | _ => none
termination_by structural n => n

end

section

variable {p : Package} {root path : Path} {e : Expr} {n : AccessNote}

theorem AccessKind.uncertaintyStep_nonneg (k : AccessKind) : 0 ≤ k.uncertaintyStep := by
  cases k <;> decide

theorem Expr.Rooted.uncertainty_nonneg (h : e.Rooted p root path n) : 0 ≤ n.uncertainty := by
  induction h with
  | name | member | call => exact Int.le_refl 0
  | step _ _ _ hn ih =>
    obtain ⟨-, -, -, -, added⟩ := AccessNote.after_steps hn
    rw [added]
    exact Int.add_nonneg ih (AccessKind.uncertaintyStep_nonneg _)

theorem Expr.Rooted.of_inner (h : e.Rooted p root path n) (hi : n.inner = none) :
    n.uncertainty = 0 ∧ (n.kind = .ident ∧ (n.depth = 0 ∨ n.depth = 1) ∨ n = .call) := by
  cases h with
  | name => exact ⟨rfl, .inl ⟨rfl, .inl rfl⟩⟩
  | member => exact ⟨rfl, .inl ⟨rfl, .inr rfl⟩⟩
  | call => exact ⟨rfl, .inr rfl⟩
  | step _ _ _ hn =>
    rw [(AccessNote.after_steps hn).1] at hi
    cases hi

theorem Expr.Rooted.isPackageName (h : e.Rooted p root path n) : p.isPackageName e = false := by
  cases h with
  | name ho hv => simp [Package.isPackageName, ho, hv]
  | member | call => rfl
  | step hs =>
    obtain ⟨span, type, node⟩ := e
    cases node <;> first | rfl | cases hs

theorem Expr.chainRoot?_of_step {x : Expr} {step : Step} (h : e.step? p = some (x, step))
    (hx : p.isPackageName x = false) : e.chainRoot? p = x.chainRoot? p := by
  obtain ⟨span, type, node⟩ := e
  cases node with
  | paren | star | index | slice =>
    cases h
    rfl
  | unary op x => cases op <;> cases h <;> rfl
  | selector =>
    cases h
    exact if_neg (by simp [hx])
  | _ => cases h

theorem Expr.Rooted.chainRoot (h : e.Rooted p root path n) :
    ∃ r, e.chainRoot? p = some r ∧ r.Starts p root n := by
  induction h with
  | name => exact ⟨_, rfl, rfl, rfl⟩
  | member hx => exact ⟨_, if_pos hx, rfl, rfl⟩
  | call => exact ⟨_, rfl, rfl, rfl⟩
  | step hs _ hx hn ih =>
    obtain ⟨r, hr, starts⟩ := ih
    obtain ⟨-, name, base, -, -⟩ := AccessNote.after_steps hn
    refine ⟨r, (Expr.chainRoot?_of_step hs hx.isPackageName).trans hr, ?_⟩
    cases r <;> exact ⟨name.trans starts.1, base.trans starts.2⟩

theorem Expr.Rooted.through (h : e.Rooted p root path n) {operand : Span}
    (hi : n.inner = some operand) : ∃ x step a, e.step? p = some (x, step) ∧ x.span = operand ∧
      x.access? p root path = some a ∧ a.after operand step = some n := by
  cases h with
  | name | member | call => cases hi
  | @step _ x step a _ hs ha _ hn =>
    obtain rfl := Option.some.inj ((AccessNote.after_steps hn).1.symm.trans hi)
    exact ⟨x, step, a, hs, rfl, ha, hn⟩

end

/-! ## Operands -/

namespace Depth

def OperandsIn (p : Package) (marks : List Mark) : Prop :=
  ∀ a e, .expr a e ∈ marks → ∀ x step, e.step? p = some (x, step) → .expr a x ∈ marks

theorem mem_exprMarks (a : Around) (e : Expr) : .expr a e ∈ exprMarks a e := by
  obtain ⟨span, type, node⟩ := e
  exact List.mem_append_right _ List.mem_cons_self

theorem mem_nodeMarks_of_step {p : Package} {a : Around} {span : Span} {type : Option TypeRef}
    {node : ExprNode} {x : Expr} {step : Step}
    (h : Expr.step? p ⟨span, type, node⟩ = some (x, step)) :
    .expr a x ∈ nodeMarks a span type node := by
  cases node with
  | paren | star =>
    cases h
    exact mem_exprMarks a _
  | unary op => cases op <;> cases h <;> exact mem_exprMarks a _
  | selector | index =>
    cases h
    exact List.mem_append_left _ (mem_exprMarks a _)
  | slice =>
    cases h
    simp only [nodeMarks, List.append_assoc]
    exact List.mem_append_left _ (mem_exprMarks a _)
  | _ => cases h

theorem operandsIn_composes (p : Package) (path : Path) :
    Composes path fun marks _ _ => OperandsIn p marks where
  nil := by simp [OperandsIn]
  append hm hm' a e he x step hs := by
    obtain he | he := List.mem_append.mp he
    · exact List.mem_append_left _ (hm a e he x step hs)
    · exact List.mem_append_right _ (hm' a e he x step hs)
  part := by
    intro m x _ hx a e he
    obtain rfl := List.mem_singleton.mp he
    cases hx
  expr := by
    intro a e _ hm b y he x step hs
    obtain he | he := List.mem_append.mp he
    · exact List.mem_append_left _ (hm b y he x step hs)
    · cases List.mem_singleton.mp he
      exact List.mem_append_left _ (mem_nodeMarks_of_step hs)
  stmt := by
    intro m s marks _ stands hm b y he x step hs
    obtain he | he := List.mem_append.mp he
    · exact List.mem_append_left _ (hm b y he x step hs)
    · obtain rfl := List.mem_singleton.mp he
      cases stands
  decl _ h := h

end Depth

/-- The operand of a node of a file is a node of the file. -/
theorem SourceFile.operand_mem {p : Package} {f : SourceFile} {a : Around} {e x : Expr} {step : Step}
    (he : .expr a e ∈ f.marks p) (hs : e.step? p = some (x, step)) : .expr a x ∈ f.marks p :=
  (Depth.operandsIn_composes p f.path).file p a e he x step hs

end AccessDepth
