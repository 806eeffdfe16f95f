import AccessDepth.Proofs.Plan.Depth
import AccessDepth.Proofs.Plan.Follows

/-!
# AccessDepth.Proofs.Depth.Logic

What holds of the depth pass because it holds of each node.

* `Depth.Logic` — a way to look at the pass: where a scope stands, what is known of an expression that
  was recorded, and that a computation records some nodes. It has one rule for each form of
  computation with which a node is recorded.
* `Logic.expr`, `Logic.stmt`, … — the pass records the nodes of the syntax in order. One for each part
  of the pass, by recursion over the syntax.
-/

namespace AccessDepth

open Plan (Around StmtNote)

theorem Package.typeOfName_eq {w : Scope} {p : Package} (h : w.package = p) (i : Ident) :
    w.typeOfName i = p.typeOfName i := by
  rw [Scope.typeOfName, Scope.object?, h, Package.typeOfName]

namespace Depth

theorem namesPackage_eq {w : Scope} {p : Package} (h : w.package = p) (x : Expr) :
    namesPackage w x = p.isPackageName x := by
  cases h
  rfl

def IsPlain (e : Expr) : Prop :=
  match e.node with
  | .ident .. | .selector .. | .typeAssert .. | .call .. => False
  | _ => True

def inside (w : Scope) (function : Option FunctionId) : Scope :=
  match function with
  | some id => w.enter id
  | none => w

@[simp] theorem inside_package (w : Scope) (function : Option FunctionId) :
    (inside w function).package = w.package := by
  cases function <;> rfl

@[simp] theorem inside_path (w : Scope) (function : Option FunctionId) :
    (inside w function).path = w.path := by
  cases function <;> rfl

@[simp] theorem inside_file (w : Scope) (function : Option FunctionId) :
    (inside w function).file = w.file := by
  cases function <;> rfl

theorem enclosing_inside {w : Scope} {a : Around} {t : Store}
    (h : w.enclosing = a.enclosing t w.file) (position : Position) :
    (inside w (t.functionAt? w.file position)).enclosing =
      (a.enter position).enclosing t w.file := by
  cases hf : t.functionAt? w.file position with
  | none => simp [inside, Around.enter, Around.enclosing, Around.recorded, hf, h]
  | some id =>
    simp [inside, Scope.enter, Around.enter, Around.enclosing, Around.recorded, hf, h,
      List.head?_append]

structure Logic (p : Package) (root : Path) where
  /-- A scope stands at a place. -/
  At : Scope → Around → Session → Prop
  /-- The pass has come from one session to another. -/
  Later : Session → Session → Prop
  /-- What is known of an expression that was recorded. -/
  Tells : Scope → Expr → Recorded → Store → Prop
  /-- A computation records some nodes. Something holds of what it returns and of the store then. -/
  Comes : {α : Type} → List Mark → Analyze α → Session → (α → Store → Prop) → Prop
  later_trans : ∀ {s s' s''}, Later s s' → Later s' s'' → Later s s''
  later_le : ∀ {s s'}, Later s s' → s.store ≤ s'.store
  at_package : ∀ {w a s}, At w a s → w.package = p
  at_later : ∀ {w a s s'}, At w a s → Later s s' → At w a s'
  at_enter : ∀ {w a s}, At w a s → ∀ position,
    At (inside w (s.store.functionAt? w.file position)) (a.enter position) s
  tells_id : ∀ {w e r t}, Tells w e r t → t.exprAt? w.file e.span = some r.id
  tells_later : ∀ {w e r s s'}, Tells w e r s.store → Later s s' → Tells w e r s'.store
  pure : ∀ {α w a s} {x : α} {post : α → Store → Prop}, At w a s → post x s.store →
    Comes [] (Pure.pure x) s post
  bind : ∀ {α β s marks marks'} {x : Analyze α} {f : α → Analyze β} {mid : α → Store → Prop}
    {post : β → Store → Prop}, Comes marks x s mid →
    (∀ y s', Later s s' → mid y s'.store → Comes marks' (f y) s' post) →
      Comes (marks ++ marks') (x >>= f) s post
  look : ∀ {α s marks} {f : Session → Analyze α} {post : α → Store → Prop},
    Comes marks (f s) s post → Comes marks (get >>= f) s post
  nameRow : ∀ {w a s}, At w a s → ∀ i, Comes [.name a i] (ident w i) s fun _ _ => True
  literalRow : ∀ {w a s}, At w a s → ∀ l, Comes [.literal a l] (basicLit w l) s fun _ _ => True
  signatureRow : ∀ {w a s}, At w a s → ∀ span type,
    Comes [.signature a span type] (addExpr w span type .funcType .none none) s fun _ _ => True
  blockRow : ∀ {w a s}, At w a s → ∀ span,
    Comes [.block a span] (addStmt w .block span .none) s fun _ _ => True
  stmtRow : ∀ {w a s st kind note detail}, At w a s → stmtNote st = (kind, note, []) →
    note.detail? s.store w.file [] = some detail →
      Comes [.stmt a st] (addStmt w kind st.span detail) s fun _ _ => True
  switchRow : ∀ {w a s span init assign body bound assertion id}, At w a s →
    guardOf assign = some (bound, assertion) → s.store.exprAt? w.file assertion = some id →
      Comes [.stmt a (.typeSwitch span init assign body)]
        (switchCases w (numbered 0 body.stmts) >>= fun cases =>
          addStmt w .typeSwitch span (.typeSwitch bound id cases)) s fun _ _ => True
  plainRow : ∀ {w a s e}, At w a s → IsPlain e → e.access? p root a.path = none →
    Comes [.expr a e] (Depth.plain w ⟨e.span, e.type⟩ e.node.kind) s (Tells w e)
  extendRow : ∀ {w a s e x base step}, At w a s → Tells w x base s.store → IsPlain e →
    e.access? p root a.path = (x.access? p root a.path).bind (·.after x.span step) →
      Comes [.expr a e] (Depth.extend w ⟨e.span, e.type⟩ e.node.kind base step) s (Tells w e)
  operandRow : ∀ {w a s span type}, At w a s → ∀ name object,
    Comes [.expr a ⟨span, type, .ident name object⟩] (nameOperand w ⟨span, type⟩ name object) s
      (Tells w ⟨span, type, .ident name object⟩)
  selectorRow : ∀ {w a s span type x sel base}, At w a s → Tells w x base s.store →
    Comes [.name a sel, .expr a ⟨span, type, .selector x sel⟩]
      (ident w sel >>= fun _ => selectorAccess w x base sel >>= fun access =>
        addExpr w span type .selector (.selector base.id sel.name) access) s
      (Tells w ⟨span, type, .selector x sel⟩)
  assertRow : ∀ {w a s span type x target base}, At w a s → Tells w x base s.store →
    Comes [.expr a ⟨span, type, .typeAssert x target⟩]
      (w.typeId (target.bind (·.type)) >>= fun targetId =>
        addExpr w span type .typeAssert (.typeAssert base.id targetId) none) s
      (Tells w ⟨span, type, .typeAssert x target⟩)
  callRow : ∀ {w a s span type fn args spread function ids}, At w a s → Tells w fn function s.store →
    s.store.exprsAt? w.file (args.map (·.span)) = some ids →
      Comes [.expr a ⟨span, type, .call fn args spread⟩]
        (addExpr w span type .call (.call function.id ids) (some ⟨.functionCall, none, .call⟩)) s
        (Tells w ⟨span, type, .call fn args spread⟩)

def Binds (w : Scope) (guard : Option (Option String × Span)) (b : Option Binding) (t : Store) :
    Prop :=
  match guard with
  | none => b = none
  | some (bound, span) => ∃ id, b = some ⟨bound, id⟩ ∧ t.exprAt? w.file span = some id

theorem Binds.of_le {w : Scope} {guard : Option (Option String × Span)} {b : Option Binding}
    {s t : Store} (h : Binds w guard b s) (hle : s ≤ t) : Binds w guard b t := by
  unfold Binds at h ⊢
  split at h
  · exact h
  · obtain ⟨id, hb, hid⟩ := h
    exact ⟨id, hb, Store.exprAt?_of_le hle hid⟩

theorem binds_assign {w : Scope} {t : Store} {span : Span} {lhs rhs : List Expr} {op : AssignOp}
    {right : List ExprId} (h : t.exprsAt? w.file (rhs.map (·.span)) = some right) :
    Binds w (guardOf (.assign span lhs op rhs))
      (right.head?.map fun id => ⟨lhs.head?.bind Expr.identName?, id⟩) t := by
  cases rhs with
  | nil =>
    cases h
    rfl
  | cons x rhs =>
    obtain ⟨id, rest, rfl, hid, -⟩ := Store.exprsAt?_cons_inv h
    exact ⟨id, rfl, hid⟩

namespace Logic

variable {p : Package} {root : Path} (L : Logic p root)

/-- A part of the pass records some nodes, wherever a scope stands at their place. -/
def Does {α : Type} (w : Scope) (a : Around) (marks : List Mark) (x : Analyze α)
    (post : α → Store → Prop) : Prop :=
  ∀ s, L.At w a s → L.Comes marks x s post

variable {L} {α β : Type} {w : Scope} {a : Around} {s : Session} {marks marks' : List Mark}

theorem Does.bind {x : Analyze α} {f : α → Analyze β} {mid : α → Store → Prop}
    {post : β → Store → Prop} (h : L.Does w a marks x mid) (here : L.At w a s)
    (hf : ∀ y s', L.At w a s' → L.Later s s' → mid y s'.store → L.Comes marks' (f y) s' post) :
    L.Comes (marks ++ marks') (x >>= f) s post :=
  L.bind (h s here) fun y s' later hm => hf y s' (L.at_later here later) later hm

theorem Does.discard {x : Analyze α} {mid : α → Store → Prop} (h : L.Does w a marks x mid) :
    L.Does w a marks (x >>= fun _ => Pure.pure ()) fun _ _ => True := by
  intro s here
  have both : L.Comes (marks ++ []) (x >>= fun _ => Pure.pure ()) s fun _ _ => True :=
    h.bind here fun _ s' here' _ _ => L.pure here' trivial
  rwa [List.append_nil] at both

theorem does_nil {post : Unit → Store → Prop} (hp : ∀ t, post () t) :
    L.Does w a [] (Pure.pure ()) post :=
  fun s here => L.pure here (hp s.store)

theorem unbound {st : Stmt} {kind : StmtKind} {note : StmtNote} {detail : StmtDetail}
    (here : L.At w a s) (hn : stmtNote st = (kind, note, [])) (hg : guardOf st = none)
    (hd : note.detail? s.store w.file [] = some detail) :
    L.Comes [.stmt a st] (Depth.unbound w kind st.span detail) s
      (Binds w (guardOf st)) := by
  rw [hg]
  have both : L.Comes ([.stmt a st] ++ []) (Depth.unbound w kind st.span detail) s
      (Binds w none) :=
    L.bind (L.stmtRow here hn hd) fun _ s' later _ => L.pure (L.at_later here later) rfl
  exact both

/-! ## Names -/

variable (L)

theorem names (w : Scope) (a : Around) (is : List Ident) :
    L.Does w a (nameMarks a is) (idents w is) fun _ _ => True := by
  induction is with
  | nil => exact does_nil fun _ => trivial
  | cons i is ih =>
    intro s here
    exact L.bind (L.nameRow here i) fun _ s₁ later _ => ih s₁ (L.at_later here later)

theorem optionalName (w : Scope) (a : Around) (i : Option Ident) :
    L.Does w a (optionalNameMarks a i) (optionalIdent w i) fun _ _ => True := by
  cases i with
  | none => exact does_nil fun _ => trivial
  | some i => exact fun s here => L.nameRow here i

theorem optionalLiteral (w : Scope) (a : Around) (l : Option BasicLit) :
    L.Does w a (optionalLiteralMarks a l) (optionalBasicLit w l) fun _ _ => True := by
  cases l with
  | none => exact does_nil fun _ => trivial
  | some l => exact fun s here => L.literalRow here l

/-! ## Nodes -/

mutual

theorem expr (w : Scope) (a : Around) (e : Expr) :
    L.Does w a (exprMarks a e) (Depth.expr w e) (L.Tells w e) := by
  obtain ⟨span, type, node⟩ := e
  unfold exprMarks Depth.expr
  exact exprNode w a span type node
termination_by structural e

theorem exprNode (w : Scope) (a : Around) (span : Span) (type : Option TypeRef) (node : ExprNode) :
    L.Does w a (nodeMarks a span type node ++ [.expr a ⟨span, type, node⟩])
      (Depth.exprNode w ⟨span, type⟩ node) (L.Tells w ⟨span, type, node⟩) := by
  intro s here
  cases node with
  | bad => exact L.plainRow here trivial rfl
  | ident name object => exact L.operandRow here name object
  | ellipsis elt =>
    refine (optionalExpr w a elt).bind here fun _ s₁ here₁ _ _ => ?_
    exact L.plainRow here₁ trivial rfl
  | basicLit kind value => exact L.plainRow here trivial rfl
  | funcLit signature body =>
    unfold nodeMarks Depth.exprNode
    simp only [List.append_assoc]
    refine L.look ?_
    have inner := L.at_enter here span.start
    refine (funcType _ _ signature).bind inner fun _ s₁ inner₁ l₁ _ => ?_
    refine L.bind (L.signatureRow inner₁ signature.span type) fun _ s₂ l₂ _ => ?_
    have inner₂ := L.at_later inner₁ l₂
    refine (block _ _ body).bind inner₂ fun _ s₃ _ l₃ _ => ?_
    have here₃ := L.at_later here (L.later_trans l₁ (L.later_trans l₂ l₃))
    exact L.plainRow here₃ trivial rfl
  | compositeLit type elts =>
    unfold nodeMarks Depth.exprNode
    simp only [List.append_assoc]
    refine (optionalExpr w a type).bind here fun _ s₁ here₁ _ _ => ?_
    refine (exprs w a elts).bind here₁ fun _ s₂ here₂ _ _ => ?_
    exact L.plainRow here₂ trivial rfl
  | paren x =>
    refine (expr w a x).bind here fun base s₁ here₁ _ hb => ?_
    exact L.extendRow here₁ hb trivial rfl
  | selector x sel =>
    unfold nodeMarks Depth.exprNode
    simp only [List.append_assoc]
    refine (expr w a x).bind here fun base s₁ here₁ _ hb => ?_
    exact L.selectorRow here₁ hb
  | index x index =>
    unfold nodeMarks Depth.exprNode
    simp only [List.append_assoc]
    refine (expr w a x).bind here fun base s₁ here₁ _ hb => ?_
    refine (expr w a index).bind here₁ fun _ s₂ here₂ l₂ _ => ?_
    refine L.extendRow here₂ (L.tells_later hb l₂) trivial ?_
    rw [L.at_package here]
    rfl
  | indexList x indices =>
    unfold nodeMarks Depth.exprNode
    simp only [List.append_assoc]
    refine (expr w a x).bind here fun _ s₁ here₁ _ _ => ?_
    refine (exprs w a indices).bind here₁ fun _ s₂ here₂ _ _ => ?_
    exact L.plainRow here₂ trivial rfl
  | slice x low high max =>
    unfold nodeMarks Depth.exprNode
    simp only [List.append_assoc]
    refine (expr w a x).bind here fun base s₁ here₁ _ hb => ?_
    refine (optionalExpr w a low).bind here₁ fun _ s₂ here₂ l₂ _ => ?_
    refine (optionalExpr w a high).bind here₂ fun _ s₃ here₃ l₃ _ => ?_
    refine (optionalExpr w a max).bind here₃ fun _ s₄ here₄ l₄ _ => ?_
    have later := L.later_trans l₂ (L.later_trans l₃ l₄)
    refine L.extendRow here₄ (L.tells_later hb later) trivial ?_
    rw [L.at_package here]
    rfl
  | typeAssert x target =>
    unfold nodeMarks Depth.exprNode
    simp only [List.append_assoc]
    refine (expr w a x).bind here fun base s₁ here₁ _ hb => ?_
    refine (optionalExpr w a target).bind here₁ fun _ s₂ here₂ l₂ _ => ?_
    exact L.assertRow here₂ (L.tells_later hb l₂)
  | call fn args spread =>
    unfold nodeMarks Depth.exprNode
    simp only [List.append_assoc]
    refine (expr w a fn).bind here fun function s₁ here₁ _ hf => ?_
    refine (exprs w a args).bind here₁ fun ids s₂ here₂ l₂ hi => ?_
    exact L.callRow here₂ (L.tells_later hf l₂) hi
  | star x =>
    refine (expr w a x).bind here fun base s₁ here₁ _ hb => ?_
    exact L.extendRow here₁ hb trivial rfl
  | unary op x =>
    refine (expr w a x).bind here fun base s₁ here₁ _ hb => ?_
    cases op with
    | addr | deref => exact L.extendRow here₁ hb trivial rfl
    | _ => exact L.plainRow here₁ trivial rfl
  | binary op x y =>
    unfold nodeMarks Depth.exprNode
    simp only [List.append_assoc]
    refine (expr w a x).bind here fun _ s₁ here₁ _ _ => ?_
    refine (expr w a y).bind here₁ fun _ s₂ here₂ _ _ => ?_
    exact L.plainRow here₂ trivial rfl
  | keyValue key value =>
    unfold nodeMarks Depth.exprNode
    simp only [List.append_assoc]
    refine (expr w a key).bind here fun _ s₁ here₁ _ _ => ?_
    refine (expr w a value).bind here₁ fun _ s₂ here₂ _ _ => ?_
    exact L.plainRow here₂ trivial rfl
  | arrayType len elt =>
    unfold nodeMarks Depth.exprNode
    simp only [List.append_assoc]
    refine (optionalExpr w a len).bind here fun _ s₁ here₁ _ _ => ?_
    refine (expr w a elt).bind here₁ fun _ s₂ here₂ _ _ => ?_
    exact L.plainRow here₂ trivial rfl
  | structType fields =>
    refine (fieldList w a fields).bind here fun _ s₁ here₁ _ _ => ?_
    exact L.plainRow here₁ trivial rfl
  | funcType signature =>
    refine (funcType w a signature).bind here fun _ s₁ here₁ _ _ => ?_
    exact L.plainRow here₁ trivial rfl
  | interfaceType methods =>
    refine (fieldList w a methods).bind here fun _ s₁ here₁ _ _ => ?_
    exact L.plainRow here₁ trivial rfl
  | mapType key value =>
    unfold nodeMarks Depth.exprNode
    simp only [List.append_assoc]
    refine (expr w a key).bind here fun _ s₁ here₁ _ _ => ?_
    refine (expr w a value).bind here₁ fun _ s₂ here₂ _ _ => ?_
    exact L.plainRow here₂ trivial rfl
  | chanType dir value =>
    refine (expr w a value).bind here fun _ s₁ here₁ _ _ => ?_
    exact L.plainRow here₁ trivial rfl
termination_by structural node

theorem optionalExpr (w : Scope) (a : Around) (e : Option Expr) :
    L.Does w a (optionalExprMarks a e) (Depth.optionalExpr w e) fun _ _ => True := by
  cases e with
  | none => exact does_nil fun _ => trivial
  | some e => exact (expr w a e).discard
termination_by structural e

theorem exprs (w : Scope) (a : Around) (es : List Expr) :
    L.Does w a (exprsMarks a es) (Depth.exprs w es)
      fun ids t => t.exprsAt? w.file (es.map (·.span)) = some ids := by
  intro s here
  cases es with
  | nil => exact L.pure here rfl
  | cons e es =>
    unfold exprsMarks Depth.exprs
    refine (expr w a e).bind here fun r s₁ here₁ _ hr => ?_
    rw [← List.append_nil (exprsMarks a es)]
    refine (exprs w a es).bind here₁ fun rest s₂ here₂ l₂ hs => L.pure here₂ ?_
    exact Store.exprsAt?_cons (L.tells_id (L.tells_later hr l₂)) hs
termination_by structural es

theorem fieldList (w : Scope) (a : Around) (l : FieldList) :
    L.Does w a (fieldListMarks a l) (Depth.fieldList w l) fun _ _ => True := by
  obtain ⟨span, fs⟩ := l
  unfold fieldListMarks Depth.fieldList
  exact fields w a fs
termination_by structural l

theorem optionalFieldList (w : Scope) (a : Around) (l : Option FieldList) :
    L.Does w a (optionalFieldListMarks a l) (Depth.optionalFieldList w l) fun _ _ => True := by
  cases l with
  | none => exact does_nil fun _ => trivial
  | some l => exact fieldList w a l
termination_by structural l

theorem fields (w : Scope) (a : Around) (fs : List Field) :
    L.Does w a (fieldsMarks a fs) (Depth.fields w fs) fun _ _ => True := by
  cases fs with
  | nil => exact does_nil fun _ => trivial
  | cons f fs =>
    obtain ⟨span, names, type, tag⟩ := f
    intro s here
    unfold fieldsMarks Depth.fields
    simp only [List.append_assoc]
    refine (L.names w a names).bind here fun _ s₁ here₁ _ _ => ?_
    refine (expr w a type).bind here₁ fun _ s₂ here₂ _ _ => ?_
    refine (L.optionalLiteral w a tag).bind here₂ fun _ s₃ here₃ _ _ => ?_
    exact fields w a fs s₃ here₃
termination_by structural fs

theorem funcType (w : Scope) (a : Around) (t : FuncType) :
    L.Does w a (funcTypeMarks a t) (Depth.funcType w t) fun _ _ => True := by
  obtain ⟨span, typeParams, params, results⟩ := t
  intro s here
  unfold funcTypeMarks Depth.funcType
  simp only [List.append_assoc]
  refine (optionalFieldList w a typeParams).bind here fun _ s₁ here₁ _ _ => ?_
  refine (fieldList w a params).bind here₁ fun _ s₂ here₂ _ _ => ?_
  exact optionalFieldList w a results s₂ here₂
termination_by structural t

theorem block (w : Scope) (a : Around) (b : Block) :
    L.Does w a (blockMarks a b) (Depth.block w b) fun _ _ => True := by
  obtain ⟨span, body⟩ := b
  intro s here
  unfold blockMarks Depth.block
  exact (stmts w a body).bind here fun _ s₁ here₁ _ _ => L.blockRow here₁ span
termination_by structural b

theorem specs (w : Scope) (a : Around) (ss : List Spec) :
    L.Does w a (specsMarks a ss) (Depth.specs w ss) fun _ _ => True := by
  cases ss with
  | nil => exact does_nil fun _ => trivial
  | cons spec ss =>
    intro s here
    cases spec with
    | «import» span name path =>
      unfold specsMarks Depth.specs
      simp only [List.append_assoc]
      refine (L.optionalName w a name).bind here fun _ s₁ here₁ _ _ => ?_
      refine L.bind (L.literalRow here₁ path) fun _ s₂ l₂ _ => ?_
      exact specs w a ss s₂ (L.at_later here₁ l₂)
    | value span names type values =>
      unfold specsMarks Depth.specs
      simp only [List.append_assoc]
      refine (L.names w a names).bind here fun _ s₁ here₁ _ _ => ?_
      refine (optionalExpr w a type).bind here₁ fun _ s₂ here₂ _ _ => ?_
      refine (exprs w a values).bind here₂ fun _ s₃ here₃ _ _ => ?_
      exact specs w a ss s₃ here₃
    | type span name typeParams isAlias type =>
      unfold specsMarks Depth.specs
      simp only [List.append_assoc]
      refine L.bind (L.nameRow here name) fun _ s₁ l₁ _ => ?_
      have here₁ := L.at_later here l₁
      refine (optionalFieldList w a typeParams).bind here₁ fun _ s₂ here₂ _ _ => ?_
      refine (expr w a type).bind here₂ fun _ s₃ here₃ _ _ => ?_
      exact specs w a ss s₃ here₃
termination_by structural ss

theorem genDecl (w : Scope) (a : Around) (d : GenDecl) :
    L.Does w a (genDeclMarks a d) (Depth.genDecl w d) fun _ _ => True := by
  obtain ⟨span, tok, ss⟩ := d
  unfold genDeclMarks Depth.genDecl
  exact specs w a ss
termination_by structural d

theorem stmt (w : Scope) (a : Around) (st : Stmt) :
    L.Does w a (stmtMarks a st) (Depth.stmt w st) (Binds w (guardOf st)) := by
  intro s here
  cases st with
  | bad span => exact unbound here rfl rfl rfl
  | decl span decl =>
    unfold stmtMarks Depth.stmt
    refine (genDecl w a decl).bind here fun _ s₁ here₁ _ _ => ?_
    exact unbound here₁ rfl rfl rfl
  | empty span => exact unbound here rfl rfl rfl
  | labeled span label body =>
    unfold stmtMarks Depth.stmt
    simp only [List.append_assoc]
    refine L.bind (L.nameRow here label) fun _ s₁ l₁ _ => ?_
    refine (stmt w a body).bind (L.at_later here l₁) fun _ s₂ here₂ _ _ => ?_
    exact unbound here₂ rfl rfl rfl
  | expr span x =>
    unfold stmtMarks Depth.stmt
    refine (expr w a x).bind here fun r s₁ here₁ _ hr => ?_
    rw [← List.append_nil [Mark.stmt a _]]
    refine L.bind (L.stmtRow here₁ rfl rfl) fun _ s₂ l₂ _ => ?_
    exact L.pure (L.at_later here₁ l₂) ⟨r.id, rfl, L.tells_id (L.tells_later hr l₂)⟩
  | send span chan value =>
    unfold stmtMarks Depth.stmt
    simp only [List.append_assoc]
    refine (expr w a chan).bind here fun _ s₁ here₁ _ _ => ?_
    refine (expr w a value).bind here₁ fun _ s₂ here₂ _ _ => ?_
    exact unbound here₂ rfl rfl rfl
  | incDec span x inc =>
    unfold stmtMarks Depth.stmt
    refine (expr w a x).bind here fun _ s₁ here₁ _ _ => ?_
    exact unbound here₁ rfl rfl rfl
  | assign span lhs op rhs =>
    unfold stmtMarks Depth.stmt
    simp only [List.append_assoc]
    refine (exprs w a lhs).bind here fun left s₁ here₁ _ hl => ?_
    refine (exprs w a rhs).bind here₁ fun right s₂ here₂ l₂ hr => ?_
    have hd : (StmtNote.assign (lhs.map (·.span)) (rhs.map (·.span))).detail? s₂.store w.file [] =
        some (.assign left right) := by
      refine Option.bind_eq_some_iff.mpr ⟨left, Store.exprsAt?_of_le (L.later_le l₂) hl, ?_⟩
      exact Option.bind_eq_some_iff.mpr ⟨right, hr, rfl⟩
    rw [← List.append_nil [Mark.stmt a _]]
    refine L.bind (L.stmtRow here₂ rfl hd) fun _ s₃ l₃ _ => ?_
    exact L.pure (L.at_later here₂ l₃) (binds_assign (Store.exprsAt?_of_le (L.later_le l₃) hr))
  | go span call =>
    unfold stmtMarks Depth.stmt
    refine (expr w a call).bind here fun _ s₁ here₁ _ _ => ?_
    exact unbound here₁ rfl rfl rfl
  | defer span call =>
    unfold stmtMarks Depth.stmt
    refine (expr w a call).bind here fun r s₁ here₁ _ hr => ?_
    refine unbound here₁ rfl rfl ?_
    exact Option.bind_eq_some_iff.mpr ⟨r.id, L.tells_id hr, rfl⟩
  | «return» span results =>
    unfold stmtMarks Depth.stmt
    refine (exprs w a results).bind here fun ids s₁ here₁ _ hr => ?_
    refine unbound here₁ rfl rfl ?_
    exact Option.bind_eq_some_iff.mpr ⟨ids, hr, rfl⟩
  | branch span tok label =>
    unfold stmtMarks Depth.stmt
    refine (L.optionalName w a label).bind here fun _ s₁ here₁ _ _ => ?_
    exact unbound here₁ rfl rfl rfl
  | block b =>
    unfold stmtMarks Depth.stmt
    rw [← List.append_nil (blockMarks a b)]
    exact (block w a b).bind here fun _ s₁ here₁ _ _ => L.pure here₁ rfl
  | «if» span init cond body els =>
    unfold stmtMarks Depth.stmt
    simp only [List.append_assoc]
    refine (optionalStmt w a init).bind here fun _ s₁ here₁ _ _ => ?_
    refine (expr w a cond).bind here₁ fun _ s₂ here₂ _ _ => ?_
    refine (block w a body).bind here₂ fun _ s₃ here₃ _ _ => ?_
    refine (optionalStmt w a els).bind here₃ fun _ s₄ here₄ _ _ => ?_
    exact unbound here₄ rfl rfl rfl
  | caseClause span list body =>
    unfold stmtMarks Depth.stmt
    simp only [List.append_assoc]
    refine (exprs w a list).bind here fun _ s₁ here₁ _ _ => ?_
    refine (stmts w a body).bind here₁ fun _ s₂ here₂ _ _ => ?_
    exact unbound here₂ rfl rfl rfl
  | «switch» span init tag body =>
    unfold stmtMarks Depth.stmt
    simp only [List.append_assoc]
    refine (optionalStmt w a init).bind here fun _ s₁ here₁ _ _ => ?_
    refine (optionalExpr w a tag).bind here₁ fun _ s₂ here₂ _ _ => ?_
    refine (block w a body).bind here₂ fun _ s₃ here₃ _ _ => ?_
    exact unbound here₃ rfl rfl rfl
  | typeSwitch span init assign body =>
    unfold stmtMarks Depth.stmt
    simp only [List.append_assoc]
    refine (optionalStmt w a init).bind here fun _ s₁ here₁ _ _ => ?_
    refine (stmt w a assign).bind here₁ fun binding s₂ here₂ _ hb => ?_
    refine (block w a body).bind here₂ fun _ s₃ here₃ l₃ _ => ?_
    have hb₃ := hb.of_le (L.later_le l₃)
    cases hg : guardOf assign with
    | none =>
      rw [hg] at hb₃
      cases hb₃
      have hn : stmtNote (.typeSwitch span init assign body) = (.typeSwitch, .none, []) := by
        simp only [stmtNote, hg]
      exact unbound here₃ hn rfl rfl
    | some guard =>
      obtain ⟨bound, assertion⟩ := guard
      rw [hg] at hb₃
      obtain ⟨id, rfl, hid⟩ := hb₃
      have row : L.Comes [.stmt a (.typeSwitch span init assign body)] _ s₃ fun _ _ => True :=
        L.switchRow here₃ hg hid
      have both : L.Comes ([.stmt a (.typeSwitch span init assign body)] ++ [])
          (_ >>= fun _ => Pure.pure none) s₃ (Binds w none) :=
        L.bind row fun _ s₄ l₄ _ => L.pure (L.at_later here₃ l₄) rfl
      rwa [bind_assoc] at both
  | commClause span comm body =>
    unfold stmtMarks Depth.stmt
    simp only [List.append_assoc]
    refine (optionalStmt w a comm).bind here fun _ s₁ here₁ _ _ => ?_
    refine (stmts w a body).bind here₁ fun _ s₂ here₂ _ _ => ?_
    exact unbound here₂ rfl rfl rfl
  | select span body =>
    unfold stmtMarks Depth.stmt
    refine (block w a body).bind here fun _ s₁ here₁ _ _ => ?_
    exact unbound here₁ rfl rfl rfl
  | «for» span init cond post body =>
    unfold stmtMarks Depth.stmt
    simp only [List.append_assoc]
    refine (optionalStmt w a init).bind here fun _ s₁ here₁ _ _ => ?_
    refine (optionalExpr w a cond).bind here₁ fun _ s₂ here₂ _ _ => ?_
    refine (optionalStmt w a post).bind here₂ fun _ s₃ here₃ _ _ => ?_
    refine (block w a body).bind here₃ fun _ s₄ here₄ _ _ => ?_
    exact unbound here₄ rfl rfl rfl
  | range span key value define x body =>
    unfold stmtMarks Depth.stmt
    simp only [List.append_assoc]
    refine (optionalExpr w a key).bind here fun _ s₁ here₁ _ _ => ?_
    refine (optionalExpr w a value).bind here₁ fun _ s₂ here₂ _ _ => ?_
    refine (expr w a x).bind here₂ fun _ s₃ here₃ _ _ => ?_
    refine (block w a body).bind here₃ fun _ s₄ here₄ _ _ => ?_
    exact unbound here₄ rfl rfl rfl
  | other span => exact unbound here rfl rfl rfl
termination_by structural st

theorem optionalStmt (w : Scope) (a : Around) (st : Option Stmt) :
    L.Does w a (optionalStmtMarks a st) (Depth.optionalStmt w st) fun _ _ => True := by
  cases st with
  | none => exact does_nil fun _ => trivial
  | some st => exact (stmt w a st).discard
termination_by structural st

theorem stmts (w : Scope) (a : Around) (ss : List Stmt) :
    L.Does w a (stmtsMarks a ss) (Depth.stmts w ss) fun _ _ => True := by
  cases ss with
  | nil => exact does_nil fun _ => trivial
  | cons st ss =>
    intro s here
    unfold stmtsMarks Depth.stmts
    refine (stmt w a st).bind here fun _ s₁ here₁ _ _ => ?_
    exact stmts w a ss s₁ here₁
termination_by structural ss

end

/-! ## Declarations -/

theorem funcDecl (w : Scope) (path : Path) (d : FuncDecl) :
    L.Does w (.top path) (funcDeclMarks p path d) (Depth.funcDecl w d) fun _ _ => True := by
  intro s here
  unfold funcDeclMarks Depth.funcDecl
  simp only [List.append_assoc]
  refine L.look ?_
  have inner := L.at_enter here d.name.span.start
  refine (L.optionalFieldList _ _ d.recv).bind inner fun _ s₁ inner₁ _ _ => ?_
  refine L.bind (L.nameRow inner₁ d.name) fun _ s₂ l₂ _ => ?_
  have inner₂ := L.at_later inner₁ l₂
  refine (L.funcType _ _ d.type).bind inner₂ fun _ s₃ inner₃ _ _ => ?_
  have type := Package.typeOfName_eq (L.at_package inner₃) d.name
  rw [← type]
  refine L.bind (L.signatureRow inner₃ d.type.span _) fun _ s₄ l₄ _ => ?_
  have inner₄ := L.at_later inner₃ l₄
  cases d.body with
  | none => exact L.pure inner₄ trivial
  | some body => exact L.block _ _ body s₄ inner₄

theorem decls (w : Scope) (path : Path) (ds : List Decl) :
    L.Does w (.top path) (declsMarks p path ds) (Depth.decls w ds) fun _ _ => True := by
  induction ds with
  | nil => exact does_nil fun _ => trivial
  | cons d ds ih =>
    intro s here
    cases d with
    | bad span => exact ih s here
    | func d =>
      exact (L.funcDecl w path d).bind here fun _ s₁ here₁ _ _ => ih s₁ here₁
    | gen d =>
      exact (L.genDecl w (.top path) d).bind here fun _ s₁ here₁ _ _ => ih s₁ here₁

theorem file (w : Scope) (f : SourceFile) :
    L.Does w (.top f.path) (f.marks p) (ident w f.package >>= fun _ => Depth.decls w f.decls)
      fun _ _ => True := by
  intro s here
  refine L.bind (L.nameRow here f.package) fun _ s₁ l₁ _ => ?_
  exact L.decls w f.path f.decls s₁ (L.at_later here l₁)

end Logic
end Depth
end AccessDepth
