import AccessDepth.Package.Export
import AccessDepth.Proofs.Codec.Tables

/-!
# AccessDepth.Proofs.Codec.Tree

The exchanged form of syntax trees loses nothing.

* `Expr.kept`, `Stmt.kept`, … — a node is written plainly, and is read back at every level above the
  depth of what is written. By recursion over the syntax.
* `FuncDecl.codec`, `Decl.codec`, `SourceFile.codec`, `Package.codec` — the same of what holds trees.
-/

namespace AccessDepth

open Json (Codec Kept slots_obj formSlots_obj isPlain_ofOption isPlain_ofList codec_uint32 codec_term
  membersPlain membersDepth)

/-! ## Leaves -/

theorem LitKind.namesApart : Json.NamesApart LitKind := by
  intro x
  cases x <;> decide

theorem DeclToken.namesApart : Json.NamesApart DeclToken := by
  intro x
  cases x <;> decide

theorem AssignOp.namesApart : Json.NamesApart AssignOp := by
  intro x
  cases x <;> decide

theorem BranchToken.namesApart : Json.NamesApart BranchToken := by
  intro x
  cases x <;> decide

theorem UnaryOp.namesApart : Json.NamesApart UnaryOp := by
  intro x
  cases x <;> decide

attribute [simp] codec_uint32 isPlain_ofOption isPlain_ofList Codec.option Codec.list

@[simp] theorem Span.isPlain_toJson (s : Span) : s.toJson.isPlain = true := s.codec.plain

@[simp] theorem Span.ofJson?_toJson (s : Span) : ofJson? s.toJson = some s := s.codec.read

attribute [simp] Span.codec

@[simp] theorem Ident.codec (i : Ident) : Codec toJson ofJson? i := by
  refine .record rfl (by simp [membersPlain]) ?_
  rw [ofJson?, slots_obj rfl (by decide)]
  simp -implicitDefEqProofs [Json.required]

@[simp] theorem Ident.isPlain_toJson (i : Ident) : i.toJson.isPlain = true := i.codec.plain

@[simp] theorem Ident.ofJson?_toJson (i : Ident) : ofJson? i.toJson = some i := i.codec.read

@[simp] theorem BasicLit.codec (l : BasicLit) : Codec toJson ofJson? l := by
  refine .record rfl (by simp [membersPlain, (codec_term LitKind.namesApart _).plain]) ?_
  rw [ofJson?, slots_obj rfl (by decide)]
  simp -implicitDefEqProofs [Json.required, (codec_term LitKind.namesApart _).read]

@[simp] theorem BasicLit.isPlain_toJson (l : BasicLit) : l.toJson.isPlain = true := l.codec.plain

@[simp] theorem BasicLit.ofJson?_toJson (l : BasicLit) : ofJson? l.toJson = some l := l.codec.read

/-! ## Nodes -/

theorem Expr.toJson_ne_null (e : Expr) : e.toJson ≠ .null := by
  cases e
  simp [toJson]

theorem FieldList.toJson_ne_null (l : FieldList) : l.toJson ≠ .null := by
  cases l
  simp [toJson]

theorem Stmt.toJson_ne_null (s : Stmt) : s.toJson ≠ .null := by
  cases s <;> simp [toJson, Json.form]

@[simp] theorem Expr.optionToJson_eq (e : Option Expr) : optionToJson e = .ofOption toJson e := by
  cases e <;> rfl

@[simp] theorem FieldList.optionToJson_eq (l : Option FieldList) :
    optionToJson l = .ofOption toJson l := by
  cases l <;> rfl

@[simp] theorem Stmt.optionToJson_eq (s : Option Stmt) : optionToJson s = .ofOption toJson s := by
  cases s <;> rfl

@[simp] theorem Expr.arr_listToJson (es : List Expr) :
    .arr (listToJson es) = Json.ofList toJson es := by
  rw [Json.ofList]
  induction es with
  | nil => rfl
  | cons e es ih => rw [listToJson, List.map_cons, Json.arr.inj ih]

@[simp] theorem Field.arr_listToJson (fs : List Field) :
    .arr (listToJson fs) = Json.ofList toJson fs := by
  rw [Json.ofList]
  induction fs with
  | nil => rfl
  | cons f fs ih => rw [listToJson, List.map_cons, Json.arr.inj ih]

@[simp] theorem Spec.arr_listToJson (ss : List Spec) :
    .arr (listToJson ss) = Json.ofList toJson ss := by
  rw [Json.ofList]
  induction ss with
  | nil => rfl
  | cons s ss ih => rw [listToJson, List.map_cons, Json.arr.inj ih]

@[simp] theorem Stmt.arr_listToJson (ss : List Stmt) :
    .arr (listToJson ss) = Json.ofList toJson ss := by
  rw [Json.ofList]
  induction ss with
  | nil => rfl
  | cons s ss ih => rw [listToJson, List.map_cons, Json.arr.inj ih]

theorem Json.content?_bind {α : Type} (name : String) (content : Json)
    (f : String × Json → Option α) :
    (Json.obj [(name, content)]).content? >>= f = f (name, content) := rfl

variable (o : Json.Origin)

mutual

theorem Expr.kept : ∀ e : Expr, Kept Expr.toJson (Expr.read o) e
  | ⟨span, type, node⟩ => by
    have node' := ExprNode.kept node
    refine .record rfl (by simp [membersPlain, node'.plain]) fun level h => ?_
    simp only [membersDepth] at h
    rw [Expr.read, slots_obj rfl (by decide)]
    simp -implicitDefEqProofs [Json.required, node'.read level (by omega)]
termination_by structural e => e

theorem ExprNode.kept : ∀ n : ExprNode, Kept ExprNode.toJson (ExprNode.read o) n
  | .bad => ⟨rfl, fun level _ => by cases level <;> rfl⟩
  | .ident name object => by
    refine .form rfl (by simp [membersPlain]) fun level h => ?_
    rw [ExprNode.read, if_neg (by simp), Json.content?_bind]
    simp -implicitDefEqProofs only
    rw [formSlots_obj o rfl (by decide)]
    simp -implicitDefEqProofs [Json.required]
  | .ellipsis elt => by
    have elt' := Expr.keptMaybe elt
    refine .form rfl (by simp [membersPlain, elt'.plain]) fun level h => ?_
    simp only [membersDepth, Expr.optionToJson_eq] at h
    rw [ExprNode.read, if_neg (by simp), Json.content?_bind]
    simp -implicitDefEqProofs only
    rw [formSlots_obj o rfl (by decide)]
    simp -implicitDefEqProofs [elt'.read level (by omega)]
  | .basicLit kind value => by
    refine .form rfl ?_ fun level h => ?_
    · simp [membersPlain, (codec_term LitKind.namesApart _).plain]
    rw [ExprNode.read, if_neg (by simp), Json.content?_bind]
    simp -implicitDefEqProofs only
    rw [formSlots_obj o rfl (by decide)]
    simp -implicitDefEqProofs [Json.required, (codec_term LitKind.namesApart _).read]
  | .funcLit type body => by
    have type' := FuncType.kept type
    have body' := Block.kept body
    refine .form rfl (by simp [membersPlain, type'.plain, body'.plain]) fun level h => ?_
    simp only [membersDepth] at h
    rw [ExprNode.read, if_neg (by simp), Json.content?_bind]
    simp -implicitDefEqProofs only
    rw [formSlots_obj o rfl (by decide)]
    simp -implicitDefEqProofs [Json.required, type'.read level (by omega),
      body'.read level (by omega)]
  | .compositeLit type elts => by
    have type' := Expr.keptMaybe type
    have elts' := Expr.keptAll elts
    refine .form rfl (by simp [membersPlain, type'.plain, elts'.plain]) fun level h => ?_
    simp only [membersDepth, Expr.optionToJson_eq, Expr.arr_listToJson] at h
    rw [ExprNode.read, if_neg (by simp), Json.content?_bind]
    simp -implicitDefEqProofs only
    rw [formSlots_obj o rfl (by decide)]
    simp -implicitDefEqProofs [Json.orElse, type'.read level (by omega),
      elts'.read level (by omega)]
  | .paren x => by
    have x' := Expr.kept x
    refine .form rfl (by simp [membersPlain, x'.plain]) fun level h => ?_
    simp only [membersDepth] at h
    rw [ExprNode.read, if_neg (by simp), Json.content?_bind]
    simp -implicitDefEqProofs only
    rw [formSlots_obj o rfl (by decide)]
    simp -implicitDefEqProofs [Json.required, x'.read level (by omega)]
  | .selector x sel => by
    have x' := Expr.kept x
    refine .form rfl (by simp [membersPlain, x'.plain]) fun level h => ?_
    simp only [membersDepth] at h
    rw [ExprNode.read, if_neg (by simp), Json.content?_bind]
    simp -implicitDefEqProofs only
    rw [formSlots_obj o rfl (by decide)]
    simp -implicitDefEqProofs [Json.required, x'.read level (by omega)]
  | .index x index => by
    have x' := Expr.kept x
    have index' := Expr.kept index
    refine .form rfl (by simp [membersPlain, x'.plain, index'.plain]) fun level h => ?_
    simp only [membersDepth] at h
    rw [ExprNode.read, if_neg (by simp), Json.content?_bind]
    simp -implicitDefEqProofs only
    rw [formSlots_obj o rfl (by decide)]
    simp -implicitDefEqProofs [Json.required, x'.read level (by omega),
      index'.read level (by omega)]
  | .indexList x indices => by
    have x' := Expr.kept x
    have indices' := Expr.keptAll indices
    refine .form rfl (by simp [membersPlain, x'.plain, indices'.plain]) fun level h => ?_
    simp only [membersDepth, Expr.arr_listToJson] at h
    rw [ExprNode.read, if_neg (by simp), Json.content?_bind]
    simp -implicitDefEqProofs only
    rw [formSlots_obj o rfl (by decide)]
    simp -implicitDefEqProofs [Json.required, x'.read level (by omega),
      indices'.read level (by omega)]
  | .slice x low high max => by
    have x' := Expr.kept x
    have low' := Expr.keptMaybe low
    have high' := Expr.keptMaybe high
    have max' := Expr.keptMaybe max
    refine .form rfl ?_ fun level h => ?_
    · simp [membersPlain, x'.plain, low'.plain, high'.plain, max'.plain]
    simp only [membersDepth, Expr.optionToJson_eq] at h
    rw [ExprNode.read, if_neg (by simp), Json.content?_bind]
    simp -implicitDefEqProofs only
    rw [formSlots_obj o rfl (by decide)]
    simp -implicitDefEqProofs [Json.required, x'.read level (by omega), low'.read level (by omega),
      high'.read level (by omega), max'.read level (by omega)]
  | .typeAssert x type => by
    have x' := Expr.kept x
    have type' := Expr.keptMaybe type
    refine .form rfl (by simp [membersPlain, x'.plain, type'.plain]) fun level h => ?_
    simp only [membersDepth, Expr.optionToJson_eq] at h
    rw [ExprNode.read, if_neg (by simp), Json.content?_bind]
    simp -implicitDefEqProofs only
    rw [formSlots_obj o rfl (by decide)]
    simp -implicitDefEqProofs [Json.required, x'.read level (by omega), type'.read level (by omega)]
  | .call fn args spread => by
    have fn' := Expr.kept fn
    have args' := Expr.keptAll args
    refine .form rfl (by simp [membersPlain, fn'.plain, args'.plain]) fun level h => ?_
    simp only [membersDepth, Expr.arr_listToJson] at h
    rw [ExprNode.read, if_neg (by simp), Json.content?_bind]
    simp -implicitDefEqProofs only
    rw [formSlots_obj o rfl (by decide)]
    simp -implicitDefEqProofs [Json.required, Json.orElse, fn'.read level (by omega),
      args'.read level (by omega)]
  | .star x => by
    have x' := Expr.kept x
    refine .form rfl (by simp [membersPlain, x'.plain]) fun level h => ?_
    simp only [membersDepth] at h
    rw [ExprNode.read, if_neg (by simp), Json.content?_bind]
    simp -implicitDefEqProofs only
    rw [formSlots_obj o rfl (by decide)]
    simp -implicitDefEqProofs [Json.required, x'.read level (by omega)]
  | .unary op x => by
    have x' := Expr.kept x
    refine .form rfl ?_ fun level h => ?_
    · simp [membersPlain, (codec_term UnaryOp.namesApart _).plain, x'.plain]
    simp only [membersDepth] at h
    rw [ExprNode.read, if_neg (by simp), Json.content?_bind]
    simp -implicitDefEqProofs only
    rw [formSlots_obj o rfl (by decide)]
    simp -implicitDefEqProofs [Json.required, (codec_term UnaryOp.namesApart _).read,
      x'.read level (by omega)]
  | .binary op x y => by
    have x' := Expr.kept x
    have y' := Expr.kept y
    refine .form rfl (by simp [membersPlain, x'.plain, y'.plain]) fun level h => ?_
    simp only [membersDepth] at h
    rw [ExprNode.read, if_neg (by simp), Json.content?_bind]
    simp -implicitDefEqProofs only
    rw [formSlots_obj o rfl (by decide)]
    simp -implicitDefEqProofs [Json.required, x'.read level (by omega), y'.read level (by omega)]
  | .keyValue key value => by
    have key' := Expr.kept key
    have value' := Expr.kept value
    refine .form rfl (by simp [membersPlain, key'.plain, value'.plain]) fun level h => ?_
    simp only [membersDepth] at h
    rw [ExprNode.read, if_neg (by simp), Json.content?_bind]
    simp -implicitDefEqProofs only
    rw [formSlots_obj o rfl (by decide)]
    simp -implicitDefEqProofs [Json.required, key'.read level (by omega),
      value'.read level (by omega)]
  | .arrayType len elt => by
    have len' := Expr.keptMaybe len
    have elt' := Expr.kept elt
    refine .form rfl (by simp [membersPlain, len'.plain, elt'.plain]) fun level h => ?_
    simp only [membersDepth, Expr.optionToJson_eq] at h
    rw [ExprNode.read, if_neg (by simp), Json.content?_bind]
    simp -implicitDefEqProofs only
    rw [formSlots_obj o rfl (by decide)]
    simp -implicitDefEqProofs [Json.required, len'.read level (by omega),
      elt'.read level (by omega)]
  | .structType fields => by
    have fields' := FieldList.kept fields
    refine .form rfl (by simp [membersPlain, fields'.plain]) fun level h => ?_
    simp only [membersDepth] at h
    rw [ExprNode.read, if_neg (by simp), Json.content?_bind]
    simp -implicitDefEqProofs only
    rw [formSlots_obj o rfl (by decide)]
    simp -implicitDefEqProofs [Json.required, fields'.read level (by omega)]
  | .funcType type => by
    have type' := FuncType.kept type
    refine .variant rfl type'.plain fun level h => ?_
    rw [ExprNode.read, if_neg (by cases type; simp [FuncType.toJson]), Json.content?_bind]
    simp -implicitDefEqProofs [type'.read level h]
  | .interfaceType methods => by
    have methods' := FieldList.kept methods
    refine .form rfl (by simp [membersPlain, methods'.plain]) fun level h => ?_
    simp only [membersDepth] at h
    rw [ExprNode.read, if_neg (by simp), Json.content?_bind]
    simp -implicitDefEqProofs only
    rw [formSlots_obj o rfl (by decide)]
    simp -implicitDefEqProofs [Json.required, methods'.read level (by omega)]
  | .mapType key value => by
    have key' := Expr.kept key
    have value' := Expr.kept value
    refine .form rfl (by simp [membersPlain, key'.plain, value'.plain]) fun level h => ?_
    simp only [membersDepth] at h
    rw [ExprNode.read, if_neg (by simp), Json.content?_bind]
    simp -implicitDefEqProofs only
    rw [formSlots_obj o rfl (by decide)]
    simp -implicitDefEqProofs [Json.required, key'.read level (by omega),
      value'.read level (by omega)]
  | .chanType dir value => by
    have value' := Expr.kept value
    refine .form rfl ?_ fun level h => ?_
    · simp [membersPlain, (codec_term ChanDir.namesApart _).plain, value'.plain]
    simp only [membersDepth] at h
    rw [ExprNode.read, if_neg (by simp), Json.content?_bind]
    simp -implicitDefEqProofs only
    rw [formSlots_obj o rfl (by decide)]
    simp -implicitDefEqProofs [Json.required, (codec_term ChanDir.namesApart _).read,
      value'.read level (by omega)]
termination_by structural n => n

theorem Expr.keptMaybe : ∀ e : Option Expr, Kept.Maybe Expr.toJson (Expr.read o) e
  | none => .none
  | some e => .some (Expr.kept e) e.toJson_ne_null
termination_by structural e => e

theorem Expr.keptAll : ∀ es : List Expr, Kept.All Expr.toJson (Expr.read o) es
  | [] => .nil
  | e :: es => .cons (Expr.kept e) (Expr.keptAll es)
termination_by structural es => es

theorem FieldList.kept : ∀ l : FieldList, Kept FieldList.toJson (FieldList.read o) l
  | ⟨span, fields⟩ => by
    have fields' := Field.keptAll fields
    refine .record rfl (by simp [membersPlain, fields'.plain]) fun level h => ?_
    simp only [membersDepth, Field.arr_listToJson] at h
    rw [FieldList.read, slots_obj rfl (by decide)]
    simp -implicitDefEqProofs [Json.required, fields'.read level (by omega)]
termination_by structural l => l

theorem FieldList.keptMaybe : ∀ l : Option FieldList, Kept.Maybe FieldList.toJson (FieldList.read o) l
  | none => .none
  | some l => .some (FieldList.kept l) l.toJson_ne_null
termination_by structural l => l

theorem Field.kept : ∀ f : Field, Kept Field.toJson (Field.read o) f
  | ⟨span, names, type, tag⟩ => by
    have type' := Expr.kept type
    refine .record rfl (by simp [membersPlain, type'.plain]) fun level h => ?_
    simp only [membersDepth] at h
    rw [Field.read, slots_obj rfl (by decide)]
    simp -implicitDefEqProofs [Json.required, Json.orElse, type'.read level (by omega)]
termination_by structural f => f

theorem Field.keptAll : ∀ fs : List Field, Kept.All Field.toJson (Field.read o) fs
  | [] => .nil
  | f :: fs => .cons (Field.kept f) (Field.keptAll fs)
termination_by structural fs => fs

theorem FuncType.kept : ∀ t : FuncType, Kept FuncType.toJson (FuncType.read o) t
  | ⟨span, typeParams, params, results⟩ => by
    have typeParams' := FieldList.keptMaybe typeParams
    have params' := FieldList.kept params
    have results' := FieldList.keptMaybe results
    refine .record rfl ?_ fun level h => ?_
    · simp [membersPlain, typeParams'.plain, params'.plain, results'.plain]
    simp only [membersDepth, FieldList.optionToJson_eq] at h
    rw [FuncType.read, slots_obj rfl (by decide)]
    simp -implicitDefEqProofs [Json.required, typeParams'.read level (by omega),
      params'.read level (by omega), results'.read level (by omega)]
termination_by structural t => t

theorem Block.kept : ∀ b : Block, Kept Block.toJson (Block.read o) b
  | ⟨span, stmts⟩ => by
    have stmts' := Stmt.keptAll stmts
    refine .record rfl (by simp [membersPlain, stmts'.plain]) fun level h => ?_
    simp only [membersDepth, Stmt.arr_listToJson] at h
    rw [Block.read, slots_obj rfl (by decide)]
    simp -implicitDefEqProofs [Json.required, stmts'.read level (by omega)]
termination_by structural b => b

theorem Spec.kept : ∀ s : Spec, Kept Spec.toJson (Spec.read o) s
  | .import span name path => by
    refine .form rfl (by simp [membersPlain]) fun level h => ?_
    rw [Spec.read, Json.content?_bind]
    simp -implicitDefEqProofs only
    rw [formSlots_obj o rfl (by decide)]
    simp -implicitDefEqProofs [Json.required]
  | .value span names type values => by
    have type' := Expr.keptMaybe type
    have values' := Expr.keptAll values
    refine .form rfl (by simp [membersPlain, type'.plain, values'.plain]) fun level h => ?_
    simp only [membersDepth, Expr.optionToJson_eq, Expr.arr_listToJson] at h
    rw [Spec.read, Json.content?_bind]
    simp -implicitDefEqProofs only
    rw [formSlots_obj o rfl (by decide)]
    simp -implicitDefEqProofs [Json.required, Json.orElse, type'.read level (by omega),
      values'.read level (by omega)]
  | .type span name typeParams isAlias type => by
    have typeParams' := FieldList.keptMaybe typeParams
    have type' := Expr.kept type
    refine .form rfl (by simp [membersPlain, typeParams'.plain, type'.plain]) fun level h => ?_
    simp only [membersDepth, FieldList.optionToJson_eq] at h
    rw [Spec.read, Json.content?_bind]
    simp -implicitDefEqProofs only
    rw [formSlots_obj o rfl (by decide)]
    simp -implicitDefEqProofs [Json.required, Json.orElse, typeParams'.read level (by omega),
      type'.read level (by omega)]
termination_by structural s => s

theorem Spec.keptAll : ∀ ss : List Spec, Kept.All Spec.toJson (Spec.read o) ss
  | [] => .nil
  | s :: ss => .cons (Spec.kept s) (Spec.keptAll ss)
termination_by structural ss => ss

theorem GenDecl.kept : ∀ d : GenDecl, Kept GenDecl.toJson (GenDecl.read o) d
  | ⟨span, tok, specs⟩ => by
    have specs' := Spec.keptAll specs
    refine .record rfl ?_ fun level h => ?_
    · simp [membersPlain, (codec_term DeclToken.namesApart _).plain, specs'.plain]
    simp only [membersDepth, Spec.arr_listToJson] at h
    rw [GenDecl.read, slots_obj rfl (by decide)]
    simp -implicitDefEqProofs [Json.required, (codec_term DeclToken.namesApart _).read,
      specs'.read level (by omega)]
termination_by structural d => d

theorem Stmt.kept : ∀ s : Stmt, Kept Stmt.toJson (Stmt.read o) s
  | .bad span => by
    refine .variant rfl (by simp) fun level h => ?_
    rw [Stmt.read, Json.content?_bind]
    simp -implicitDefEqProofs
  | .decl span decl => by
    have decl' := GenDecl.kept decl
    refine .form rfl (by simp [membersPlain, decl'.plain]) fun level h => ?_
    simp only [membersDepth] at h
    rw [Stmt.read, Json.content?_bind]
    simp -implicitDefEqProofs only
    rw [formSlots_obj o rfl (by decide)]
    simp -implicitDefEqProofs [Json.required, decl'.read level (by omega)]
  | .empty span => by
    refine .variant rfl (by simp) fun level h => ?_
    rw [Stmt.read, Json.content?_bind]
    simp -implicitDefEqProofs
  | .labeled span label stmt => by
    have stmt' := Stmt.kept stmt
    refine .form rfl (by simp [membersPlain, stmt'.plain]) fun level h => ?_
    simp only [membersDepth] at h
    rw [Stmt.read, Json.content?_bind]
    simp -implicitDefEqProofs only
    rw [formSlots_obj o rfl (by decide)]
    simp -implicitDefEqProofs [Json.required, stmt'.read level (by omega)]
  | .expr span x => by
    have x' := Expr.kept x
    refine .form rfl (by simp [membersPlain, x'.plain]) fun level h => ?_
    simp only [membersDepth] at h
    rw [Stmt.read, Json.content?_bind]
    simp -implicitDefEqProofs only
    rw [formSlots_obj o rfl (by decide)]
    simp -implicitDefEqProofs [Json.required, x'.read level (by omega)]
  | .send span chan value => by
    have chan' := Expr.kept chan
    have value' := Expr.kept value
    refine .form rfl (by simp [membersPlain, chan'.plain, value'.plain]) fun level h => ?_
    simp only [membersDepth] at h
    rw [Stmt.read, Json.content?_bind]
    simp -implicitDefEqProofs only
    rw [formSlots_obj o rfl (by decide)]
    simp -implicitDefEqProofs [Json.required, chan'.read level (by omega),
      value'.read level (by omega)]
  | .incDec span x inc => by
    have x' := Expr.kept x
    refine .form rfl (by simp [membersPlain, x'.plain]) fun level h => ?_
    simp only [membersDepth] at h
    rw [Stmt.read, Json.content?_bind]
    simp -implicitDefEqProofs only
    rw [formSlots_obj o rfl (by decide)]
    simp -implicitDefEqProofs [Json.required, x'.read level (by omega)]
  | .assign span lhs op rhs => by
    have lhs' := Expr.keptAll lhs
    have rhs' := Expr.keptAll rhs
    refine .form rfl ?_ fun level h => ?_
    · simp [membersPlain, lhs'.plain, (codec_term AssignOp.namesApart _).plain, rhs'.plain]
    simp only [membersDepth, Expr.arr_listToJson] at h
    rw [Stmt.read, Json.content?_bind]
    simp -implicitDefEqProofs only
    rw [formSlots_obj o rfl (by decide)]
    simp -implicitDefEqProofs [Json.required, lhs'.read level (by omega),
      (codec_term AssignOp.namesApart _).read, rhs'.read level (by omega)]
  | .go span call => by
    have call' := Expr.kept call
    refine .form rfl (by simp [membersPlain, call'.plain]) fun level h => ?_
    simp only [membersDepth] at h
    rw [Stmt.read, Json.content?_bind]
    simp -implicitDefEqProofs only
    rw [formSlots_obj o rfl (by decide)]
    simp -implicitDefEqProofs [Json.required, call'.read level (by omega)]
  | .defer span call => by
    have call' := Expr.kept call
    refine .form rfl (by simp [membersPlain, call'.plain]) fun level h => ?_
    simp only [membersDepth] at h
    rw [Stmt.read, Json.content?_bind]
    simp -implicitDefEqProofs only
    rw [formSlots_obj o rfl (by decide)]
    simp -implicitDefEqProofs [Json.required, call'.read level (by omega)]
  | .return span results => by
    have results' := Expr.keptAll results
    refine .form rfl (by simp [membersPlain, results'.plain]) fun level h => ?_
    simp only [membersDepth, Expr.arr_listToJson] at h
    rw [Stmt.read, Json.content?_bind]
    simp -implicitDefEqProofs only
    rw [formSlots_obj o rfl (by decide)]
    simp -implicitDefEqProofs [Json.required, Json.orElse, results'.read level (by omega)]
  | .branch span tok label => by
    refine .form rfl ?_ fun level h => ?_
    · simp [membersPlain, (codec_term BranchToken.namesApart _).plain]
    rw [Stmt.read, Json.content?_bind]
    simp -implicitDefEqProofs only
    rw [formSlots_obj o rfl (by decide)]
    simp -implicitDefEqProofs [Json.required, (codec_term BranchToken.namesApart _).read]
  | .block block => by
    have block' := Block.kept block
    refine .variant rfl block'.plain fun level h => ?_
    rw [Stmt.read, Json.content?_bind]
    simp -implicitDefEqProofs [block'.read level h]
  | .if span init cond body els => by
    have init' := Stmt.keptMaybe init
    have cond' := Expr.kept cond
    have body' := Block.kept body
    have els' := Stmt.keptMaybe els
    refine .form rfl ?_ fun level h => ?_
    · simp [membersPlain, init'.plain, cond'.plain, body'.plain, els'.plain]
    simp only [membersDepth, Stmt.optionToJson_eq] at h
    rw [Stmt.read, Json.content?_bind]
    simp -implicitDefEqProofs only
    rw [formSlots_obj o rfl (by decide)]
    simp -implicitDefEqProofs [Json.required, init'.read level (by omega),
      cond'.read level (by omega), body'.read level (by omega), els'.read level (by omega)]
  | .caseClause span list body => by
    have list' := Expr.keptAll list
    have body' := Stmt.keptAll body
    refine .form rfl (by simp [membersPlain, list'.plain, body'.plain]) fun level h => ?_
    simp only [membersDepth, Expr.arr_listToJson, Stmt.arr_listToJson] at h
    rw [Stmt.read, Json.content?_bind]
    simp -implicitDefEqProofs only
    rw [formSlots_obj o rfl (by decide)]
    simp -implicitDefEqProofs [Json.required, Json.orElse, list'.read level (by omega),
      body'.read level (by omega)]
  | .switch span init tag body => by
    have init' := Stmt.keptMaybe init
    have tag' := Expr.keptMaybe tag
    have body' := Block.kept body
    refine .form rfl ?_ fun level h => ?_
    · simp [membersPlain, init'.plain, tag'.plain, body'.plain]
    simp only [membersDepth, Stmt.optionToJson_eq, Expr.optionToJson_eq] at h
    rw [Stmt.read, Json.content?_bind]
    simp -implicitDefEqProofs only
    rw [formSlots_obj o rfl (by decide)]
    simp -implicitDefEqProofs [Json.required, init'.read level (by omega),
      tag'.read level (by omega), body'.read level (by omega)]
  | .typeSwitch span init assign body => by
    have init' := Stmt.keptMaybe init
    have assign' := Stmt.kept assign
    have body' := Block.kept body
    refine .form rfl ?_ fun level h => ?_
    · simp [membersPlain, init'.plain, assign'.plain, body'.plain]
    simp only [membersDepth, Stmt.optionToJson_eq] at h
    rw [Stmt.read, Json.content?_bind]
    simp -implicitDefEqProofs only
    rw [formSlots_obj o rfl (by decide)]
    simp -implicitDefEqProofs [Json.required, init'.read level (by omega),
      assign'.read level (by omega), body'.read level (by omega)]
  | .commClause span comm body => by
    have comm' := Stmt.keptMaybe comm
    have body' := Stmt.keptAll body
    refine .form rfl (by simp [membersPlain, comm'.plain, body'.plain]) fun level h => ?_
    simp only [membersDepth, Stmt.optionToJson_eq, Stmt.arr_listToJson] at h
    rw [Stmt.read, Json.content?_bind]
    simp -implicitDefEqProofs only
    rw [formSlots_obj o rfl (by decide)]
    simp -implicitDefEqProofs [Json.required, comm'.read level (by omega),
      body'.read level (by omega)]
  | .select span body => by
    have body' := Block.kept body
    refine .form rfl (by simp [membersPlain, body'.plain]) fun level h => ?_
    simp only [membersDepth] at h
    rw [Stmt.read, Json.content?_bind]
    simp -implicitDefEqProofs only
    rw [formSlots_obj o rfl (by decide)]
    simp -implicitDefEqProofs [Json.required, body'.read level (by omega)]
  | .for span init cond post body => by
    have init' := Stmt.keptMaybe init
    have cond' := Expr.keptMaybe cond
    have post' := Stmt.keptMaybe post
    have body' := Block.kept body
    refine .form rfl ?_ fun level h => ?_
    · simp [membersPlain, init'.plain, cond'.plain, post'.plain, body'.plain]
    simp only [membersDepth, Stmt.optionToJson_eq, Expr.optionToJson_eq] at h
    rw [Stmt.read, Json.content?_bind]
    simp -implicitDefEqProofs only
    rw [formSlots_obj o rfl (by decide)]
    simp -implicitDefEqProofs [Json.required, init'.read level (by omega),
      cond'.read level (by omega), post'.read level (by omega), body'.read level (by omega)]
  | .range span key value define x body => by
    have key' := Expr.keptMaybe key
    have value' := Expr.keptMaybe value
    have x' := Expr.kept x
    have body' := Block.kept body
    refine .form rfl ?_ fun level h => ?_
    · simp [membersPlain, key'.plain, value'.plain, x'.plain, body'.plain]
    simp only [membersDepth, Expr.optionToJson_eq] at h
    rw [Stmt.read, Json.content?_bind]
    simp -implicitDefEqProofs only
    rw [formSlots_obj o rfl (by decide)]
    simp -implicitDefEqProofs [Json.required, Json.orElse, key'.read level (by omega),
      value'.read level (by omega), x'.read level (by omega), body'.read level (by omega)]
  | .other span => by
    refine .variant rfl (by simp) fun level h => ?_
    rw [Stmt.read, Json.content?_bind]
    simp -implicitDefEqProofs
termination_by structural s => s

theorem Stmt.keptMaybe : ∀ s : Option Stmt, Kept.Maybe Stmt.toJson (Stmt.read o) s
  | none => .none
  | some s => .some (Stmt.kept s) s.toJson_ne_null
termination_by structural s => s

theorem Stmt.keptAll : ∀ ss : List Stmt, Kept.All Stmt.toJson (Stmt.read o) ss
  | [] => .nil
  | s :: ss => .cons (Stmt.kept s) (Stmt.keptAll ss)
termination_by structural ss => ss

end

/-! ## What holds trees -/

theorem Expr.codec (e : Expr) : Codec toJson (ofJson? o) e :=
  (Expr.kept o e).codec e.toJson_ne_null

theorem Stmt.codec (s : Stmt) : Codec toJson (ofJson? o) s :=
  (Stmt.kept o s).codec s.toJson_ne_null

theorem Spec.codec (s : Spec) : Codec toJson (ofJson? o) s :=
  (Spec.kept o s).codec (by cases s <;> simp [toJson, Json.form])

theorem Block.codec (b : Block) : Codec toJson (ofJson? o) b :=
  (Block.kept o b).codec (by cases b; simp [toJson])

theorem GenDecl.codec (d : GenDecl) : Codec toJson (ofJson? o) d :=
  (GenDecl.kept o d).codec (by cases d; simp [toJson])

theorem FieldList.codec (l : FieldList) : Codec toJson (ofJson? o) l :=
  (FieldList.kept o l).codec l.toJson_ne_null

theorem FuncType.codec (t : FuncType) : Codec toJson (ofJson? o) t :=
  (FuncType.kept o t).codec (by cases t; simp [toJson])

theorem FuncDecl.codec (d : FuncDecl) : Codec toJson (ofJson? o) d := by
  refine .record rfl ?_ ?_
  · simp [membersPlain, isPlain_ofOption fun l _ => (FieldList.codec o l).plain,
      (FuncType.codec o _).plain, isPlain_ofOption fun b _ => (Block.codec o b).plain]
  · rw [ofJson?, slots_obj rfl (by decide)]
    simp -implicitDefEqProofs [Json.required, Codec.option fun l _ => FieldList.codec o l,
      (FuncType.codec o _).read, Codec.option fun b _ => Block.codec o b]

theorem Decl.codec (d : Decl) : Codec toJson (ofJson? o) d := by
  cases d with
  | bad span =>
    refine .record rfl (by simp [membersPlain]) ?_
    rw [ofJson?, Json.content?_bind]
    simp -implicitDefEqProofs
  | func decl =>
    refine .record rfl (by simp [membersPlain, (FuncDecl.codec o decl).plain]) ?_
    rw [ofJson?, Json.content?_bind]
    simp -implicitDefEqProofs [(FuncDecl.codec o decl).read]
  | gen decl =>
    refine .record rfl (by simp [membersPlain, (GenDecl.codec o decl).plain]) ?_
    rw [ofJson?, Json.content?_bind]
    simp -implicitDefEqProofs [(GenDecl.codec o decl).read]

theorem SourceFile.codec (f : SourceFile) : Codec toJson (ofJson? o) f := by
  refine .record rfl ?_ ?_
  · simp [membersPlain, (Path.codec _).plain, isPlain_ofList fun d _ => (Decl.codec o d).plain]
  · rw [ofJson?, slots_obj rfl (by decide)]
    simp -implicitDefEqProofs [Json.required, (Path.codec _).read,
      Codec.list fun d _ => Decl.codec o d]

theorem Diagnostic.codec (d : Diagnostic) : Codec toJson ofJson? d := by
  refine .record rfl ?_ ?_
  · simp [membersPlain, isPlain_ofOption fun f _ => (Path.codec f).plain]
  · rw [ofJson?, slots_obj rfl (by decide)]
    simp [Json.required, Codec.option fun f _ => Path.codec f]

theorem Package.codec (p : Package) : Codec toJson (ofJson? o) p := by
  refine .record rfl ?_ ?_
  · simp [membersPlain, (Path.codec _).plain, isPlain_ofList fun f _ => (SourceFile.codec o f).plain,
      (TypeTable.codec _).plain, (ObjectTable.codec _).plain,
      isPlain_ofList fun d _ => (Diagnostic.codec d).plain]
  · rw [ofJson?, slots_obj rfl (by decide)]
    simp -implicitDefEqProofs [Json.required, Json.orElse, (Path.codec _).read,
      Codec.list fun f _ => SourceFile.codec o f, (TypeTable.codec _).read,
      (ObjectTable.codec _).read, Codec.list fun d _ => Diagnostic.codec d]

end AccessDepth
