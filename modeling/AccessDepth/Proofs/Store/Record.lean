import AccessDepth.Proofs.Store.Growth

/-!
# AccessDepth.Proofs.Store.Record

What the passes write.

* `recordFile_inserts`, `recordExpr_inserts`, … — each kind of row and its children go to tables of
  their own.
* `fileNamed?_of_recordFile`, `exprAt?_of_recordExpr`, … — what is recorded is found by its key.
* `recordFile_of_found`, `recordExpr_of_found`, … — what is found by its key is not recorded again.
-/

namespace AccessDepth

variable {s s' : Store}

open Transaction (Children ensure_ok ensure_inserts ensure_of_found)

theorem Transaction.children_nil (P : Table → Prop) : Children P [] := by
  intro r hr
  cases hr

theorem Transaction.children_map {α : Type} {P : Table → Prop} {f : α → AnyRow} (xs : List α)
    (h : ∀ x, P (f x).table ∧ (f x).table.isNumbered = false) : Children P (xs.map f) := by
  intro r hr
  obtain ⟨x, -, rfl⟩ := List.mem_map.mp hr
  exact h x

theorem Transaction.Children.append {P : Table → Prop} {rs rs' : List AnyRow} (h : Children P rs)
    (h' : Children P rs') : Children P (rs ++ rs') := by
  intro r hr
  obtain hr | hr := List.mem_append.mp hr
  · exact h r hr
  · exact h' r hr

open Transaction (children_nil children_map)

theorem Transaction.find_of_ensure {t : Table} {find : Store → Option (RowId t)}
    {draft : RowId t → Row t} {children : RowId t → List AnyRow} {id : RowId t} {isNew : Bool}
    {P : Table → Prop} (h : ensure t find draft children s = .ok ((id, isNew), s'))
    (hc : ∀ id, Children P (children id))
    (stable : ∀ s s', s ≤ s' → find s = some id → find s' = some id)
    (found : ∀ s, find s = none → find (s.push t (draft id)) = some id) : find s' = some id := by
  obtain ⟨hf, -, rfl⟩ | ⟨hn, -, -, s₁, h₁, h₂⟩ := ensure_ok h
  · exact hf
  · refine stable s₁ s' (insertAll_inserts (hc id) h₂).le ?_
    rw [Store.eq_push_of_insert h₁]
    exact found s hn

/-! ## Files -/

theorem recordFile_eq (path : Path) (s : Store) :
    recordFile path s =
      match Transaction.ensure .files (·.fileNamed? path.text)
        (fun id => { id := id, path := path.text }) (fun _ => []) s with
      | .ok ((id, _), s') => .ok (id, s')
      | .error v => .error v := by
  unfold recordFile
  simp only [bind, StateT.bind, Except.bind]
  cases Transaction.ensure .files (·.fileNamed? path.text)
    (fun id => { id := id, path := path.text }) (fun _ => []) s <;> rfl

theorem recordFile_ok {path : Path} {id : FileId} (h : recordFile path s = .ok (id, s')) :
    ∃ isNew, Transaction.ensure .files (·.fileNamed? path.text)
      (fun id => { id := id, path := path.text }) (fun _ => []) s = .ok ((id, isNew), s') := by
  rw [recordFile_eq] at h
  split at h
  · rename_i he
    cases h
    exact ⟨_, he⟩
  · cases h

theorem recordFile_inserts {path : Path} {id : FileId} (h : recordFile path s = .ok (id, s')) :
    Inserts (·.owner = .files) s s' := by
  obtain ⟨isNew, h⟩ := recordFile_ok h
  exact ensure_inserts rfl (fun _ => rfl) (fun _ => children_nil _) h

theorem fileNamed?_of_recordFile {path : Path} {id : FileId}
    (h : recordFile path s = .ok (id, s')) : s'.fileNamed? path.text = some id := by
  obtain ⟨isNew, h⟩ := recordFile_ok h
  exact Transaction.find_of_ensure h (fun _ => children_nil (fun _ => True))
    (fun _ _ hle hf => Store.fileNamed?_of_le hle hf) fun _ hn => Store.fileNamed?_push hn

theorem recordFile_of_found {path : Path} {id : FileId} (h : s.fileNamed? path.text = some id) :
    recordFile path s = .ok (id, s) := by
  rw [recordFile_eq, ensure_of_found h]

/-! ## Functions and variables -/

theorem signature_inserted (signature : List SignatureItem) (id : FunctionId) :
    Children (·.owner = .functions) (signature.map fun e => ⟨.functionSigs, e.row id⟩) :=
  children_map _ fun _ => ⟨rfl, rfl⟩

theorem recordFunction_inserts {f : NewFunction} {signature : List SignatureItem}
    {r : FunctionId × Bool} (h : recordFunction f signature s = .ok (r, s')) :
    Inserts (·.owner = .functions) s s' :=
  ensure_inserts rfl (fun _ => rfl) (signature_inserted signature) h

theorem functionAt?_of_recordFunction {f : NewFunction} {signature : List SignatureItem}
    {id : FunctionId} {isNew : Bool} (h : recordFunction f signature s = .ok ((id, isNew), s')) :
    s'.functionAt? f.file f.position = some id :=
  Transaction.find_of_ensure h (signature_inserted signature)
    (fun _ _ hle hf => Store.functionAt?_of_le hle hf) fun _ hn => Store.functionAt?_push hn

theorem recordFunction_of_found {f : NewFunction} {signature : List SignatureItem}
    {id : FunctionId} (h : s.functionAt? f.file f.position = some id) :
    recordFunction f signature s = .ok ((id, false), s) :=
  ensure_of_found h

theorem NewVariable.children_inserted (v : NewVariable) (id : VariableId) :
    Children (·.owner = .variables) (v.children id) := by
  unfold children
  split
  · exact children_nil _
  · intro r hr
    obtain rfl := List.mem_singleton.mp hr
    exact ⟨rfl, rfl⟩

theorem recordVariable_inserts {v : NewVariable} {r : VariableId × Bool}
    (h : recordVariable v s = .ok (r, s')) : Inserts (·.owner = .variables) s s' :=
  ensure_inserts rfl (fun _ => rfl) v.children_inserted h

theorem variableAt?_of_recordVariable {v : NewVariable} {id : VariableId} {isNew : Bool}
    (h : recordVariable v s = .ok ((id, isNew), s')) :
    s'.variableAt? v.file v.position = some id :=
  Transaction.find_of_ensure h v.children_inserted
    (fun _ _ hle hf => Store.variableAt?_of_le hle hf) fun _ hn => Store.variableAt?_push hn

theorem recordVariable_of_found {v : NewVariable} {id : VariableId}
    (h : s.variableAt? v.file v.position = some id) : recordVariable v s = .ok ((id, false), s) :=
  ensure_of_found h

/-! ## Statements and expressions -/

theorem StmtDetail.children_inserted (d : StmtDetail) (id : StmtId) :
    Children (·.owner = .statements) (d.children id) := by
  have operands (side : OperandSide) (exprs : List ExprId) :
      Children (·.owner = .statements) (StmtDetail.operands id side exprs) :=
    children_map _ fun _ => ⟨rfl, rfl⟩
  cases d with
  | none => exact children_nil _
  | assign lhs rhs => exact (operands .left lhs).append (operands .right rhs)
  | «return» results => exact children_map _ fun _ => ⟨rfl, rfl⟩
  | defer call =>
    intro r hr
    obtain rfl := List.mem_singleton.mp hr
    exact ⟨rfl, rfl⟩
  | typeSwitch bound assertion cases =>
    intro r hr
    obtain rfl | hr := List.mem_cons.mp hr
    · exact ⟨rfl, rfl⟩
    · obtain ⟨c, -, rfl⟩ := List.mem_map.mp hr
      exact ⟨rfl, rfl⟩

theorem recordStmt_inserts {n : NewStmt} {detail : StmtDetail} {r : StmtId × Bool}
    (h : recordStmt n detail s = .ok (r, s')) : Inserts (·.owner = .statements) s s' :=
  ensure_inserts rfl (fun _ => rfl) detail.children_inserted h

theorem stmtAt?_of_recordStmt {n : NewStmt} {detail : StmtDetail} {id : StmtId} {isNew : Bool}
    (h : recordStmt n detail s = .ok ((id, isNew), s')) : s'.stmtAt? n.file n.span = some id :=
  Transaction.find_of_ensure h detail.children_inserted
    (fun _ _ hle hf => Store.stmtAt?_of_le hle hf) fun _ hn => Store.stmtAt?_push hn

theorem recordStmt_of_found {n : NewStmt} {detail : StmtDetail} {id : StmtId}
    (h : s.stmtAt? n.file n.span = some id) : recordStmt n detail s = .ok ((id, false), s) :=
  ensure_of_found h

theorem ExprDetail.children_inserted (d : ExprDetail) (id : ExprId) :
    Children (·.owner = .expressions) (d.children id) := by
  cases d with
  | none => exact children_nil _
  | ident | selector | typeAssert =>
    intro r hr
    obtain rfl := List.mem_singleton.mp hr
    exact ⟨rfl, rfl⟩
  | call function args => exact children_map _ fun _ => ⟨rfl, rfl⟩

theorem exprRows_inserted (detail : ExprDetail) (access : Option NewAccess) (id : ExprId) :
    Children (·.owner = .expressions)
      (detail.children id ++ access.toList.map fun a => ⟨.accesses, a.row id⟩) :=
  (detail.children_inserted id).append (children_map _ fun _ => ⟨rfl, rfl⟩)

theorem recordExpr_inserts {n : NewExpr} {detail : ExprDetail} {access : Option NewAccess}
    {r : ExprId × Bool} (h : recordExpr n detail access s = .ok (r, s')) :
    Inserts (·.owner = .expressions) s s' :=
  ensure_inserts rfl (fun _ => rfl) (exprRows_inserted detail access) h

theorem exprAt?_of_recordExpr {n : NewExpr} {detail : ExprDetail} {access : Option NewAccess}
    {id : ExprId} {isNew : Bool} (h : recordExpr n detail access s = .ok ((id, isNew), s')) :
    s'.exprAt? n.file n.span = some id :=
  Transaction.find_of_ensure h (exprRows_inserted detail access)
    (fun _ _ hle hf => Store.exprAt?_of_le hle hf) fun _ hn => Store.exprAt?_push hn

theorem recordExpr_of_found {n : NewExpr} {detail : ExprDetail} {access : Option NewAccess}
    {id : ExprId} (h : s.exprAt? n.file n.span = some id) :
    recordExpr n detail access s = .ok ((id, false), s) :=
  ensure_of_found h

/-! ## Allocation sites -/

theorem recordMakeSite_inserts {n : NewMakeSite} {isNew : Bool}
    (h : recordMakeSite n s = .ok (isNew, s')) : Inserts (·.owner = .makeSites) s s' :=
  Transaction.createOrIgnore_inserts rfl (fun _ => rfl) h

theorem recordSizedAlloc_inserts {n : NewSizedAlloc} {isNew : Bool}
    (h : recordSizedAlloc n s = .ok (isNew, s')) : Inserts (·.owner = .sizedAllocSites) s s' :=
  Transaction.createOrIgnore_inserts rfl (fun _ => rfl) h

/-! ## Numbered elements -/

theorem mem_numbered {α : Type} {xs : List α} {first : Int} {x : Int × α}
    (h : x ∈ numbered first xs) : first ≤ x.1 ∧ x.1 < first + xs.length ∧ x.2 ∈ xs := by
  induction xs generalizing first with
  | nil => cases h
  | cons y ys ih =>
    rw [List.length_cons]
    obtain rfl | h := List.mem_cons.mp h
    · exact ⟨Int.le_refl first, by omega, List.mem_cons_self⟩
    · obtain ⟨lower, upper, hx⟩ := ih h
      exact ⟨by omega, by omega, List.mem_cons_of_mem y hx⟩

theorem numbered_nodup {α : Type} (first : Int) (xs : List α) :
    ((numbered first xs).map (·.1)).Nodup := by
  induction xs generalizing first with
  | nil => exact .nil
  | cons x xs ih =>
    refine List.nodup_cons.mpr ⟨fun hm => ?_, ih (first + 1)⟩
    obtain ⟨y, hy, he⟩ := List.mem_map.mp hm
    have lower := (mem_numbered hy).1
    have same : y.1 = first := he
    omega

theorem nodup_map_of_key {α β κ : Type} {xs : List α} {f : α → β} {key : α → κ}
    (hd : (xs.map key).Nodup) (h : ∀ x y, f x = f y → key x = key y) : (xs.map f).Nodup :=
  List.pairwise_map.mpr ((List.pairwise_map.mp hd).imp fun {x y} ne he => ne (h x y he))

end AccessDepth
