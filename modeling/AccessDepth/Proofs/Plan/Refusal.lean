import AccessDepth.Proofs.Plan.Rows
import AccessDepth.Proofs.Store.Refusal

/-!
# AccessDepth.Proofs.Plan.Refusal

Why a store refuses a write.

* `Write.refs` — what the rows of a write refer to.
* `Write.Tidy` — the rows below the row of a write meet their conditions and do not share a key.
* `Write.record_ends` — such a write is recorded, unless it refers to a row that is not there.
* `tidy_function`, `tidy_stmt`, `tidy_expr` — which writes are tidy.
-/

namespace AccessDepth

/-! ## What writes refer to -/

def StmtDetail.refs : StmtDetail → List Reference
  | .none => []
  | .assign lhs rhs => (lhs ++ rhs).map .to
  | .return results => results.map .to
  | .defer call => [.to call]
  | .typeSwitch _ assertion cases => .to assertion :: (cases.filterMap (·.type)).map .to

def ExprDetail.refs : ExprDetail → List Reference
  | .none => []
  | .ident _ definition => (definition.map fun d => .to d.1).toList
  | .selector base _ => [.to base]
  | .typeAssert base type => .to base :: (type.map .to).toList
  | .call function args => (function :: args).map .to

/-- The access of an operand has the number of its expression. -/
def NewAccess.refs (a : NewAccess) : List Reference :=
  (a.inner.map fun e => ⟨.accesses, e.value⟩).toList ++ (a.storedBase.map .to).toList

namespace Plan.Write

/-- What the rows of a write refer to, beside the row that the others belong to. -/
def refs : Write → List Reference
  | .function f signature =>
    .to f.file :: ((f.parent.map .to).toList ++ (f.type.map .to).toList ++
      (signature.filterMap (·.type)).map .to)
  | .var v => .to v.file :: ((v.type.map .to).toList ++ (v.function.map .to).toList)
  | .stmt n detail => .to n.file :: (n.enclosing.refs ++ detail.refs)
  | .expr n detail access =>
    .to n.file :: ((n.type.map .to).toList ++ n.enclosing.refs ++ detail.refs ++
      access.toList.flatMap NewAccess.refs)
  | .makeSite n => [.to n.file]
  | .sizedAlloc n => [.to n.file]

theorem mem_refs_of_row {w : Write} {n : Int} {ref : Reference}
    (h : ref ∈ Row.references w.table (w.row n)) : ref ∈ w.refs := by
  rw [Row.references_eq] at h
  cases w <;> simp only [table, row, Row.refs, NewFunction.row, NewVariable.row, NewStmt.row,
    NewExpr.row] at h <;> simp only [refs] <;> grind

theorem mem_refs_of_stmtDetail {d : StmtDetail} {id : StmtId} {r : AnyRow}
    (hr : r ∈ d.children id) {ref : Reference} (h : ref ∈ Row.references r.table r.row) :
    ref = .to id ∨ ref ∈ d.refs := by
  rw [Row.references_eq] at h
  cases d with
  | none => cases hr
  | assign lhs rhs =>
    obtain hr | hr := List.mem_append.mp hr
    all_goals
      obtain ⟨⟨i, e⟩, he, rfl⟩ := List.mem_map.mp hr
      have := (mem_numbered he).2.2
      simp only [Row.refs, List.mem_cons, List.not_mem_nil, or_false] at h
      simp only [StmtDetail.refs, List.map_append, List.mem_append, List.mem_map]
      grind
  | «return» results =>
    obtain ⟨⟨i, e⟩, he, rfl⟩ := List.mem_map.mp hr
    have := (mem_numbered he).2.2
    simp only [Row.refs, List.mem_cons, List.not_mem_nil, or_false] at h
    simp only [StmtDetail.refs, List.mem_map]
    grind
  | defer call =>
    obtain rfl := List.mem_singleton.mp hr
    simpa [Row.refs, StmtDetail.refs] using h
  | typeSwitch bound assertion cases =>
    obtain rfl | hr := List.mem_cons.mp hr
    · simp only [Row.refs, List.mem_cons, List.not_mem_nil, or_false] at h
      simp only [StmtDetail.refs, List.mem_cons]
      grind
    · obtain ⟨c, hc, rfl⟩ := List.mem_map.mp hr
      refine (List.mem_cons.mp h).imp_right fun h => List.mem_cons_of_mem _ ?_
      obtain ⟨type, ht, rfl⟩ := Option.map_eq_some_iff.mp (Option.mem_toList.mp h)
      exact List.mem_map_of_mem (List.mem_filterMap.mpr ⟨c, hc, ht⟩)

theorem mem_refs_of_exprDetail {d : ExprDetail} {id : ExprId} {r : AnyRow}
    (hr : r ∈ d.children id) {ref : Reference} (h : ref ∈ Row.references r.table r.row) :
    ref = .to id ∨ ref ∈ d.refs := by
  rw [Row.references_eq] at h
  cases d with
  | none => cases hr
  | ident | selector | typeAssert =>
    obtain rfl := List.mem_singleton.mp hr
    simp only [Row.refs, List.mem_cons, List.mem_append, List.not_mem_nil, or_false] at h
    simp only [ExprDetail.refs, List.mem_cons, List.not_mem_nil, or_false]
    grind
  | call function args =>
    obtain ⟨c, hc, rfl⟩ := List.mem_map.mp hr
    simp only [Row.refs, List.mem_cons, List.mem_append, List.not_mem_nil, or_false] at h
    cases args with
    | nil =>
      obtain rfl := List.mem_singleton.mp hc
      simpa [ExprDetail.refs] using h
    | cons arg args =>
      obtain ⟨⟨i, e⟩, he, rfl⟩ := List.mem_map.mp hc
      have := (mem_numbered he).2.2
      simp only [Option.map_some, Option.toList_some, List.mem_singleton] at h
      simp only [ExprDetail.refs, List.map_cons, List.mem_cons, List.mem_map]
      grind

/-- What the rows of a write refer to. -/
theorem mem_refs {w : Write} {n : Int} {r : AnyRow} (hr : r ∈ w.rows n) {ref : Reference}
    (h : ref ∈ Row.references r.table r.row) : ref = ⟨w.table, n⟩ ∨ ref ∈ w.refs := by
  obtain rfl | hr := List.mem_cons.mp hr
  · exact .inr (mem_refs_of_row h)
  cases w with
  | function f signature =>
    obtain ⟨e, he, rfl⟩ := List.mem_map.mp hr
    rw [Row.references_eq] at h
    refine (List.mem_cons.mp h).imp_right fun h => List.mem_cons_of_mem _ ?_
    obtain ⟨type, ht, rfl⟩ := Option.map_eq_some_iff.mp (Option.mem_toList.mp h)
    refine List.mem_append_right _ (List.mem_map_of_mem ?_)
    exact List.mem_filterMap.mpr ⟨e, he, ht⟩
  | var v =>
    have hr : r ∈ v.children ⟨n⟩ := hr
    unfold NewVariable.children at hr
    split at hr
    · cases hr
    · obtain rfl := List.mem_singleton.mp hr
      rw [Row.references_eq] at h
      exact .inl (List.mem_singleton.mp h)
  | stmt x detail =>
    refine (mem_refs_of_stmtDetail hr h).imp_right fun h => ?_
    exact List.mem_cons_of_mem _ (List.mem_append_right _ h)
  | expr x detail access =>
    obtain hr | hr := List.mem_append.mp hr
    · refine (mem_refs_of_exprDetail hr h).imp_right fun h => ?_
      exact List.mem_cons_of_mem _ (List.mem_append_left _ (List.mem_append_right _ h))
    · obtain ⟨a, ha, rfl⟩ := List.mem_map.mp hr
      rw [Row.references_eq] at h
      simp only [Row.refs, NewAccess.row, List.mem_cons] at h
      refine h.imp_right fun h => List.mem_cons_of_mem _ (List.mem_append_right _ ?_)
      refine List.mem_flatMap.mpr ⟨a, ha, ?_⟩
      simpa [NewAccess.refs, Reference.to] using h
  | makeSite | sizedAlloc => cases hr

/-! ## What can be recorded -/

/-- The rows below the row of a write meet their conditions and do not share a key. -/
structure Tidy (w : Write) : Prop where
  conditions : ∀ n, ∀ r ∈ w.children n, Row.failedCondition? r.table r.row = none
  distinct : ∀ n, ((w.children n).map AnyRow.place).Nodup

theorem conditions_of_owner {w : Write} (h : w.table ≠ .expressions) {n : Int} {r : AnyRow}
    (hr : r ∈ w.children n) : Row.failedCondition? r.table r.row = none := by
  obtain ⟨owner, unnumbered⟩ := w.children_children n r hr
  obtain ⟨u, r⟩ := r
  cases u <;> first
    | rfl
    | (cases unnumbered; done)
    | exact absurd owner.symm h

theorem nodup_places {α κ : Type} {xs : List α} {row : α → AnyRow} {key : α → κ}
    (hd : (xs.map key).Nodup) (h : ∀ x y, (row x).place = (row y).place → key x = key y) :
    ((xs.map row).map AnyRow.place).Nodup := by
  rw [List.map_map]
  exact nodup_map_of_key hd h

theorem tidy_function {f : NewFunction} {signature : List SignatureItem}
    (h : (signature.map fun e => (e.role, e.position)).Nodup) :
    (Write.function f signature).Tidy where
  conditions n r hr := conditions_of_owner (by simp [table]) hr
  distinct n := by
    refine nodup_places h fun e e' he => ?_
    have key := (Prod.mk.inj he).2
    simp only [SignatureItem.row, Row.key, List.cons.injEq, Cell.int.injEq, and_true,
      true_and] at key
    exact Prod.ext (SignatureRole.ofTerm_inj key.1) key.2

theorem tidy_var (v : NewVariable) : (Write.var v).Tidy where
  conditions n r hr := conditions_of_owner (by simp [table]) hr
  distinct n := by
    have nodup : ((v.children ⟨n⟩).map AnyRow.place).Nodup := by
      unfold NewVariable.children
      split
      · exact .nil
      · exact List.nodup_singleton _
    exact nodup

theorem tidy_stmt {x : NewStmt} {d : StmtDetail}
    (h : ∀ bound assertion cases, d = .typeSwitch bound assertion cases →
      (cases.map fun c => (c.clause, c.position)).Nodup) : (Write.stmt x d).Tidy where
  conditions n r hr := conditions_of_owner (by simp [table]) hr
  distinct n := by
    unfold children
    cases d with
    | none => exact .nil
    | assign lhs rhs =>
      have side (side : OperandSide) (xs : List ExprId) :
          ((StmtDetail.operands ⟨n⟩ side xs).map AnyRow.place).Nodup :=
        nodup_places (numbered_nodup 0 xs) fun x y he => by
          simpa [AnyRow.place, Row.key] using he
      simp only [StmtDetail.children, List.map_append]
      refine (side .left lhs).append (side .right rhs) fun place left right => ?_
      obtain ⟨l, hl, rfl⟩ := List.mem_map.mp left
      obtain ⟨r, hr, he⟩ := List.mem_map.mp right
      obtain ⟨x, -, rfl⟩ := List.mem_map.mp hl
      obtain ⟨y, -, rfl⟩ := List.mem_map.mp hr
      simp [AnyRow.place, Row.key, Cell.ofTerm, Vocabulary.text] at he
    | «return» results =>
      exact nodup_places (numbered_nodup 0 results) fun x y he => by
        simpa [AnyRow.place, Row.key] using he
    | defer call => exact List.nodup_singleton _
    | typeSwitch bound assertion cases =>
      simp only [StmtDetail.children, List.map_cons]
      refine List.nodup_cons.mpr ⟨fun hm => ?_, ?_⟩
      · obtain ⟨r, hr, he⟩ := List.mem_map.mp hm
        obtain ⟨c, -, rfl⟩ := List.mem_map.mp hr
        cases congrArg Prod.fst he
      · exact nodup_places (h bound assertion cases rfl) fun c c' he => by
          simpa [AnyRow.place, Row.key] using he

theorem failedCondition?_access {a : NewAccess} (h : 0 ≤ a.uncertainty) (id : ExprId) :
    Row.failedCondition? .accesses (a.row id) = none := by
  have certain : a.storedBase.isNone = decide (0 < a.uncertainty) := by
    unfold NewAccess.storedBase
    by_cases hu : 0 < a.uncertainty <;> simp [hu]
  have nonneg : ¬ a.uncertainty < 0 := by omega
  have agrees : ¬ (a.storedBase.isNone ≠ decide (0 < a.uncertainty)) := fun ne => ne certain
  exact (if_neg nonneg).trans (if_neg agrees)

theorem tidy_expr {x : NewExpr} {d : ExprDetail} {access : Option NewAccess}
    (h : ∀ a, access = some a → 0 ≤ a.uncertainty) : (Write.expr x d access).Tidy where
  conditions n r hr := by
    obtain hr | hr := List.mem_append.mp hr
    · cases d with
      | none => cases hr
      | ident | selector | typeAssert =>
        obtain rfl := List.mem_singleton.mp hr
        rfl
      | call function args =>
        obtain ⟨c, -, rfl⟩ := List.mem_map.mp hr
        rfl
    · obtain ⟨a, ha, rfl⟩ := List.mem_map.mp hr
      exact failedCondition?_access (h a (Option.mem_toList.mp ha)) ⟨n⟩
  distinct n := by
    have details : ((d.children ⟨n⟩).map AnyRow.place).Nodup := by
      cases d with
      | none => exact .nil
      | ident | selector | typeAssert => exact List.nodup_singleton _
      | call function args =>
        cases args with
        | nil => exact List.nodup_singleton _
        | cons arg args =>
          let row (x : Int × ExprId) : AnyRow := ⟨.callDetails,
            { expr := ⟨n⟩, position := x.1, function := function, argument := some x.2 }⟩
          have keys : (((numbered 0 (arg :: args)).map row).map AnyRow.place).Nodup :=
            nodup_places (numbered_nodup 0 (arg :: args)) fun x y he => by
              simpa [row, AnyRow.place, Row.key] using he
          have same : (ExprDetail.call function (arg :: args)).children ⟨n⟩ =
              (numbered 0 (arg :: args)).map row := List.map_map
          rw [same]
          exact keys
    unfold children
    rw [List.map_append]
    refine details.append ?_ fun place left right => ?_
    · cases access with
      | none => exact .nil
      | some a => exact List.nodup_singleton _
    · obtain ⟨l, hl, rfl⟩ := List.mem_map.mp left
      obtain ⟨r, hr, he⟩ := List.mem_map.mp right
      obtain ⟨a, -, rfl⟩ := List.mem_map.mp hr
      exact d.children_ne_accesses hl (congrArg Prod.fst he).symm

/-! ## Recording -/

section

variable {s : Store} {w : Write}

theorem discard_ends {α : Type} {t : Transaction α} {P : Prop}
    (h : (∃ x s', t s = .ok (x, s')) ∨ t s = .error .foreignKey ∧ P) :
    (∃ s', discard t s = .ok ((), s')) ∨ discard t s = .error .foreignKey ∧ P := by
  obtain ⟨x, s', h⟩ | ⟨h, hp⟩ := h
  · exact .inl ⟨s', discard_ok.mpr ⟨x, h⟩⟩
  · refine .inr ⟨?_, hp⟩
    simp only [discard, Functor.discard, Functor.mapConst, StateT.map, bind, Except.bind,
      Function.comp_apply, h]

/-- A tidy write is recorded, unless it refers to a row that is not there. -/
theorem record_ends (hs : s.Sound) (hw : w.Tidy) :
    (∃ s', w.record s = .ok ((), s')) ∨
      w.record s = .error .foreignKey ∧ ∃ ref ∈ w.refs, s.has ref = false := by
  have numbered : w.table.isNumbered = true := by cases w <;> rfl
  let n := s.nextNumber w.table
  have lacks (h : ∃ r ∈ w.rows n, r.Dangles (s.push w.table (w.row n))) :
      ∃ ref ∈ w.refs, s.has ref = false := by
    obtain ⟨r, hr, ref, href, lacks⟩ := h
    obtain rfl | href := mem_refs hr href
    · have there : (s.push w.table (w.row n)).has ⟨w.table, n⟩ = true := by
        refine Store.has_iff.mpr ⟨w.row n, ?_, w.number_row n⟩
        rw [Store.rows_push_self]
        exact List.mem_append_right _ List.mem_cons_self
      rw [there] at lacks
      cases lacks
    · refine ⟨ref, href, Bool.eq_false_iff.mpr fun there => ?_⟩
      rw [Store.has_of_le (s.le_push _ _) there] at lacks
      cases lacks
  have below : ∀ r ∈ w.children n, r.table.owner = w.table ∧ r.table.isNumbered = false ∧
      Row.number r.table r.row = n ∧ Row.failedCondition? r.table r.row = none := by
    intro r hr
    obtain ⟨owner, unnumbered⟩ := w.children_children n r hr
    exact ⟨owner, unnumbered, number_children hr, hw.conditions n r hr⟩
  have vacant {x : Option (RowId w.table)}
      (hx : x.isSome = true ↔
        ∃ r ∈ s.rows w.table, Row.key w.table r = .ofId w.file :: w.place) (hn : x = none) :
      s.Vacant w.table (Row.key w.table (w.row n)) := by
    intro r hr hk
    rw [w.key_row] at hk
    have found := hx.mpr ⟨r, hr, hk⟩
    rw [hn] at found
    cases found
  have distinct := hw.distinct n
  cases w with
  | function f signature =>
    refine (discard_ends ?_).imp_right (And.imp_right lacks)
    exact Transaction.ensure_ends hs rfl rfl (fun hn => vacant Store.functionAt?_isSome hn) below
      distinct
  | var v =>
    refine (discard_ends ?_).imp_right (And.imp_right lacks)
    exact Transaction.ensure_ends hs rfl rfl (fun hn => vacant Store.variableAt?_isSome hn) below
      distinct
  | stmt x detail =>
    refine (discard_ends ?_).imp_right (And.imp_right lacks)
    exact Transaction.ensure_ends hs rfl rfl (fun hn => vacant Store.stmtAt?_isSome hn) below
      distinct
  | expr x detail access =>
    refine (discard_ends ?_).imp_right (And.imp_right lacks)
    exact Transaction.ensure_ends hs rfl rfl (fun hn => vacant Store.exprAt?_isSome hn) below
      distinct
  | makeSite x =>
    refine (discard_ends ?_).imp_right (And.imp_right lacks)
    refine Transaction.createOrIgnore_ends.imp_right (And.imp_right fun dangles => ?_)
    exact ⟨_, List.mem_cons_self, dangles⟩
  | sizedAlloc x =>
    refine (discard_ends ?_).imp_right (And.imp_right lacks)
    refine Transaction.createOrIgnore_ends.imp_right (And.imp_right fun dangles => ?_)
    exact ⟨_, List.mem_cons_self, dangles⟩

end

end Plan.Write
end AccessDepth
