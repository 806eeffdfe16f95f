import AccessDepth.Proofs.Store.Content

/-!
# AccessDepth.Proofs.Store.Described

Descriptions tell rows apart.

* `Sound.nameOf_inj` — rows of one name are one row.
* `Sound.describe_inj` — rows of one description are one row.
* `content_perm` — two stores in which the same is said of some row have the same content.
* `Store.tell` — a row of any table with its description.
-/

namespace AccessDepth
namespace Store

variable {s t : Store} {u : Table}

namespace Sound

variable (hs : s.Sound)
include hs

theorem pathOf_inj {a b : FileId} {path : String} (ha : s.pathOf a = some path)
    (hb : s.pathOf b = some path) : a = b := by
  obtain ⟨r, hr, rfl⟩ := Option.map_eq_some_iff.mp ha
  obtain ⟨r', hr', hp⟩ := Option.map_eq_some_iff.mp hb
  obtain ⟨hm, hn⟩ := (hs.byNumber_eq_some rfl).mp hr
  obtain ⟨hm', hn'⟩ := (hs.byNumber_eq_some rfl).mp hr'
  have same := hs.eq_of_key (u := .files) hm' hm (by simp [Row.key, hp])
  rw [same, hn] at hn'
  cases a
  cases b
  exact congrArg RowId.mk hn'

theorem rowName_inj {r r' : Row u} (hr : r ∈ s.rows u) (hr' : r' ∈ s.rows u) {x : RowName}
    (hx : s.rowName u r = some x) (hx' : s.rowName u r' = some x) : r = r' := by
  refine hs.eq_of_key hr hr' ?_
  cases u with
  | files | types =>
    injection Option.some.inj (hx.trans hx'.symm) with same
    simp [Row.key, same]
  | functions | «variables» | statements | expressions =>
    obtain ⟨path, hp, rfl⟩ := Option.map_eq_some_iff.mp hx
    obtain ⟨path', hp', he⟩ := Option.map_eq_some_iff.mp hx'
    injection he with samePath same
    subst samePath
    simp [Row.key, same, hs.pathOf_inj hp hp']
  | _ => cases hx

/-- Rows of one name are one row. -/
theorem nameOf_inj {m n : Int} {x : RowName} (hm : s.nameOf u m = some x)
    (hn : s.nameOf u n = some x) : m = n := by
  obtain ⟨r, hr, hx⟩ := Option.bind_eq_some_iff.mp hm
  obtain ⟨r', hr', hx'⟩ := Option.bind_eq_some_iff.mp hn
  have same : r = r' := by
    exact hs.rowName_inj (List.mem_of_find?_eq_some hr) (List.mem_of_find?_eq_some hr') hx hx'
  have hm := List.find?_some hr
  have hn := List.find?_some hr'
  simp only [beq_iff_eq] at hm hn
  rw [← hm, ← hn, same]

/-- A value tells which cell it stands for. -/
theorem value_inj {r r' : Row u} (hr : r ∈ s.rows u) {c : Column}
    {a b : Cell} (ha : (c, a) ∈ u.columns.zip (Row.cells u r))
    (hb : (c, b) ∈ u.columns.zip (Row.cells u r')) (h : s.value c a = s.value c b) : a = b := by
  have named {n : Int} {v : Table} (hv : c.target = some v)
      (hc : (c, .int n) ∈ u.columns.zip (Row.cells u r)) : ∃ x, s.nameOf v n = some x := by
    have refers : (⟨v, n⟩ : Reference) ∈ Row.references u r :=
      List.mem_filterMap.mpr ⟨_, hc, by simp only [hv]⟩
    exact Option.isSome_iff_exists.mp (hs.nameOf_isSome hr refers)
  unfold value at h
  cases hv : c.target with
  | none =>
    simp only [hv] at h
    exact Value.cell.inj h
  | some v =>
    simp only [hv] at h
    cases a with
    | int m =>
      cases b with
      | int n =>
        obtain ⟨x, hx⟩ := named hv ha
        have same : s.nameOf v m = s.nameOf v n := Value.name.inj h
        rw [hs.nameOf_inj hx (same ▸ hx)]
      | null | text => cases h
    | null | text =>
      cases b with
      | int n => cases h
      | null | text => exact Value.cell.inj h

/-- Rows of one description are one row. -/
theorem describe_inj {r r' : Row u} (hr : r ∈ s.rows u) (hr' : r' ∈ s.rows u)
    (h : s.describe u r = s.describe u r') : r = r' := by
  have columns (x : Row u) : (u.columns.zip (Row.cells u x)).map (·.1) = u.columns :=
    List.map_fst_zip (by cases u <;> exact Nat.le_refl _)
  have cellwise (cs cs' : List (Column × Cell)) (hc : cs ⊆ u.columns.zip (Row.cells u r))
      (hc' : cs' ⊆ u.columns.zip (Row.cells u r')) (same : cs.map (·.1) = cs'.map (·.1))
      (hv : cs.map (fun c => s.value c.1 c.2) = cs'.map fun c => s.value c.1 c.2) : cs = cs' := by
    induction cs generalizing cs' with
    | nil => exact (List.map_eq_nil_iff.mp same.symm).symm
    | cons c cs ih =>
      cases cs' with
      | nil => cases same
      | cons c' cs' =>
        obtain ⟨column, a⟩ := c
        obtain ⟨column', b⟩ := c'
        simp only [List.map_cons, List.cons.injEq] at same hv
        obtain ⟨rfl, same⟩ := same
        obtain rfl := hs.value_inj hr (hc List.mem_cons_self) (hc' List.mem_cons_self) hv.1
        rw [ih cs' (fun x hx => hc (List.mem_cons_of_mem _ hx))
          (fun x hx => hc' (List.mem_cons_of_mem _ hx)) same hv.2]
  have same := cellwise ((u.columns.zip (Row.cells u r)).drop (if u.isNumbered then 1 else 0))
    ((u.columns.zip (Row.cells u r')).drop (if u.isNumbered then 1 else 0))
    (List.drop_subset _ _) (List.drop_subset _ _)
    (by rw [List.map_drop, List.map_drop, columns, columns]) h
  have key (x : Row u) : Row.key u x = (((u.columns.zip (Row.cells u x)).drop
      (if u.isNumbered then 1 else 0)).filter fun c => c.1.inKey).map (·.2) := by
    cases u <;> rfl
  exact hs.eq_of_key hr hr' (by rw [key, key, same])

theorem content_nodup (u : Table) : (s.content u).Nodup :=
  (List.Nodup.of_map _ (hs.keys u)).map_on fun _ hr _ hr' h => hs.describe_inj hr hr' h

end Sound

/-- Two stores in which the same is said of some row have the same content. -/
theorem content_perm (hs : s.Sound) (ht : t.Sound) (hst : s.content u ⊆ t.content u)
    (hts : t.content u ⊆ s.content u) : (s.content u).Perm (t.content u) :=
  (List.perm_ext_iff_of_nodup (hs.content_nodup u) (ht.content_nodup u)).mpr fun _ =>
    ⟨fun h => hst h, fun h => hts h⟩

/-! ## Values -/

/-- A row of any table with its description. -/
def tell (s : Store) (r : AnyRow) : Table × List Value := (r.table, s.describe r.table r.row)

def called (s : Store) (id : Option (RowId u)) : Option (Option RowName) :=
  id.map fun id => s.nameOf u id.value

@[simp] theorem called_none : s.called (u := u) none = none := rfl

@[simp] theorem called_some (id : RowId u) : s.called (some id) = some (s.nameOf u id.value) := rfl

def Value.ofCalled : Option (Option RowName) → Value
  | none => .cell .null
  | some n => .name n

@[simp] theorem value_plain (name : String) (cell : Cell) :
    s.value (.plain name) cell = .cell cell := rfl

@[simp] theorem value_key (name : String) (cell : Cell) : s.value (.key name) cell = .cell cell := rfl

@[simp] theorem value_null (c : Column) : s.value c .null = .cell .null := by
  unfold value
  cases c.target <;> rfl

@[simp] theorem value_ref (name : String) (id : RowId u) :
    s.value (.ref name u) (.ofId id) = .name (s.nameOf u id.value) := rfl

@[simp] theorem value_keyRef (name : String) (id : RowId u) :
    s.value (.keyRef name u) (.ofId id) = .name (s.nameOf u id.value) := rfl

@[simp] theorem value_optional (name : String) (id : Option (RowId u)) :
    s.value (.ref name u) (.ofOption .ofId id) = Value.ofCalled (s.called id) := by
  cases id <;> rfl

end Store
end AccessDepth
