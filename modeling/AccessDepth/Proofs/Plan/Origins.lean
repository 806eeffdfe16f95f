import AccessDepth.Proofs.Plan.Visits

/-!
# AccessDepth.Proofs.Plan.Origins

Where the rows of code come from, and which functions they tell.

* `Announced` — code records every function before what is inside it.
* `ComesFrom` — a row is that of an item in an earlier store, in which every function around the item
  had its row.
* `run_comesFrom` — so it is with the rows that announced code adds.
* `Store.Context` — what is stored of the functions around a place: the row of the outermost one and
  the row of the innermost one.
* `ComesFrom.expr`, `ComesFrom.stmt`, `ComesFrom.function`, `ComesFrom.var` — what the rows that come
  from an item tell.
-/

namespace AccessDepth

/-- The functions of a file that stand at some places, from the outermost one on, all have rows. What is
stored of them is the row of the first one and the row of the last one. -/
def Store.Context (s : Store) (file : FileId) (fs : List Position) (e : Enclosing) : Prop :=
  ∃ ids, fs.mapM (s.functionAt? file) = some ids ∧ e = ⟨ids.head?, ids.getLast?⟩

def Store.HasFunction (s : Store) (x : SourceSite) : Prop :=
  s.Occupied .functions x.file.text (Cell.ofPosition x.position)

theorem Store.HasFunction.functionAt? {s : Store} {path : Path} {g : Position} {file : FileId}
    (h : s.HasFunction ⟨path, g⟩) (hf : s.fileNamed? path.text = some file) :
    (s.functionAt? file g).isSome = true := by
  obtain ⟨file', hf', r, hr, hk⟩ := h
  cases hf.symm.trans hf'
  exact Store.functionAt?_isSome.mpr ⟨r, hr, hk⟩

namespace Plan

/-! ## Code that records functions first -/

/-- The function that an operation records, by its file and its place. -/
def Op.function? : Op → Option SourceSite
  | .record a (.function _ position ..) => some ⟨a.path, position⟩
  | _ => none

def Op.Inside (known : List SourceSite) : Op → Prop
  | .record a _ => ∀ g ∈ a.functions, ⟨a.path, g⟩ ∈ known
  | _ => True

/-- Code records every function before what is inside it. Those at known sites are there already. -/
def Announced (known : List SourceSite) : List Op → Prop
  | [] => True
  | o :: os => o.Inside known ∧ Announced (known ++ o.function?.toList) os

section

variable {known known' : List SourceSite} {o : Op} {os os' : List Op}

theorem Op.Inside.mono (h : o.Inside known) (hk : known ⊆ known') : o.Inside known' := by
  cases o with
  | file | type => trivial
  | record a item => exact fun g hg => hk (h g hg)

theorem Announced.mono (h : Announced known os) (hk : known ⊆ known') : Announced known' os := by
  induction os generalizing known known' with
  | nil => trivial
  | cons o os ih =>
    refine ⟨h.1.mono hk, ih h.2 fun x hx => ?_⟩
    obtain hx | hx := List.mem_append.mp hx
    · exact List.mem_append_left _ (hk hx)
    · exact List.mem_append_right _ hx

theorem announced_append :
    Announced known (os ++ os') ↔
      Announced known os ∧ Announced (known ++ os.filterMap Op.function?) os' := by
  induction os generalizing known with
  | nil => simp [Announced]
  | cons o os ih =>
    have first : o.function?.toList ++ os.filterMap Op.function? =
        (o :: os).filterMap Op.function? := by
      cases ho : o.function? <;> simp [ho]
    rw [List.cons_append, Announced, ih, Announced, and_assoc, List.append_assoc, first]

theorem announced_of_inside (h : ∀ o ∈ os, o.Inside known) : Announced known os := by
  induction os generalizing known with
  | nil => trivial
  | cons o os ih =>
    refine ⟨h o List.mem_cons_self, ih fun o' ho => ?_⟩
    exact (h o' (List.mem_cons_of_mem o ho)).mono (List.subset_append_left ..)

theorem announced_flatMap {α : Type} {code : α → List Op} {xs : List α}
    (h : ∀ x ∈ xs, Announced known (code x)) : Announced known (xs.flatMap code) := by
  induction xs generalizing known with
  | nil => trivial
  | cons x xs ih =>
    rw [List.flatMap_cons, announced_append]
    refine ⟨h x List.mem_cons_self, ih fun y hy => ?_⟩
    exact (h y (List.mem_cons_of_mem x hy)).mono (List.subset_append_left ..)

end

/-! ## Origins -/

/-- A row is that of an item in an earlier store, in which every function around the item had a row. -/
def ComesFrom (t : Store) (a : Around) (item : Item) (r : AnyRow) : Prop :=
  ∃ s ≤ t, ∃ file types w n, s.fileNamed? a.path.text = some file ∧
    (∀ g ∈ a.functions, (s.functionAt? file g).isSome = true) ∧
    item.write? s file types a = some w ∧ r = ⟨w.table, w.row n⟩

variable {m m' : Machine} {os : List Op} {known : List SourceSite}

theorem hasFunction_of_step {o : Op} (h : o.step m = .ok m') {x : SourceSite}
    (hx : o.function? = some x) : m'.store.HasFunction x := by
  cases o with
  | file | type => cases hx
  | record a item =>
    cases item with
    | function =>
      cases hx
      exact occupied_of_record h (by simp [Item.table])
    | _ => cases hx

theorem hasFunction_of_run (h : run os m = .ok m') {x : SourceSite}
    (hx : x ∈ os.filterMap Op.function?) : m'.store.HasFunction x := by
  obtain ⟨o, ho, hf⟩ := List.mem_filterMap.mp hx
  obtain ⟨before, after, rfl⟩ := List.append_of_mem ho
  obtain ⟨m₁, -, h⟩ := run_append_ok h
  obtain ⟨m₂, h₂, h⟩ := run_cons_ok h
  exact (hasFunction_of_step h₂ hf).of_le (run_le h)

/-- The rows that announced code adds come from its items. -/
theorem run_comesFrom (hc : Announced known os) (hk : ∀ x ∈ known, m.store.HasFunction x)
    (h : run os m = .ok m') {u : Table} (hu : u ∈ Table.placed) {r : Row u}
    (hr : r ∈ m'.store.rows u) (hn : r ∉ m.store.rows u) :
    ∃ a item, Op.record a item ∈ os ∧ ComesFrom m'.store a item ⟨u, r⟩ := by
  obtain ⟨done, o, rest, m₁, m₂, rfl, h₁, h₂, hle, hr₂, hr₁⟩ := run_added h hr hn
  obtain old | ⟨a, item, file, w, n, rfl, hf, hw, he⟩ := step_added h₂ hu hr₂
  · exact absurd old hr₁
  have there : ∀ x ∈ known ++ done.filterMap Op.function?, m₁.store.HasFunction x := by
    intro x hx
    obtain hx | hx := List.mem_append.mp hx
    · exact (hk x hx).of_le (run_le h₁)
    · exact hasFunction_of_run h₁ hx
  have inside := (announced_append.mp hc).2.1
  refine ⟨a, item, by simp, m₁.store, le_trans (step_inserts h₂).le hle, file, m₁.types, w, n, hf, ?_,
    hw, he⟩
  exact fun g hg => (there _ (inside g hg)).functionAt? hf

/-! ## What the rows tell -/

theorem Around.context {a : Around} {s t : Store} {file : FileId} (hle : s ≤ t)
    (h : ∀ g ∈ a.functions, (s.functionAt? file g).isSome = true) :
    t.Context file a.functions (a.enclosing s file) := by
  refine ⟨a.recorded s file, ?_, rfl⟩
  obtain ⟨path, fs⟩ := a
  induction fs with
  | nil => rfl
  | cons g fs ih =>
    obtain ⟨id, hid⟩ := Option.isSome_iff_exists.mp (h g List.mem_cons_self)
    have rest := ih fun g hg => h g (List.mem_cons_of_mem _ hg)
    simp only [Around.recorded] at rest ⊢
    rw [List.mapM_cons, List.filterMap_cons_some hid, Store.functionAt?_of_le hle hid, rest]
    rfl

namespace ComesFrom

variable {t : Store} {a : Around} {item : Item}

theorem table {u : Table} {r : Row u} (h : ComesFrom t a item ⟨u, r⟩) : item.table = u := by
  obtain ⟨s, -, file, types, w, n, -, -, hw, he⟩ := h
  exact (Item.table_of_write? hw).symm.trans (congrArg AnyRow.table he).symm

theorem expr {r : ExprRow} (h : ComesFrom t a item ⟨.expressions, r⟩) :
    (∃ detail access, item = .expr r.kind r.span detail access) ∧
      t.fileNamed? a.path.text = some r.file ∧ t.Context r.file a.functions r.enclosing := by
  have ht := h.table
  obtain ⟨s, hle, file, types, w, n, hf, known, hw, he⟩ := h
  cases item with
  | expr kind span detail access =>
    obtain ⟨d, -, hw⟩ := Option.bind_eq_some_iff.mp hw
    obtain ⟨x, -, hw⟩ := Option.bind_eq_some_iff.mp hw
    cases hw
    cases he
    exact ⟨⟨detail, access, rfl⟩, Store.fileNamed?_of_le hle hf, Around.context hle known⟩
  | _ => cases ht

theorem stmt {r : StmtRow} (h : ComesFrom t a item ⟨.statements, r⟩) :
    (∃ detail, item = .stmt r.kind r.span detail) ∧
      t.fileNamed? a.path.text = some r.file ∧ t.Context r.file a.functions r.enclosing := by
  have ht := h.table
  obtain ⟨s, hle, file, types, w, n, hf, known, hw, he⟩ := h
  cases item with
  | stmt kind span detail =>
    obtain ⟨d, -, hw⟩ := Option.bind_eq_some_iff.mp hw
    cases hw
    cases he
    exact ⟨⟨detail, rfl⟩, Store.fileNamed?_of_le hle hf, Around.context hle known⟩
  | _ => cases ht

/-- Only literals have parents. -/
theorem function {r : FunctionRow} (h : ComesFrom t a item ⟨.functions, r⟩) :
    (∃ signature, item = .function r.name r.position r.variadic r.generic r.literal signature) ∧
      t.fileNamed? a.path.text = some r.file ∧
      ∃ e, t.Context r.file a.functions e ∧ r.parent = if r.literal then e.innermost else none := by
  have ht := h.table
  obtain ⟨s, hle, file, types, w, n, hf, known, hw, he⟩ := h
  cases item with
  | function name position variadic generic literal signature =>
    cases hw
    cases he
    exact ⟨⟨signature, rfl⟩, Store.fileNamed?_of_le hle hf, _, Around.context hle known, rfl⟩
  | _ => cases ht

/-- A variable is global if no function is around it. -/
theorem var {r : VariableRow} (h : ComesFrom t a item ⟨.variables, r⟩) :
    (∃ role, item = .var r.name r.position r.isConst role) ∧
      t.fileNamed? a.path.text = some r.file ∧
      ∃ e, t.Context r.file a.functions e ∧ r.function = e.innermost ∧
        r.isGlobal = e.innermost.isNone := by
  have ht := h.table
  obtain ⟨s, hle, file, types, w, n, hf, known, hw, he⟩ := h
  cases item with
  | var name position isConst role =>
    cases hw
    cases he
    exact ⟨⟨role, rfl⟩, Store.fileNamed?_of_le hle hf, _, Around.context hle known, rfl, rfl⟩
  | _ => cases ht

end ComesFrom
end Plan
end AccessDepth
