import AccessDepth.Proofs.Depth.Accounts
import AccessDepth.Proofs.Depth.Ends
import AccessDepth.Proofs.Store.Refusal

/-!
# AccessDepth.Proofs.Depth.Entered

What the depth pass leaves of nodes that had no rows.

* `Heading.place` — the table and the span of a row. `Store.IsFree` — no row of a file stands at a place.
* `Stored` — a node with its rows and their number.
* `Entered` — nodes are recorded in order, under new numbers.
* `Trail.entered` — so are nodes whose places are free and distinct.
* `Entered.headings`, `Entered.row`, `Entered.before` — which rows there are then, what they are found
  by, and in which order they come.
-/

namespace AccessDepth

open Plan (Write)

def Heading.table : Heading → Table
  | .expr .. => .expressions
  | .stmt .. => .statements

def Heading.span : Heading → Span
  | .expr _ span => span
  | .stmt _ span => span

/-- Where a row stands in its file. -/
def Heading.place (h : Heading) : Table × Span := (h.table, h.span)

namespace Store

/-- No row of a file stands at a place. -/
def IsFree (s : Store) (file : FileId) (h : Heading) : Prop :=
  s.Vacant h.table (.ofId file :: Cell.ofSpan h.span)

end Store

namespace Depth

open Session (LeadsTo Ready)

/-- A node with its rows and their number. -/
structure Stored where
  mark : Mark
  write : Write
  number : Int

def Stored.rows (x : Stored) : List AnyRow := x.write.rows x.number

def Written (u : Table) : Prop := u.owner = .statements ∨ u.owner = .expressions

section

variable {p : Package} {root : Path} {file : FileId} {m : Mark} {w : Write} {t : Store}

theorem stmtNote_kind (s : Stmt) : (stmtNote s).1 = s.kind := by
  cases s with
  | typeSwitch span init assign body =>
    unfold stmtNote
    simp only
    split <;> rfl
  | _ => rfl

/-- The row of a node is at its place. -/
theorem Mark.Writes.place (h : m.Writes p root t file w) :
    w.table = m.heading.table ∧ w.file = file ∧ w.place = Cell.ofSpan m.heading.span := by
  cases h with
  | expr item =>
    cases m with
    | block | stmt => cases item
    | expr | name | literal | signature =>
      cases item
      exact ⟨rfl, rfl, rfl⟩
  | stmt item =>
    cases m with
    | block | stmt =>
      cases item
      exact ⟨rfl, rfl, rfl⟩
    | expr | name | literal | signature => cases item

theorem Mark.Writes.later {s s' : Session} (h : m.Writes p root s.store file w)
    (hl : LeadsTo Adds s s') : m.Writes p root s'.store file w := by
  have le := hl.inserts.le
  cases h with
  | expr item types note access =>
    rw [← enclosing_of_adds hl]
    exact .expr item (types.imp fun _ _ h => h.of_le le) (note.of_le le)
      (rel_of_le (fun _ _ h => h.of_le le) access)
  | stmt item types note =>
    rw [← enclosing_of_adds hl]
    exact .stmt item (types.imp fun _ _ h => h.of_le le) (Plan.StmtNote.detail?_of_le le note)

end

section

variable {p : Package} {root : Path} {file : FileId} {m : Mark} {marks : List Mark}
  {s s' : Session}

theorem Written.not_supply {u : Table} (hu : Written u) : ¬ Supply u := by
  unfold Written at hu
  obtain hu | hu := hu <;> simp [Supply, hu]

theorem Written.of_owner {u : Table} {g : Heading} (h : u.owner = g.table) : Written u := by
  cases g with
  | expr => exact .inr h
  | stmt => exact .inl h

theorem Written.of_heading (g : Heading) : Written g.table := .of_owner (g := g) (by cases g <;> rfl)

theorem Mark.Writes.written {w : Write} {t : Store} (h : m.Writes p root t file w) :
    Written w.table :=
  h.place.1 ▸ .of_heading m.heading

/-- A node whose place is free is recorded under the next number of its table. -/
theorem Visits.stored (h : Visits p root file m s s') (free : s.store.IsFree file m.heading) :
    ∃ w, m.Writes p root s'.store file w ∧ ∀ u, Written u → s'.store.rows u =
      s.store.rows u ++ (w.rows (s.store.nextNumber w.table)).filterMap (·.in? u) := by
  obtain @⟨s₁, w, supplied, -, hw, hrec, later⟩ := h
  have same {u : Table} (hu : Written u) : s₁.store.rows u = s.store.rows u :=
    supplied.inserts.rows_eq hu.not_supply
  have adds : LeadsTo Adds s₁ s' := by
    refine later.mono fun u hu => ?_
    cases hw with
    | expr => exact .inr (.inr hu)
    | stmt => exact .inr (.inl hu)
  refine ⟨w, hw.later adds, fun u hu => ?_⟩
  obtain he | ⟨-, he⟩ := Write.record_eq hrec
  · obtain ⟨table, hfile, hplace⟩ := hw.place
    obtain ⟨r, hr, hk⟩ | ⟨n, rfl⟩ := Write.taken_of_settled (Write.settled_of_record hrec)
    · rw [he, same hw.written] at hr
      unfold Store.IsFree at free
      rw [← table] at free
      exact absurd (by rw [hk, hfile, hplace]) (free r hr)
    · cases hw
  · rw [he, Store.rows_pushAll, same hu, Store.nextNumber_eq (same hw.written)]

/-- Nodes are recorded in order, under new numbers. -/
structure Entered (p : Package) (root : Path) (file : FileId) (marks : List Mark)
    (xs : List Stored) (s s' : Session) : Prop where
  marks : xs.map (·.mark) = marks
  writes : ∀ x ∈ xs, x.mark.Writes p root s'.store file x.write
  rows : ∀ u, Written u →
    s'.store.rows u = s.store.rows u ++ (xs.flatMap Stored.rows).filterMap (·.in? u)
  isNew : ∀ x ∈ xs, s.store.nextNumber x.write.table ≤ x.number
  ordered : xs.Pairwise fun x y => x.write.table = y.write.table → x.number < y.number

/-- A node takes its own place only. -/
theorem free_of_stored {t t' : Store} {w : Write} {n : Int} {h : Heading}
    (free : t.IsFree file h) (hw : m.Writes p root t' file w) (hne : m.heading.place ≠ h.place)
    (rows : t'.rows h.table = t.rows h.table ++ (w.rows n).filterMap (·.in? h.table)) :
    t'.IsFree file h := by
  intro r hr hk
  rw [rows] at hr
  obtain hr | hr := List.mem_append.mp hr
  · exact free r hr hk
  · obtain he | hr := List.mem_cons.mp (AnyRow.mem_of_in? hr)
    · obtain ⟨table, hfile, hplace⟩ := hw.place
      have key := congrArg (fun x : AnyRow => Row.key x.table x.row) he
      simp only [hk, w.key_row, hfile, hplace, List.cons.injEq, true_and] at key
      have span := Cell.ofSpan_inj.mp key
      exact hne (Prod.ext (table.symm.trans (congrArg AnyRow.table he).symm) span.symm)
    · have numbered := (w.children_children n _ hr).2
      cases h <;> cases numbered

/-- Nodes whose places are free and distinct are recorded in order, under new numbers. -/
theorem Trail.entered (hs : s.Ready) (h : Trail p root file marks s s')
    (distinct : (marks.map (·.heading.place)).Nodup)
    (free : ∀ m ∈ marks, s.store.IsFree file m.heading) :
    ∃ xs, Entered p root file marks xs s s' := by
  induction h with
  | nil => exact ⟨[], rfl, by simp, by simp, by simp, .nil⟩
  | @cons m marks s s₁ s₂ first rest ih =>
    obtain ⟨w, hw, rows⟩ := first.stored (free m List.mem_cons_self)
    have step := first.leadsTo
    rw [List.map_cons, List.nodup_cons] at distinct
    have free₁ : ∀ m' ∈ marks, s₁.store.IsFree file m'.heading := by
      intro m' hm'
      have stands := free m' (List.mem_cons_of_mem m hm')
      refine free_of_stored stands hw ?_ (rows _ (Written.of_heading m'.heading))
      intro he
      exact distinct.1 (List.mem_map.mpr ⟨m', hm', he.symm⟩)
    obtain ⟨xs, entered⟩ := ih step.ready distinct.2 free₁
    have taken : s.store.nextNumber w.table < s₁.store.nextNumber w.table := by
      have there : w.row (s.store.nextNumber w.table) ∈ s₁.store.rows w.table := by
        rw [rows _ hw.written]
        refine List.mem_append_right _ (List.mem_filterMap.mpr ⟨_, List.mem_cons_self, ?_⟩)
        simp [AnyRow.in?]
      have := Store.number_lt_nextNumber there
      rwa [w.number_row] at this
    refine ⟨⟨m, w, s.store.nextNumber w.table⟩ :: xs, ?_, ?_, ?_, ?_, ?_⟩
    · rw [List.map_cons, entered.marks]
    · intro x hx
      obtain rfl | hx := List.mem_cons.mp hx
      · exact hw.later (rest.leadsTo step.ready)
      · exact entered.writes x hx
    · intro u hu
      rw [entered.rows u hu, rows u hu]
      simp [Stored.rows]
    · intro x hx
      obtain rfl | hx := List.mem_cons.mp hx
      · exact Int.le_refl _
      · exact Int.le_trans (Store.nextNumber_mono step.inserts.le _) (entered.isNew x hx)
    · refine .cons (fun y hy same => ?_) entered.ordered
      have same : w.table = y.write.table := same
      have later := entered.isNew y hy
      rw [← same] at later
      exact Int.lt_of_lt_of_le taken later

end
end Depth

/-! ## Rows of nodes -/

def Row.heading? : (u : Table) → Row u → Option Heading
  | .expressions, r => some (.expr r.kind r.span)
  | .statements, r => some (.stmt r.kind r.span)
  | _, _ => none

def Store.numberAt? (s : Store) (file : FileId) : Heading → Option Int
  | .expr _ span => (s.exprAt? file span).map (·.value)
  | .stmt _ span => (s.stmtAt? file span).map (·.value)

/-- In a sound store a row is found where it stands. -/
theorem Store.Sound.numberAt?_eq {s : Store} (h : s.Sound) {file : FileId} {g : Heading} {u : Table}
    (hu : u = g.table) {r : Row u} (hr : r ∈ s.rows u)
    (hk : Row.key u r = .ofId file :: Cell.ofSpan g.span) :
    s.numberAt? file g = some (Row.number u r) := by
  subst hu
  cases g with
  | expr kind span =>
    obtain ⟨hfile, hspan⟩ := List.cons.inj hk
    have file' : r.file = file := Cell.ofId_inj.mp hfile
    have span' : r.span = span := Cell.ofSpan_inj.mp hspan
    rw [Store.numberAt?, ← file', ← span', h.exprAt?_eq hr]
    rfl
  | stmt kind span =>
    obtain ⟨hfile, hspan⟩ := List.cons.inj hk
    have file' : r.file = file := Cell.ofId_inj.mp hfile
    have span' : r.span = span := Cell.ofSpan_inj.mp hspan
    rw [Store.numberAt?, ← file', ← span', h.stmtAt?_eq hr]
    rfl

namespace Depth

section

variable {p : Package} {root : Path} {file : FileId} {m : Mark} {t : Store}

theorem Mark.Writes.heading {w : Write} (h : m.Writes p root t file w) (n : Int) :
    Row.heading? w.table (w.row n) = some m.heading := by
  cases h with
  | expr item =>
    cases m with
    | block | stmt => cases item
    | expr | name | literal | signature =>
      cases item
      rfl
  | stmt item =>
    cases m with
    | block =>
      cases item
      rfl
    | stmt a s =>
      cases item
      rw [Mark.heading, ← stmtNote_kind]
      rfl
    | expr | name | literal | signature => cases item

end

theorem children_in_numbered {w : Write} {n : Int} {u : Table} (hu : u.isNumbered = true) :
    (w.children n).filterMap (·.in? u) = [] := by
  refine Plan.filterMap_in?_of_ne fun r hr ht => ?_
  have numbered := (w.children_children n r hr).2
  rw [ht, hu] at numbered
  cases numbered

theorem Stored.of_mem_rows (x : Stored) {u : Table} (hn : u.isNumbered = false) {r : Row u}
    (h : ⟨u, r⟩ ∈ x.rows) : u.owner = x.write.table ∧ Row.number u r = x.number := by
  obtain he | hr := List.mem_cons.mp h
  · have numbered : x.write.table.isNumbered = true := by cases x.write <;> rfl
    rw [← show u = x.write.table from congrArg AnyRow.table he, hn] at numbered
    cases numbered
  · exact ⟨(x.write.children_children _ _ hr).1, Write.number_children hr⟩

namespace Entered

variable {p : Package} {root : Path} {file : FileId} {marks : List Mark} {xs : List Stored}
  {s s' : Session} (h : Entered p root file marks xs s s')
include h

/-- The rows of a table that others refer to are those of the nodes that have theirs there. -/
theorem headings {u : Table} (hu : u.isNumbered = true) :
    ((xs.flatMap Stored.rows).filterMap (·.in? u)).filterMap (Row.heading? u) =
      (marks.map Mark.heading).filter (·.table = u) := by
  have each (x : Stored) (hx : x ∈ xs) :
      (x.rows.filterMap (·.in? u)).filterMap (Row.heading? u) =
        [x.mark.heading].filter (·.table = u) := by
    have writes := h.writes x hx
    rw [Stored.rows, Write.rows, List.filterMap_cons, children_in_numbered hu]
    by_cases he : x.write.table = u
    · subst he
      simp [AnyRow.in?, writes.heading, writes.place.1]
    · have apart : x.mark.heading.table ≠ u := writes.place.1 ▸ he
      simp [AnyRow.in?, he, apart]
  rw [List.filterMap_flatMap, List.filterMap_flatMap, List.flatMap_congr each, ← h.marks,
    List.map_map, List.map_eq_flatMap, List.filter_flatMap]
  rfl

theorem file_of_mem {u : Table} (hu : u.isNumbered = true) {r : Row u}
    (hr : r ∈ (xs.flatMap Stored.rows).filterMap (·.in? u)) :
    ∃ cells, Row.key u r = .ofId file :: cells := by
  obtain ⟨x, hx, hr⟩ := List.mem_flatMap.mp (AnyRow.mem_of_in? hr)
  obtain he | hr := List.mem_cons.mp hr
  · have key := congrArg (fun x : AnyRow => Row.key x.table x.row) he
    exact ⟨x.write.place, by rw [key, x.write.key_row, (h.writes x hx).place.2.1]⟩
  · have numbered := (x.write.children_children _ _ hr).2
    rw [hu] at numbered
    cases numbered

/-- The rows of a node below its own are all that there are with its number. -/
theorem rows_numbered (hs : s.store.Sound) {x : Stored} (hx : x ∈ xs) {u : Table}
    (hu : u.owner = x.write.table) (hn : u.isNumbered = false) :
    (s'.store.rows u).filter (fun r => Row.number u r = x.number) =
      (x.write.children x.number).filterMap (·.in? u) := by
  have written : Written u := .of_owner (hu.trans (h.writes x hx).place.1)
  have rows := h.rows u written
  have isNew := h.isNew x hx
  have ordered := h.ordered
  obtain ⟨before, after, rfl⟩ := List.append_of_mem hx
  obtain ⟨-, later, earlier⟩ := List.pairwise_append.mp ordered
  have old : (s.store.rows u).filter (fun r => Row.number u r = x.number) = [] := by
    refine List.filter_eq_nil_iff.mpr fun r hr he => ?_
    have number : Row.number u r = x.number := by simpa using he
    obtain ⟨r', hr', hn'⟩ := Store.has_iff.mp (hs.references u r hr _ (Row.owner_mem_references r hn))
    have := Store.number_lt_nextNumber hr'
    rw [← hu] at isNew
    omega
  have others (ys : List Stored)
      (hy : ∀ y ∈ ys, y.write.table = x.write.table → y.number ≠ x.number) :
      ((ys.flatMap Stored.rows).filterMap (·.in? u)).filter
        (fun r => Row.number u r = x.number) = [] := by
    refine List.filter_eq_nil_iff.mpr fun r hr he => ?_
    have number : Row.number u r = x.number := by simpa using he
    obtain ⟨y, hy', hr⟩ := List.mem_flatMap.mp (AnyRow.mem_of_in? hr)
    obtain ⟨owner, same⟩ := y.of_mem_rows hn hr
    exact hy y hy' (owner.symm.trans hu) (same.symm.trans number)
  have own : (x.rows.filterMap (·.in? u)).filter (fun r => Row.number u r = x.number) =
      x.rows.filterMap (·.in? u) := by
    refine List.filter_eq_self.mpr fun r hr => ?_
    simpa using (x.of_mem_rows hn (AnyRow.mem_of_in? hr)).2
  have head : x.rows.filterMap (·.in? u) = (x.write.children x.number).filterMap (·.in? u) := by
    have apart : AnyRow.in? ⟨x.write.table, x.write.row x.number⟩ u = none := by
      refine dif_neg fun he => ?_
      have numbered : x.write.table.isNumbered = true := by cases x.write <;> rfl
      rw [show x.write.table = u from he, hn] at numbered
      cases numbered
    rw [Stored.rows, Write.rows, List.filterMap_cons, apart]
  rw [rows, List.filter_append, old, List.flatMap_append, List.flatMap_cons, List.filterMap_append,
    List.filterMap_append, List.filter_append, List.filter_append, own, others before, others after,
    head]
  · simp
  · intro y hy same
    have := (List.pairwise_cons.mp later).1 y hy same.symm
    omega
  · intro y hy same
    have := earlier y hy x List.mem_cons_self same
    omega

theorem numberAt (hs : s'.store.Sound) {x : Stored} (hx : x ∈ xs) :
    s'.store.numberAt? file x.mark.heading = some x.number := by
  have writes := h.writes x hx
  obtain ⟨table, hfile, place⟩ := writes.place
  have there : x.write.row x.number ∈ s'.store.rows x.write.table := by
    rw [h.rows _ writes.written]
    have new : (⟨x.write.table, x.write.row x.number⟩ : AnyRow) ∈ xs.flatMap Stored.rows :=
      List.mem_flatMap.mpr ⟨x, hx, List.mem_cons_self⟩
    exact List.mem_append_right _ (List.mem_filterMap.mpr ⟨_, new, by simp [AnyRow.in?]⟩)
  rw [hs.numberAt?_eq table there (by rw [x.write.key_row, hfile, place]), x.write.number_row]

/-- A node has its rows. -/
theorem row (hs : s.store.Sound) (hs' : s'.store.Sound) {m : Mark} (hm : m ∈ marks) :
    ∃ w n, m.Writes p root s'.store file w ∧ s'.store.numberAt? file m.heading = some n ∧
      ∀ u : Table, u.owner = w.table → u.isNumbered = false →
        (s'.store.rows u).filter (fun r => Row.number u r = n) =
          (w.children n).filterMap (·.in? u) := by
  rw [← h.marks] at hm
  obtain ⟨x, hx, rfl⟩ := List.mem_map.mp hm
  exact ⟨x.write, x.number, h.writes x hx, h.numberAt hs' hx,
    fun u hu hn => h.rows_numbered hs hx hu hn⟩

/-- Among the rows of one table, that of a node comes after those of what stands before it. -/
theorem before (hs' : s'.store.Sound) {earlier below after : List Mark} {m : Mark}
    (hm : marks = earlier ++ (below ++ m :: after)) {m' : Mark} (hb : m' ∈ below)
    (ht : m'.heading.table = m.heading.table) : ∃ i j,
      s'.store.numberAt? file m'.heading = some i ∧ s'.store.numberAt? file m.heading = some j ∧
        i < j := by
  have same := h.marks.trans hm
  obtain ⟨xs₁, rest, rfl, -, same⟩ := List.map_eq_append_iff.mp same
  obtain ⟨xs₂, rest, rfl, hb', same⟩ := List.map_eq_append_iff.mp same
  obtain ⟨x, xs₃, rfl, rfl, -⟩ := List.map_eq_cons_iff.mp same
  rw [← hb'] at hb
  obtain ⟨x', hx', rfl⟩ := List.mem_map.mp hb
  have mem' : x' ∈ xs₁ ++ (xs₂ ++ x :: xs₃) := by simp [hx']
  have mem : x ∈ xs₁ ++ (xs₂ ++ x :: xs₃) := by simp
  have tables : x'.write.table = x.write.table := by
    rw [(h.writes x' mem').place.1, (h.writes x mem).place.1, ht]
  have ordered := (List.pairwise_append.mp (List.pairwise_append.mp h.ordered).2.1).2.2
  exact ⟨_, _, h.numberAt hs' mem', h.numberAt hs' mem, ordered x' hx' x List.mem_cons_self tables⟩

end Entered
end Depth
end AccessDepth
