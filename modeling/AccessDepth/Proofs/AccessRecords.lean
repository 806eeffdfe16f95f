import AccessDepth.Proofs.AccessRows
import AccessDepth.Proofs.Store.Refusal
import AccessDepth.Store.Report
import Mathlib.Data.Prod.Lex
import Mathlib.Data.String.Basic

/-!
# AccessDepth.Proofs.AccessRecords

What the listing of the accesses answers.

* `AccessRecord.place` — where a record stands in a listing.
* `Store.Lists` — records that tell the stored accesses, each of them once and with the place of its
  expression, in strictly increasing order.
* `Store.Sound.accessRecords_eq` — in a store that keeps the rules there are such records. They are
  the answer, unless the span of one of them ends before it starts.
* `Contexts.accesses_listed` — so it is after any analyses.
-/

namespace AccessDepth

namespace AccessRecord

/-- The path, start and end of a record, ordered by the first of them that differs. -/
def place (r : AccessRecord) : String ×ₗ Nat ×ₗ Nat ×ₗ Nat ×ₗ Nat :=
  toLex (r.file.text, toLex (r.span.startLine.toNat, toLex (r.span.startColumn.toNat,
    toLex (r.span.endLine.toNat, r.span.endColumn.toNat))))

def row (r : AccessRecord) : AccessRow :=
  { expr := r.expr, kind := r.kind, inner := r.inner, baseName := r.baseName,
    baseVariable := r.baseVariable, depth := r.depth, uncertainty := r.uncertainty }

variable {a b : AccessRecord}

theorem place_inj : a.place = b.place ↔ a.file.text = b.file.text ∧ a.span = b.span := by
  obtain ⟨_, _, ⟨sl, sc, el, ec⟩, _⟩ := a
  obtain ⟨_, _, ⟨sl', sc', el', ec'⟩, _⟩ := b
  simp [place, UInt32.toNat_inj]

theorem notAfter_iff : a.notAfter b = true ↔ a.place ≤ b.place := by
  have lt (x y : UInt32) : compare x y = .lt ↔ x.toNat < y.toNat :=
    Std.compare_eq_lt.trans UInt32.lt_iff_toNat_lt
  have eq (x y : UInt32) : compare x y = .eq ↔ x.toNat = y.toNat :=
    Std.LawfulEqOrd.compare_eq_iff_eq.trans UInt32.toNat_inj.symm
  unfold notAfter place
  simp only [Ordering.isLE_then_iff_or, Prod.Lex.toLex_le_toLex, compare_lt_iff_lt,
    compare_eq_iff_eq, lt, eq, Std.isLE_compare, UInt32.le_iff_toNat_le]

end AccessRecord

namespace Store

/-- The accesses of all files, or of the file that is stored under a path. -/
def accessesIn (s : Store) : Option Path → List AccessRow
  | none => s.accesses
  | some p => s.accesses.filter fun a => s.expressions.any fun e =>
      e.id == a.expr && s.fileNamed? p.text == some e.file

/-- The place of a record is that of its expression. -/
def Places (s : Store) (r : AccessRecord) : Prop :=
  ∃ e ∈ s.expressions, e.id = r.expr ∧ e.span = r.span ∧ ⟨e.file, r.file.text⟩ ∈ s.files

/-- The records of the accesses of all files or of one. -/
structure Lists (s : Store) (file : Option Path) (records : List AccessRecord) : Prop where
  /-- Every access has one record, and there are no others. -/
  rows : (records.map (·.row)).Perm (s.accessesIn file)
  places : ∀ r ∈ records, s.Places r
  increasing : records.Pairwise fun a b => a.place < b.place

namespace Sound

variable {s : Store} (hs : s.Sound)
include hs

/-- Every stored access has a record. -/
theorem accessRecord?_isSome {a : AccessRow} (ha : a ∈ s.accesses) :
    ∃ r, s.accessRecord? a = some r ∧ r.row = a ∧ s.Places r := by
  have own := hs.references .accesses a ha ⟨.expressions, a.expr.value⟩
    (by rw [Row.references_eq]; simp [Row.refs, Reference.to])
  obtain ⟨e₀, he₀, number⟩ := has_iff.mp own
  obtain ⟨e, he⟩ : ∃ e, s.expressions.find? (fun e => e.id == a.expr) = some e := by
    refine Option.isSome_iff_exists.mp (List.find?_isSome.mpr ⟨e₀, he₀, ?_⟩)
    exact beq_iff_eq.mpr (congrArg RowId.mk number)
  have hm := List.mem_of_find?_eq_some he
  have file := hs.references .expressions e hm ⟨.files, e.file.value⟩
    (by rw [Row.references_eq]; simp [Row.refs, Reference.to])
  obtain ⟨f₀, hf₀, number'⟩ := has_iff.mp file
  obtain ⟨f, hf⟩ : ∃ f, s.files.find? (fun f => f.id == e.file) = some f := by
    refine Option.isSome_iff_exists.mp (List.find?_isSome.mpr ⟨f₀, hf₀, ?_⟩)
    exact beq_iff_eq.mpr (congrArg RowId.mk number')
  have same : e.id = a.expr := by simpa using List.find?_some he
  have same' : f.id = e.file := by simpa using List.find?_some hf
  refine ⟨_, by rw [accessRecord?, he, Option.bind_eq_bind, Option.bind_some, hf]; rfl, rfl, e, hm,
    same, rfl, ?_⟩
  exact same' ▸ List.mem_of_find?_eq_some hf

theorem map_row_joined : (s.accesses.filterMap s.accessRecord?).map (·.row) = s.accesses := by
  rw [List.map_filterMap]
  refine (List.filterMap_congr fun a ha => ?_).trans List.filterMap_some
  obtain ⟨r, hr, hrow, -⟩ := hs.accessRecord?_isSome ha
  rw [hr, Option.map_some, hrow]

theorem places_of_mem {r : AccessRecord} (h : r ∈ s.accesses.filterMap s.accessRecord?) :
    s.Places r := by
  obtain ⟨a, ha, he⟩ := List.mem_filterMap.mp h
  obtain ⟨r', hr, -, hp⟩ := hs.accessRecord?_isSome ha
  cases hr.symm.trans he
  exact hp

/-- Whether an access lies in the file of a path can be told from its record. -/
theorem isIn_iff {r : AccessRecord} (h : s.Places r) (p : Path) :
    (s.expressions.any fun e => e.id == r.row.expr && s.fileNamed? p.text == some e.file) =
      (p.text == r.file.text) := by
  obtain ⟨e, he, hid, -, hf⟩ := h
  rw [Bool.eq_iff_iff, List.any_eq_true, beq_iff_eq]
  constructor
  · rintro ⟨e', he', same⟩
    simp only [Bool.and_eq_true, beq_iff_eq] at same
    have number : Row.number .expressions e' = Row.number .expressions e := by
      simp only [Row.number, same.1, hid, AccessRecord.row]
    obtain rfl := hs.eq_of_number (u := .expressions) rfl he' he number
    have there := hs.fileNamed?_iff.mp same.2
    have one := hs.eq_of_number (u := .files) rfl there hf rfl
    exact congrArg FileRow.path one
  · intro same
    refine ⟨e, he, ?_⟩
    simp [hid, AccessRecord.row, same, hs.fileNamed?_iff.mpr hf]

theorem expr_of_place {a b : AccessRecord} (ha : s.Places a) (hb : s.Places b)
    (h : a.place = b.place) : a.expr = b.expr := by
  obtain ⟨path, span⟩ := AccessRecord.place_inj.mp h
  obtain ⟨e, he, hid, hspan, hf⟩ := ha
  obtain ⟨e', he', hid', hspan', hf'⟩ := hb
  have file : e.file = e'.file := by
    rw [path] at hf
    exact congrArg FileRow.id (hs.eq_of_key (u := .files) hf hf' rfl)
  have key : Row.key .expressions e = Row.key .expressions e' := by
    simp only [Row.key, file, hspan, hspan', span]
  rw [← hid, ← hid', hs.eq_of_key (u := .expressions) he he' key]

/-- There is a listing of the accesses. It is the answer, unless the span of one of its records ends
before it starts; then the answer is the first such span. -/
theorem accessRecords_eq (file : Option Path) : ∃ records, s.Lists file records ∧
    s.accessRecords file =
      match records.find? fun r => !r.span.isOrdered with
      | some r => .error r.span
      | none => .ok records := by
  let joined := s.accesses.filterMap s.accessRecord?
  let chosen := joined.filter fun r => file.all fun p => p.text == r.file.text
  have rows : chosen.map (·.row) = s.accessesIn file := by
    cases file with
    | none =>
      rw [show chosen = joined from List.filter_eq_self.mpr fun _ _ => rfl]
      exact hs.map_row_joined
    | some p =>
      rw [accessesIn, ← hs.map_row_joined, List.filter_map]
      refine congrArg (List.map _) (List.filter_congr fun r hr => ?_)
      exact (hs.isIn_iff (hs.places_of_mem hr) p).symm
  have perm : (chosen.mergeSort AccessRecord.notAfter).Perm chosen := List.mergeSort_perm _ _
  have places : ∀ r ∈ chosen.mergeSort AccessRecord.notAfter, s.Places r := fun r hr =>
    hs.places_of_mem (List.mem_filter.mp (perm.subset hr)).1
  have told := rows ▸ perm.map AccessRecord.row
  refine ⟨chosen.mergeSort AccessRecord.notAfter, ⟨told, places, ?_⟩, rfl⟩
  have sorted : (chosen.mergeSort AccessRecord.notAfter).Pairwise fun a b => a.place ≤ b.place := by
    refine (List.pairwise_mergeSort (fun a b c hab hbc => ?_) (fun a b => ?_) chosen).imp
      AccessRecord.notAfter_iff.mp
    · rw [AccessRecord.notAfter_iff] at *
      exact le_trans hab hbc
    · rw [Bool.or_eq_true, AccessRecord.notAfter_iff, AccessRecord.notAfter_iff]
      exact le_total _ _
  have apart : (chosen.mergeSort AccessRecord.notAfter).Pairwise fun a b => a.expr ≠ b.expr := by
    have exprs : (s.accesses.map AccessRow.expr).Nodup := by
      refine List.Nodup.of_map (fun e => [Cell.ofId e]) ?_
      rw [List.map_map]
      exact hs.keys .accesses
    have here : ((s.accessesIn file).map AccessRow.expr).Nodup := by
      refine exprs.sublist (List.Sublist.map _ ?_)
      cases file with
      | none => exact .refl _
      | some p => exact List.filter_sublist
    have nodup := (told.map AccessRow.expr).nodup_iff.mpr here
    rw [List.map_map] at nodup
    exact List.pairwise_map.mp nodup
  refine (sorted.and apart).imp_of_mem fun ha hb h => ?_
  exact lt_of_le_of_ne h.1 fun same => h.2 (hs.expr_of_place (places _ ha) (places _ hb) same)

end Sound
end Store

namespace Contexts

variable {ι : Type} [DecidableEq ι] {w : Contexts ι}

/-- From an empty store, whatever is analyzed and wherever an analysis stops, the accesses of all files
or of one have a listing. It is the answer, unless the span of one of its records ends before it
starts; then the answer is the first such span. -/
theorem accesses_listed (hn : ∀ i, (w.context i).IsNew) (hw : w.store = .initial)
    (cs : List (Call ι)) (file : Option Path) : ∃ records, (w.calls cs).store.Lists file records ∧
      (w.calls cs).store.accessRecords file =
        match records.find? fun r => !r.span.isOrdered with
        | some r => .error r.span
        | none => .ok records :=
  (calls_rows hn hw (List.Subset.refl cs)).sound.accessRecords_eq file

/-- The small package, analyzed until some transactions are made and then again. -/
theorem accesses_sample_listed :
    let w : Contexts Unit := ⟨.initial, fun _ => ⟨⟨"corpus"⟩, .empty 4, .empty 1⟩⟩
    let cs : List (Call Unit) := [⟨(), .sample, .all, some 12⟩, ⟨(), .sample, .depth, none⟩]
    ∃ records, (w.calls cs).store.Lists none records ∧ records.length = 2 ∧
      (w.calls cs).store.accessRecords none =
        match records.find? fun r => !r.span.isOrdered with
        | some r => .error r.span
        | none => .ok records := by
  intro w cs
  have new (i : Unit) : (w.context i).IsNew := ⟨rfl, rfl⟩
  obtain ⟨records, lists, answer⟩ := accesses_listed new rfl cs none
  refine ⟨records, lists, ?_, answer⟩
  have stored : (w.calls cs).store.accesses.length = 2 := by decide +kernel
  rw [← List.length_map AccessRecord.row, lists.rows.length_eq]
  exact stored

end Contexts

/-- `var x = x`, where the second `x` ends before it starts. -/
def Package.backwards : Package where
  dir := ⟨"corpus"⟩
  name := "a"
  files := [⟨⟨"corpus/a.go"⟩, ⟨"a", ⟨1, 9, 1, 10⟩, none, none⟩,
    [.gen ⟨⟨2, 1, 2, 10⟩, .var, [.value ⟨2, 5, 2, 10⟩ [⟨"x", ⟨2, 5, 2, 6⟩, none, some 0⟩] none
      [⟨⟨2, 10, 2, 9⟩, none, .ident "x" (some 0)⟩]]⟩]⟩]
  types := ⟨#[]⟩
  objects := ⟨#[⟨"x", .var, some ⟨⟨"corpus/a.go"⟩, ⟨2, 5⟩⟩, none⟩]⟩
  diagnostics := []

/-- Not every stored access can be listed: one whose span ends before it starts makes the answer a
failure. -/
theorem Contexts.accesses_unlisted :
    let w : Contexts Unit := ⟨.initial, fun _ => ⟨⟨"corpus"⟩, .empty 4, .empty 4⟩⟩
    let store := (w.calls [⟨(), .backwards, .depth, none⟩]).store
    store.accesses.length = 1 ∧
      ∀ file ∈ [none, some ⟨"corpus/a.go"⟩], store.accessRecords file = .error ⟨2, 10, 2, 9⟩ := by
  intro w store
  have joined : store.accesses.filterMap store.accessRecord? =
      [{ expr := ⟨3⟩, file := ⟨"corpus/a.go"⟩, span := ⟨2, 10, 2, 9⟩, kind := .ident, depth := 0,
         uncertainty := 0, baseName := some "x", baseVariable := some .unknown, inner := none }] := by
    decide +kernel
  refine ⟨by decide +kernel, fun file hf => ?_⟩
  unfold Store.accessRecords
  simp only [List.mem_cons, List.not_mem_nil, or_false] at hf
  obtain rfl | rfl := hf <;> rw [joined] <;>
    simp [Span.isOrdered]

end AccessDepth
