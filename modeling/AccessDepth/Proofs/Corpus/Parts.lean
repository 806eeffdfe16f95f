import AccessDepth.Proofs.Corpus
import AccessDepth.Proofs.Plan.Completion

/-!
# AccessDepth.Proofs.Corpus.Parts

The passes over a corpus as parts that are made side by side.

* `Corpus.parts` — the code of each directory in each pass. The depths wait for all definitions.
* `Corpus.Agrees.orderly` — the parts of a corpus whose packages agree are orderly.
* `Reached.fill` — parts that are settled count as made.
* `Reached.content_perm_of_whole` — two stores after all parts have the same content.
-/

namespace AccessDepth

open Plan (Op Parts)

/-! ## Parts that are made -/

theorem Plan.run_flatMap_settled {α : Type} {f : α → List Op} {xs : List α} {s : Store}
    (h : ∀ x ∈ xs, run (f x) ⟨s, []⟩ = .ok ⟨s, []⟩) : run (xs.flatMap f) ⟨s, []⟩ = .ok ⟨s, []⟩ := by
  induction xs with
  | nil => rfl
  | cons x xs ih =>
    rw [List.flatMap_cons, run_append_of_ok (h x List.mem_cons_self)]
    exact ih fun y hy => h y (List.mem_cons_of_mem x hy)

namespace Plan.Parts

variable {ι : Type} [DecidableEq ι] {P : Parts ι} {π π' : ι → Nat} {s s' : Store}

def Whole (P : Parts ι) (π : ι → Nat) : Prop := ∀ d, (P.code d).length ≤ π d

/-- Parts that are settled count as made. -/
theorem Reached.fill (h : P.Reached π s) (hc : ∀ d, ∀ o ∈ P.code d, o.Closed) {ds : List ι}
    (due : ∀ d ∈ ds, P.Due π d) (hs : ∀ d ∈ ds, run (P.code d) ⟨s, []⟩ = .ok ⟨s, []⟩) :
    ∃ π', P.Reached π' s ∧ (∀ d, π d ≤ π' d) ∧ ∀ d ∈ ds, (P.code d).length ≤ π' d := by
  induction ds generalizing π with
  | nil => exact ⟨π, h, fun _ => Nat.le_refl _, fun d hd => by cases hd⟩
  | cons d ds ih =>
    have made := h.extend hc (due d List.mem_cons_self) (Nat.le_refl _)
      (by rw [List.take_length]; exact hs d List.mem_cons_self)
    have more : ∀ e, π e ≤ Function.update π d (max (π d) (P.code d).length) e :=
      le_update (Nat.le_max_left _ _)
    obtain ⟨π', hr, hle, whole⟩ := ih made
      (fun e he => (due e (List.mem_cons_of_mem d he)).mono more)
      fun e he => hs e (List.mem_cons_of_mem d he)
    refine ⟨π', hr, fun e => Nat.le_trans (more e) (hle e), fun e he => ?_⟩
    obtain rfl | he := List.mem_cons.mp he
    · have here := hle e
      rw [Function.update_self] at here
      exact Nat.le_trans (Nat.le_max_right _ _) here
    · exact whole e he

/-- Two stores after all parts have the same content. -/
theorem Reached.content_perm_of_whole (hP : P.Orderly) (h : P.Reached π s) (h' : P.Reached π' s')
    (hw : P.Whole π) (hw' : P.Whole π') (u : Table) : (s.content u).Perm (s'.content u) := by
  have same : π = π' := funext fun d =>
    (Nat.le_antisymm (h.le_length d) (hw d)).trans (Nat.le_antisymm (hw' d) (h'.le_length d))
  exact h.content_perm hP (same ▸ h') u

end Plan.Parts

/-! ## Passes over a corpus -/

theorem Mode.phases_apart {mode m m' : Mode} (h : m ∈ mode.phases)
    (h' : m' ∈ mode.phases) : m = m' ∨ m = .defs ∧ m' = .depth ∨ m' = .defs ∧ m = .depth := by
  cases mode <;> simp only [Mode.phases, List.mem_cons, List.not_mem_nil, or_false] at h h' <;>
    rcases h with rfl | rfl <;> rcases h' with rfl | rfl <;> simp

theorem Mode.defs_first {mode : Mode} {later : List Mode} (h : .depth :: later <:+ mode.phases) :
    Mode.defs ∉ Mode.depth :: later := by
  cases mode <;> simp [Mode.phases, List.suffix_cons_iff] at h <;> simp [h]

theorem Mode.loadMode_of_mem {mode m : Mode} (h : m ∈ mode.phases) : m.loadMode = mode.loadMode := by
  cases mode <;> cases m <;> simp [Mode.phases] at h ⊢ <;> rfl

theorem Mode.phases_nodup (mode : Mode) : mode.phases.Nodup := by cases mode <;> decide

theorem Plan.Op.Of.table_mem {p : Package} {path : Path} {tables : List Table} {o : Op}
    (h : o.Of p path tables) : o.table = .files ∨ o.table = .types ∨ o.table ∈ tables := by
  cases h with
  | file => exact .inl rfl
  | type => exact .inr (.inl rfl)
  | record _ ht => exact .inr (.inr ht)

namespace Corpus

variable {c : Corpus} {modes : List Mode} {mode : Mode} {x : Mode × Path} {o : Op}

/-- The code of each directory in each pass. The depths wait for all definitions. -/
def parts (c : Corpus) (modes : List Mode) : Parts (Mode × Path) where
  code x := if x.1 ∈ modes ∧ x.2 ∈ c.dirs then c.code x else []
  prior x y := x.1 = .defs ∧ y.1 = .depth

theorem parts_code (hm : x.1 ∈ modes) (hd : x.2 ∈ c.dirs) : (c.parts modes).code x = c.code x :=
  if_pos ⟨hm, hd⟩

theorem mem_parts (ho : o ∈ (c.parts modes).code x) :
    (x.1 ∈ modes ∧ x.2 ∈ c.dirs) ∧ o ∈ c.code x := by
  by_cases h : x.1 ∈ modes ∧ x.2 ∈ c.dirs
  · exact ⟨h, parts_code h.1 h.2 ▸ ho⟩
  · simp [parts, h] at ho

theorem code_append {d : Path} {before after : List Package} {p : Package}
    (h : c.packages d = before ++ p :: after) : c.code (mode, d) =
      before.flatMap (·.code c.root mode) ++ (p.code c.root mode ++
        after.flatMap (·.code c.root mode)) := by
  rw [Corpus.code, h, List.flatMap_append, List.flatMap_cons]

/-- The parts of a corpus whose packages agree are orderly. -/
theorem Agrees.orderly (h : c.Agrees) (mode : Mode) : (c.parts mode.phases).Orderly where
  closed x o ho := by
    obtain ⟨⟨-, hd⟩, ho⟩ := mem_parts ho
    obtain ⟨p, hp, f, -, ho⟩ := code_of ho
    exact ho.closed (h.closed p ⟨x.2, hd, hp⟩)
  alike t ht t' ht' := by
    have exported {t : TypeTable}
        (ht : ∃ x ref, .type t ref ∈ (c.parts mode.phases).code x) :
        ∃ p, c.Exports p ∧ p.types = t := by
      obtain ⟨x, ref, ho⟩ := ht
      obtain ⟨⟨-, hd⟩, ho⟩ := mem_parts ho
      exact (h.code_type hd ho).1
    exact h.alike t (exported ht) t' (exported ht')
  prepared x := by
    unfold parts
    dsimp only
    split
    · exact Plan.prepared_flatMap fun p _ => p.code_prepared c.root x.1
    · trivial
  apart x x' a item a' item' ho ho' hpath := by
    obtain ⟨m, d⟩ := x
    obtain ⟨m', d'⟩ := x'
    obtain ⟨⟨hm, hd⟩, ho⟩ := mem_parts ho
    obtain ⟨⟨hm', hd'⟩, ho'⟩ := mem_parts ho'
    obtain ⟨p, hp, f, hf, ho⟩ := code_of ho
    obtain ⟨p', hp', f', hf', ho'⟩ := code_of ho'
    have path : f.path = f'.path :=
      (Plan.of_record.mp ho).1.symm.trans ((congrArg Path.mk hpath).trans (Plan.of_record.mp ho').1)
    obtain rfl := h.apart d hd d' hd' p hp p' hp' f hf f' hf' path
    obtain rfl | early | late := Mode.phases_apart hm hm'
    · exact .inl rfl
    · exact .inr (.inl early)
    · exact .inr (.inr late)
  separate x x' o o' ho ht ho' ht' := by
    obtain ⟨⟨hm, -⟩, ho⟩ := mem_parts ho
    obtain ⟨⟨hm', -⟩, ho'⟩ := mem_parts ho'
    obtain ⟨p, -, f, -, ho⟩ := code_of ho
    obtain ⟨p', -, f', -, ho'⟩ := code_of ho'
    have tables := ho.table_mem
    have tables' := ho'.table_mem
    rw [ht] at tables
    rw [ht'] at tables'
    have single : ∀ m ∈ mode.phases, m ≠ Mode.all := by cases mode <;> simp [Mode.phases]
    have defs : ∀ m : Mode, m ≠ .all → Table.variables ∈ m.tables → m = .defs := by
      intro m
      cases m <;> simp [Mode.tables, Definitions.tables, Depth.tables]
    have depth : ∀ m : Mode, m ≠ .all → Table.expressions ∈ m.tables → m = .depth := by
      intro m
      cases m <;> simp [Mode.tables, Definitions.tables, Depth.tables]
    exact ⟨defs _ (single _ hm) (by simpa using tables),
      depth _ (single _ hm') (by simpa using tables')⟩

end Corpus
end AccessDepth
