import AccessDepth.Proofs.Depth.Ends
import AccessDepth.Proofs.DepthPass
import AccessDepth.Proofs.Idempotence
import AccessDepth.Proofs.Steps

/-!
# AccessDepth.Proofs.Passes

What holds of the rows of the expressions, whatever is analyzed and wherever it stops.

* `Invariant` — something that holds of a store is kept by rows of other tables, and by recording a
  node that is given.
* `Invariant.analyze`, `Contexts.calls_keep` — so it is kept by analyses, one after the other.
-/

namespace AccessDepth

open Plan (Around Write)
open Session (Ready LeadsTo)

theorem Depth.Supply.quiet {u : Table} (h : Depth.Supply u) : Quiet u := by
  rcases h with h | h <;> simp [Quiet, h]

/-! ## Invariants -/

/-- Something that holds of a store, and that is kept when rows of other tables are added and when a
given node is recorded as an expression. -/
structure Invariant (given : Package → Path → Depth.Mark → Prop) where
  Holds : Store → Prop
  quiet : ∀ {s s'}, s.Sound → Inserts Quiet s s' → Holds s → Holds s'
  records : ∀ {p root m file x detail access s s'}, given p root m → s.Sound →
    s.IsFile file m.around.path → m.Writes p root s file (.expr x detail access) →
    (Write.expr x detail access).record s = .ok ((), s') → Holds s → Holds s'

namespace Invariant

variable {given : Package → Path → Depth.Mark → Prop} (I : Invariant given)

/-- A session has come to another one where the invariant holds. -/
structure Kept (root : Path) (s s' : Session) : Prop where
  ready : Ready s'
  root : s'.corpusRoot = root
  le : s.store ≤ s'.store
  holds : I.Holds s'.store

/-- A computation keeps an invariant, whether it succeeds or fails. -/
structure KeptBy {α : Type} (root : Path) (a : Analyze α) : Prop where
  ends : ∀ s, Ready s → s.corpusRoot = root → I.Holds s.store →
    a.Ends s (fun _ => I.Kept root s) fun _ => I.Kept root s

variable {I} {α β : Type} {root : Path} {p : Package} {file : FileId} {P : Table → Prop}
  {s s' : Session}

theorem kept_of_leadsTo (hr : s.corpusRoot = root) (h : LeadsTo P s s') (hi : I.Holds s'.store) :
    I.Kept root s s' :=
  ⟨h.ready, h.root.trans hr, h.inserts.le, hi⟩

theorem keptBy_pure (x : α) : I.KeptBy root (pure x) :=
  ⟨fun _ hs hr hi => Analyze.ends_pure ⟨hs, hr, le_refl _, hi⟩⟩

theorem KeptBy.bind {a : Analyze α} {f : α → Analyze β} (h : I.KeptBy root a)
    (hf : ∀ x, I.KeptBy root (f x)) : I.KeptBy root (a >>= f) where
  ends s hs hr hi := by
    refine (h.ends s hs hr hi).bind fun x s₁ kept => ?_
    have rest := (hf x).ends s₁ kept.ready kept.root kept.holds
    have both {s₂ : Session} (h : I.Kept root s₁ s₂) : I.Kept root s s₂ :=
      ⟨h.ready, h.root, le_trans kept.le h.le, h.holds⟩
    exact rest.mono (fun _ _ h => both h) fun _ _ h => both h

theorem holds_of_leadsTo (hs : Ready s) (h : LeadsTo Quiet s s') (hi : I.Holds s.store) :
    I.Holds s'.store :=
  I.quiet hs.sound h.inserts hi

theorem keptBy_of_steps {a : Analyze α} (h : Analyze.Steps Quiet (fun _ => True) a) :
    I.KeptBy root a where
  ends s hs hr hi := by
    have kept {s' : Session} (h : LeadsTo Quiet s s') : I.Kept root s s' :=
      kept_of_leadsTo hr h (holds_of_leadsTo hs h hi)
    exact (h.stays.ends s hs).mono (fun _ _ h => kept h) fun _ _ h => kept h

theorem holds_of_supply (hs : Ready s) (h : LeadsTo Depth.Supply s s') (hi : I.Holds s.store) :
    I.Holds s'.store :=
  holds_of_leadsTo hs (h.mono fun _ => Depth.Supply.quiet) hi

theorem holds_of_visits {m : Depth.Mark} (hs : Ready s) (hm : given p root m)
    (h : Depth.Visits p root file m s s') (hi : I.Holds s.store) : I.Holds s'.store := by
  obtain ⟨supplied, hf, hw, hrec, later⟩ := h
  have hi₁ := holds_of_supply hs supplied hi
  cases hw with
  | expr item types detail access =>
    exact I.records hm supplied.ready.sound hf (.expr item types detail access) hrec hi₁
  | stmt =>
    refine holds_of_leadsTo supplied.ready (later.mono fun u hu => ?_) hi₁
    simp [Quiet, hu, Plan.Write.table]

theorem holds_of_trail {marks : List Depth.Mark} (hs : Ready s) (hm : ∀ m ∈ marks, given p root m)
    (h : Depth.Trail p root file marks s s') (hi : I.Holds s.store) : I.Holds s'.store := by
  induction h with
  | nil => exact hi
  | cons first _ ih =>
    have next := holds_of_visits hs (hm _ List.mem_cons_self) first hi
    exact ih first.leadsTo.ready (fun m h => hm m (List.mem_cons_of_mem _ h)) next

theorem holds_of_stopsWithin {marks : List Depth.Mark} {f : Failure} (hs : Ready s)
    (hm : ∀ m ∈ marks, given p root m) (h : Depth.StopsWithin p root file marks s f s')
    (hi : I.Holds s.store) : I.Holds s'.store := by
  obtain ⟨done, m, rest, s₁, rfl, trail, stops⟩ := h
  have hi₁ := holds_of_trail hs (fun m h => hm m (List.mem_append_left _ h)) trail hi
  exact holds_of_supply (trail.leadsTo hs).ready stops.leadsTo hi₁

theorem depth {f : SourceFile} (hf : ∀ m ∈ f.marks p, given p root m) :
    I.KeptBy root (Depth.run p f) where
  ends s hs hr hi := by
    refine (Depth.run_ends hs hr f).mono ?_ ?_
    · rintro _ s' ⟨file, s₁, supplied, -, trail⟩
      have later := (supplied.mono fun _ => .inl).trans (trail.leadsTo supplied.ready)
      have hi₁ := holds_of_supply hs supplied hi
      exact kept_of_leadsTo hr later (holds_of_trail supplied.ready hf trail hi₁)
    · rintro e s' (⟨supplied, -⟩ | ⟨file, s₁, supplied, -, stops⟩)
      · exact kept_of_leadsTo hr supplied (holds_of_supply hs supplied hi)
      · have later := (supplied.mono fun _ => .inl).trans (stops.leadsTo supplied.ready)
        have hi₁ := holds_of_supply hs supplied hi
        exact kept_of_leadsTo hr later (holds_of_stopsWithin supplied.ready hf stops hi₁)

/-- An analysis keeps an invariant of the nodes of its package. -/
theorem analyze {mode : Mode} (hp : mode.makesDepths = true → ∀ m ∈ p.marks, given p root m) :
    I.KeptBy root (AccessDepth.analyze p mode) := by
  refine KeptBy.bind (makePasses_good (keptBy_pure _) (fun _ _ ha hb => ha.bind fun _ => hb)
    fun pass hpass f hf => ?_) fun _ => keptBy_pure _
  obtain rfl | ⟨rfl, makes⟩ | rfl | rfl := Mode.of_mem_passes hpass
  · exact keptBy_of_steps ((Definitions.run_steps trivial).mono fun _ h => h.quiet)
  · exact depth fun m hm => hp makes m (List.mem_flatMap.mpr ⟨f, hf, hm⟩)
  · exact keptBy_of_steps (Allocation.containers_steps trivial)
  · exact keptBy_of_steps (Allocation.sizes_steps trivial)

end Invariant

/-! ## Calls -/

namespace Contexts

variable {ι : Type} [DecidableEq ι] {w : Contexts ι}

/-- Whether a node was given to the depth pass of one of some calls, with the root of its context. -/
def Given (w : Contexts ι) (cs : List (Call ι)) (p : Package) (root : Path) (m : Depth.Mark) :
    Prop :=
  ∃ c ∈ cs, c.mode.makesDepths = true ∧ p = c.package ∧
    root = (w.context c.context).corpusRoot ∧ m ∈ p.marks

section

variable {given : Package → Path → Depth.Mark → Prop}

/-- Contexts have come to others whose store keeps the rules and an invariant. -/
structure Kept (I : Invariant given) (w w' : Contexts ι) : Prop where
  sound : w'.store.Sound
  coherent : w'.Coherent
  le : w.store ≤ w'.store
  root : ∀ i, (w'.context i).corpusRoot = (w.context i).corpusRoot
  holds : I.Holds w'.store

/-- A call, which may fail, keeps an invariant of the nodes that are given to it. -/
theorem call_keeps (I : Invariant given) (hs : w.store.Sound) (hc : w.Coherent) {c : Call ι}
    (hg : c.mode.makesDepths = true → ∀ m ∈ c.package.marks,
      given c.package (w.context c.context).corpusRoot m)
    (hi : I.Holds w.store) : Kept I w (w.call c) := by
  have kept : I.Kept (w.context c.context).corpusRoot (w.session c)
      ((analyze c.package c.mode).leaves (w.session c)) := by
    have keeps : I.KeptBy (w.context c.context).corpusRoot (analyze c.package c.mode) :=
      Invariant.analyze hg
    exact (keeps.ends (w.session c) ⟨hs, hc _ _⟩ rfl hi).leaves
  constructor
  case sound => exact kept.ready.sound
  case le => exact kept.le
  case holds => exact kept.holds
  case root =>
    intro i
    by_cases he : i = c.context
    · simp only [call, he, if_true, Context.ofSession]
      exact kept.root
    · simp only [call, he, if_false]
  case coherent =>
    intro i writesLeft
    by_cases he : i = c.context
    · simp only [call, he, if_true, Context.session_ofSession]
      exact kept.ready.coherent.grow (le_refl _) _
    · simp only [call, he, if_false]
      exact (hc i writesLeft).grow kept.le _

/-- Calls keep an invariant of the nodes that are given to them. -/
theorem calls_keep (I : Invariant given) (hs : w.store.Sound) (hc : w.Coherent)
    {cs : List (Call ι)} (hg : ∀ p root m, w.Given cs p root m → given p root m)
    (hi : I.Holds w.store) : Kept I w (w.calls cs) := by
  induction cs generalizing w with
  | nil => exact ⟨hs, hc, le_refl _, fun _ => rfl, hi⟩
  | cons c cs ih =>
    have first : Kept I w (w.call c) := call_keeps I hs hc
      (fun makes m hm => hg _ _ m ⟨c, List.mem_cons_self, makes, rfl, rfl, hm⟩) hi
    have rest : Kept I (w.call c) (w.calls (c :: cs)) := by
      refine ih first.sound first.coherent (fun p root m h => ?_) first.holds
      obtain ⟨d, hd, makes, rfl, rfl, hm⟩ := h
      exact hg _ _ m ⟨d, List.mem_cons_of_mem c hd, makes, rfl, first.root _, hm⟩
    exact ⟨rest.sound, rest.coherent, le_trans first.le rest.le,
      fun i => (rest.root i).trans (first.root i), rest.holds⟩

end

end Contexts
end AccessDepth
