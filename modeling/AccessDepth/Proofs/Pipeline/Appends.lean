import AccessDepth.Proofs.Run.Reopening

/-!
# AccessDepth.Proofs.Pipeline.Appends

What a pass adds to its log, whatever was in it.

* `Ledger.appendAll` — some paths are added one after the other. `leadsTo_of_appendAll`: their lines
  are at the end.
* `Ledger.Ended` — the last line of a text has its end. `Ledger.IsEnded`: so it is in a log, if there
  is one. `IsEnded.of_other`: and still is after a pass that adds to another log.
* `Ledger.any_paths_ended` — then the lines that are added tell of their paths, and those before of
  the same paths as ever.
-/

namespace AccessDepth
namespace Ledger

/-- Adds paths at the end of a log, one after the other. -/
def appendAll (log : Path) : List Path → Disk.Change
  | [] => pure ()
  | dir :: dirs => do
    append log dir
    appendAll log dirs

variable {log dir : Path} {name : String} {dirs dirs' : List Path} {d d' d'' : Disk}

theorem appendAll_append (h : appendAll log dirs d = .ok () d') :
    appendAll log (dirs ++ dirs') d = appendAll log dirs' d' := by
  induction dirs generalizing d with
  | nil =>
    cases h
    rfl
  | cons dir dirs ih =>
    unfold appendAll at h
    obtain ⟨u, d₁, first, rest⟩ := bind_eq_ok.mp h
    rw [List.cons_append, appendAll, bind_of_ok first]
    exact ih rest

theorem appendAll_snoc (h : appendAll log dirs d = .ok () d')
    (ha : append log dir d' = .ok () d'') : appendAll log (dirs ++ [dir]) d = .ok () d'' := by
  rw [appendAll_append h, appendAll, bind_of_ok ha]
  rfl

/-- What was in the log is still there, and the lines of the paths are after it. -/
theorem leadsTo_of_appendAll (hn : log.EndsIn name) {old : ByteArray}
    (hl : d.LeadsTo log (some old)) (h : appendAll log dirs d = .ok () d') :
    d'.LeadsTo log (some (old ++ (String.ofList (text dirs)).toUTF8)) := by
  induction dirs generalizing d old with
  | nil =>
    cases h
    have nothing : (String.ofList (text [])).toUTF8 = .empty := rfl
    rw [nothing, ByteArray.append_empty]
    exact hl
  | cons dir dirs ih =>
    unfold appendAll at h
    obtain ⟨u, d₁, first, rest⟩ := bind_eq_ok.mp h
    obtain ⟨old', hold, hnew, -⟩ := Disk.append_ok hn first
    obtain rfl := hl.unique hold
    have split : (String.ofList (text (dir :: dirs))).toUTF8 =
        (String.ofList (line dir)).toUTF8 ++ (String.ofList (text dirs)).toUTF8 := by
      simp [text, String.toUTF8]
    rw [split, ← ByteArray.append_assoc]
    exact ih hnew rest

theorem leadsTo_some_of_prepare (hn : log.EndsIn name) (h : prepare log d = .ok () d') :
    ∃ old, d'.LeadsTo log (some old) := by
  obtain ⟨d₁, -, ha⟩ := prepare_ok h
  obtain ⟨old, -, hnew, -⟩ := Disk.append_ok hn ha
  exact ⟨_, hnew⟩

/-- What a log holds, it still holds when it was prepared. -/
theorem read_of_prepare (hn : log.EndsIn name) {done : List Path} (hr : read d log = .ok done)
    (h : prepare log d = .ok () d') : done = [] ∨ read d' log = .ok done := by
  obtain ⟨d₁, hc, ha⟩ := prepare_ok h
  unfold read at hr
  cases ht : d.readText log with
  | error e =>
    rw [ht] at hr
    cases e <;> cases hr
    exact .inl rfl
  | ok content =>
    rw [ht] at hr
    refine .inr ?_
    cases hb : d.read log with
    | error e =>
      simp only [Disk.readText, hb, bind, Except.bind] at ht
      cases ht
    | ok bytes =>
      have there := (Disk.leadsTo_of_read hb).of_grows (Disk.createParents_ok hc)
      obtain ⟨old, hold, hnew, -⟩ := Disk.append_ok hn ha
      obtain rfl := there.unique hold
      rw [Option.getD_some, ByteArray.append_empty] at hnew
      have same : d'.readText log = .ok content := by
        rw [← ht]
        simp only [Disk.readText, hnew.read, hb]
      unfold read
      rw [same]
      exact hr

/-! ## Reading the lines back -/

/-- A text whose last line, if there is one, has its end. -/
def Ended (cs : List Char) : Prop := cs = [] ∨ ∃ before, cs = before ++ ['\n']

theorem lines_append_of_ended {cs : List Char} (h : Ended cs) (ds : List Char) :
    lines (cs ++ ds) = lines cs ++ lines ds := by
  obtain rfl | ⟨before, rfl⟩ := h
  · rfl
  · rw [List.append_assoc]
    exact lines_append before ds

/-- When the directories above a log have been made, there is no log or its last line has its end. -/
def IsEnded (d : Disk) (log : Path) : Prop :=
  ∀ d', Disk.createParents log d = .ok () d' → ∀ bytes, d'.read log = .ok bytes →
    ∃ cs, Ended cs ∧ bytes = (String.ofList cs).toUTF8

theorem IsEnded.prepare (h : IsEnded d log) (hn : log.EndsIn name)
    (hp : prepare log d = .ok () d') :
    ∃ cs, Ended cs ∧ d'.read log = .ok (String.ofList cs).toUTF8 := by
  obtain ⟨d₁, made, emptied⟩ := prepare_ok hp
  obtain ⟨old, hold, hnew, -⟩ := Disk.append_ok hn emptied
  rw [append_empty] at hnew
  cases old with
  | none => exact ⟨[], .inl rfl, hnew.read⟩
  | some bytes =>
    obtain ⟨cs, ended, rfl⟩ := h d₁ made bytes hold.read
    exact ⟨cs, ended, hnew.read⟩

section

variable {c : Settings} {m m' : Mode}

theorem keepsNames_of_appendAll (h : appendAll (c.logPath m) dirs d = .ok () d') (hm : m ≠ m') :
    d.KeepsNames m'.otherLogs d' := by
  induction dirs generalizing d with
  | nil =>
    cases h
    exact (Disk.Grows.refl _).keepsNames
  | cons dir dirs ih =>
    unfold appendAll at h
    obtain ⟨_, d₁, first, rest⟩ := bind_eq_ok.mp h
    exact (keepsNames_of_append first hm).trans (ih rest)

/-- What is added to another log does not matter. -/
theorem IsEnded.of_other (h : IsEnded d (c.logPath m')) (hm : m ≠ m')
    (hp : Ledger.prepare (c.logPath m) d = .ok () d')
    (ha : appendAll (c.logPath m) dirs d' = .ok () d'') : IsEnded d'' (c.logPath m') := by
  intro d₃ hc bytes hr
  obtain ⟨d₁, made, emptied⟩ := prepare_ok hp
  have parents : Disk.createParents (c.logPath m') d = .ok () d₁ := by
    unfold Disk.createParents at made ⊢
    rwa [c.logPath_parent? m' m]
  have keeps : d₁.KeepsNames m'.otherLogs d'' :=
    (keepsNames_of_append emptied hm).trans (keepsNames_of_appendAll ha hm)
  have above : d''.Above (c.logPath m') :=
    (Disk.createParents_above parents).of_dirs keeps.start keeps.dirs
  cases (Disk.createParents_of_above above).symm.trans hc
  refine h d₁ parents bytes ?_
  obtain ⟨y, hy, he⟩ := Disk.leadsTo_of_read hr
  obtain ⟨old, ⟨x, hx, -⟩, -⟩ := Disk.append_ok (c.logPath_endsIn m) emptied
  have short : m'.logName.utf8ByteSize ≤ Disk.nameLimit := by cases m' <;> decide
  obtain ⟨q, hq⟩ := Disk.place_sibling m.isName_logName.1 m'.isName_logName short hx hy
  cases (Disk.place_of_dirs keeps.start keeps.dirs hq).symm.trans hy
  have there : d₁.root.at? (q ++ [m'.logName]) = some (.file bytes) := by
    obtain (same | ⟨_, _, -, dir⟩) | ⟨-, _, dir⟩ :=
      keeps.kept q m'.logName (by simp [Mode.logName_mem_otherLogs])
    · exact same.symm.trans he
    · cases he.symm.trans dir
    · cases he.symm.trans dir
  exact Disk.LeadsTo.read ⟨_, hq, there⟩

end

/-- Lines after the end of a line tell of their paths, and what is before them tells of the same
paths as it did. -/
theorem any_paths_ended {cs : List Char} (hc : Ended cs)
    (hd : ∀ p ∈ dirs, p.IsLine ∧ p.text.toList ≠ []) (p : Path) :
    (paths (cs ++ text dirs)).any p.same = ((paths cs).any p.same || dirs.any p.same) := by
  have told : (dirs.flatMap fun d => lines (line d)).filterMap pathOf? = dirs := by
    clear hc
    induction dirs with
    | nil => rfl
    | cons q qs ih =>
      obtain ⟨here, rest⟩ := List.forall_mem_cons.mp hd
      rw [List.flatMap_cons, List.filterMap_append, filterMap_line_of_ne here.1 here.2, ih rest]
      rfl
  simp only [paths, any_foldl_addNew, lines_append_of_ended hc, lines_text, List.filterMap_append,
    told, List.any_append, List.any_nil, Bool.false_or]

end Ledger
end AccessDepth
