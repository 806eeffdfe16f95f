import AccessDepth.Proofs.Disk
import AccessDepth.Proofs.Paths
import AccessDepth.Run.Ledger
import AccessDepth.Settings

/-!
# AccessDepth.Proofs.Ledger

Logs that are added to.

* `Path.child_endsIn`, `Settings.logPath_endsIn` — the logs of two modes are two files.
* `Ledger.text` — the lines of some paths.
* `Ledger.any_paths_text` — which paths a log of such lines holds does not depend on their order.
* `Disk.Blank` — a path leads to an empty file, or to nothing.
* `Ledger.prepare_ok`, `leadsTo_of_prepare`, `leadsTo_of_append` — what is done to a log and to the
  others.
-/

namespace AccessDepth

theorem Path.child_endsIn (p : Path) {name : String} (h : IsName name) :
    (p.child name).EndsIn name := by
  obtain ⟨slash, others⟩ := h
  obtain ⟨pieces, hp⟩ := p.pieces_child
  exact ⟨⟨pieces, hp slash⟩, others⟩

theorem Mode.isName_logName (m : Mode) : Path.IsName m.logName := by
  refine ⟨?_, ?_, ?_, ?_⟩ <;> cases m <;> decide

theorem Settings.logPath_endsIn (c : Settings) (m : Mode) : (c.logPath m).EndsIn m.logName :=
  Path.child_endsIn _ m.isName_logName

namespace Ledger

/-! ## Lines -/

theorem lines_cons {c : Char} (hc : c ≠ '\n') (cs : List Char) :
    lines (c :: cs) =
      if c = '\r' ∧ cs.head? = some '\n' then lines cs
      else
        match cs, lines cs with
        | [], _ => [[c]]
        | _ :: _, [] => [[c]]
        | _ :: _, l :: ls => (c :: l) :: ls := by
  rw [lines.eq_def]
  split
  · rename_i h
    cases h
  · rename_i h
    cases h
    exact absurd rfl hc
  · rename_i h
    cases h
    rfl

theorem lines_ne_nil {cs : List Char} (h : cs ≠ []) : lines cs ≠ [] := by
  induction cs with
  | nil => exact absurd rfl h
  | cons c cs ih =>
    by_cases hc : c = '\n'
    · subst hc
      simp [lines]
    · rw [lines_cons hc]
      split
      · rename_i hr
        refine ih ?_
        rintro rfl
        cases hr.2
      · split <;> simp

/-- What comes after the end of a line has lines of its own. -/
theorem lines_append (cs ds : List Char) :
    lines (cs ++ '\n' :: ds) = lines (cs ++ ['\n']) ++ lines ds := by
  induction cs with
  | nil => rfl
  | cons c cs ih =>
    rw [List.cons_append, List.cons_append]
    by_cases hc : c = '\n'
    · subst hc
      simp only [lines, ih, List.cons_append]
    · have head : (cs ++ '\n' :: ds).head? = (cs ++ ['\n']).head? := by cases cs <;> rfl
      rw [lines_cons hc, lines_cons hc, head]
      split
      · exact ih
      · have ended : cs ++ ['\n'] ≠ [] := by simp
        obtain ⟨l, ls, hl⟩ := List.exists_cons_of_ne_nil (lines_ne_nil ended)
        obtain ⟨x, xs, hx⟩ := List.exists_cons_of_ne_nil (l := cs ++ '\n' :: ds) (by simp)
        obtain ⟨y, ys, hy⟩ := List.exists_cons_of_ne_nil (l := cs ++ ['\n']) (by simp)
        rw [ih, hl, hx, hy]
        rfl

/-- The lines of some paths. -/
def text (dirs : List Path) : List Char := dirs.flatMap line

theorem lines_text (dirs : List Path) : lines (text dirs) = dirs.flatMap fun d => lines (line d) := by
  induction dirs with
  | nil => rfl
  | cons d dirs ih =>
    have split : text (d :: dirs) = d.text.toList ++ '\n' :: text dirs := by
      simp [text, line]
    rw [split, lines_append, ih, List.flatMap_cons]
    rfl

/-- Whether a path is in a log is told by its lines one by one. -/
theorem any_foldl_addNew (dir : Path) (ps known : List Path) :
    (ps.foldl addNew known).any dir.same = (known.any dir.same || ps.any dir.same) := by
  induction ps generalizing known with
  | nil => simp
  | cons p ps ih =>
    have step : (addNew known p).any dir.same = (known.any dir.same || dir.same p) := by
      unfold addNew
      split
      · rename_i h
        obtain ⟨q, hq, hsame⟩ := List.any_eq_true.mp h
        cases hd : dir.same p with
        | false => simp
        | true =>
          have there : known.any dir.same = true := by
            refine List.any_eq_true.mpr ⟨q, hq, ?_⟩
            simp only [Path.same, decide_eq_true_eq] at hd hsame ⊢
            exact hd.trans hsame
          simp [there]
      · simp
    rw [List.foldl_cons, ih, step, List.any_cons, Bool.or_assoc]

theorem any_paths_of_mem_iff {dirs dirs' : List Path} (h : ∀ d, d ∈ dirs ↔ d ∈ dirs')
    (dir : Path) : (paths (text dirs)).any dir.same = (paths (text dirs')).any dir.same := by
  unfold paths
  rw [any_foldl_addNew, any_foldl_addNew, lines_text, lines_text]
  rw [Bool.eq_iff_iff]
  simp only [List.any_nil, Bool.false_or, List.any_eq_true, List.mem_filterMap, List.mem_flatMap, h]

theorem any_paths_text {dirs dirs' : List Path} (h : dirs.Perm dirs') (dir : Path) :
    (paths (text dirs)).any dir.same = (paths (text dirs')).any dir.same :=
  any_paths_of_mem_iff (fun _ => h.mem_iff) dir

end Ledger

/-! ## Logs on a disk -/

namespace Disk

variable {d d' : Disk} {p : Path} {old old' : Option ByteArray}

/-- A path leads to an empty file, or to nothing. -/
def Blank (d : Disk) (p : Path) : Prop := d.LeadsTo p none ∨ d.LeadsTo p (some .empty)

/-- Whether there is nothing in a file yet when the directories above it are there. -/
def Unused (d : Disk) (p : Path) : Prop :=
  ∀ d', createParents p d = .ok () d' → ∀ old, d'.LeadsTo p old → old.getD .empty = .empty

theorem LeadsTo.unique (h : d.LeadsTo p old) (h' : d.LeadsTo p old') : old = old' := by
  obtain ⟨x, hx, he⟩ := h
  obtain ⟨y, hy, he'⟩ := h'
  cases hx.symm.trans hy
  have same := he.symm.trans he'
  cases old <;> cases old' <;> cases same <;> rfl

theorem Blank.getD_empty (h : d.Blank p) (hl : d.LeadsTo p old) : old.getD .empty = .empty := by
  obtain h | h := h <;> cases h.unique hl <;> rfl

theorem Blank.unused (h : d.Blank p) : d.Unused p := by
  intro d' hc old hl
  have grows := createParents_ok hc
  obtain h | h := h
  · obtain ⟨x, hx, he⟩ := h
    obtain ⟨y, hy, he'⟩ := hl
    cases (place_of_dirs grows.start (fun _ => grows.isDirectoryAt) hx).symm.trans hy
    obtain (h | ⟨_, _, h, -⟩) | ⟨-, _, h⟩ := grows.kept x
    · cases old with
      | none => rfl
      | some bytes =>
        rw [he', he] at h
        cases h
    · rw [he] at h
      cases h
    · rw [he'] at h
      cases old <;> cases h
  · cases (h.of_grows grows).unique hl
    rfl

end Disk

namespace Ledger

variable {d d' : Disk} {p : Path} {name : String}

theorem fromUTF8?_toUTF8 (s : String) : String.fromUTF8? s.toUTF8 = some s := by
  have valid : s.toUTF8.IsValidUTF8 := s.isValidUTF8
  unfold String.fromUTF8?
  rw [dif_pos valid]
  rfl

theorem read_of_leadsTo {cs : List Char}
    (h : d.LeadsTo p (some (String.ofList cs).toUTF8)) : read d p = .ok (paths cs) := by
  have text : d.readText p = .ok (String.ofList cs) := by
    simp only [Disk.readText, h.read, bind, Except.bind, fromUTF8?_toUTF8]
  unfold read
  rw [text]
  simp

/-- A log whose file is missing or empty holds nothing. -/
theorem read_of_empty (he : ∀ bytes, d.LeadsTo p (some bytes) → bytes = .empty) {done : List Path}
    (h : read d p = .ok done) : done = [] := by
  unfold read at h
  cases ht : d.readText p with
  | error e =>
    rw [ht] at h
    cases e <;> cases h
    rfl
  | ok text =>
    rw [ht] at h
    cases h
    cases hr : d.read p with
    | error e =>
      simp only [Disk.readText, hr, bind, Except.bind] at ht
      cases ht
    | ok bytes =>
      have empty := he bytes (Disk.leadsTo_of_read hr)
      subst empty
      simp only [Disk.readText, hr, bind, Except.bind] at ht
      cases ht
      rfl

theorem read_of_unused (hu : d.Unused p) (hc : Disk.createParents p d = .ok () d')
    {done : List Path} (h : read d p = .ok done) : done = [] := by
  refine read_of_empty (fun bytes hl => ?_) h
  exact hu d' hc _ (hl.of_grows (Disk.createParents_ok hc))

theorem prepare_ok (h : prepare p d = .ok () d') :
    ∃ d₁, Disk.createParents p d = .ok () d₁ ∧ Disk.append p .empty d₁ = .ok () d' := by
  unfold prepare at h
  simp only [bind, EStateM.bind] at h
  split at h
  · rename_i u d₁ hc
    exact ⟨d₁, hc, h⟩
  · cases h

/-- A log that was not used is empty when it can be added to. -/
theorem leadsTo_of_prepare (hn : p.EndsIn name) (hu : d.Unused p) (h : prepare p d = .ok () d') :
    d'.LeadsTo p (some (String.ofList (text [])).toUTF8) := by
  obtain ⟨d₁, hc, ha⟩ := prepare_ok h
  obtain ⟨old, hold, hnew, -⟩ := Disk.append_ok hn ha
  rw [hu d₁ hc old hold] at hnew
  exact hnew

/-- One more path is the last line of a log. -/
theorem leadsTo_of_append (hn : p.EndsIn name) {dirs : List Path} {dir : Path}
    (hl : d.LeadsTo p (some (String.ofList (text dirs)).toUTF8)) (h : append p dir d = .ok () d') :
    d'.LeadsTo p (some (String.ofList (text (dirs ++ [dir]))).toUTF8) := by
  obtain ⟨old, hold, hnew, -⟩ := Disk.append_ok hn h
  obtain rfl := hl.unique hold
  have bytes : (String.ofList (text (dirs ++ [dir]))).toUTF8 =
      (String.ofList (text dirs)).toUTF8 ++ (String.ofList (line dir)).toUTF8 := by
    simp [text, String.toUTF8]
  rw [bytes]
  exact hnew

end Ledger
end AccessDepth
