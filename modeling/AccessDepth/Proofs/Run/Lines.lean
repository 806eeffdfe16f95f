import AccessDepth.Proofs.Run.Loading

/-!
# AccessDepth.Proofs.Run.Lines

The logs of all modes, line by line.

* `Path.IsLine` — a path that a line of a log can hold.
* `Ledger.mem_paths_text`, `any_paths_append` — which paths a log of such lines holds.
* `Ledger.Holds` — the lines of the log of a mode, whatever is done to the other logs.
* `Ledger.holds_prepare`, `holds_append` — what is done to the logs leaves behind.
-/

namespace AccessDepth

/-- Whether a line of a log can hold a path: there is no line break in it or at its end. -/
def Path.IsLine (p : Path) : Prop := '\n' ∉ p.text.toList ∧ p.text.toList.getLast? ≠ some '\r'

namespace Ledger

theorem lines_ended {cs : List Char} (hn : '\n' ∉ cs) (hr : cs.getLast? ≠ some '\r') :
    lines (cs ++ ['\n']) = [cs] := by
  induction cs with
  | nil => rfl
  | cons c cs ih =>
    have other : c ≠ '\n' := fun h => hn (h ▸ List.mem_cons_self)
    have rest : '\n' ∉ cs := fun h => hn (List.mem_cons_of_mem c h)
    rw [List.cons_append, lines_cons other]
    cases cs with
    | nil =>
      have plain : c ≠ '\r' := by simpa using hr
      simp [plain, lines]
    | cons c' cs =>
      have last : (c' :: cs).getLast? ≠ some '\r' := by simpa using hr
      have next : c' ≠ '\n' := fun h => rest (h ▸ List.mem_cons_self)
      rw [ih rest last]
      simp [next]

/-- A line that is not blank tells of its path. -/
theorem filterMap_line_of_ne {p : Path} (h : p.IsLine) (hp : p.text.toList ≠ []) :
    (lines (line p)).filterMap pathOf? = [p] := by
  have whole : dropReturn p.text.toList = p.text.toList := by
    unfold dropReturn
    split
    · rename_i rest hs
      refine absurd ?_ h.2
      rw [List.getLast?_eq_head?_reverse, hs, List.head?_cons]
    · rfl
  have path : pathOf? p.text.toList = some p := by
    unfold pathOf?
    rw [whole]
    split
    · exact absurd ‹_› hp
    · exact congrArg some (congrArg Path.mk String.ofList_toList)
  rw [line, lines_ended h.1 h.2, List.filterMap_cons, path, List.filterMap_nil]

theorem filterMap_line {p : Path} (h : p.IsLine) :
    (lines (line p)).filterMap pathOf? = [] ∨ (lines (line p)).filterMap pathOf? = [p] := by
  by_cases hp : p.text.toList = []
  · rw [line, lines_ended h.1 h.2, hp]
    exact .inl rfl
  · exact .inr (filterMap_line_of_ne h hp)

theorem mem_foldl_addNew {p : Path} {ps known : List Path} (h : p ∈ ps.foldl addNew known) :
    p ∈ known ∨ p ∈ ps := by
  induction ps generalizing known with
  | nil => exact .inl h
  | cons q ps ih =>
    obtain h | h := ih h
    · unfold addNew at h
      split at h
      · exact .inl h
      · obtain h | h := List.mem_append.mp h
        · exact .inl h
        · exact .inr (List.mem_singleton.mp h ▸ List.mem_cons_self)
    · exact .inr (List.mem_cons_of_mem q h)

/-- A log holds only paths that were added to it. -/
theorem mem_paths_text {dirs : List Path} (hd : ∀ d ∈ dirs, d.IsLine) {p : Path}
    (h : p ∈ paths (text dirs)) : p ∈ dirs := by
  obtain h | h := mem_foldl_addNew h
  · cases h
  · obtain ⟨l, hl, hp⟩ := List.mem_filterMap.mp h
    rw [lines_text] at hl
    obtain ⟨d, hd', hl⟩ := List.mem_flatMap.mp hl
    have told : p ∈ (lines (line d)).filterMap pathOf? := List.mem_filterMap.mpr ⟨l, hl, hp⟩
    obtain none | one := filterMap_line (hd d hd')
    · rw [none] at told
      cases told
    · rw [one] at told
      exact List.mem_singleton.mp told ▸ hd'

/-- One more line tells of no path but its own. -/
theorem any_paths_append {dirs : List Path} {dir p : Path} (hd : dir.IsLine)
    (hs : p.same dir = false) :
    (paths (text (dirs ++ [dir]))).any p.same = (paths (text dirs)).any p.same := by
  have other : ((lines (line dir)).filterMap pathOf?).any p.same = false := by
    obtain none | one := filterMap_line hd
    · rw [none, List.any_nil]
    · simp [one, hs]
  simp only [paths, any_foldl_addNew, lines_text, List.flatMap_append, List.filterMap_append,
    List.any_append, List.flatMap_singleton, other, Bool.or_false]

end Ledger

/-! ## Logs of other modes -/

def Mode.otherLogs (m : Mode) : List String :=
  ((Vocabulary.all : List Mode).filter (· ≠ m)).map logName

theorem Mode.logName_mem_otherLogs {m m' : Mode} : m'.logName ∈ m.otherLogs ↔ m' ≠ m := by
  cases m <;> cases m' <;> decide

namespace Disk

variable {names : List String} {d d' : Disk} {p : Path} {name : String}

theorem KeepsNames.leadsTo (h : KeepsNames names d d') (hn : p.EndsIn name) (hm : name ∉ names)
    {bytes : ByteArray} (hl : d.LeadsTo p (some bytes)) : d'.LeadsTo p (some bytes) := by
  obtain ⟨x, hx, he⟩ := hl
  refine ⟨x, place_of_dirs h.start h.dirs hx, ?_⟩
  obtain ⟨q, -, rfl⟩ := place_of_endsIn hn hx
  obtain (same | ⟨_, _, hd, -⟩) | ⟨missing, -⟩ := h.kept q name hm
  · exact same.trans he
  · rw [he] at hd
    cases hd
  · rw [he] at missing
    cases missing

/-- A file is missing or empty, whatever directories are made and whatever is written under some
names. -/
def Untouched (names : List String) (d : Disk) (p : Path) : Prop :=
  ∀ d', KeepsNames names d d' → ∀ old, d'.LeadsTo p old → old.getD .empty = .empty

theorem append_refused {bytes : ByteArray} {e : FileProblem} (h : append p bytes d = .error e d') :
    d' = d := by
  unfold append write putFile at h
  split at h
  · exact change_error h
  · exact change_error h
  · cases h
    rfl

end Disk

namespace Ledger

variable {c : Settings} {m m' : Mode} {d d' : Disk} {dirs : List Path} {dir : Path}

/-- The lines of the log of a mode. Either they are in its file, or there are none and the file is
missing or empty, whatever directories are made and whatever is done to the other logs. -/
def Holds (c : Settings) (m : Mode) (d : Disk) (dirs : List Path) : Prop :=
  d.LeadsTo (c.logPath m) (some (String.ofList (text dirs)).toUTF8) ∨
    dirs = [] ∧ d.Untouched m.otherLogs (c.logPath m)

theorem Holds.keeps (h : Holds c m d dirs) (hk : d.KeepsNames m.otherLogs d') :
    Holds c m d' dirs := by
  obtain h | ⟨none, h⟩ := h
  · exact .inl (hk.leadsTo (c.logPath_endsIn m) (by simp [Mode.logName_mem_otherLogs]) h)
  · exact .inr ⟨none, fun d'' hk' => h d'' (hk.trans hk')⟩

theorem Holds.read (h : Holds c m d dirs) {done : List Path}
    (hr : Ledger.read d (c.logPath m) = .ok done) : done = paths (text dirs) := by
  obtain h | ⟨rfl, h⟩ := h
  · rw [read_of_leadsTo h] at hr
    cases hr
    rfl
  · exact read_of_empty (fun bytes hl => h d (Disk.Grows.refl d).keepsNames _ hl) hr

theorem append_empty (bytes : ByteArray) : bytes ++ .empty = bytes := by simp

theorem keepsNames_of_append {bytes : ByteArray} (h : Disk.append (c.logPath m) bytes d = .ok () d')
    (hm : m ≠ m') : d.KeepsNames m'.otherLogs d' :=
  Disk.append_keepsNames (c.logPath_endsIn m) (Mode.logName_mem_otherLogs.mpr hm) h

/-- A log is made ready, or not: the lines of all logs are as they were. -/
theorem holds_prepare (h : Holds c m' d dirs) :
    Holds c m' (Disk.Change.leaves (prepare (c.logPath m)) d) dirs := by
  have grows := Disk.createParents_grows (c.logPath m) d
  have made := h.keeps grows.keepsNames
  unfold Disk.Change.leaves prepare
  simp only [bind, EStateM.bind]
  cases hc : Disk.createParents (c.logPath m) d with
  | error e d₁ =>
    rw [Disk.Change.leaves_error hc] at made
    exact made
  | ok u d₁ =>
    rw [Disk.Change.leaves_ok hc] at made
    simp only
    cases ha : Disk.append (c.logPath m) .empty d₁ with
    | error e d₂ =>
      rw [Disk.append_refused ha]
      exact made
    | ok u d₂ =>
      by_cases hm : m = m'
      · subst hm
        obtain ⟨old, hold, hnew, -⟩ := Disk.append_ok (c.logPath_endsIn m) ha
        rw [append_empty] at hnew
        refine .inl ?_
        obtain hl | ⟨rfl, untouched⟩ := made
        · obtain rfl := hl.unique hold
          exact hnew
        · rw [untouched d₁ (Disk.Grows.refl d₁).keepsNames old hold] at hnew
          exact hnew
      · exact made.keeps (keepsNames_of_append ha hm)

/-- A directory is added to a log. -/
theorem holds_append (h : Holds c m d dirs) (ha : append (c.logPath m) dir d = .ok () d') :
    Holds c m d' (dirs ++ [dir]) := by
  obtain hl | ⟨rfl, untouched⟩ := h
  · exact .inl (leadsTo_of_append (c.logPath_endsIn m) hl ha)
  · obtain ⟨old, hold, hnew, -⟩ := Disk.append_ok (c.logPath_endsIn m) ha
    rw [untouched d (Disk.Grows.refl d).keepsNames old hold, ByteArray.empty_append] at hnew
    have only : text ([] ++ [dir]) = line dir := by simp [text]
    exact .inl (only ▸ hnew)

end Ledger
end AccessDepth
