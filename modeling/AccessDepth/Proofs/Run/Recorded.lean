import AccessDepth.Proofs.Pipeline.Appends
import AccessDepth.Proofs.Run.Reopening

/-!
# AccessDepth.Proofs.Run.Recorded

What was added to a log is read from it.

* `Ledger.Request`, `Ledger.perform` — a log is opened and added to, over and over.
* `Ledger.Recorded` — a log that can be added to, with the lines of some paths. Every request keeps
  it so.
* `Ledger.requests_recorded` — the paths that are read are those that were added, if a line can hold
  each of them; a later pass takes these for done and no others.
* `Ledger.added_unread` — a path with the end of a line in it, or a carriage return at its end, is
  not read again. Others are read in its place.
-/

namespace AccessDepth

namespace Disk

variable {d d' : Disk} {p : Path} {x : List String}

theorem isDirectoryAt_dropLast (h : d.IsDirectoryAt x) : d.IsDirectoryAt x.dropLast := by
  cases hx : x.getLast? with
  | none =>
    cases List.getLast?_eq_none_iff.mp hx
    exact h
  | some name =>
    obtain ⟨es, he⟩ := h
    rw [← List.dropLast_append_getLast? name hx, Entry.at?_append] at he
    obtain ⟨e, above, below⟩ := Option.bind_eq_some_iff.mp he
    cases e with
    | directory entries => exact ⟨entries, above⟩
    | file | store => cases below

/-- A path to what is no directory ends in a name. -/
theorem endsIn_of_place (h : d.place p = .ok x) (hx : ¬d.IsDirectoryAt x) :
    ∃ name, p.EndsIn name := by
  have some : p.pieces ≠ [] := by
    simp [Path.pieces, List.splitOn_ne_nil]
  have split := List.dropLast_concat_getLast some
  have fold : p.pieces.foldlM d.step (d.origin p) = .ok x := by
    rw [← (follow_ok h).2 d p.pieces]
    exact h
  rw [← split] at fold
  obtain ⟨q, -, hq⟩ := foldlM_append_ok fold
  obtain ⟨above, -⟩ := step_ok hq
  have there := above
  obtain ⟨es, he⟩ := there
  refine ⟨p.pieces.getLast some, ⟨_, split.symm⟩, ?_, ?_, ?_⟩ <;> intro last <;>
    simp only [step, he, last] at hq
  · cases hq
    exact hx above
  · cases hq
    exact hx above
  · cases hq
    exact hx (isDirectoryAt_dropLast above)

theorem endsIn_of_append {bytes : ByteArray} (h : append p bytes d = .ok () d') :
    ∃ name, p.EndsIn name := by
  unfold append at h
  split at h
  · obtain ⟨x, hx, hd, -⟩ := write_ok h
    exact endsIn_of_place hx hd
  · obtain ⟨x, hx, hd, -⟩ := write_ok h
    exact endsIn_of_place hx hd
  · cases h

end Disk

namespace Ledger

variable {log dir : Path} {name : String} {dirs : List Path} {d d' : Disk}

/-- What is done to a log. -/
inductive Request where
  | opens
  | adds (dir : Path)

def Request.added? : Request → Option Path
  | .opens => none
  | .adds dir => some dir

def Request.change (log : Path) : Request → Disk.Change
  | .opens => prepare log
  | .adds dir => append log dir

/-- Performs requests one after the other. -/
def perform (log : Path) : List Request → Disk.Change
  | [] => pure ()
  | r :: rs => do
    r.change log
    perform log rs

def added (rs : List Request) : List Path := rs.filterMap Request.added?

/-- A log that can be added to, with the lines of some paths. -/
structure Recorded (log : Path) (dirs : List Path) (d : Disk) : Prop where
  above : d.Above log
  lines : d.LeadsTo log (some (String.ofList (text dirs)).toUTF8)

theorem recorded_of_prepare (hu : d.Unused log) (h : prepare log d = .ok () d') :
    (∃ name, log.EndsIn name) ∧ Recorded log [] d' := by
  obtain ⟨d₁, hc, ha⟩ := prepare_ok h
  obtain ⟨name, hn⟩ := Disk.endsIn_of_append ha
  obtain ⟨-, -, -, kept, x, -, keeps⟩ := Disk.append_ok hn ha
  exact ⟨⟨name, hn⟩, (Disk.createParents_above hc).of_dirs keeps.start kept,
    leadsTo_of_prepare hn hu h⟩

theorem Recorded.above_append (hn : log.EndsIn name) (h : Recorded log dirs d) {bytes : ByteArray}
    (ha : Disk.append log bytes d = .ok () d') : d'.Above log := by
  obtain ⟨-, -, -, kept, x, -, keeps⟩ := Disk.append_ok hn ha
  exact h.above.of_dirs keeps.start kept

theorem Recorded.prepare (hn : log.EndsIn name) (h : Recorded log dirs d) :
    ∃ d', prepare log d = .ok () d' ∧ Recorded log dirs d' := by
  obtain ⟨d', ha⟩ := Disk.append_succeeds h.lines .empty
  have made : Ledger.prepare log d = .ok () d' := by
    unfold Ledger.prepare
    rw [bind_of_ok (Disk.createParents_of_above h.above)]
    exact ha
  refine ⟨d', made, h.above_append hn ha, ?_⟩
  obtain ⟨old, hold, hnew, -⟩ := Disk.append_ok hn ha
  obtain rfl := h.lines.unique hold
  rw [append_empty] at hnew
  exact hnew

theorem Recorded.append (hn : log.EndsIn name) (h : Recorded log dirs d) (dir : Path) :
    ∃ d', append log dir d = .ok () d' ∧ Recorded log (dirs ++ [dir]) d' := by
  obtain ⟨d', ha⟩ := Disk.append_succeeds h.lines (String.ofList (line dir)).toUTF8
  exact ⟨d', ha, h.above_append hn ha, leadsTo_of_append hn h.lines ha⟩

theorem Recorded.change (hn : log.EndsIn name) (h : Recorded log dirs d) (r : Request) :
    ∃ d', r.change log d = .ok () d' ∧ Recorded log (dirs ++ added [r]) d' := by
  cases r with
  | opens =>
    obtain ⟨d', made, rest⟩ := h.prepare hn
    exact ⟨d', made, by rwa [show added [Request.opens] = [] from rfl, List.append_nil]⟩
  | adds dir => exact h.append hn dir

theorem Recorded.perform (hn : log.EndsIn name) (rs : List Request) (h : Recorded log dirs d) :
    ∃ d', perform log rs d = .ok () d' ∧ Recorded log (dirs ++ added rs) d' := by
  induction rs generalizing d dirs with
  | nil => exact ⟨d, rfl, by rwa [show added [] = [] from rfl, List.append_nil]⟩
  | cons r rs ih =>
    obtain ⟨d₁, first, recorded⟩ := h.change hn r
    obtain ⟨d', rest, all⟩ := ih recorded
    refine ⟨d', ?_, ?_⟩
    · rw [Ledger.perform, bind_of_ok first]
      exact rest
    · have lines : dirs ++ added (r :: rs) = dirs ++ added [r] ++ added rs := by
        rw [List.append_assoc, added, added, added, ← List.filterMap_append]
        rfl
      rwa [lines]

/-! ## Reading -/

/-- No two paths of a log are equal. -/
theorem pairwise_foldl_addNew {ps known : List Path}
    (h : known.Pairwise fun p q => p.same q = false) :
    (ps.foldl addNew known).Pairwise fun p q => p.same q = false := by
  induction ps generalizing known with
  | nil => exact h
  | cons p ps ih =>
    refine ih ?_
    unfold addNew
    split
    · exact h
    · rename_i new
      refine List.pairwise_append.mpr ⟨h, List.pairwise_singleton .., fun q hq r hr => ?_⟩
      cases List.mem_singleton.mp hr
      rw [Path.same_comm]
      by_contra same
      exact new (List.any_eq_true.mpr ⟨q, hq, by simpa using same⟩)

/-- What is read after any requests to a log that was not there. If a line can hold each of the paths
that they add, all requests succeed and these paths are read: none is missing, none is altered and
none was never added. A later pass takes them for done, and visits all others. -/
theorem requests_recorded {d₀ : Disk} (hu : d.Unused log) (ho : Ledger.prepare log d = .ok () d₀)
    (rs : List Request) (hd : ∀ dir ∈ added rs, dir.IsLine ∧ dir.text ≠ "") :
    ∃ d' done, Ledger.perform log rs d₀ = .ok () d' ∧ read d' log = .ok done ∧
      (done.Pairwise fun p q => p.same q = false) ∧ done ⊆ added rs ∧
      (∀ p : Path, done.any p.same = (added rs).any p.same) ∧
      ∀ (job : Job) (mode : Mode) (candidates : List Path) (w : Workspace),
        job.settings.logPath mode = log → w.disk = d' → ∃ w',
          Phase.run job mode candidates w =
            (Phase.visitAll job.loader mode log
                (if job.settings.hasWorkers then
                  job.schedule mode (candidates.filter fun dir => !(added rs).any dir.same)
                else [])
                (.start (candidates.filter fun dir => (added rs).any dir.same)) >>=
              fun r => pure { r with finished := r.finished.mergeSort Path.notAfter }) w' := by
  obtain ⟨⟨name, hn⟩, recorded⟩ := recorded_of_prepare hu ho
  obtain ⟨d', performed, recorded⟩ := recorded.perform hn rs
  rw [List.nil_append] at recorded
  have found := read_of_leadsTo recorded.lines
  have same (p : Path) : (paths (text (added rs))).any p.same = (added rs).any p.same := by
    have ended : Ended [] := .inl rfl
    have told := any_paths_ended ended
      (fun dir hdir => ⟨(hd dir hdir).1, by simpa using (hd dir hdir).2⟩) p
    rwa [List.nil_append, show paths [] = [] from rfl, List.any_nil, Bool.false_or] at told
  refine ⟨d', _, performed, found, pairwise_foldl_addNew .nil,
    fun p hp => mem_paths_text (fun dir hdir => (hd dir hdir).1) hp, same, ?_⟩
  rintro job mode candidates w rfl rfl
  have isOpen : Open job.settings mode w.disk := ⟨recorded.above, _, recorded.lines⟩
  obtain ⟨disk, -, opening⟩ := Phase.opening_of_open isOpen (.inl recorded.lines)
  refine ⟨{ w with disk := disk }, ?_⟩
  rw [List.partition_eq_filter_filter] at opening
  rw [Phase.run_of_opening opening]
  simp only [same, Function.comp_def]

theorem sample_missing : (Disk.withStart "w").LeadsTo ⟨"x.log"⟩ none :=
  ⟨["w", "x.log"], by decide +kernel, rfl⟩

theorem sample_prepared : ∃ d₀, Ledger.prepare ⟨"x.log"⟩ (.withStart "w") = .ok () d₀ :=
  Disk.append_succeeds sample_missing .empty

theorem requests_sample_recorded :
    ∃ d₀ d' done, Ledger.prepare ⟨"x.log"⟩ (.withStart "w") = .ok () d₀ ∧
      Ledger.perform ⟨"x.log"⟩ [.adds ⟨"a"⟩, .opens, .adds ⟨"b "⟩] d₀ = .ok () d' ∧
      read d' ⟨"x.log"⟩ = .ok done ∧ done ⊆ [⟨"a"⟩, ⟨"b "⟩] ∧
      ∀ p : Path, done.any p.same = [Path.mk "a", ⟨"b "⟩].any p.same := by
  have unused : (Disk.withStart "w").Unused ⟨"x.log"⟩ := Disk.Blank.unused (.inl sample_missing)
  obtain ⟨d₀, ho⟩ := sample_prepared
  have lines : ∀ dir ∈ added [.adds ⟨"a"⟩, .opens, .adds ⟨"b "⟩], dir.IsLine ∧ dir.text ≠ "" := by
    unfold Path.IsLine
    decide
  obtain ⟨d', done, performed, found, -, subset, same, -⟩ := requests_recorded unused ho _ lines
  exact ⟨d₀, d', done, ho, performed, found, subset, same⟩

/-- Two paths that no line can hold: the one ends in a carriage return, the other has a line feed in
it. Three paths are read, and none of them was added. -/
theorem added_unread :
    ∃ d₀ d', Ledger.prepare ⟨"x.log"⟩ (.withStart "w") = .ok () d₀ ∧
      Ledger.perform ⟨"x.log"⟩ [.adds ⟨"a\r"⟩, .adds ⟨"b\nc"⟩] d₀ = .ok () d' ∧
      read d' ⟨"x.log"⟩ = .ok [⟨"a"⟩, ⟨"b"⟩, ⟨"c"⟩] ∧
      ∀ p ∈ [Path.mk "a", ⟨"b"⟩, ⟨"c"⟩], ∀ dir ∈ [Path.mk "a\r", ⟨"b\nc"⟩],
        p.same dir = false := by
  obtain ⟨d₀, ho⟩ := sample_prepared
  obtain ⟨⟨name, hn⟩, recorded⟩ :=
    recorded_of_prepare (Disk.Blank.unused (.inl sample_missing)) ho
  obtain ⟨d', performed, recorded⟩ := recorded.perform hn [.adds ⟨"a\r"⟩, .adds ⟨"b\nc"⟩]
  have found : read d' ⟨"x.log"⟩ = .ok [⟨"a"⟩, ⟨"b"⟩, ⟨"c"⟩] :=
    (read_of_leadsTo recorded.lines).trans (congrArg Except.ok (by decide))
  exact ⟨d₀, d', ho, performed, found, by decide⟩

end Ledger
end AccessDepth
