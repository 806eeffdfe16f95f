import AccessDepth.Proofs.Paths
import AccessDepth.Proofs.Pipeline.Appends
import AccessDepth.Proofs.Pipeline.Tally

/-!
# AccessDepth.Proofs.Pipeline.Accounts

How a pass deals with its candidates.

* `Phase.Accounts` — each candidate was in the log before, or was completed and logged, or did not
  load; and the report says so.
* `Pipeline.Books` — the same of a pass that is not over, with what is still under way.
* `Books.step`, `Books.close` — every move of a worker keeps the books; when all are through they
  are the accounts.
-/

namespace AccessDepth

namespace Phase

/-- What is taken into the report. -/
theorem settle_ok {log : Path} {r r' : Report} {v : Visit} {w w' : Workspace}
    (h : settle log r v w = .ok r' w') :
    (∃ skip, v = .skipped skip ∧ r' = { r with skips := r.skips ++ [skip] } ∧ w' = w) ∨
    ∃ dir packages skips disk, v = .completed dir packages skips ∧
      Ledger.append log dir w.disk = .ok () disk ∧
      r' = { r with
        finished := r.finished ++ [dir], completed := r.completed + 1
        packages := r.packages + packages, skips := r.skips ++ skips } ∧
      w' = { w with disk := disk } := by
  cases v with
  | skipped skip =>
    cases h
    exact .inl ⟨skip, rfl, rfl, rfl⟩
  | completed dir packages skips =>
    obtain ⟨u, w₁, logged, rest⟩ := bind_eq_ok.mp h
    obtain ⟨disk, ha, rfl⟩ := Run.onDisk_ok logged
    cases rest
    exact .inr ⟨dir, packages, skips, disk, rfl, ha, rfl, rfl⟩

/-- A line that cannot be added leaves the disk as it is. -/
theorem settle_error {log : Path} {r : Report} {v : Visit} {w w' : Workspace} {f : Failure}
    (h : settle log r v w = .error f w') : w'.disk = w.disk := by
  cases v with
  | skipped skip => cases h
  | completed dir packages skips =>
    simp only [settle, Run.onDisk, bind, EStateM.bind] at h
    cases ha : Ledger.append log dir w.disk with
    | ok u disk =>
      rw [ha] at h
      cases h
    | error e disk =>
      rw [ha] at h
      cases h
      exact Disk.append_refused ha

/-- The loader was asked for a directory when some of the directories of a pass had been logged. -/
def Tried (job : Job) (mode : Mode) (opened : Disk) (logged : List Path) (dir : Path)
    (r : Except Failure (List Package)) : Prop :=
  ∃ earlier d, earlier <+: logged ∧
    Ledger.appendAll (job.settings.logPath mode) earlier opened = .ok () d ∧
    job.loader d dir mode.loadMode = r

theorem Tried.mono {job : Job} {mode : Mode} {opened : Disk} {logged logged' : List Path}
    {dir : Path} {r : Except Failure (List Package)} (hl : logged <+: logged')
    (h : Tried job mode opened logged dir r) : Tried job mode opened logged' dir r := by
  obtain ⟨earlier, d, he, hd, hr⟩ := h
  exact ⟨earlier, d, he.trans hl, hd, hr⟩

/-- A pass whose log held some directories, `done`, has completed some candidates, and some did not
load. The log was opened on a disk and is now on another one. -/
structure Accounts (job : Job) (mode : Mode) (candidates done : List Path) (opened : Disk)
    (completed failed : List Path) (r : Report) (disk : Disk) : Prop where
  parted : ((candidates.filter fun dir => done.any dir.same) ++ completed ++ failed).Perm candidates
  already : r.already = (candidates.filter fun dir => done.any dir.same).length
  count : r.completed = completed.length
  finished : r.finished.Perm ((candidates.filter fun dir => done.any dir.same) ++ completed)
  sorted : r.finished.Pairwise fun a b => a.notAfter b = true
  logged : Ledger.appendAll (job.settings.logPath mode) completed opened = .ok () disk
  loaded : ∀ dir ∈ completed, ∃ packages, Tried job mode opened completed dir (.ok packages)
  skipped : ∀ dir ∈ failed, ∃ f, Tried job mode opened completed dir (.error f) ∧
    .ofFailure dir f ∈ r.skips

end Phase

namespace Pipeline

open Phase (Tried)

variable {job : Job} {mode : Mode} {room : Nat} {p p' : Pipeline}

/-- The books of a pass over some directories. It began with a report, and its log was opened on a
disk; so far some directories were completed and some did not load. -/
structure Books (job : Job) (mode : Mode) (dirs : List Path) (begun : Phase.Report) (opened : Disk)
    (completed failed : List Path) (p : Pipeline) : Prop where
  tally : p.stopped = none → ∀ a,
    p.underway.count a + completed.count a + failed.count a = dirs.count a
  already : p.report.already = begun.already
  count : p.report.completed = begun.completed + completed.length
  finished : p.report.finished = begun.finished ++ completed
  logged :
    Ledger.appendAll (job.settings.logPath mode) completed opened = .ok () p.workspace.disk
  loaded : ∀ dir ∈ completed, ∃ packages, Tried job mode opened completed dir (.ok packages)
  skipped : ∀ dir ∈ failed, ∃ f, Tried job mode opened completed dir (.error f) ∧
    .ofFailure dir f ∈ p.report.skips
  honest : p.Honest (Tried job mode opened completed)

theorem Step.stopped (s : Step job mode room p p') (h : p'.stopped = none) : p.stopped = none := by
  cases s with
  | drained | unwanted => exact h
  | through | unheard => simpa [dismissAnalyzer, setAnalyzer] using h
  | begun => simpa using h
  | refused | failed | unlogged => exact absurd h (stop_ne_none _ _)
  | _ => exact h

/-- Only when the keeper has taken in an outcome is there more to report, or more in the log. -/
theorem Step.settles (s : Step job mode room p p') :
    (p'.report = p.report ∧ p'.workspace.disk = p.workspace.disk ∧
      (p'.stopped = none → p.keeper.settles p'.keeper = [])) ∨
    ∃ v report w, p.keeper = .settling v ∧
      Phase.settle (job.settings.logPath mode) p.report v p.workspace = .ok report w ∧
      p' = { p with keeper := .receiving, report := report, workspace := w } := by
  cases s with
  | drained | unwanted => exact .inl ⟨rfl, rfl, fun _ => Keeper.settles_self _⟩
  | through | unheard =>
    exact .inl ⟨by simp [dismissAnalyzer, setAnalyzer], by simp [dismissAnalyzer, setAnalyzer],
      fun _ => by simp [dismissAnalyzer, setAnalyzer]⟩
  | begun hk =>
    exact .inl ⟨by simp, by simp, fun _ => by simp [hk, Keeper.settles]⟩
  | refused =>
    refine .inl ⟨?_, ?_, fun hs => absurd hs (stop_ne_none _ _)⟩
    · exact (attend_report (p := _)).trans rfl
    · exact congrArg Workspace.disk ((attend_workspace (p := _)).trans rfl)
  | failed _ ha =>
    exact .inl ⟨rfl, (Crew.analyzing_error ha).2, fun hs => absurd hs (stop_ne_none _ _)⟩
  | analyzed _ ha => exact .inl ⟨rfl, (Run.analyzing_ok ha).2, fun _ => Keeper.settles_self _⟩
  | collected hk | closing hk => exact .inl ⟨rfl, rfl, fun _ => by rw [hk]; rfl⟩
  | forgotten hk | settling hk => exact .inl ⟨rfl, rfl, fun _ => by rw [hk]; rfl⟩
  | settled hk hv => exact .inr ⟨_, _, _, hk, hv, rfl⟩
  | unlogged hk hv =>
    exact .inl ⟨rfl, Phase.settle_error hv, fun hs => absurd hs (stop_ne_none _ _)⟩
  | _ => exact .inl ⟨rfl, rfl, fun _ => Keeper.settles_self _⟩

namespace Books

variable {dirs completed failed : List Path} {begun : Phase.Report} {opened : Disk}

theorem start (staff : Staff) (dirs : List Path) (w : Workspace) :
    Books job mode dirs begun w.disk [] [] (start staff dirs begun w) where
  tally _ a := by
    simp [count_underway, Pipeline.start, Feeder.dirs, LoadWorker.dirs, AnalyzeWorker.dirs,
      Keeper.dirs, Stage.staffed_eq staff.loaders_pos, Stage.staffed_eq staff.analyzers_pos,
      List.flatMap_replicate]
  already := rfl
  count := rfl
  finished := (List.append_nil _).symm
  logged := rfl
  loaded _ h := nomatch h
  skipped _ h := nomatch h
  honest := by
    constructor
    · intro l hl
      cases List.eq_of_mem_replicate hl
      trivial
    · simp [Pipeline.start, Stage.staffed_eq staff.loaders_pos]
    · intro a ha
      cases List.eq_of_mem_replicate ha
      trivial
    · simp [Pipeline.start, Stage.staffed_eq staff.analyzers_pos]
    · trivial

/-- Every move of a worker keeps the books. -/
theorem step (h : Books job mode dirs begun opened completed failed p) (hp : Standing p)
    (s : Step job mode room p p') :
    ∃ completed' failed', Books job mode dirs begun opened completed' failed' p' := by
  have here (dir : Path) : Tried job mode opened completed dir
      (job.loader p.workspace.disk dir mode.loadMode) :=
    ⟨completed, p.workspace.disk, List.prefix_rfl, h.logged, rfl⟩
  have honest := h.honest.step s here
  obtain ⟨report, disk, settles⟩ | ⟨v, report, w, hk, hv, rfl⟩ := s.settles
  · refine ⟨completed, failed, ?_⟩
    constructor
    · intro hs a
      have moved := s.tally hp hs a
      have before := h.tally (s.stopped hs) a
      rw [settles hs, List.count_nil] at moved
      omega
    · rw [report, h.already]
    · rw [report, h.count]
    · rw [report, h.finished]
    · rw [disk, h.logged]
    · exact h.loaded
    · rw [report]
      exact h.skipped
    · exact honest
  · have came := h.honest.keeper
    rw [hk] at came
    have moved (hs : p.stopped = none) (a : Path) := s.tally hp hs a
    simp only [hk, Keeper.settles] at moved
    obtain ⟨skip, rfl, rfl, rfl⟩ | ⟨dir, packages, skips, disk, rfl, ha, rfl, rfl⟩ :=
      Phase.settle_ok hv
    · obtain ⟨dir, f, rfl, tried⟩ := came
      refine ⟨completed, failed ++ [dir], ?_⟩
      constructor
      · intro hs a
        have taken : p.underway.count a = _ + [dir].count a := moved hs a
        have before := h.tally hs a
        rw [List.count_append]
        omega
      · exact h.already
      · exact h.count
      · exact h.finished
      · exact h.logged
      · exact h.loaded
      · intro d hd
        obtain hd | hd := List.mem_append.mp hd
        · obtain ⟨f', ht, hs⟩ := h.skipped d hd
          exact ⟨f', ht, List.mem_append_left _ hs⟩
        · cases List.mem_singleton.mp hd
          exact ⟨f, tried, by simp⟩
      · exact honest
    · obtain ⟨packages', tried⟩ := came
      have longer : completed <+: completed ++ [dir] := List.prefix_append _ _
      refine ⟨completed ++ [dir], failed, ?_⟩
      constructor
      · intro hs a
        have taken : p.underway.count a = _ + [dir].count a := moved hs a
        have before := h.tally hs a
        rw [List.count_append]
        omega
      · exact h.already
      · simp only [h.count, List.length_append, List.length_singleton, Nat.add_assoc]
      · simp only [h.finished, List.append_assoc]
      · exact Ledger.appendAll_snoc h.logged ha
      · intro d hd
        obtain hd | hd := List.mem_append.mp hd
        · obtain ⟨ps, ht⟩ := h.loaded d hd
          exact ⟨ps, ht.mono longer⟩
        · cases List.mem_singleton.mp hd
          exact ⟨packages', tried.mono longer⟩
      · intro d hd
        obtain ⟨f, ht, hs⟩ := h.skipped d hd
        exact ⟨f, ht.mono longer, List.mem_append_left _ hs⟩
      · exact honest.mono fun _ _ ht => ht.mono longer

theorem acts {staff : Staff} {w : Workspace} {es : List Event}
    (h : (Pipeline.start staff dirs begun w).acts job mode staff.room es = some p) :
    Standing p ∧ ∃ completed failed, Books job mode dirs begun w.disk completed failed p := by
  refine acts_invariant (motive := fun q => Standing q ∧ ∃ completed failed,
    Books job mode dirs begun w.disk completed failed q) ?_
    ⟨.start staff dirs begun w, [], [], start staff dirs w⟩ h
  intro q q' ⟨standing, completed, failed, books⟩ s
  exact ⟨standing.step s, books.step standing s⟩

/-- When all are through and nothing failed, every directory was completed or did not load. -/
theorem close (h : Books job mode dirs begun opened completed failed p) (hp : Standing p)
    {r : Phase.Report} (hr : p.result = some (.ok r)) :
    (completed ++ failed).Perm dirs ∧
      r = { p.report with finished := p.report.finished.mergeSort Path.notAfter } := by
  unfold result at hr
  split at hr
  · rename_i ended
    split at hr
    · cases hr
    · rename_i hs
      cases hr
      refine ⟨?_, rfl⟩
      unfold isOver at ended
      split at ended
      · rename_i hf hk
        rw [Bool.and_eq_true] at ended
        have fed := hp.fed hs (any_of_all hp.someLoader ended.1)
        have passed := hp.passed hs (any_of_all hp.someAnalyzer ended.2)
        have loaders : p.loaders.flatMap LoadWorker.dirs = [] :=
          List.flatMap_eq_nil_iff.mpr fun l hl => by
            have gone := List.all_eq_true.mp ended.1 l hl
            cases l <;> first | rfl | cases gone
        have analyzers : p.analyzers.flatMap AnalyzeWorker.dirs = [] :=
          List.flatMap_eq_nil_iff.mpr fun a ha => by
            have gone := List.all_eq_true.mp ended.2 a ha
            cases a <;> first | rfl | cases gone
        have none : p.underway = [] := by
          simp [underway, hf, Feeder.dirs, fed.2, loaders, passed.2, analyzers,
            (hp.closing hk).1, hk, Keeper.dirs]
        refine List.perm_iff_count.mpr fun a => ?_
        have all := h.tally hs a
        rw [none, List.count_nil] at all
        rw [List.count_append]
        omega
      · cases ended
  · cases hr

end Books

end Pipeline

end AccessDepth
