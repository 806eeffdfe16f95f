import AccessDepth.Proofs.Restart

/-!
# AccessDepth.Proofs.Separate

A run in all modes, and one run for each of them.

* `Job.Separable` — a job whose passes can be made by runs of their own: its exports stay as they
  are, and the order of its directories is the same when some of them are left out.
* `Phase.run_split`, `Phase.run_of_visits` — what a pass does that succeeds.
* `Phase.Covers.visitAll` — visits to directories of which the same ones load leave the same, in
  whichever session they are made.
* `Phase.run_again` — a pass over the directories that another pass has finished leaves what a pass
  over all directories leaves.
* `Run.execute_separately` — a run that only defines and then one that only measures depths leave
  what one run in all modes leaves.
-/

namespace AccessDepth

/-- A job whose passes can be made by runs of their own. -/
structure Job.Separable (job : Job) (d : Disk) : Prop where
  proper : d.root.Proper
  /-- A directory that loads once loads the same again. -/
  steady : job.Steady d
  /-- Equal paths are spelled the same. -/
  spelled : SpelledAlike fun path => ∃ p, (job.corpus d).Exports p ∧ p.HasPath path
  schedule : ∀ mode dirs, (job.schedule mode dirs).Perm dirs
  /-- Leaving out some directories does not change the order of the others. -/
  ordered : ∀ mode dirs (keep : Path → Bool),
    job.schedule mode (dirs.filter keep) = (job.schedule mode dirs).filter keep

/-! ## The order of directories -/

namespace Discovery

variable {d : Disk} {root : Path} {found l : List Path}

/-- Directories that were found and are sorted again have the order in which they were found. -/
theorem mergeSort_of_found (hd : d.root.Proper) (h : discover d root = .ok found)
    {keep : Path → Bool} (hl : l.Perm (found.filter keep)) :
    l.mergeSort Path.notAfter = found.filter keep := by
  have sorted : found.Pairwise fun a b => a.notAfter b = true :=
    (discover_ascends hd h).imp fun {a b} less => by rw [Path.notAfter, less]; rfl
  have apart := discover_apart hd h
  have symm : Std.Symm fun a b : Path => a.same b = false :=
    ⟨fun a b hab => (Path.same_comm b a).trans hab⟩
  have perm := (List.mergeSort_perm l Path.notAfter).trans hl
  refine perm.eq_of_pairwise (fun a b ha hb hab hba => ?_) (Path.sorted_mergeSort l)
    (sorted.filter keep)
  by_contra hne
  have differ := apart.forall (List.mem_of_mem_filter (perm.subset ha))
    (List.mem_of_mem_filter hb) hne
  rw [Path.same_of_notAfter hab hba] at differ
  cases differ

end Discovery

/-! ## Passes -/

namespace Phase

variable {job : Job} {d : Disk} {mode : Mode} {candidates dirs done : List Path}
  {w w' : Workspace} {r : Report}

def toVisit (job : Job) (mode : Mode) (candidates logged : List Path) : List Path :=
  if job.settings.hasWorkers then
    job.schedule mode (candidates.filter fun dir => !logged.any dir.same)
  else []

/-- What a pass does that succeeds. -/
theorem run_split (h : run job mode candidates w = .ok r w') :
    ∃ logged disk report, Ledger.read w.disk (job.settings.logPath mode) = .ok logged ∧
      Ledger.prepare (job.settings.logPath mode) w.disk = .ok () disk ∧
      visitAll job.loader mode (job.settings.logPath mode) (toVisit job mode candidates logged)
        (.start (candidates.filter fun dir => logged.any dir.same)) ⟨disk, w.session⟩ =
          .ok report w' ∧
      r.finished = report.finished.mergeSort Path.notAfter := by
  cases ho : opening job mode candidates w with
  | error f w₁ =>
    rw [run_of_refused ho] at h
    cases h
  | ok split w₁ =>
    obtain ⟨finished, pending⟩ := split
    obtain ⟨logged, disk, hread, hprepare, rfl, partition⟩ := split_of_opening ho
    rw [run_of_opening ho] at h
    obtain ⟨report, w₂, hvisits, h⟩ := bind_eq_ok.mp h
    cases h
    rw [List.partition_eq_filter_filter] at partition
    cases partition
    exact ⟨logged, disk, report, hread, hprepare, hvisits, rfl⟩

/-- A pass succeeds if its log can be opened and its visits succeed. -/
theorem run_of_visits {logged : List Path} {disk : Disk} {report : Report}
    (hread : Ledger.read w.disk (job.settings.logPath mode) = .ok logged)
    (hprepare : Ledger.prepare (job.settings.logPath mode) w.disk = .ok () disk)
    (hvisits : visitAll job.loader mode (job.settings.logPath mode)
      (toVisit job mode candidates logged)
      (.start (candidates.filter fun dir => logged.any dir.same)) ⟨disk, w.session⟩ =
        .ok report w') : ∃ r, run job mode candidates w = .ok r w' := by
  have read : Run.inspect (fun d => (Ledger.read d (job.settings.logPath mode)).mapError .file) w =
      .ok logged w := by
    simp only [Run.inspect, hread]
    rfl
  have prepared : Run.onDisk (Ledger.prepare (job.settings.logPath mode)) w =
      .ok () { w with disk := disk } := by
    simp only [Run.onDisk, hprepare]
  refine ⟨{ report with finished := report.finished.mergeSort Path.notAfter }, ?_⟩
  unfold run
  rw [bind_of_ok read, bind_of_ok prepared, List.partition_eq_filter_filter]
  exact bind_eq_ok.mpr ⟨report, w', hvisits, rfl⟩

theorem toVisit_subset (hs : ∀ mode dirs, (job.schedule mode dirs).Perm dirs)
    (logged : List Path) : toVisit job mode candidates logged ⊆ candidates := by
  unfold toVisit
  split
  · exact fun dir hd => List.mem_of_mem_filter ((hs mode _).subset hd)
  · exact List.nil_subset _

theorem visit_of_error {loader : Loader} {dir : Path} {f : Failure} (hm : mode.loadMode = .resolved)
    (hl : loader w.disk dir .resolved = .error f) :
    visit loader mode dir w = .ok (.skipped (.ofFailure dir f)) w := by
  have state : (get : Run Workspace) w = .ok w w := rfl
  unfold visit
  rw [bind_of_ok state, hm, hl]
  rfl

theorem visit_of_ok {loader : Loader} {dir : Path} {ps : List Package} {skips : List Skip}
    {s : Session} (hm : mode.loadMode = .resolved) (hl : loader w.disk dir .resolved = .ok ps)
    (ha : analyzeAll mode ps w.session = .ok skips s) :
    visit loader mode dir w = .ok (.completed dir ps.length skips) { w with session := s } := by
  have state : (get : Run Workspace) w = .ok w w := rfl
  have analyzed : Run.analyzing (analyzeAll mode ps) w = .ok skips { w with session := s } := by
    simp only [Run.analyzing, ha]
  unfold visit
  rw [bind_of_ok state, hm, hl]
  exact bind_eq_ok.mpr ⟨skips, _, analyzed, rfl⟩

theorem settle_of_append {log dir : Path} {disk : Disk} (n : Nat) (skips : List Skip) (r : Report)
    (ha : Ledger.append log dir w.disk = .ok () disk) :
    ∃ r', settle log r (.completed dir n skips) w = .ok r' { w with disk := disk } := by
  have appended : Run.onDisk (Ledger.append log dir) w = .ok () { w with disk := disk } := by
    simp only [Run.onDisk, ha]
  exact ⟨_, bind_eq_ok.mpr ⟨(), _, appended, rfl⟩⟩

/-- Whether a pass has a directory finished: it is in the log, or it loads and someone visits it. -/
def isFinished (job : Job) (d : Disk) (logged : List Path) (dir : Path) : Bool :=
  logged.any dir.same || job.settings.hasWorkers && job.loader.loads d dir

/-- The directories that a pass over all has finished, in the order in which they were found. -/
theorem mergeSort_finished (hd : d.root.Proper)
    (hs : ∀ mode dirs, (job.schedule mode dirs).Perm dirs)
    (hf : Discovery.discover d job.settings.corpusRoot = .ok candidates) (logged : List Path) :
    (candidates.filter (fun dir => logged.any dir.same) ++
        (toVisit job mode candidates logged).filter (job.loader.loads d)).mergeSort Path.notAfter =
      candidates.filter (isFinished job d logged) := by
  refine Discovery.mergeSort_of_found hd hf ?_
  have visited : ((toVisit job mode candidates logged).filter (job.loader.loads d)).Perm
      (candidates.filter fun dir =>
        !logged.any dir.same && (job.settings.hasWorkers && job.loader.loads d dir)) := by
    unfold toVisit
    cases job.settings.hasWorkers with
    | false => simp
    | true =>
      simp only [if_true, Bool.true_and]
      refine ((hs mode _).filter _).trans (.of_eq ?_)
      rw [List.filter_filter]
      exact List.filter_congr fun dir _ => Bool.and_comm ..
  refine (visited.append_left _).trans ?_
  have parts := List.filter_append_perm (fun dir : Path => logged.any dir.same)
    (candidates.filter (isFinished job d logged))
  rw [List.filter_filter, List.filter_filter] at parts
  have inLog : candidates.filter (fun dir => logged.any dir.same) =
      candidates.filter (fun dir => logged.any dir.same && isFinished job d logged dir) := by
    refine List.filter_congr fun dir _ => ?_
    unfold isFinished
    cases logged.any dir.same <;> rfl
  have notInLog : candidates.filter (fun dir =>
        !logged.any dir.same && (job.settings.hasWorkers && job.loader.loads d dir)) =
      candidates.filter (fun dir => !logged.any dir.same && isFinished job d logged dir) := by
    refine List.filter_congr fun dir _ => ?_
    unfold isFinished
    cases logged.any dir.same <;> rfl
  rw [inLog, notInLog]
  exact parts

/-- Directories that the pass before has not finished do not load. A pass that leaves them out visits
the others in the same order. -/
theorem toVisit_finished
    (ordered : ∀ mode dirs (keep : Path → Bool),
      job.schedule mode (dirs.filter keep) = (job.schedule mode dirs).filter keep)
    (before logged : List Path) :
    (toVisit job mode (candidates.filter (isFinished job d before)) logged).filter
        (job.loader.loads d) =
      (toVisit job mode candidates logged).filter (job.loader.loads d) := by
  unfold toVisit
  cases hw : job.settings.hasWorkers with
  | false => rfl
  | true =>
    simp only [if_true]
    rw [List.filter_comm, ordered, List.filter_filter]
    refine List.filter_congr fun dir _ => ?_
    cases hl : job.loader.loads d dir <;> simp [isFinished, hw, hl]

/-- Visits to directories of which the same ones load leave the same, in any session whose caches
agree and whose store takes any number of transactions. -/
theorem Covers.visitAll
    (hs : SpelledAlike fun path => ∃ p, (job.corpus d).Exports p ∧ p.HasPath path)
    (steady : job.Steady d) (hm : mode ∈ Mode.all.phases) (hdirs : dirs ⊆ job.found d)
    {disk disk' : Disk} {s s' : Store} {session : Session}
    (h : Covers job (job.corpus d) mode (dirs.filter (job.loader.loads d)) disk s disk' s')
    (hl : Ledger.Logged (job.settings.logPaths .all) d disk)
    (hg : ((job.corpus d).setting hs).Good session) (same : session.store = s)
    (hw : session.writesLeft = none) (r : Report) :
    ∃ r' session', Phase.visitAll job.loader mode (job.settings.logPath mode) dirs r
      ⟨disk, session⟩ = .ok r' ⟨disk', session'⟩ ∧ session'.store = s' := by
  induction dirs generalizing disk s session r with
  | nil =>
    cases h
    exact ⟨r, session, rfl, same⟩
  | cons dir dirs ih =>
    have here := hdirs List.mem_cons_self
    have within : dirs ⊆ job.found d := fun x hx => hdirs (List.mem_cons_of_mem dir hx)
    have resolved := phase_resolved hm
    have answer := steady disk hl dir here
    unfold Phase.visitAll
    cases hload : job.loader disk dir .resolved with
    | error f =>
      have none : (job.loader d dir .resolved).toOption = none := by rw [← answer, hload]; rfl
      have skipped : ¬job.loader.loads d dir = true := by simp [Loader.loads, none]
      rw [List.filter_cons_of_neg skipped] at h
      rw [bind_of_ok (visit_of_error (w := ⟨disk, session⟩) resolved hload)]
      exact ih within h hl hg same hw _
    | ok ps =>
      have some : (job.loader d dir .resolved).toOption = some ps := by rw [← answer, hload]; rfl
      have loaded : job.loader.loads d dir = true := by simp [Loader.loads, some]
      rw [List.filter_cons_of_pos loaded] at h
      cases h with
      | cons hr ha rest =>
        subst same
        have follows := analyzeAll_of_loaded hs mode here some hg
        obtain ⟨skips, session₁, analyzed, store, -⟩ := follows.ok_of_run hw hr
        obtain ⟨good, -⟩ := follows.begun
        unfold Analyze.leaves at good
        rw [analyzed] at good
        have unlimited := follows.unlimited analyzed hw
        have logged := Ledger.Logged.append hl (List.mem_map_of_mem hm) ha
        obtain ⟨r₁, settled⟩ := settle_of_append (w := ⟨disk, session₁⟩) ps.length skips r ha
        rw [bind_of_ok (visit_of_ok (w := ⟨disk, session⟩) resolved hload analyzed),
          bind_of_ok settled]
        exact ih within rest logged good store unlimited r₁

/-- A pass over all directories that are found. -/
theorem run_found (hj : job.Separable d) (hm : mode ∈ Mode.all.phases)
    (hf : Discovery.discover d job.settings.corpusRoot = .ok candidates) {s : Session}
    (hg : ((job.corpus d).setting hj.spelled).Good s)
    (h : run job mode candidates ⟨d, s⟩ = .ok r w) :
    ∃ logged, r.finished = candidates.filter (isFinished job d logged) ∧
      Ledger.Logged (job.settings.logPaths .all) d w.disk ∧
      ((job.corpus d).setting hj.spelled).Good w.session := by
  obtain ⟨logged, disk, report, -, hprepare, hvisits, hr⟩ := run_split h
  have within : toVisit job mode candidates logged ⊆ job.found d :=
    Crew.found_of_ok hf ▸ toVisit_subset hj.schedule logged
  obtain ⟨finished, hl, good, -⟩ := visitAll_ok hj.steady hm within
    (.prepare .refl (List.mem_map_of_mem hm) hprepare) hg hvisits
  refine ⟨logged, ?_, hl, good⟩
  rw [hr, finished]
  exact mergeSort_finished hj.proper hj.schedule hf logged

/-- A pass over what another pass has finished leaves what a pass over all directories leaves. -/
theorem run_again (hj : job.Separable d) (hm : mode ∈ Mode.all.phases)
    (hf : Discovery.discover d job.settings.corpusRoot = .ok candidates) {before : List Path}
    (hl : Ledger.Logged (job.settings.logPaths .all) d w.disk)
    (hg : ((job.corpus d).setting hj.spelled).Good w.session)
    (h : run job mode (candidates.filter (isFinished job d before)) w = .ok r w')
    {s : Session} (hg' : ((job.corpus d).setting hj.spelled).Good s)
    (same : s.store = w.session.store) (hw : s.writesLeft = none) :
    ∃ r' s', run job mode candidates ⟨w.disk, s⟩ = .ok r' ⟨w'.disk, s'⟩ ∧
      s'.store = w'.session.store := by
  obtain ⟨logged, disk, report, hread, hprepare, hvisits, -⟩ := run_split h
  have all : job.found d = candidates := Crew.found_of_ok hf
  have within : toVisit job mode candidates logged ⊆ job.found d :=
    all ▸ toVisit_subset hj.schedule logged
  have fewer : toVisit job mode (candidates.filter (isFinished job d before)) logged ⊆
      job.found d := fun dir hdir =>
    all ▸ List.mem_of_mem_filter (toVisit_subset hj.schedule logged hdir)
  have logs := hl.prepare (List.mem_map_of_mem hm) hprepare
  obtain ⟨-, -, -, covers⟩ :=
    visitAll_ok (w := ⟨disk, w.session⟩) hj.steady hm fewer logs hg hvisits
  rw [toVisit_finished hj.ordered] at covers
  obtain ⟨q, s', visits, store⟩ := covers.visitAll hj.spelled hj.steady hm within logs hg' same hw
    (.start (candidates.filter fun dir => logged.any dir.same))
  obtain ⟨r', passed⟩ := run_of_visits (w := ⟨w.disk, s⟩) hread hprepare visits
  exact ⟨r', s', passed, store⟩

end Phase

/-! ## Runs -/

namespace Run

variable {job : Job} {d : Disk} {mode : Mode} {found : List Path} {w w' : Workspace} {r : RunReport}

theorem execute_of_run (hm : mode.phases = [mode])
    (hd : Discovery.discover w.disk job.settings.corpusRoot = .ok found) {p : Phase.Report}
    (h : Phase.run job mode found w = .ok p w') : ∃ r, execute job mode w = .ok r w' := by
  have discovered : Run.inspect (Discovery.discover · job.settings.corpusRoot) w = .ok found w := by
    simp only [Run.inspect, hd]
  unfold execute
  rw [bind_of_ok discovered, hm]
  exact ⟨_, bind_eq_ok.mpr ⟨p, w', h, rfl⟩⟩

theorem execute_split (h : execute job .all w = .ok r w') :
    ∃ found p p' w₁, Discovery.discover w.disk job.settings.corpusRoot = .ok found ∧
      Phase.run job .defs found w = .ok p w₁ ∧ Phase.run job .depth p.finished w₁ = .ok p' w' := by
  unfold execute at h
  obtain ⟨found, w₀, hinspect, hpasses⟩ := bind_eq_ok.mp h
  obtain ⟨hfound, rfl⟩ := inspect_ok hinspect
  simp only [Mode.phases, passes] at hpasses
  obtain ⟨p, w₁, hdefs, hpasses⟩ := bind_eq_ok.mp hpasses
  obtain ⟨p', w₂, hdepth, hpasses⟩ := bind_eq_ok.mp hpasses
  cases hpasses
  exact ⟨found, p, p', w₁, hfound, hdefs, hdepth⟩

/-- Where a run in all modes succeeds, so does a run that only defines, and after it one that only
measures depths, in the same session or in a new one. They leave the same store, with the same row
ids, and the same disk with the same logs. -/
theorem execute_separately (hj : job.Separable d) (store : Store) (typeCapacity fileCapacity : Nat)
    (h : execute job .all
      ⟨d, .start store job.settings.corpusRoot typeCapacity fileCapacity⟩ = .ok r w) :
    ∃ r₁ w₁, execute job .defs
        ⟨d, .start store job.settings.corpusRoot typeCapacity fileCapacity⟩ = .ok r₁ w₁ ∧
      ∀ renews, ∃ r₂ w₂, execute job .depth (w₁.again job.settings renews) = .ok r₂ w₂ ∧
        w₂.session.store = w.session.store ∧ w₂.disk = w.disk := by
  obtain ⟨found, p, p', w₁, hfound, hdefs, hdepth⟩ := execute_split h
  obtain ⟨r₁, defined⟩ := execute_of_run rfl hfound hdefs
  refine ⟨r₁, w₁, defined, fun renews => ?_⟩
  have defs : Mode.defs ∈ Mode.all.phases := by simp [Mode.phases]
  have depth : Mode.depth ∈ Mode.all.phases := by simp [Mode.phases]
  have start : ((job.corpus d).setting hj.spelled).Good
      (.start store job.settings.corpusRoot typeCapacity fileCapacity) :=
    ⟨rfl, Session.agrees_start .., trivial⟩
  obtain ⟨logged, finished, hl, good⟩ := Phase.run_found hj defs hfound start hdefs
  rw [finished] at hdepth
  have again : ((job.corpus d).setting hj.spelled).Good (w₁.again job.settings renews).session := by
    cases renews with
    | true => exact ⟨rfl, Session.agrees_start .., trivial⟩
    | false => exact ⟨good.root, good.agrees.grow (le_refl _), trivial⟩
  obtain ⟨p₂, s, measured, same⟩ := Phase.run_again hj depth hfound hl good hdepth again
    (w₁.again_store job.settings renews) (w₁.again_writesLeft job.settings renews)
  rw [← w₁.again_disk job.settings renews] at hl measured
  have found' := Discovery.discover_logged hl hj.proper.distinct hfound
  obtain ⟨r₂, executed⟩ := execute_of_run rfl found' measured
  exact ⟨r₂, _, executed, same, rfl⟩

/-- The small corpus. -/
theorem execute_sample_separately :
    ∃ r w r₁ w₁, execute .sample .all ⟨.sample, .start .initial ⟨"corpus"⟩ 4 4⟩ = .ok r w ∧
      execute .sample .defs ⟨.sample, .start .initial ⟨"corpus"⟩ 4 4⟩ = .ok r₁ w₁ ∧
      ∀ renews, ∃ r₂ w₂,
        execute .sample .depth (w₁.again Job.sample.settings renews) = .ok r₂ w₂ ∧
          w₂.session.store = w.session.store ∧ w₂.disk = w.disk := by
  have sorted : Path.notAfter ⟨"corpus/a"⟩ ⟨"corpus/b"⟩ = true := by decide +kernel
  obtain ⟨r, w, h⟩ := execute_sample_ok .asFound (fun _ => rfl)
    (List.mergeSort_of_pairwise (by simp [sorted])) (by decide +kernel)
  have separable : Job.sample.Separable .sample := {
    proper := Job.sample_restartable.proper
    steady := fun _ _ _ _ => rfl
    spelled := Job.sample_agrees.spelled
    schedule := fun _ dirs => .refl dirs
    ordered := fun _ _ _ => rfl }
  obtain ⟨r₁, w₁, defined, rest⟩ := execute_separately separable .initial 4 4 h
  exact ⟨r, w, r₁, w₁, h, defined, rest⟩

end Run

end AccessDepth
