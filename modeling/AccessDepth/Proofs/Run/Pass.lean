import AccessDepth.Proofs.Corpus
import AccessDepth.Proofs.Run.Loading

/-!
# AccessDepth.Proofs.Run.Pass

What a pass over a corpus does that succeeds.

* `Job.corpus` — the directories that load, with their packages.
* `Phase.Covers` — directories are done one after the other: the packages of each are analyzed, and
  it is added to the log. `Phase.visitAll_ok`: so it is for those that load.
* `Phase.Passed` — what is left of that: the directories come last in the log, and the other logs are
  as they were.
* `Phase.run_ok` — a pass whose log was not used visits all directories, in the order of the schedule.
-/

namespace AccessDepth

open Plan (Setting Follows Visits)

namespace Loader

variable (loader : Loader) (d : Disk) (dir : Path)

def loads : Bool := (loader d dir .resolved).toOption.isSome

def packages : List Package := (loader d dir .resolved).toOption.getD []

end Loader

namespace Job

variable (job : Job)

/-- The directories that load, with their packages. -/
def corpus (d : Disk) : Corpus where
  root := job.settings.corpusRoot
  dirs := (job.found d).filter (job.loader.loads d)
  packages := job.loader.packages d

end Job

namespace Run

variable {α : Type} {w w' : Workspace} {x : α}

theorem inspect_ok {f : Disk → Except Failure α} (h : inspect f w = .ok x w') :
    f w.disk = .ok x ∧ w' = w := by
  unfold inspect at h
  split at h
  · rename_i hf
    cases h
    exact ⟨hf, rfl⟩
  · cases h

theorem onDisk_ok {change : Disk.Change} (h : onDisk change w = .ok () w') :
    ∃ d, change w.disk = .ok () d ∧ w' = { w with disk := d } := by
  unfold onDisk at h
  split at h
  · rename_i hd
    cases h
    exact ⟨_, hd, rfl⟩
  · cases h

theorem analyzing_ok {a : Analyze α} (h : analyzing a w = .ok x w') :
    a w.session = .ok x w'.session ∧ w'.disk = w.disk := by
  unfold analyzing at h
  split at h
  · rename_i ha
    cases h
    exact ⟨ha, rfl⟩
  · cases h

end Run

/-! ## Visits -/

namespace Phase

theorem analyzeAll_follows (σ : Setting) (hσ : ∀ t, σ.kept t) {ps : List Package}
    (hp : ∀ p ∈ ps, ∀ path, p.HasPath path → σ.known path) (m : Mode) {s : Session}
    (hg : σ.Good s) :
    Follows σ s [] (ps.flatMap (·.code σ.root m)) (analyzeAll m ps) fun _ m' => m'.types = [] := by
  induction ps generalizing s with
  | nil => exact Plan.follows_pure hg rfl
  | cons p ps ih =>
    unfold analyzeAll
    rw [List.flatMap_cons]
    refine (analyze_follows hσ (hp p List.mem_cons_self) m hg).bind fun skips s₁ types hg₁ _ h => ?_
    obtain rfl : types = [] := h.2
    exact (ih (fun q hq => hp q (List.mem_cons_of_mem p hq)) hg₁).map fun _ _ h => h

theorem visit_ok {loader : Loader} {mode : Mode} (hm : mode.loadMode = .resolved) {dir : Path}
    {w w' : Workspace} {v : Visit} (h : visit loader mode dir w = .ok v w') :
    ((loader w.disk dir .resolved).toOption = none ∧ (∃ skip, v = .skipped skip) ∧ w' = w) ∨
      ∃ ps skips, (loader w.disk dir .resolved).toOption = some ps ∧
        v = .completed dir ps.length skips ∧ w'.disk = w.disk ∧
        analyzeAll mode ps w.session = .ok skips w'.session := by
  unfold visit at h
  obtain ⟨_, _, hget, h⟩ := bind_eq_ok.mp h
  cases hget
  rw [hm] at h
  cases hl : loader w.disk dir .resolved with
  | error e =>
    rw [hl] at h
    cases h
    exact .inl ⟨rfl, ⟨_, rfl⟩, rfl⟩
  | ok ps =>
    rw [hl] at h
    obtain ⟨skips, w₁, ha, h⟩ := bind_eq_ok.mp h
    cases h
    obtain ⟨ha, hd⟩ := Run.analyzing_ok ha
    exact .inr ⟨ps, skips, rfl, rfl, hd, ha⟩

end Phase

/-- What the analyses of a corpus whose equal paths are spelled the same are looked at under. -/
def Corpus.setting (c : Corpus)
    (hs : SpelledAlike fun path => ∃ p, c.Exports p ∧ p.HasPath path) : Setting where
  root := c.root
  known path := ∃ p, c.Exports p ∧ p.HasPath path
  spelled := hs
  kept _ := True

def Corpus.Agrees.setting {c : Corpus} (h : c.Agrees) : Setting where
  root := c.root
  known path := ∃ p, c.Exports p ∧ p.HasPath path
  spelled := h.spelled
  kept _ := True

namespace Phase

variable {job : Job} {d : Disk} {dirs done : List Path} {mode : Mode} {w w' w'' : Workspace}

/-- Directories are done one after the other: the packages of each are analyzed, and then it is added
to the log. -/
inductive Covers (job : Job) (c : Corpus) (mode : Mode) :
    List Path → Disk → Store → Disk → Store → Prop
  | nil {d : Disk} {s : Store} : Covers job c mode [] d s d s
  | cons {dir : Path} {dirs : List Path} {d d₁ d' : Disk} {s s₁ s' : Store} :
      Plan.run (c.code (mode, dir)) ⟨s, []⟩ = .ok ⟨s₁, []⟩ →
      Ledger.append (job.settings.logPath mode) dir d = .ok () d₁ →
      Covers job c mode dirs d₁ s₁ d' s' → Covers job c mode (dir :: dirs) d s d' s'

/-- What is left of visits to directories: their packages were analyzed one directory after the other,
and the directories come last in the log. The other logs are as they were. -/
structure Passed (job : Job) (c : Corpus) (mode : Mode) (done : List Path) (w w' : Workspace) :
    Prop where
  visits : Visits c.code (done.map (mode, ·)) w.session.store w'.session.store
  log : ∀ dirs, w.disk.LeadsTo (job.settings.logPath mode)
      (some (String.ofList (Ledger.text dirs)).toUTF8) →
    w'.disk.LeadsTo (job.settings.logPath mode)
      (some (String.ofList (Ledger.text (dirs ++ done))).toUTF8)
  others : ∀ other : Mode, mode.logName ≠ other.logName → ∀ old,
    w.disk.LeadsTo (job.settings.logPath other) old →
      w'.disk.LeadsTo (job.settings.logPath other) old

namespace Passed

variable {c : Corpus}

theorem cons {dir : Path} {s : Session} {disk : Disk}
    (hr : Plan.run (c.code (mode, dir)) ⟨w.session.store, []⟩ = .ok ⟨s.store, []⟩)
    (ha : Ledger.append (job.settings.logPath mode) dir w.disk = .ok () disk)
    (h : Passed job c mode done ⟨disk, s⟩ w') : Passed job c mode (dir :: done) w w' where
  visits := .cons hr h.visits
  log dirs hl := by
    have appended := Ledger.leadsTo_of_append (job.settings.logPath_endsIn mode) hl ha
    rw [List.append_cons]
    exact h.log _ appended
  others other hne old hl := h.others other hne old
    (Disk.append_other (job.settings.logPath_endsIn mode) (job.settings.logPath_endsIn other) hne ha
      hl)

end Passed

theorem Covers.passed {c : Corpus} {disk disk' : Disk} {s s' : Store}
    (h : Covers job c mode done disk s disk' s') {w w' : Workspace} (hd : w.disk = disk)
    (hs : w.session.store = s) (hd' : w'.disk = disk') (hs' : w'.session.store = s') :
    Passed job c mode done w w' := by
  induction h generalizing w with
  | nil =>
    subst hd hs
    refine ⟨hs' ▸ .nil _, fun dirs hl => ?_, fun _ _ _ hl => hd' ▸ hl⟩
    rw [List.append_nil]
    exact hd' ▸ hl
  | @cons dir dirs _ d₁ _ _ s₁ _ hr ha _ ih =>
    subst hd hs
    have rest : Passed job c mode dirs ⟨d₁, { w.session with store := s₁ }⟩ w' :=
      ih rfl rfl hd' hs'
    exact rest.cons hr ha

theorem phase_resolved (hm : mode ∈ Mode.all.phases) : mode.loadMode = .resolved := by
  simp only [Mode.phases, List.mem_cons, List.not_mem_nil, or_false] at hm
  obtain rfl | rfl := hm <;> rfl

/-- Analyzing the packages of a directory that loads does what the code of the directory does. -/
theorem analyzeAll_of_loaded
    (hs : SpelledAlike fun path => ∃ p, (job.corpus d).Exports p ∧ p.HasPath path) (m : Mode)
    {dir : Path} (hd : dir ∈ job.found d) {ps : List Package}
    (hload : (job.loader d dir .resolved).toOption = some ps) {s : Session}
    (hg : ((job.corpus d).setting hs).Good s) :
    Follows ((job.corpus d).setting hs) s [] ((job.corpus d).code (m, dir)) (analyzeAll m ps)
      fun _ m' => m'.types = [] := by
  have packages : (job.corpus d).packages dir = ps := by
    simp [Job.corpus, Loader.packages, hload]
  have here : dir ∈ (job.corpus d).dirs :=
    List.mem_filter.mpr ⟨hd, by simp [Loader.loads, hload]⟩
  rw [Corpus.code, packages]
  exact analyzeAll_follows ((job.corpus d).setting hs) (fun _ => trivial)
    (fun p hp path hpath => ⟨p, ⟨dir, here, packages ▸ hp⟩, hpath⟩) m hg

/-- Directories are visited in order; those that load are done. -/
theorem visitAll_ok
    {hs : SpelledAlike fun path => ∃ p, (job.corpus d).Exports p ∧ p.HasPath path}
    (steady : job.Steady d) (hm : mode ∈ Mode.all.phases) (hdirs : dirs ⊆ job.found d)
    {r r' : Phase.Report} (hl : Ledger.Logged (job.settings.logPaths .all) d w.disk)
    (hg : ((job.corpus d).setting hs).Good w.session)
    (hv : visitAll job.loader mode (job.settings.logPath mode) dirs r w = .ok r' w') :
    r'.finished = r.finished ++ dirs.filter (job.loader.loads d) ∧
      Ledger.Logged (job.settings.logPaths .all) d w'.disk ∧
      ((job.corpus d).setting hs).Good w'.session ∧
      Covers job (job.corpus d) mode (dirs.filter (job.loader.loads d)) w.disk w.session.store
        w'.disk w'.session.store := by
  induction dirs generalizing w r with
  | nil =>
    cases hv
    exact ⟨(List.append_nil _).symm, hl, hg, .nil⟩
  | cons dir dirs ih =>
    have within : dirs ⊆ job.found d := fun x hx => hdirs (List.mem_cons_of_mem dir hx)
    unfold visitAll at hv
    obtain ⟨v, w₁, hvisit, hv⟩ := bind_eq_ok.mp hv
    obtain ⟨r₁, w₂, hsettle, hv⟩ := bind_eq_ok.mp hv
    obtain ⟨hload, ⟨skip, rfl⟩, rfl⟩ | ⟨ps, skips, hload, rfl, hdisk, ha⟩ :=
      visit_ok (phase_resolved hm) hvisit
    · cases hsettle
      rw [steady _ hl dir (hdirs List.mem_cons_self)] at hload
      have skipped : job.loader.loads d dir = false := by simp [Loader.loads, hload]
      rw [List.filter_cons_of_neg (by simp [skipped])]
      have after := ih within hl hg hv
      exact after
    · rw [steady _ hl dir (hdirs List.mem_cons_self)] at hload
      obtain ⟨_, w₃, happend, hsettle⟩ := bind_eq_ok.mp hsettle
      cases hsettle
      obtain ⟨disk, hd, rfl⟩ := Run.onDisk_ok happend
      rw [hdisk] at hd
      have follows := analyzeAll_of_loaded hs mode (hdirs List.mem_cons_self) hload hg
      obtain ⟨types, hr, hnone⟩ := follows.run_of_ok ha
      obtain rfl : types = [] := hnone
      obtain ⟨good, -⟩ := follows.begun
      unfold Analyze.leaves at good
      rw [ha] at good
      have logged := Ledger.Logged.append hl (List.mem_map_of_mem hm) hd
      obtain ⟨finished, logged, good, covers⟩ :=
        ih (w := ⟨disk, w₁.session⟩) within logged good hv
      have loaded : job.loader.loads d dir = true := by simp [Loader.loads, hload]
      rw [List.filter_cons_of_pos loaded]
      refine ⟨finished.trans ?_, logged, good, .cons hr hd covers⟩
      simp

/-- What a pass leaves whose log was not used: it visited some directories, and they are the lines of
the log. The other logs are as they were when the directories above the log were there. -/
structure Made (job : Job) (c : Corpus) (mode : Mode) (done : List Path) (w w' : Workspace) :
    Prop where
  visits : Visits c.code (done.map (mode, ·)) w.session.store w'.session.store
  log : w'.disk.LeadsTo (job.settings.logPath mode)
    (some (String.ofList (Ledger.text done)).toUTF8)
  others : ∃ d, Disk.createParents (job.settings.logPath mode) w.disk = .ok () d ∧
    ∀ other : Mode, mode.logName ≠ other.logName → ∀ old,
      d.LeadsTo (job.settings.logPath other) old → w'.disk.LeadsTo (job.settings.logPath other) old

/-- A pass whose log was not used visits all directories that load, in the order of the schedule. -/
theorem run_ok (h : (job.corpus d).Agrees) (steady : job.Steady d)
    (hs : ∀ mode dirs, (job.schedule mode dirs).Perm dirs) (hm : mode ∈ Mode.all.phases)
    {candidates : List Path} (hc : candidates ⊆ job.found d) {r : Phase.Report}
    (hl : Ledger.Logged (job.settings.logPaths .all) d w.disk) (hg : h.setting.Good w.session)
    (hu : w.disk.Unused (job.settings.logPath mode)) (hr : run job mode candidates w = .ok r w') :
    ∃ done, done.Perm
        (if job.settings.hasWorkers then candidates.filter (job.loader.loads d) else []) ∧
      r.finished.Perm done ∧ Ledger.Logged (job.settings.logPaths .all) d w'.disk ∧
      h.setting.Good w'.session ∧ Made job (job.corpus d) mode done w w' := by
  unfold run at hr
  obtain ⟨read, w₁, hread, hr⟩ := bind_eq_ok.mp hr
  obtain ⟨_, w₂, hprepare, hr⟩ := bind_eq_ok.mp hr
  obtain ⟨hdone, rfl⟩ := Run.inspect_ok hread
  obtain ⟨disk, hdisk, rfl⟩ := Run.onDisk_ok hprepare
  obtain ⟨d₁, hparents, happend⟩ := Ledger.prepare_ok hdisk
  have nothing : read = [] := by
    cases hlog : Ledger.read w₁.disk (job.settings.logPath mode) with
    | error e =>
      rw [hlog] at hdone
      cases hdone
    | ok ps =>
      rw [hlog] at hdone
      cases hdone
      exact Ledger.read_of_unused hu hparents hlog
  subst nothing
  have pending : candidates.partition (fun dir => ([] : List Path).any dir.same) =
      ([], candidates) := by
    rw [List.partition_eq_filter_filter]
    simp
  rw [pending] at hr
  obtain ⟨report, w₃, hvisits, hr⟩ := bind_eq_ok.mp hr
  cases hr
  have logPath := job.settings.logPath_endsIn mode
  have perm : (if job.settings.hasWorkers then job.schedule mode candidates else []).Perm
      (if job.settings.hasWorkers then candidates else []) := by
    split
    · exact hs mode candidates
    · exact .refl _
  have within :
      (if job.settings.hasWorkers then job.schedule mode candidates else []) ⊆ job.found d := by
    intro dir hdir
    refine hc ?_
    have there := perm.subset hdir
    split at there
    · exact there
    · cases there
  obtain ⟨finished, logged, good, covers⟩ := visitAll_ok (w := ⟨disk, w₁.session⟩) steady hm
    within (.prepare hl (List.mem_map_of_mem hm) hdisk) hg hvisits
  have passed := covers.passed (w := ⟨disk, w₁.session⟩) rfl rfl rfl rfl
  refine ⟨_, (perm.filter _).trans ?_, ?_, logged, good, passed.visits, ?_, d₁, hparents, ?_⟩
  · split <;> exact .refl _
  · simp only [finished, List.nil_append]
    exact List.mergeSort_perm _ _
  · exact passed.log [] (Ledger.leadsTo_of_prepare logPath hu hdisk)
  · intro other hne old hold
    exact passed.others other hne old
      (Disk.append_other logPath (job.settings.logPath_endsIn other) hne happend hold)

end Phase
end AccessDepth
