import AccessDepth.Proofs.Run.Share

/-!
# AccessDepth.Proofs.Run.Course

The course of a run over a corpus whose packages agree.

* `Crew.Course` — what holds of such a run under way, wherever its passes stand.
* `Course.step`, `Course.acts` — every event keeps it.
* `Course.stops`, `Course.calm` — where all passes can be made, a run ends early only because the store
  takes no more transactions, or because of a failure from outside.
-/

namespace AccessDepth

open Plan (Op)

namespace Crew

/-- What holds of a run under way. -/
structure Course {job : Job} {mode : Mode} {d : Disk} (ready : job.Restartable mode d)
    (lines : Mode → List Path) (c : Crew) : Prop where
  sound : c.Sound job ready.agrees.setting (job.exports mode d) lines
  reached : ∃ π, (job.parts mode d).Reached π c.workspace.session.store
  ledgers : ∀ m, Ledger.Open job.settings m c.workspace.disk
  logged : Ledger.Logged (job.settings.logPaths mode) d c.workspace.disk
  /-- Only directories that load are in the logs. -/
  lined : ∀ m, lines m ⊆ (job.share mode d).dirs
  suffix : c.phases <:+ mode.phases
  within : c.dirs ⊆ job.found d
  staffed : ∀ dir ∈ c.waiting, job.settings.hasWorkers = true
  hands : ∀ dir, dir ∈ c.tasks.map (·.dir) ∨ dir ∈ c.outcomes.filterMap Visit.dir? →
    dir ∈ (job.share mode d).dirs
  finished : ∀ m later, c.phases = m :: later → c.report.finished ⊆ lines m
  /-- No directory is forgotten. -/
  whole : c.stopped = none → c.phases ≠ [] → (job.share mode d).dirs ⊆ c.dirs
  past : ∀ m ∈ mode.phases, m ∉ c.phases → (job.share mode d).dirs ⊆ lines m

section

variable {job : Job} {mode m : Mode} {d : Disk} {ready : job.Restartable mode d}
  {lines : Mode → List Path} {c c' : Crew} {later : List Mode} {w : Workspace}
  {candidates : List Path} {total : RunReport}

theorem Course.basis (h : Course ready lines c) : c.workspace.Basis ready lines :=
  ⟨⟨h.sound.good, h.sound.logs, h.sound.complete⟩, h.reached, h.ledgers, h.lined⟩

/-! ### The beginning of a pass -/

variable (candidates total) in
/-- A pass begins on open logs. -/
theorem course_begin (hb : w.Basis ready lines) (hs : m :: later <:+ mode.phases)
    (logged : ∀ disk, Ledger.prepare (job.settings.logPath m) w.disk = .ok () disk →
      Ledger.Logged (job.settings.logPaths mode) d disk)
    (within : candidates ⊆ job.found d) (covers : (job.share mode d).dirs ⊆ candidates)
    (past : ∀ m' ∈ mode.phases, m' ∉ m :: later → (job.share mode d).dirs ⊆ lines m') :
    Course ready lines (begin job (m :: later) candidates total w) ∧
      (begin job (m :: later) candidates total w).stopped = none := by
  obtain ⟨disk, hp, ho⟩ :=
    @Phase.opening_of_open job m candidates (lines m) w (hb.ledgers m) (hb.kept.logs m)
  have sound : Sound job ready.agrees.setting (job.exports mode d) lines
      (begin job (m :: later) candidates total w) :=
    sound_begin hb.kept.good hb.kept.logs hb.kept.complete fun dir hd => ready.lines dir (within hd)
  have dirs := mem_of_count_le (begin_dirs job (m :: later) candidates total w)
  rw [begin_cons, ho, List.partition_eq_filter_filter] at sound dirs ⊢
  refine ⟨{
    sound := sound
    reached := hb.reached
    ledgers := fun m' => (hb.ledgers m').prepare hp (hb.ledgers m)
    logged := logged disk hp
    lined := hb.lined
    suffix := hs
    within := fun dir hd => within (dirs hd)
    staffed := fun dir hd => ?_
    hands := fun dir hd => ?_
    finished := fun m' later' hm dir hd => ?_
    whole := fun _ _ dir hd => ?_
    past := past }, rfl⟩
  · dsimp only [opened] at hd
    split at hd
    · assumption
    · cases hd
  · simp [opened, idle] at hd
  · obtain ⟨rfl, -⟩ := List.cons.inj hm
    obtain ⟨there, known⟩ := List.mem_filter.mp hd
    obtain ⟨line, hline, same⟩ := List.any_eq_true.mp known
    have line := Ledger.mem_paths_text (fun x hx => (hb.kept.complete m x hx).1) hline
    exact ready.eq_of_same (within there) (Job.share_subset (hb.lined m line)) same ▸ line
  · have workers := (Job.mem_share.mp hd).1
    have here := covers hd
    cases hany : (Ledger.paths (Ledger.text (lines m))).any dir.same with
    | true =>
      exact List.mem_append_right _ (List.mem_filter.mpr ⟨here, hany⟩)
    | false =>
      have waits : dir ∈ candidates.filter
          fun dir => !(Ledger.paths (Ledger.text (lines m))).any dir.same :=
        List.mem_filter.mpr ⟨here, by simp [hany]⟩
      refine List.mem_append_left _ (List.mem_append_left _ ?_)
      dsimp only [opened]
      rw [if_pos workers]
      exact waits

/-- After the last pass. -/
theorem course_over (hb : w.Basis ready lines)
    (logged : Ledger.Logged (job.settings.logPaths mode) d w.disk)
    (within : candidates ⊆ job.found d)
    (past : ∀ m' ∈ mode.phases, (job.share mode d).dirs ⊆ lines m') :
    Course ready lines (begin job [] candidates total w) where
  sound := sound_begin hb.kept.good hb.kept.logs hb.kept.complete fun dir hd =>
    ready.lines dir (within hd)
  reached := hb.reached
  ledgers := hb.ledgers
  logged := logged
  lined := hb.lined
  suffix := List.nil_suffix
  within := List.nil_subset _
  staffed _ hd := by cases hd
  hands _ hd := by simp [begin, idle] at hd
  finished _ _ hm := by cases hm
  whole _ hne := absurd rfl hne
  past m' hm' _ := past m' hm'

/-- A pass over all directories is followed by the next one. -/
theorem Course.next (h : Course ready lines c) (hp : c.phases = m :: later) (hi : c.isIdle = true)
    (total : RunReport) :
    Course ready lines
        (begin job later (c.report.finished.mergeSort Path.notAfter) total c.workspace) ∧
      (begin job later (c.report.finished.mergeSort Path.notAfter) total c.workspace).stopped =
        none := by
  obtain ⟨⟨⟨waiting, tasks⟩, outcomes⟩, stopped⟩ : ((c.waiting = [] ∧ c.tasks = []) ∧
      c.outcomes = []) ∧ c.stopped = none := by simpa [isIdle] using hi
  have sorted := List.mergeSort_perm c.report.finished Path.notAfter
  have dirs : c.dirs = c.report.finished := by simp [Crew.dirs, underway, waiting, tasks, outcomes]
  have within : c.report.finished.mergeSort Path.notAfter ⊆ job.found d := fun dir hd =>
    h.within (dirs ▸ sorted.subset hd)
  have all : (job.share mode d).dirs ⊆ c.report.finished :=
    dirs ▸ h.whole stopped (by rw [hp]; simp)
  have past : ∀ m' ∈ mode.phases, m' ∉ later → (job.share mode d).dirs ⊆ lines m' := by
    intro m' hm' hn
    by_cases hm : m' = m
    · subst hm
      exact fun dir hd => h.finished m' later hp (all hd)
    · refine h.past m' hm' fun there => ?_
      rw [hp] at there
      exact (List.mem_cons.mp there).elim hm hn
  have suffix : later <:+ mode.phases := (List.suffix_cons m later).trans (hp ▸ h.suffix)
  cases later with
  | nil =>
    exact ⟨course_over h.basis h.logged within fun m' hm' => past m' hm' List.not_mem_nil, rfl⟩
  | cons m' later =>
    refine course_begin _ _ h.basis suffix (fun disk ho => h.logged.prepare ?_ ho) within
      (fun dir hd => sorted.symm.subset (all hd)) past
    exact List.mem_map_of_mem (suffix.subset List.mem_cons_self)

/-! ### Packages that are analyzed -/

/-- What a task has analyzed is settled, and the next package comes after it. -/
theorem Course.code_at (h : Course ready lines c) (hp : c.phases = m :: later) {t : Task}
    (ht : t ∈ c.tasks) {p : Package} (hpk : t.packages[t.analyzed]? = some p) :
    ∃ before after, (job.parts mode d).code (m, t.dir) =
        before ++ (p.code ready.agrees.setting.root m ++ after) ∧
      Plan.run before ⟨c.workspace.session.store, []⟩ = .ok ⟨c.workspace.session.store, []⟩ := by
  have hm : m ∈ mode.phases := h.suffix.subset (hp ▸ List.mem_cons_self)
  have hd := h.hands t.dir (.inl (List.mem_map_of_mem ht))
  obtain ⟨packages, analyzed⟩ := h.sound.tasks m later hp t ht
  have split : t.packages =
      t.packages.take t.analyzed ++ p :: t.packages.drop (t.analyzed + 1) := by
    obtain ⟨hlt, rfl⟩ := List.getElem?_eq_some_iff.mp hpk
    rw [List.getElem_cons_drop, List.take_append_drop]
  rw [Job.parts, Corpus.parts_code hm hd,
    Corpus.code_append (packages.symm.trans split |> (Job.exports_eq hm hd).symm.trans)]
  refine ⟨_, _, rfl, Plan.run_flatMap_settled fun q hq => ?_⟩
  have exported : q ∈ job.exports mode d m.loadMode t.dir := packages ▸ List.mem_of_mem_take hq
  have settled := (analyzed q hq).settled (fun _ => trivial)
    (ready.known m.loadMode t.dir q exported) (ready.agrees.closed q (Job.exported exported))
  exact settled

theorem Course.follows (h : Course ready lines c) (hp : c.phases = m :: later) {t : Task}
    (ht : t ∈ c.tasks) {p : Package} (hpk : t.packages[t.analyzed]? = some p) (k : Option Nat) :
    Plan.Follows ready.agrees.setting (c.bench k).session []
      (p.code ready.agrees.setting.root m) (AccessDepth.analyze p m)
      fun skips m' => skips = p.usableFiles.2 ∧ m'.types = [] := by
  obtain ⟨packages, -⟩ := h.sound.tasks m later hp t ht
  have exported : p ∈ job.exports mode d m.loadMode t.dir := packages ▸ List.mem_of_getElem? hpk
  have good := h.sound.good
  exact analyze_follows (fun _ => trivial) (ready.known m.loadMode t.dir p exported) m
    ⟨good.root, good.agrees.grow (le_refl _), good.kept⟩

theorem Course.due (h : Course ready lines c) (hp : c.phases = m :: later) :
    ∃ π, (job.parts mode d).Reached π c.workspace.session.store ∧
      ∀ dir, (job.parts mode d).Due π (m, dir) := by
  obtain ⟨before, hs⟩ : m :: later <:+ mode.phases := hp ▸ h.suffix
  obtain ⟨π, hr, made⟩ := h.basis.made_past hs.symm fun m' hm' hn => h.past m' hm' (hp ▸ hn)
  exact ⟨π, hr, Workspace.Basis.due_of_made ⟨before, hs⟩ made⟩

/-- The first operations of the next package lead to a store that is reached. -/
theorem Course.reached_of_run (h : Course ready lines c) (hp : c.phases = m :: later) {t : Task}
    (ht : t ∈ c.tasks) {p : Package} (hpk : t.packages[t.analyzed]? = some p) {done : List Op}
    {s : Plan.Machine} (hd : done <+: p.code ready.agrees.setting.root m)
    (hr : Plan.run done ⟨c.workspace.session.store, []⟩ = .ok s) :
    ∃ π, (job.parts mode d).Reached π s.store := by
  obtain ⟨before, after, code, settled⟩ := h.code_at hp ht hpk
  obtain ⟨rest, hrest⟩ := hd
  obtain ⟨π, hπ, due⟩ := h.due hp
  have take : ((job.parts mode d).code (m, t.dir)).take (before ++ done).length =
      before ++ done := by
    rw [code, ← hrest, List.append_assoc, ← List.append_assoc before done, List.take_left]
  refine ⟨_, hπ.extend ready.orderly.closed (due t.dir)
    (n := (before ++ done).length) ?_ (m := s) ?_⟩
  · rw [← take]
    exact List.length_take_le' _ _
  · rw [take, Plan.run_append_of_ok settled, hr]

theorem Course.runs (h : Course ready lines c) (hp : c.phases = m :: later) {t : Task}
    (ht : t ∈ c.tasks) {p : Package} (hpk : t.packages[t.analyzed]? = some p)
    {π' : Mode × Path → Nat} {s' : Store} (hr : (job.parts mode d).Reached π' s')
    (hw : (job.parts mode d).Whole π') :
    ∃ s, Plan.run (p.code ready.agrees.setting.root m) ⟨c.workspace.session.store, []⟩ = .ok s := by
  obtain ⟨before, after, code, settled⟩ := h.code_at hp ht hpk
  obtain ⟨π, hπ, due⟩ := h.due hp
  obtain ⟨s, hs⟩ := hπ.complete ready.orderly (due t.dir) hr (hw (m, t.dir))
  rw [List.take_length, code, Plan.run_append_of_ok settled] at hs
  obtain ⟨s₁, hs₁, -⟩ := Plan.run_append_ok hs
  exact ⟨s₁, hs₁⟩

theorem Course.reached_of_analyze (h : Course ready lines c) (hp : c.phases = m :: later) {t : Task}
    (ht : t ∈ c.tasks) {p : Package} (hpk : t.packages[t.analyzed]? = some p) {k : Option Nat}
    (hw : w.session = (AccessDepth.analyze p m).leaves (c.bench k).session) :
    ∃ π, (job.parts mode d).Reached π w.session.store := by
  obtain ⟨-, done, s, hd, hr, hs⟩ := (h.follows hp ht hpk k).begun
  rw [hw, ← hs]
  exact h.reached_of_run hp ht hpk hd hr

/-! ### Steps -/

theorem mem_dirs {x : Path} : x ∈ c.dirs ↔ x ∈ c.waiting ∨ x ∈ c.tasks.map (·.dir) ∨
    x ∈ c.outcomes.filterMap Visit.dir? ∨ x ∈ c.report.finished := by
  simp only [Crew.dirs, underway, List.mem_append, or_assoc]

theorem mem_eraseIdx_or {α : Type} {l : List α} {i : Nat} {x y : α} (h : l[i]? = some y)
    (hx : x ∈ l) : x ∈ l.eraseIdx i ∨ x = y := by
  obtain ⟨hlt, rfl⟩ := List.getElem?_eq_some_iff.mp h
  exact (List.mem_cons.mp ((List.getElem_cons_eraseIdx_perm hlt).symm.subset hx)).symm

/-- A step within a pass that adds no line. -/
theorem Course.keep (h : Course ready lines c) (hs : Step job c c')
    (sound : c'.Sound job ready.agrees.setting (job.exports mode d) lines)
    (reached : ∃ π, (job.parts mode d).Reached π c'.workspace.session.store)
    (hd : c'.workspace.disk = c.workspace.disk) (hp : c'.phases = c.phases)
    (hf : c'.report.finished = c.report.finished) (hw : c'.waiting ⊆ c.waiting)
    (hands : ∀ dir, dir ∈ c'.tasks.map (·.dir) ∨ dir ∈ c'.outcomes.filterMap Visit.dir? →
      dir ∈ (job.share mode d).dirs)
    (whole : c'.stopped = none → c.stopped = none ∧
      ∀ dir ∈ (job.share mode d).dirs, dir ∈ c.dirs → dir ∈ c'.dirs) :
    Course ready lines c' where
  sound := sound
  reached := reached
  ledgers := hd ▸ h.ledgers
  logged := hd ▸ h.logged
  lined := h.lined
  suffix := hp ▸ h.suffix
  within dir hm := h.within (mem_of_count_le hs.dirs hm)
  staffed dir hm := h.staffed dir (hw hm)
  hands := hands
  finished m later hm := hf ▸ h.finished m later (hp ▸ hm)
  whole hn hne dir hm := by
    obtain ⟨stopped, all⟩ := whole hn
    exact all dir hm (h.whole stopped (hp ▸ hne) hm)
  past m hm hn := h.past m hm (hp ▸ hn)

theorem Course.load_ok (h : Course ready lines c) (hp : c.phases = m :: later) {i : Nat}
    {dir : Path} (hi : c.waiting[i]? = some dir) {packages : List Package}
    (hl : job.loader c.workspace.disk dir m.loadMode = .ok packages) :
    dir ∈ (job.share mode d).dirs ∧ packages = job.exports mode d m.loadMode dir := by
  have hm : m ∈ mode.phases := h.suffix.subset (hp ▸ List.mem_cons_self)
  have waits := List.mem_of_getElem? hi
  have found := h.within (List.mem_append_left _ (List.mem_append_left _ waits))
  rw [Mode.loadMode_of_mem hm] at hl
  obtain ⟨there, packages⟩ := ready.loaded h.logged (h.staffed dir waits) found hl
  exact ⟨there, packages.trans (Job.exports_eq hm there).symm⟩

/-- A directory goes into the log. -/
theorem Course.append (h : Course ready lines c) (hp : c.phases = m :: later) {dir : Path}
    {packages : Nat} {skips : List Skip} {outcomes : List Visit} {disk : Disk}
    {report : Phase.Report}
    (ho : c.outcomes = .completed dir packages skips :: outcomes)
    (ha : Ledger.append (job.settings.logPath m) dir c.workspace.disk = .ok () disk)
    (hr : report.finished = c.report.finished ++ [dir]) :
    Course ready (oneMore lines m dir) { c with
      outcomes := outcomes, report := report, workspace := { c.workspace with disk := disk } } := by
  have hm : m ∈ mode.phases := h.suffix.subset (hp ▸ List.mem_cons_self)
  have head : dir ∈ c.outcomes.filterMap Visit.dir? := by simp [ho, Visit.dir?]
  have more (m' : Mode) : lines m' ⊆ oneMore lines m dir m' := by
    unfold oneMore
    split
    · exact List.subset_append_left _ _
    · exact List.Subset.refl _
  have same (x : Path) : x ∈ Crew.dirs { c with
      outcomes := outcomes, report := report, workspace := { c.workspace with disk := disk } } ↔
        x ∈ c.dirs := by
    have first : c.outcomes.filterMap Visit.dir? = dir :: outcomes.filterMap Visit.dir? := by
      rw [ho]; rfl
    rw [mem_dirs, mem_dirs, first, hr]
    simp only [List.mem_cons, List.mem_append, List.not_mem_nil, or_false]
    tauto
  exact {
    sound := h.sound.logged hp ho ha hr
    reached := h.reached
    ledgers := fun m' => (h.ledgers m').append ha
    logged := h.logged.append (List.mem_map_of_mem hm) ha
    lined := fun m' x hx => by
      by_cases he : m' = m
      · subst he
        rw [oneMore_self] at hx
        obtain hx | hx := List.mem_append.mp hx
        · exact h.lined m' hx
        · exact List.mem_singleton.mp hx ▸ h.hands dir (.inr head)
      · rw [oneMore_of_ne he] at hx
        exact h.lined m' hx
    suffix := h.suffix
    within := fun x hx => h.within ((same x).mp hx)
    staffed := h.staffed
    hands := fun x hx => h.hands x (hx.imp_right fun hx => by
      rw [ho]
      exact List.mem_cons_of_mem _ hx)
    finished := fun m' later' hm' x hx => by
      obtain ⟨rfl, -⟩ := List.cons.inj (hp.symm.trans hm')
      rw [oneMore_self]
      rw [hr] at hx
      obtain hx | hx := List.mem_append.mp hx
      · exact List.mem_append_left _ (h.finished m later hp hx)
      · exact List.mem_append_right _ hx
    whole := fun hn hne x hx => (same x).mpr (h.whole hn hne hx)
    past := fun m' hm' hn x hx => more m' (h.past m' hm' hn hx) }

/-- Every step keeps the course of a run. -/
theorem Course.step (h : Course ready lines c) (hs : Step job c c') :
    ∃ lines', Course ready lines' c' := by
  have step := hs
  have stopped {f : Failure} {P : Prop} (hn : c.stopped.or (some f) = none) : P := by simp at hn
  cases hs with
  | same => exact ⟨lines, h⟩
  | @refused m later i dir f hp hi hl =>
    have outcomes : (c.outcomes ++ [Visit.skipped (.ofFailure dir f)]).filterMap Visit.dir? =
        c.outcomes.filterMap Visit.dir? := by simp [Visit.dir?]
    have hm : m ∈ mode.phases := h.suffix.subset (hp ▸ List.mem_cons_self)
    have found := h.within (mem_dirs.mpr (.inl (List.mem_of_getElem? hi)))
    have other := ready.refused h.logged found (Mode.loadMode_of_mem hm ▸ hl)
    have sound := h.sound.fewer step rfl rfl (List.Subset.refl _) (outcomes ▸ fun _ => id)
    refine ⟨lines, h.keep step sound h.reached rfl rfl rfl List.eraseIdx_subset
      (fun x hx => h.hands x (outcomes ▸ hx)) fun hn => ⟨hn, fun x hx there => ?_⟩⟩
    rw [mem_dirs, outcomes]
    refine (mem_dirs.mp there).imp_left fun waits => (mem_eraseIdx_or hi waits).resolve_right ?_
    rintro rfl
    exact other hx
  | @loaded m later i dir packages hp hi hl =>
    obtain ⟨here, exported⟩ := h.load_ok hp hi hl
    have tasks : (c.tasks ++ [(⟨dir, packages, 0, []⟩ : Task)]).map (·.dir) =
        c.tasks.map (·.dir) ++ [dir] := by simp
    refine ⟨lines, h.keep step (h.sound.loaded hp hi hl exported) h.reached rfl rfl rfl
      List.eraseIdx_subset (fun x hx => ?_) fun hn => ⟨hn, fun x _ was => ?_⟩⟩
    · rw [tasks, List.mem_append, List.mem_singleton, or_right_comm] at hx
      obtain hx | rfl := hx
      · exact h.hands x hx
      · exact here
    · rw [mem_dirs] at was ⊢
      rw [tasks, List.mem_append, List.mem_singleton]
      obtain waits | was := was
      · obtain waits | rfl := mem_eraseIdx_or hi waits
        · exact .inl waits
        · exact .inr (.inl (.inr rfl))
      · exact .inr (was.imp_left .inl)
  | @analyzed m later i k t p skips w hp hi hpk ha =>
    have tasks : (c.tasks.set i
        { t with analyzed := t.analyzed + 1, skips := t.skips ++ skips }).map (·.dir) =
        c.tasks.map (·.dir) := map_set_of_eq hi rfl
    obtain ⟨session, disk⟩ := Run.analyzing_ok ha
    have reached := h.reached_of_analyze hp (List.mem_of_getElem? hi) hpk (k := k) (w := w)
      (by unfold Analyze.leaves; rw [session])
    have sound := h.sound.analyzed (fun _ => trivial) ready.known hp hi hpk ha
    refine ⟨lines, h.keep step sound reached disk rfl rfl (List.Subset.refl _)
      (fun x hx => h.hands x (tasks ▸ hx)) fun hn => ⟨hn, fun x _ was => ?_⟩⟩
    rw [mem_dirs] at was ⊢
    rwa [tasks]
  | @failed m later i k t p f w hp hi hpk ha =>
    obtain ⟨session, disk⟩ := analyzing_error ha
    have reached := h.reached_of_analyze hp (List.mem_of_getElem? hi) hpk (k := k) (w := w)
      (by unfold Analyze.leaves; rw [session])
    have sound := h.sound.failed (fun _ => trivial) ready.known hp hi hpk ha
    refine ⟨lines, h.keep step sound reached disk rfl rfl (List.Subset.refl _)
      (fun x hx => h.hands x (hx.imp_left fun hx => ?_)) stopped⟩
    exact List.map_subset _ List.eraseIdx_subset hx
  | @finished i t hi hn =>
    have outcomes : (c.outcomes ++ [Visit.completed t.dir t.packages.length t.skips]).filterMap
        Visit.dir? = c.outcomes.filterMap Visit.dir? ++ [t.dir] := by simp [Visit.dir?]
    refine ⟨lines, h.keep step (h.sound.finished hi hn) h.reached rfl rfl rfl (List.Subset.refl _)
      (fun x hx => ?_) fun hn => ⟨hn, fun x _ was => ?_⟩⟩
    · rw [outcomes, List.mem_append, List.mem_singleton] at hx
      obtain hx | hx | rfl := hx
      · exact h.hands x (.inl (List.map_subset _ List.eraseIdx_subset hx))
      · exact h.hands x (.inr hx)
      · exact h.hands _ (.inl (List.mem_map_of_mem (List.mem_of_getElem? hi)))
    · rw [mem_dirs] at was ⊢
      rw [outcomes, List.mem_append, List.mem_singleton, ← List.eraseIdx_map]
      obtain waits | task | was := was
      · exact .inl waits
      · have here : (c.tasks.map (·.dir))[i]? = some t.dir := by simp [hi]
        obtain task | rfl := mem_eraseIdx_or here task
        · exact .inr (.inl task)
        · exact .inr (.inr (.inl (.inr rfl)))
      · exact .inr (.inr (was.imp_left .inl))
  | @skipped skip outcomes ho =>
    have same : c.outcomes.filterMap Visit.dir? = outcomes.filterMap Visit.dir? := by rw [ho]; rfl
    have sound := h.sound.fewer step rfl rfl (List.Subset.refl _) (same ▸ fun _ => id)
    refine ⟨lines, h.keep step sound h.reached rfl rfl rfl (List.Subset.refl _)
      (fun x hx => h.hands x (same ▸ hx)) fun hn => ⟨hn, fun x _ was => ?_⟩⟩
    rw [mem_dirs] at was ⊢
    rwa [← same]
  | @logged m later dir packages skips outcomes disk hp ho ha => exact ⟨_, h.append hp ho ha rfl⟩
  | @unlogged m later dir packages skips outcomes e disk hp ho ha =>
    obtain rfl := Disk.append_refused ha
    have fewer : outcomes.filterMap Visit.dir? ⊆ c.outcomes.filterMap Visit.dir? := by
      rw [ho]
      exact List.subset_cons_self _ _
    have sound := h.sound.fewer step rfl rfl (List.Subset.refl _) fewer
    exact ⟨lines, h.keep step sound h.reached rfl rfl rfl (List.Subset.refl _)
      (fun x hx => h.hands x (hx.imp_right fun hx => fewer hx)) stopped⟩
  | @next m later total hp hi => exact ⟨lines, (h.next hp hi total).1⟩
  | halted f =>
    have sound := h.sound.fewer step rfl rfl (List.Subset.refl _) (List.Subset.refl _)
    exact ⟨lines, h.keep step sound h.reached rfl rfl rfl (List.Subset.refl _) h.hands stopped⟩

theorem Course.acts (h : Course ready lines c) (es : List Event) :
    ∃ lines', Course ready lines' (c.acts job es) := by
  induction es generalizing c lines with
  | nil => exact ⟨lines, h⟩
  | cons e es ih =>
    obtain ⟨lines', h'⟩ := h.step (act_step job c e)
    exact ih h'

/-! ### The end of a run -/

theorem act_stopped (job : Job) {f : Failure} (hf : c.stopped = some f) (e : Event) :
    (c.act job e).stopped = some f := by
  have step := act_step job c e
  generalize c.act job e = c' at step
  cases step with
  | next total hp hi => simp [isIdle, hf] at hi
  | failed | unlogged | halted => simp [stop, hf]
  | same | refused | loaded | analyzed | finished | skipped | logged => exact hf

theorem acts_stopped (job : Job) {f : Failure} (hf : c.stopped = some f) (es : List Event) :
    (c.acts job es).stopped = some f := by
  induction es generalizing c with
  | nil => exact hf
  | cons e es ih => exact ih (act_stopped job hf e)

theorem Course.settle_ok (h : Course ready lines c) (m : Mode) (v : Visit) :
    ∃ r w, Phase.settle (job.settings.logPath m) c.report v c.workspace = .ok r w := by
  cases v with
  | skipped skip => exact ⟨_, _, rfl⟩
  | completed dir packages skips =>
    obtain ⟨old, hold⟩ := (h.ledgers m).leads
    obtain ⟨disk, ha⟩ := Disk.append_succeeds hold (String.ofList (Ledger.line dir)).toUTF8
    have logged : Run.onDisk (Ledger.append (job.settings.logPath m) dir) c.workspace =
        .ok () { c.workspace with disk := disk } := by
      unfold Run.onDisk Ledger.append
      rw [ha]
    exact ⟨_, _, bind_of_ok logged⟩

/-- Where all passes can be made, an event stops a run only if it is a failure from outside or if the
store takes no more transactions. -/
theorem Course.stops (h : Course ready lines c)
    (full : ∃ π s, (job.parts mode d).Reached π s ∧ (job.parts mode d).Whole π)
    (hn : c.stopped = none) {e : Event} {f : Failure} (hf : (c.act job e).stopped = some f) :
    e = .halt f ∨ f = .store .closed ∧ ∃ i k, e = .analyze i (some k) := by
  have going {P : Prop} (h : c.stopped = some f) : P := by
    rw [hn] at h
    cases h
  obtain ⟨π, s, hr, whole⟩ := full
  unfold act at hf
  split at hf
  · exact going hf
  · rename_i m later hp
    cases e with
    | load i =>
      simp only [load] at hf
      split at hf
      · exact going hf
      · split at hf <;> exact going hf
    | analyze i k =>
      simp only [analyze] at hf
      split at hf
      · exact going hf
      · split at hf
        · exact going hf
        · rename_i t ht _ p hpk
          split at hf
          · exact going hf
          · rename_i f' w ha
            have same : f' = f := by simpa [stop, hn] using hf
            subst same
            have task := List.mem_of_getElem? ht
            obtain ⟨s', runs⟩ := h.runs hp task hpk hr whole
            obtain ⟨closed, limited⟩ :=
              (h.follows hp task hpk k).closed_of_run (analyzing_error ha).1 runs
            obtain ⟨n, rfl⟩ := Option.ne_none_iff_exists'.mp limited
            exact .inr ⟨closed, i, n, rfl⟩
    | finish i =>
      simp only [finish] at hf
      split at hf
      · exact going hf
      · split at hf <;> exact going hf
    | settle =>
      simp only [settle] at hf
      split at hf
      · exact going hf
      · obtain ⟨r, w, settled⟩ := h.settle_ok m ‹_›
        rw [settled] at hf
        exact going hf
    | next =>
      simp only [Crew.next] at hf
      split at hf
      · rw [(h.next hp ‹_› _).2] at hf
        cases hf
      · exact going hf
    | halt f' =>
      have same : f' = f := by simpa [stop, hn] using hf
      exact .inl (same ▸ rfl)

/-- Only an analysis works on the session. -/
theorem Course.session (h : Course ready lines c) {e : Event} (he : ∀ i k, e ≠ .analyze i k) :
    (c.act job e).workspace.session = c.workspace.session := by
  unfold act
  split
  · rfl
  · rename_i m later hp
    cases e with
    | load i =>
      simp only [load]
      split
      · rfl
      · split <;> rfl
    | analyze i k => exact absurd rfl (he i k)
    | finish i =>
      simp only [finish]
      split
      · rfl
      · split <;> rfl
    | settle =>
      simp only [settle]
      split
      · rfl
      · rename_i outcome _ _
        cases outcome with
        | skipped => rfl
        | completed dir packages skips =>
          simp only [Phase.settle, Run.onDisk, Bind.bind, EStateM.bind]
          cases Ledger.append (job.settings.logPath m) dir c.workspace.disk <;> rfl
    | next =>
      simp only [Crew.next]
      split
      · exact (begin_workspace _ _ _ h.sound.logs).1
      · rfl
    | halt f => rfl

/-- Where all passes can be made, no calm event stops a run whose store takes any number of
transactions. -/
theorem Course.calm (h : Course ready lines c)
    (full : ∃ π s, (job.parts mode d).Reached π s ∧ (job.parts mode d).Whole π)
    (hn : c.stopped = none) (hw : c.workspace.session.writesLeft = none) {e : Event}
    (he : e.Calm c) :
    (c.act job e).stopped = none ∧ (c.act job e).workspace.session.writesLeft = none := by
  have going : (c.act job e).stopped = none := by
    cases hs : (c.act job e).stopped with
    | none => rfl
    | some f =>
      obtain rfl | ⟨-, i, k, rfl⟩ := h.stops full hn hs
      · exact he.elim
      · cases hw.symm.trans (he.symm : _ = some k)
  refine ⟨going, ?_⟩
  by_cases ha : ∃ i k, e = .analyze i k
  · obtain ⟨i, k, rfl⟩ := ha
    obtain rfl : k = none := (he : k = _).trans hw
    unfold act at going ⊢
    split at going
    · exact hw
    · rename_i m later hp
      simp only [analyze] at going ⊢
      split at going
      · exact hw
      · split at going
        · exact hw
        · rename_i t ht _ p hpk
          split at going
          · rename_i skips w ha
            exact (h.follows hp (List.mem_of_getElem? ht) hpk none).unlimited
              (Run.analyzing_ok ha).1 rfl
          · simp [stop, hn] at going
  · rw [h.session fun i k he => ha ⟨i, k, he⟩]
    exact hw

end

end Crew

end AccessDepth
