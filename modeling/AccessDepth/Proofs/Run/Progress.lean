import AccessDepth.Proofs.Run.Crew
import AccessDepth.Proofs.Run.Lines

/-!
# AccessDepth.Proofs.Run.Progress

What holds of a run under way.

* `Crew.dirs`, `Step.dirs` — the directories that a run has still to do with. A step adds none.
* `Crew.Fails`, `Fails.dirs` — an event by which a directory fails, and is out.
* `Analyzed` — a package was analyzed without an error, and what that left is still there.
* `Crew.Sound`, `Sound.step`, `Sound.acts` — the lines of the logs are directories all of whose packages
  were analyzed, and events only add lines of directories that the run has to do with.
-/

namespace AccessDepth

open Plan (Setting)

/-! ## Directories -/

/-- The directory that is to go into the log. -/
def Visit.dir? : Visit → Option Path
  | .completed dir .. => some dir
  | .skipped _ => none

namespace Crew

def underway (c : Crew) : List Path :=
  c.waiting ++ (c.tasks.map (·.dir) ++ c.outcomes.filterMap Visit.dir?)

/-- The directories that a run has still to do with. -/
def dirs (c : Crew) : List Path := c.underway ++ c.report.finished

/-- An event by which a directory fails: it does not load, or a package of it is not analyzed. -/
inductive Fails (job : Job) (c : Crew) : Event → Path → Prop
  | load {mode : Mode} {later : List Mode} {i : Nat} {dir : Path} {f : Failure} :
      c.phases = mode :: later → c.waiting[i]? = some dir →
        job.loader c.workspace.disk dir mode.loadMode = .error f → Fails job c (.load i) dir
  | analyze {mode : Mode} {later : List Mode} {i : Nat} {writesLeft : Option Nat} {t : Task}
      {p : Package} {f : Failure} {w : Workspace} :
      c.phases = mode :: later → c.tasks[i]? = some t → t.packages[t.analyzed]? = some p →
        Run.analyzing (AccessDepth.analyze p mode) (c.bench writesLeft) = .error f w →
          Fails job c (.analyze i writesLeft) t.dir

variable {job : Job} {c : Crew} {mode : Mode} {later : List Mode}

theorem count_eraseIdx {α : Type} [DecidableEq α] {l : List α} {i : Nat} {x : α} (h : l[i]? = some x)
    (a : α) : l.count a = (l.eraseIdx i).count a + [x].count a := by
  obtain ⟨hlt, rfl⟩ := List.getElem?_eq_some_iff.mp h
  rw [← (List.getElem_cons_eraseIdx_perm hlt).count_eq a, List.count_cons, List.count_singleton]

theorem map_set_of_eq {α β : Type} {f : α → β} {l : List α} {i : Nat} {x y : α} (h : l[i]? = some x)
    (hf : f y = f x) : (l.set i y).map f = l.map f := by
  refine List.ext_getElem? fun j => ?_
  rw [List.getElem?_map, List.getElem?_map, List.getElem?_set]
  split
  · rename_i hij
    subst hij
    obtain ⟨hlt, rfl⟩ := List.getElem?_eq_some_iff.mp h
    simp [hlt, hf]
  · rfl

theorem count_dirs (c : Crew) (a : Path) :
    c.dirs.count a = c.waiting.count a + (c.tasks.map (·.dir)).count a +
      (c.outcomes.filterMap Visit.dir?).count a + c.report.finished.count a := by
  simp only [dirs, underway, List.count_append]
  omega

theorem perm_of_partition {α : Type} {p : α → Bool} {l xs ys : List α}
    (h : l.partition p = (xs, ys)) : l.Perm (xs ++ ys) := by
  rw [List.partition_eq_filter_filter] at h
  cases h
  have split := List.filter_append_perm p l
  exact (split.symm.trans (by simp [Function.comp_def]))

/-- A pass begins with some of the candidates. -/
theorem begin_dirs (job : Job) (phases : List Mode) (candidates : List Path) (total : RunReport)
    (w : Workspace) (a : Path) :
    (begin job phases candidates total w).dirs.count a ≤ candidates.count a := by
  cases phases with
  | nil => simp [begin, idle, count_dirs, Phase.Report.start]
  | cons mode later =>
    obtain ⟨o, ho⟩ : ∃ o, Phase.opening job mode candidates w = o := ⟨_, rfl⟩
    rw [begin_cons, ho]
    cases o with
    | error f w' => simp [opened, idle, count_dirs, Phase.Report.start]
    | ok split w' =>
      obtain ⟨finished, pending⟩ := split
      obtain ⟨done, -, -, -, -, hd⟩ := Phase.split_of_opening ho
      have both := (perm_of_partition hd).count_eq a
      rw [List.count_append] at both
      simp only [opened, idle, count_dirs, Phase.Report.start]
      split <;> simp <;> omega

/-- What is done adds no directory to those that a run has still to do with. -/
theorem Step.dirs {c' : Crew} (h : Step job c c') (a : Path) : c'.dirs.count a ≤ c.dirs.count a := by
  cases h with
  | same => exact Nat.le_refl _
  | refused _ hi =>
    have here := count_eraseIdx hi a
    simp only [count_dirs, List.filterMap_append, List.count_append, List.filterMap_cons, Visit.dir?,
      List.filterMap_nil, List.count_nil]
    omega
  | loaded _ hi =>
    have here := count_eraseIdx hi a
    simp only [count_dirs, List.map_append, List.count_append, List.map_cons, List.map_nil]
    omega
  | analyzed _ hi =>
    refine Nat.le_of_eq ?_
    simp only [count_dirs]
    rw [map_set_of_eq hi (by rfl)]
  | @failed _ _ i _ t _ _ _ _ hi =>
    have here := count_eraseIdx (l := c.tasks.map (·.dir)) (i := i) (x := t.dir) (by simp [hi]) a
    simp only [stop, count_dirs, ← List.eraseIdx_map]
    omega
  | @finished i t hi =>
    have here := count_eraseIdx (l := c.tasks.map (·.dir)) (i := i) (x := t.dir) (by simp [hi]) a
    simp only [count_dirs, List.filterMap_append, List.count_append, ← List.eraseIdx_map,
      List.filterMap_cons, Visit.dir?, List.filterMap_nil]
    omega
  | skipped ho => simp only [count_dirs, ho, List.filterMap_cons, Visit.dir?, Nat.le_refl]
  | logged _ ho =>
    simp only [count_dirs, ho, List.filterMap_cons, Visit.dir?, List.count_append, List.count_cons,
      List.count_nil]
    omega
  | unlogged _ ho =>
    simp only [stop, count_dirs, ho, List.filterMap_cons, Visit.dir?, List.count_cons]
    omega
  | @next _ later total _ _ =>
    have sorted := (List.mergeSort_perm c.report.finished Path.notAfter).count_eq a
    have begun := begin_dirs job later (c.report.finished.mergeSort Path.notAfter) total c.workspace a
    have whole := count_dirs c a
    omega
  | halted => exact Nat.le_refl _

/-- A directory that fails is out. -/
theorem Fails.dirs {e : Event} {dir : Path} (h : Fails job c e dir) (a : Path) :
    (dir :: (c.act job e).dirs).count a ≤ c.dirs.count a := by
  rw [← List.singleton_append, List.count_append]
  cases h with
  | @load _ _ i _ f hp hi hl =>
    have here := count_eraseIdx hi a
    simp only [act, hp, Crew.load, hi, hl, count_dirs, List.filterMap_append, List.count_append,
      List.filterMap_cons, Visit.dir?, List.filterMap_nil, List.count_nil]
    omega
  | @analyze _ _ i _ t _ _ _ hp hi hpk ha =>
    have here := count_eraseIdx (l := c.tasks.map (·.dir)) (i := i) (x := t.dir) (by simp [hi]) a
    simp only [act, hp, Crew.analyze, hi, hpk, ha, stop, count_dirs, ← List.eraseIdx_map]
    omega

theorem Fails.underway {e : Event} {dir : Path} (h : Fails job c e dir) : dir ∈ c.underway := by
  cases h with
  | load _ hi => exact List.mem_append_left _ (List.mem_of_getElem? hi)
  | analyze _ hi =>
    exact List.mem_append_right _ (List.mem_append_left _
      (List.mem_map_of_mem (List.mem_of_getElem? hi)))

end Crew

/-! ## What was analyzed -/

/-- Whether a package was analyzed without an error, and what that left is still there. -/
def Analyzed (σ : Setting) (m : Mode) (p : Package) (s : Store) : Prop :=
  ∃ before skips after, σ.Good before ∧ analyze p m before = .ok skips after ∧ after.store ≤ s

section

variable {σ : Setting} {m : Mode} {p : Package} {s s' : Store}

theorem Analyzed.mono (h : Analyzed σ m p s) (hle : s ≤ s') : Analyzed σ m p s' := by
  obtain ⟨before, skips, after, hg, ha, hs⟩ := h
  exact ⟨before, skips, after, hg, ha, le_trans hs hle⟩

theorem Analyzed.settled (hσ : ∀ t, σ.kept t) (hp : ∀ path, p.HasPath path → σ.known path)
    (hc : p.types.Closed) (h : Analyzed σ m p s) :
    Plan.run (p.code σ.root m) ⟨s, []⟩ = .ok ⟨s, []⟩ := by
  obtain ⟨before, skips, after, hg, ha, hs⟩ := h
  obtain ⟨types, hr, -, none⟩ := (analyze_follows hσ hp m hg).run_of_ok ha
  obtain rfl : types = [] := none
  exact Plan.run_settled (Package.code_closed hc σ.root m) hr hs

theorem analyzing_leaves (hσ : ∀ t, σ.kept t) (hp : ∀ path, p.HasPath path → σ.known path)
    {w w' : Workspace} (hg : σ.Good w.session) (k : Option Nat)
    (hw : w'.session = (analyze p m).leaves { w.session with writesLeft := k }) :
    σ.Good w'.session ∧ w.session.store ≤ w'.session.store := by
  have good : σ.Good { w.session with writesLeft := k } :=
    ⟨hg.root, hg.agrees.grow (le_refl _), hg.kept⟩
  obtain ⟨left, done, m', -, hr, hm⟩ := (analyze_follows hσ hp m good).begun
  rw [hw]
  exact ⟨left, hm ▸ Plan.run_le hr⟩

end

/-! ## Lines of the logs -/

namespace Crew

/-- What holds of a run under way: the lines of each log are directories all of whose packages were
analyzed, and so are the directories on their way to the log. -/
structure Sound (job : Job) (σ : Setting) (exports : LoadMode → Path → List Package)
    (lines : Mode → List Path) (c : Crew) : Prop where
  good : σ.Good c.workspace.session
  logs : ∀ m, Ledger.Holds job.settings m c.workspace.disk (lines m)
  complete : ∀ m, ∀ dir ∈ lines m, dir.IsLine ∧
    ∀ p ∈ exports m.loadMode dir, Analyzed σ m p c.workspace.session.store
  plain : ∀ dir ∈ c.dirs, dir.IsLine
  tasks : ∀ m later, c.phases = m :: later → ∀ t ∈ c.tasks,
    t.packages = exports m.loadMode t.dir ∧
      ∀ p ∈ t.packages.take t.analyzed, Analyzed σ m p c.workspace.session.store
  outcomes : ∀ m later, c.phases = m :: later → ∀ dir ∈ c.outcomes.filterMap Visit.dir?,
    ∀ p ∈ exports m.loadMode dir, Analyzed σ m p c.workspace.session.store

/-- No directory is met twice: neither among those that a run has still to do with, nor because it is
in the log. -/
structure Fresh (lines : Mode → List Path) (c : Crew) : Prop where
  apart : c.dirs.Pairwise fun a b => a.same b = false
  unlogged : ∀ m later, c.phases = m :: later → ∀ dir ∈ c.underway,
    (Ledger.paths (Ledger.text (lines m))).any dir.same = false

variable {job : Job} {σ : Setting} {exports : LoadMode → Path → List Package}
  {lines : Mode → List Path} {c c' : Crew} {mode : Mode} {later : List Mode}

theorem mem_of_count_le {α : Type} [DecidableEq α] {l l' : List α}
    (h : ∀ a, l'.count a ≤ l.count a) : l' ⊆ l := fun a ha =>
  List.count_pos_iff.mp (Nat.lt_of_lt_of_le (List.count_pos_iff.mpr ha) (h a))

theorem apart_of_count_le {l l' : List Path} (h : ∀ a, l'.count a ≤ l.count a)
    (hp : l.Pairwise fun a b => a.same b = false) : l'.Pairwise fun a b => a.same b = false := by
  obtain ⟨l₀, perm, sub⟩ := List.subperm_ext_iff.mpr fun a _ => h a
  exact (perm.pairwise_iff fun {a b} hab => (Path.same_comm b a).trans hab).mp (hp.sublist sub)

theorem Step.underway (hs : Step job c c') (hf : c.report.finished <+: c'.report.finished) (a : Path) :
    c'.underway.count a ≤ c.underway.count a := by
  have all := hs.dirs a
  have more := hf.sublist.count_le a
  simp only [Crew.dirs, List.count_append] at all
  omega

/-- A step that adds no line. -/
theorem Fresh.step (h : Fresh lines c) (hs : Step job c c') (hp : c'.phases = c.phases)
    (hf : c.report.finished <+: c'.report.finished) : Fresh lines c' where
  apart := apart_of_count_le hs.dirs h.apart
  unlogged m later hm dir hd :=
    h.unlogged m later (hp ▸ hm) dir (mem_of_count_le (hs.underway hf) hd)

section

variable {phases : List Mode} {candidates : List Path} {total : RunReport} {w : Workspace}

theorem begin_phases : (begin job phases candidates total w).phases = phases := by
  cases phases with
  | nil => rfl
  | cons mode later =>
    rw [begin_cons]
    cases Phase.opening job mode candidates w <;> rfl

/-- Passes begin in a session that is as it was, on a disk with the same lines in its logs. -/
theorem begin_workspace (phases : List Mode) (candidates : List Path) (total : RunReport)
    (hl : ∀ m, Ledger.Holds job.settings m w.disk (lines m)) :
    (begin job phases candidates total w).workspace.session = w.session ∧
      ∀ m, Ledger.Holds job.settings m (begin job phases candidates total w).workspace.disk
        (lines m) := by
  cases phases with
  | nil => exact ⟨rfl, hl⟩
  | cons mode later =>
    obtain ⟨o, ho⟩ : ∃ o, Phase.opening job mode candidates w = o := ⟨_, rfl⟩
    rw [begin_cons, ho]
    have prepared (m : Mode) := Ledger.holds_prepare (m := mode) (hl m)
    cases o with
    | error f w' =>
      rw [show (opened job (mode :: later) total (.error f w')).workspace = w' from rfl]
      obtain rfl | rfl := Phase.refused_of_opening ho
      · exact ⟨rfl, hl⟩
      · dsimp only
        exact ⟨rfl, prepared⟩
    | ok split w' =>
      rw [show (opened job (mode :: later) total (.ok split w')).workspace = w' from rfl]
      obtain ⟨done, disk, -, hp, rfl, -⟩ := Phase.split_of_opening ho
      rw [Disk.Change.leaves_ok hp] at prepared
      exact ⟨rfl, prepared⟩

theorem begin_tasks (job : Job) (phases : List Mode) (candidates : List Path) (total : RunReport)
    (w : Workspace) : (begin job phases candidates total w).tasks = [] ∧
    (begin job phases candidates total w).outcomes = [] := by
  cases phases with
  | nil => exact ⟨rfl, rfl⟩
  | cons mode later =>
    rw [begin_cons]
    cases Phase.opening job mode candidates w <;> exact ⟨rfl, rfl⟩

theorem sound_begin (hg : σ.Good w.session)
    (hl : ∀ m, Ledger.Holds job.settings m w.disk (lines m))
    (hc : ∀ m, ∀ dir ∈ lines m, dir.IsLine ∧
      ∀ p ∈ exports m.loadMode dir, Analyzed σ m p w.session.store)
    (hp : ∀ dir ∈ candidates, dir.IsLine) :
    Sound job σ exports lines (begin job phases candidates total w) := by
  obtain ⟨session, logs⟩ := begin_workspace phases candidates total hl
  obtain ⟨tasks, outcomes⟩ := begin_tasks job phases candidates total w
  exact {
    good := session ▸ hg
    logs := logs
    complete := session ▸ hc
    plain := fun dir hd => hp dir (mem_of_count_le (begin_dirs job phases candidates total w) hd)
    tasks := fun _ _ _ t ht => by
      rw [tasks] at ht
      cases ht
    outcomes := fun _ _ _ dir hd => by
      rw [outcomes] at hd
      cases hd }

/-- The candidates that are not in the log wait. -/
theorem fresh_begin (hl : ∀ m, Ledger.Holds job.settings m w.disk (lines m))
    (hp : candidates.Pairwise fun a b => a.same b = false) :
    Fresh lines (begin job phases candidates total w) where
  apart := apart_of_count_le (begin_dirs job phases candidates total w) hp
  unlogged m later hm dir hd := by
    rw [begin_phases] at hm
    subst hm
    obtain ⟨o, ho⟩ : ∃ o, Phase.opening job m candidates w = o := ⟨_, rfl⟩
    rw [begin_cons, ho] at hd
    cases o with
    | error f w' => simp [opened, idle, underway] at hd
    | ok split w' =>
      obtain ⟨finished, pending⟩ := split
      obtain ⟨done, disk, hr, -, -, hsplit⟩ := Phase.split_of_opening ho
      obtain rfl := (hl m).read hr
      have waits : dir ∈ pending := by
        simp only [opened, idle, underway, List.map_nil, List.filterMap_nil, List.append_nil] at hd
        split at hd
        · exact hd
        · cases hd
      rw [List.partition_eq_filter_filter] at hsplit
      cases hsplit
      have new := (List.mem_filter.mp waits).2
      simpa using new

end

theorem analyzing_error {α : Type} {a : Analyze α} {w w' : Workspace} {f : Failure}
    (h : Run.analyzing a w = .error f w') :
    a w.session = .error f w'.session ∧ w'.disk = w.disk := by
  unfold Run.analyzing at h
  split at h
  · cases h
  · rename_i ha
    cases h
    exact ⟨ha, rfl⟩

/-- What every package that was analyzed stays, while rows are added. -/
theorem Sound.of_le (h : Sound job σ exports lines c) (hg : σ.Good c'.workspace.session)
    (hl : c.workspace.session.store ≤ c'.workspace.session.store)
    (hd : c'.workspace.disk = c.workspace.disk) (hp : c'.phases = c.phases)
    (hs : ∀ dir ∈ c'.dirs, dir ∈ c.dirs)
    (ht : ∀ m later, c.phases = m :: later → ∀ t ∈ c'.tasks, t ∈ c.tasks ∨
      t.packages = exports m.loadMode t.dir ∧
        ∀ p ∈ t.packages.take t.analyzed, Analyzed σ m p c'.workspace.session.store)
    (ho : ∀ m later, c.phases = m :: later → ∀ dir ∈ c'.outcomes.filterMap Visit.dir?,
      dir ∈ c.outcomes.filterMap Visit.dir? ∨
        ∀ p ∈ exports m.loadMode dir, Analyzed σ m p c'.workspace.session.store) :
    Sound job σ exports lines c' where
  good := hg
  logs := hd ▸ h.logs
  complete m dir hm := ⟨(h.complete m dir hm).1, fun p hp => ((h.complete m dir hm).2 p hp).mono hl⟩
  plain dir hm := h.plain dir (hs dir hm)
  tasks m later hm t hmem := by
    rw [hp] at hm
    obtain old | new := ht m later hm t hmem
    · obtain ⟨he, ha⟩ := h.tasks m later hm t old
      exact ⟨he, fun p hp => (ha p hp).mono hl⟩
    · exact new
  outcomes m later hm dir hmem p hpk := by
    rw [hp] at hm
    obtain old | new := ho m later hm dir hmem
    · exact (h.outcomes m later hm dir old p hpk).mono hl
    · exact new p hpk

theorem Sound.fewer (h : Sound job σ exports lines c) (hs : Step job c c')
    (hw : c'.workspace = c.workspace) (hp : c'.phases = c.phases) (ht : c'.tasks ⊆ c.tasks)
    (ho : c'.outcomes.filterMap Visit.dir? ⊆ c.outcomes.filterMap Visit.dir?) :
    Sound job σ exports lines c' :=
  h.of_le (hw ▸ h.good) (hw ▸ le_refl _) (by rw [hw]) hp
    (fun _ hd => mem_of_count_le hs.dirs hd) (fun _ _ _ _ hm => .inl (ht hm))
    fun _ _ _ _ hm => .inl (ho hm)

/-- A directory is loaded whose packages are those that it exports. -/
theorem Sound.loaded (h : Sound job σ exports lines c) {i : Nat} {dir : Path}
    {packages : List Package} (hp : c.phases = mode :: later) (hi : c.waiting[i]? = some dir)
    (hl : job.loader c.workspace.disk dir mode.loadMode = .ok packages)
    (he : packages = exports mode.loadMode dir) :
    Sound job σ exports lines { c with
      waiting := c.waiting.eraseIdx i, tasks := c.tasks ++ [⟨dir, packages, 0, []⟩] } := by
  refine h.of_le h.good (le_refl _) rfl rfl
    (fun _ hd => mem_of_count_le (Step.loaded hp hi hl).dirs hd) (fun m later hm t ht => ?_)
    fun _ _ _ dir hd => .inl hd
  obtain ht | ht := List.mem_append.mp ht
  · exact .inl ht
  · obtain rfl := List.mem_singleton.mp ht
    obtain ⟨rfl, -⟩ := List.cons.inj (hp.symm.trans hm)
    refine .inr ⟨he, fun p hp => ?_⟩
    rw [List.take_zero] at hp
    cases hp

/-- All packages of a directory were analyzed. -/
theorem Sound.finished (h : Sound job σ exports lines c) {i : Nat} {t : Task}
    (hi : c.tasks[i]? = some t) (hn : t.analyzed = t.packages.length) :
    Sound job σ exports lines { c with
      tasks := c.tasks.eraseIdx i
      outcomes := c.outcomes ++ [.completed t.dir t.packages.length t.skips] } := by
  refine h.of_le h.good (le_refl _) rfl rfl
    (fun _ hd => mem_of_count_le (show Step job c _ from .finished hi hn).dirs hd)
    (fun m later hm t' ht' => .inl (List.mem_of_mem_eraseIdx ht')) fun m later hm dir hd => ?_
  rw [List.filterMap_append] at hd
  obtain hd | hd := List.mem_append.mp hd
  · exact .inl hd
  · obtain rfl : dir = t.dir := by simpa [Visit.dir?] using hd
    obtain ⟨he, hdone⟩ := h.tasks m later hm t (List.mem_of_getElem? hi)
    rw [hn, List.take_length] at hdone
    exact .inr fun p hp => hdone p (he ▸ hp)

theorem Sound.next (h : Sound job σ exports lines c) (total : RunReport) :
    Sound job σ exports lines
      (begin job later (c.report.finished.mergeSort Path.notAfter) total c.workspace) :=
  sound_begin h.good h.logs h.complete fun dir hd =>
    h.plain dir (List.mem_append_right _ ((List.mergeSort_perm _ Path.notAfter).subset hd))

def oneMore (lines : Mode → List Path) (mode : Mode) (dir : Path) (m : Mode) : List Path :=
  if m = mode then lines m ++ [dir] else lines m

theorem oneMore_self {dir : Path} : oneMore lines mode dir mode = lines mode ++ [dir] := if_pos rfl

theorem oneMore_of_ne {m : Mode} (h : m ≠ mode) {dir : Path} : oneMore lines mode dir m = lines m :=
  if_neg h

/-- A directory whose packages were all analyzed goes into the log. -/
theorem Sound.logged (h : Sound job σ exports lines c) {dir : Path} {packages : Nat}
    {skips : List Skip} {outcomes : List Visit} {disk : Disk} {report : Phase.Report}
    (hp : c.phases = mode :: later) (ho : c.outcomes = .completed dir packages skips :: outcomes)
    (ha : Ledger.append (job.settings.logPath mode) dir c.workspace.disk = .ok () disk)
    (hr : report.finished = c.report.finished ++ [dir]) :
    Sound job σ exports (oneMore lines mode dir) { c with
      outcomes := outcomes, report := report, workspace := { c.workspace with disk := disk } } := by
  have head : dir ∈ c.outcomes.filterMap Visit.dir? := by simp [ho, Visit.dir?]
  have line : dir.IsLine := h.plain dir
    (List.mem_append_left _ (List.mem_append_right _ (List.mem_append_right _ head)))
  exact {
    good := h.good
    logs := fun m => by
      by_cases hm : m = mode
      · subst hm
        rw [oneMore_self]
        exact Ledger.holds_append (h.logs m) ha
      · rw [oneMore_of_ne hm]
        exact (h.logs m).keeps (Ledger.keepsNames_of_append ha (Ne.symm hm))
    complete := fun m d hd => by
      by_cases hm : m = mode
      · subst hm
        rw [oneMore_self] at hd
        obtain hd | hd := List.mem_append.mp hd
        · exact h.complete m d hd
        · obtain rfl := List.mem_singleton.mp hd
          exact ⟨line, h.outcomes m later hp d head⟩
      · rw [oneMore_of_ne hm] at hd
        exact h.complete m d hd
    plain := fun d hd => by
      refine h.plain d (mem_of_count_le (fun a => ?_) hd)
      simp only [count_dirs, ho, hr, List.filterMap_cons, Visit.dir?, List.count_append,
        List.count_cons, List.count_nil]
      omega
    tasks := h.tasks
    outcomes := fun m later hm d hd => h.outcomes m later hm d (by
      rw [ho]
      exact List.mem_cons_of_mem _ hd) }

theorem Fresh.logged (h : Fresh lines c) (hs : Step job c c') (hp : c.phases = mode :: later)
    (hp' : c'.phases = c.phases) (hf : c.report.finished <+: c'.report.finished) {dir : Path}
    (hl : dir.IsLine) (hd : ∀ a, (dir :: c'.underway).count a ≤ c.underway.count a) :
    Fresh (oneMore lines mode dir) c' where
  apart := apart_of_count_le hs.dirs h.apart
  unlogged m later' hm x hx := by
    obtain ⟨rfl, -⟩ := List.cons.inj (hp.symm.trans (hp' ▸ hm))
    rw [oneMore_self]
    have old := h.unlogged _ later hp x (mem_of_count_le (hs.underway hf) hx)
    have apart := apart_of_count_le hd (List.pairwise_append.mp h.apart).1
    exact (Ledger.any_paths_append hl ((Path.same_comm x dir).trans
      ((List.pairwise_cons.mp apart).1 x hx))).trans old

section

variable (hσ : ∀ t, σ.kept t)
  (known : ∀ mode dir, ∀ p ∈ exports mode dir, ∀ path, p.HasPath path → σ.known path)
  (loads : ∀ d dir mode ps, job.loader d dir mode = .ok ps → ps = exports mode dir)

include hσ known in
theorem Sound.bench (h : Sound job σ exports lines c) {k : Option Nat} {t : Task} {p : Package}
    (hp : c.phases = mode :: later) (ht : t ∈ c.tasks) (hpk : t.packages[t.analyzed]? = some p)
    {w : Workspace}
    (hw : w.session = (AccessDepth.analyze p mode).leaves (c.bench k).session) :
    σ.Good w.session ∧ c.workspace.session.store ≤ w.session.store := by
  obtain ⟨he, -⟩ := h.tasks mode later hp t ht
  have exported : p ∈ exports mode.loadMode t.dir := he ▸ List.mem_of_getElem? hpk
  exact analyzing_leaves hσ (known _ _ p exported) h.good k hw

include hσ known in
/-- A package was analyzed. -/
theorem Sound.analyzed (h : Sound job σ exports lines c) {i : Nat} {k : Option Nat} {t : Task}
    {p : Package} {skips : List Skip} {w : Workspace} (hp : c.phases = mode :: later)
    (hi : c.tasks[i]? = some t) (hpk : t.packages[t.analyzed]? = some p)
    (ha : Run.analyzing (AccessDepth.analyze p mode) (c.bench k) = .ok skips w) :
    Sound job σ exports lines { c with
      tasks := c.tasks.set i { t with analyzed := t.analyzed + 1, skips := t.skips ++ skips }
      workspace := w } := by
  have sub := mem_of_count_le (show Step job c _ from .analyzed hp hi hpk ha).dirs
  obtain ⟨ha, hd⟩ := Run.analyzing_ok ha
  obtain ⟨good, le⟩ := h.bench hσ known hp (List.mem_of_getElem? hi) hpk
    (w := w) (k := k) (by unfold Analyze.leaves; rw [ha])
  refine h.of_le good le hd rfl (fun _ hd => sub hd) (fun m later hm t' ht' => ?_)
    fun _ _ _ dir hd => .inl hd
  obtain ht' | rfl := List.mem_or_eq_of_mem_set ht'
  · exact .inl ht'
  · obtain ⟨he, hdone⟩ := h.tasks m later hm t (List.mem_of_getElem? hi)
    obtain ⟨rfl, -⟩ := List.cons.inj (hp.symm.trans hm)
    refine .inr ⟨he, fun q hq => ?_⟩
    rw [List.take_add_one, hpk] at hq
    obtain hq | hq := List.mem_append.mp hq
    · exact (hdone q hq).mono le
    · obtain rfl : q = p := by simpa using hq
      exact ⟨(c.bench k).session, skips, w.session,
        ⟨h.good.root, h.good.agrees.grow (le_refl _), h.good.kept⟩, ha, le_refl _⟩

include hσ known in
theorem Sound.failed (h : Sound job σ exports lines c) {i : Nat} {k : Option Nat} {t : Task}
    {p : Package} {f : Failure} {w : Workspace} (hp : c.phases = mode :: later)
    (hi : c.tasks[i]? = some t) (hpk : t.packages[t.analyzed]? = some p)
    (ha : Run.analyzing (AccessDepth.analyze p mode) (c.bench k) = .error f w) :
    Sound job σ exports lines ({ c with tasks := c.tasks.eraseIdx i, workspace := w }.stop f) := by
  have sub := mem_of_count_le (show Step job c _ from .failed hp hi hpk ha).dirs
  obtain ⟨ha, hd⟩ := analyzing_error ha
  obtain ⟨good, le⟩ := h.bench hσ known hp (List.mem_of_getElem? hi) hpk
    (w := w) (k := k) (by unfold Analyze.leaves; rw [ha])
  exact h.of_le good le hd rfl (fun _ hd => sub hd)
    (fun m later hm t' ht' => .inl (List.mem_of_mem_eraseIdx ht')) fun _ _ _ dir hd => .inl hd

include hσ known loads in
/-- Whatever is done, the lines of the logs are directories all of whose packages were analyzed. -/
theorem Sound.step (h : Sound job σ exports lines c) (hs : Step job c c') :
    ∃ lines', Sound job σ exports lines' c' ∧
      (∀ m, ∃ more, lines' m = lines m ++ more ∧ more ⊆ c'.dirs) ∧
      (Fresh lines c → Fresh lines' c') := by
  have still : ∀ m, ∃ more, lines m = lines m ++ more ∧ more ⊆ c'.dirs := fun m =>
    ⟨[], (List.append_nil _).symm, List.nil_subset _⟩
  have step := hs
  cases hs with
  | same => exact ⟨lines, h, still, id⟩
  | refused hp hi hl =>
    exact ⟨lines, h.fewer step rfl rfl (List.Subset.refl _)
      (fun dir hd => by simpa [Visit.dir?] using hd), still,
      fun hf => hf.step step rfl (List.prefix_refl _)⟩
  | loaded hp hi hl =>
    exact ⟨lines, h.loaded hp hi hl (loads _ _ _ _ hl), still,
      fun hf => hf.step step rfl (List.prefix_refl _)⟩
  | analyzed hp hi hpk ha =>
    exact ⟨lines, h.analyzed hσ known hp hi hpk ha, still,
      fun hf => hf.step step rfl (List.prefix_refl _)⟩
  | failed hp hi hpk ha =>
    exact ⟨lines, h.failed hσ known hp hi hpk ha, still,
      fun hf => hf.step step rfl (List.prefix_refl _)⟩
  | finished hi hn =>
    exact ⟨lines, h.finished hi hn, still, fun hf => hf.step step rfl (List.prefix_refl _)⟩
  | skipped ho =>
    exact ⟨lines, h.fewer step rfl rfl (List.Subset.refl _)
      (fun dir hd => by rw [ho]; simpa [Visit.dir?] using hd), still,
      fun hf => hf.step step rfl (List.prefix_refl _)⟩
  | @logged mode later dir _ _ _ _ hp ho ha =>
    have head : dir ∈ c.outcomes.filterMap Visit.dir? := by simp [ho, Visit.dir?]
    have here : dir ∈ c.underway := List.mem_append_right _ (List.mem_append_right _ head)
    refine ⟨oneMore lines mode dir, h.logged hp ho ha rfl, fun m => ?_, fun hf => ?_⟩
    · by_cases hm : m = mode
      · subst hm
        refine ⟨[dir], oneMore_self, fun x hx => List.mem_append_right _ (List.mem_append_right _ hx)⟩
      · rw [oneMore_of_ne hm]
        exact still m
    · refine hf.logged step hp rfl (List.prefix_append _ _) (h.plain dir (List.mem_append_left _ here))
        fun a => ?_
      simp only [underway, ho, List.filterMap_cons, Visit.dir?, List.count_append, List.count_cons]
      omega
  | unlogged hp ho ha =>
    obtain rfl := Disk.append_refused ha
    exact ⟨lines, h.fewer step rfl rfl (List.Subset.refl _)
      (fun dir hd => by rw [ho]; exact List.mem_cons_of_mem _ hd), still,
      fun hf => hf.step step rfl (List.prefix_refl _)⟩
  | next total hp hi =>
    refine ⟨lines, h.next total, still, fun hf => ?_⟩
    refine fresh_begin h.logs (apart_of_count_le (fun a => ?_) hf.apart)
    rw [(List.mergeSort_perm c.report.finished Path.notAfter).count_eq a, count_dirs]
    omega
  | halted f => exact ⟨lines, h.fewer step rfl rfl (List.Subset.refl _) (List.Subset.refl _), still,
      fun hf => hf.step step rfl (List.prefix_refl _)⟩

include hσ known loads in
/-- So it is after any number of events. -/
theorem Sound.acts (h : Sound job σ exports lines c) (es : List Event) :
    ∃ lines', Sound job σ exports lines' (c.acts job es) ∧
      (∀ m, ∃ more, lines' m = lines m ++ more ∧ more ⊆ c.dirs) ∧
      (Fresh lines c → Fresh lines' (c.acts job es)) := by
  induction es generalizing c lines with
  | nil => exact ⟨lines, h, fun m => ⟨[], (List.append_nil _).symm, List.nil_subset _⟩, id⟩
  | cons e es ih =>
    obtain ⟨lines₁, h₁, more₁, fresh₁⟩ := h.step hσ known loads (act_step job c e)
    obtain ⟨lines₂, h₂, more₂, fresh₂⟩ := ih h₁
    refine ⟨lines₂, h₂, fun m => ?_, fun hf => fresh₂ (fresh₁ hf)⟩
    obtain ⟨xs, hxs, subs⟩ := more₁ m
    obtain ⟨ys, hys, subs'⟩ := more₂ m
    have sub : (c.act job e).dirs ⊆ c.dirs := mem_of_count_le (act_step job c e).dirs
    refine ⟨xs ++ ys, by rw [hys, hxs, List.append_assoc], List.append_subset.mpr ⟨?_, ?_⟩⟩
    · exact fun x hx => sub (subs hx)
    · exact fun x hx => sub (subs' hx)

end

end Crew

end AccessDepth
