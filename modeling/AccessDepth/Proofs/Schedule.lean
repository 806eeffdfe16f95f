import AccessDepth.Proofs.Run.Pass

/-!
# AccessDepth.Proofs.Schedule

Runs over one corpus in two orders.

* `Job.Ready` — a job whose exports agree, on a disk with no logs.
* `Run.execute_ok` — what a run in all modes leaves: the definitions and then the depths of all
  directories that load, each in some order.
* `Run.execute_inAnyOrder` — two runs in whichever orders leave stores with the same content, and
  logs of the same directories; every package member has the variable that it names.
-/

namespace AccessDepth

open Plan (Visits)

/-- Whether a job can start on a disk: its exports agree and do not change while logs are written, and
the logs are empty or missing, also when the directories above them are there. -/
structure Job.Ready (job : Job) (d : Disk) : Prop where
  agrees : (job.corpus d).Agrees
  steady : job.Steady d
  blank : ∀ log ∈ job.settings.logPaths .all, ∀ d', Disk.createParents log d = .ok () d' →
    ∀ other ∈ job.settings.logPaths .all, d'.Blank other

namespace Run

variable {job : Job} {d : Disk} {r : RunReport} {w : Workspace}

def visited (job : Job) (d : Disk) : List Path :=
  if job.settings.hasWorkers then (job.corpus d).dirs else []

theorem visited_subset : visited job d ⊆ (job.corpus d).dirs := by
  unfold visited
  split
  · exact List.Subset.refl _
  · exact List.nil_subset _

theorem visited_perm {finished : List Path} (h : finished.Perm (visited job d)) :
    (if job.settings.hasWorkers then finished.filter (job.loader.loads d) else []).Perm
      (visited job d) := by
  unfold visited at h ⊢
  split
  · rename_i hw
    rw [if_pos hw] at h
    have all := h.filter (job.loader.loads d)
    simpa only [Job.corpus, List.filter_filter, Bool.and_self] using all
  · exact .refl _

/-- What a run in all modes leaves. -/
theorem execute_ok (ready : job.Ready d) (hs : ∀ mode dirs, (job.schedule mode dirs).Perm dirs)
    {typeCapacity fileCapacity : Nat}
    (h : execute job .all
      ⟨d, .start .initial job.settings.corpusRoot typeCapacity fileCapacity⟩ = .ok r w) :
    ∃ ds es s, ds.Perm (visited job d) ∧ es.Perm (visited job d) ∧
      (job.corpus d).Pass .defs ds .initial s ∧
      (job.corpus d).Pass .depth es s w.session.store ∧
      w.disk.LeadsTo (job.settings.logPath .defs) (some (String.ofList (Ledger.text ds)).toUTF8) ∧
      w.disk.LeadsTo (job.settings.logPath .depth)
        (some (String.ofList (Ledger.text es)).toUTF8) := by
  unfold execute at h
  obtain ⟨found, _, hinspect, h⟩ := bind_eq_ok.mp h
  obtain ⟨hfound, rfl⟩ := inspect_ok hinspect
  have here : job.found d = found := by
    rw [Job.found, show Discovery.discover d job.settings.corpusRoot = .ok found from hfound]
    rfl
  simp only [Mode.phases, passes] at h
  obtain ⟨r₁, w₁, hdefs, h⟩ := bind_eq_ok.mp h
  obtain ⟨r₂, w₂, hdepth, h⟩ := bind_eq_ok.mp h
  cases h
  have start : ready.agrees.setting.Good
      (.start .initial job.settings.corpusRoot typeCapacity fileCapacity) :=
    ⟨rfl, Session.agrees_start .., trivial⟩
  have defsLog : job.settings.logPath .defs ∈ job.settings.logPaths .all := by
    simp [Settings.logPaths, Mode.phases]
  have depthLog : job.settings.logPath .depth ∈ job.settings.logPaths .all := by
    simp [Settings.logPaths, Mode.phases]
  have unused : d.Unused (job.settings.logPath .defs) := fun d' hc old hl =>
    (ready.blank _ defsLog d' hc _ defsLog).getD_empty hl
  have apart : Mode.defs.logName ≠ Mode.depth.logName := by decide
  have candidates : found ⊆ job.found d := fun dir hdir => here ▸ hdir
  obtain ⟨ds, hds, hfinished, logged, good, made⟩ := Phase.run_ok ready.agrees ready.steady hs
    (by simp [Mode.phases]) candidates .refl start (by exact unused) hdefs
  obtain ⟨d₁, hparents, others⟩ := made.others
  have blank : w₁.disk.Blank (job.settings.logPath .depth) :=
    (ready.blank _ defsLog d₁ hparents _ depthLog).imp (others .depth apart _)
      (others .depth apart _)
  have first : ds.Perm (visited job d) := by
    subst here
    exact hds
  have within : r₁.finished ⊆ job.found d := fun dir hdir =>
    (List.mem_filter.mp (visited_subset ((hfinished.trans first).subset hdir))).1
  obtain ⟨es, hes, -, -, -, made'⟩ := Phase.run_ok ready.agrees ready.steady hs
    (by simp [Mode.phases]) within logged good blank.unused hdepth
  obtain ⟨d₂, hparents', others'⟩ := made'.others
  have firstLog := others' .defs apart.symm _ (made.log.of_grows (Disk.createParents_ok hparents'))
  have second := hes.trans (visited_perm (hfinished.trans first))
  exact ⟨ds, es, w₁.session.store, first, second,
    ⟨fun dir hdir => visited_subset (first.subset hdir), made.visits⟩,
    ⟨fun dir hdir => visited_subset (second.subset hdir), made'.visits⟩, firstLog, made'.log⟩

/-- Two runs in all modes over one corpus, in whichever orders the directories are visited, leave
stores with the same content and logs of the same directories. In both, every package member has the
variable that it names as its base, if any directory declares it. -/
theorem execute_inAnyOrder {σ σ' : Schedule} (hσ : ∀ mode dirs, (σ mode dirs).Perm dirs)
    (hσ' : ∀ mode dirs, (σ' mode dirs).Perm dirs) (ready : job.Ready d)
    {typeCapacity fileCapacity : Nat} {r r' : RunReport} {w w' : Workspace}
    (h : execute { job with schedule := σ } .all
      ⟨d, .start .initial job.settings.corpusRoot typeCapacity fileCapacity⟩ = .ok r w)
    (h' : execute { job with schedule := σ' } .all
      ⟨d, .start .initial job.settings.corpusRoot typeCapacity fileCapacity⟩ = .ok r' w') :
    (∀ u, (w.session.store.content u).Perm (w'.session.store.content u)) ∧
      (∀ log ∈ job.settings.logPaths .all, ∃ done done', Ledger.read w.disk log = .ok done ∧
        Ledger.read w'.disk log = .ok done' ∧ ∀ dir : Path, done.any dir.same = done'.any dir.same) ∧
      (job.settings.hasWorkers = true → (job.corpus d).MembersResolve w.session.store ∧
        (job.corpus d).MembersResolve w'.session.store) := by
  have first : Job.Ready { job with schedule := σ } d := ⟨ready.agrees, ready.steady, ready.blank⟩
  have second : Job.Ready { job with schedule := σ' } d := ⟨ready.agrees, ready.steady, ready.blank⟩
  obtain ⟨ds, es, s, hds, hes, defs, depth, defsLog, depthLog⟩ := execute_ok first hσ h
  obtain ⟨ds', es', s', hds', hes', defs', depth', defsLog', depthLog'⟩ := execute_ok second hσ' h'
  refine ⟨fun u => ready.agrees.content_perm (hds.trans hds'.symm) (hes.trans hes'.symm) defs depth
    defs' depth' u, fun log hlog => ?_, fun hw => ?_⟩
  · have same {ds ds' : List Path} (hp : ds.Perm ds')
        (hl : w.disk.LeadsTo log (some (String.ofList (Ledger.text ds)).toUTF8))
        (hl' : w'.disk.LeadsTo log (some (String.ofList (Ledger.text ds')).toUTF8)) :
        ∃ done done', Ledger.read w.disk log = .ok done ∧ Ledger.read w'.disk log = .ok done' ∧
          ∀ dir : Path, done.any dir.same = done'.any dir.same :=
      ⟨_, _, Ledger.read_of_leadsTo hl, Ledger.read_of_leadsTo hl', Ledger.any_paths_text hp⟩
    simp only [Settings.logPaths, Mode.phases, List.map_cons, List.map_nil, List.mem_cons,
      List.not_mem_nil, or_false] at hlog
    obtain rfl | rfl := hlog
    · exact same (hds.trans hds'.symm) defsLog defsLog'
    · exact same (hes.trans hes'.symm) depthLog depthLog'
  · have all {dirs : List Path} (hp : dirs.Perm (visited job d)) : (job.corpus d).dirs ⊆ dirs := by
      rw [visited, if_pos hw] at hp
      exact hp.symm.subset
    exact ⟨ready.agrees.membersResolve (all hds) (all hes) defs depth,
      ready.agrees.membersResolve (all hds') (all hes') defs' depth'⟩

end Run

/-! ## A small corpus -/

/-- `var V` in one directory, and `var W = a.V` in another one. -/
def Package.declarer : Package where
  dir := ⟨"corpus/a"⟩
  name := "a"
  files := [⟨⟨"corpus/a/a.go"⟩, ⟨"a", ⟨1, 9, 1, 10⟩, none, none⟩,
    [.gen ⟨⟨2, 1, 2, 10⟩, .var, [.value ⟨2, 5, 2, 10⟩ [⟨"V", ⟨2, 5, 2, 6⟩, none, some 0⟩] none []]⟩]⟩]
  types := ⟨#[]⟩
  objects := ⟨#[⟨"V", .var, some ⟨⟨"corpus/a/a.go"⟩, ⟨2, 5⟩⟩, none⟩]⟩
  diagnostics := []

def Package.user : Package where
  dir := ⟨"corpus/b"⟩
  name := "b"
  files := [⟨⟨"corpus/b/b.go"⟩, ⟨"b", ⟨1, 9, 1, 10⟩, none, none⟩,
    [.gen ⟨⟨2, 1, 2, 12⟩, .var, [.value ⟨2, 5, 2, 12⟩ [⟨"W", ⟨2, 5, 2, 6⟩, none, some 0⟩] none
      [⟨⟨2, 9, 2, 12⟩, none, .selector ⟨⟨2, 9, 2, 10⟩, none, .ident "a" (some 1)⟩
        ⟨"V", ⟨2, 11, 2, 12⟩, none, some 2⟩⟩]]⟩]⟩]
  types := ⟨#[]⟩
  objects := ⟨#[⟨"W", .var, some ⟨⟨"corpus/b/b.go"⟩, ⟨2, 5⟩⟩, none⟩, ⟨"a", .pkgName, none, none⟩,
    ⟨"V", .var, some ⟨⟨"corpus/a/a.go"⟩, ⟨2, 5⟩⟩, none⟩]⟩
  diagnostics := []

def Loader.sample : Loader := fun _ dir _ =>
  if dir.text = "corpus/a" then .ok [.declarer] else .ok [.user]

def Disk.sample : Disk :=
  ⟨.directory [("corpus", .directory
    [("a", .directory [("a.go", .file .empty)]), ("b", .directory [("b.go", .file .empty)])])], []⟩

def Job.sample : Job := ⟨.forRoot ⟨"corpus"⟩, .sample, .asFound⟩

def Schedule.backwards : Schedule := fun _ dirs => dirs.reverse

namespace Job

theorem sample_discover :
    Discovery.discover .sample sample.settings.corpusRoot = .ok [⟨"corpus/a"⟩, ⟨"corpus/b"⟩] := by
  let below (name : String) : RawPath := ⟨.text "corpus", [.text name]⟩
  have sorted : (below "a").notAfter (below "b") = true := by decide +kernel
  have dirs : Discovery.sourceDirs (.ofPath ⟨"corpus"⟩) (.ofEntry (.directory
      [("a", .directory [("a.go", .file .empty)]), ("b", .directory [("b.go", .file .empty)])])) =
        [below "a", below "b"] := by decide +kernel
  have root : Disk.sample.entry ⟨"corpus"⟩ = .ok (.directory
      [("a", .directory [("a.go", .file .empty)]), ("b", .directory [("b.go", .file .empty)])]) := rfl
  unfold Discovery.discover
  rw [show sample.settings.corpusRoot = ⟨"corpus"⟩ from rfl, root]
  simp only [Discovery.search]
  rw [dirs, List.mergeSort_of_pairwise (by simp [sorted])]
  rfl

theorem sample_blank : ∀ log ∈ sample.settings.logPaths .all, ∀ d',
    Disk.createParents log .sample = .ok () d' →
      ∀ other ∈ sample.settings.logPaths .all, d'.Blank other := by
  intro log hl d' hd other ho
  have made : Disk.createParents log .sample = .ok () (Disk.sample.put ["corpus", ".memdepth"]
      (some (.directory []))) := by
    simp only [Settings.logPaths, Mode.phases, List.map_cons, List.map_nil, List.mem_cons,
      List.not_mem_nil, or_false] at hl
    obtain rfl | rfl := hl <;> rfl
  cases made.symm.trans hd
  simp only [Settings.logPaths, Mode.phases, List.map_cons, List.map_nil, List.mem_cons,
    List.not_mem_nil, or_false] at ho
  obtain rfl | rfl := ho
  · exact .inl ⟨["corpus", ".memdepth", "memdepth-defs.log"], rfl, rfl⟩
  · exact .inl ⟨["corpus", ".memdepth", "memdepth-depth.log"], rfl, rfl⟩

theorem sample_packages {dir : Path} (hd : dir ∈ (sample.corpus .sample).dirs) {p : Package}
    (hp : p ∈ (sample.corpus .sample).packages dir) :
    dir = ⟨"corpus/a"⟩ ∧ p = .declarer ∨ dir = ⟨"corpus/b"⟩ ∧ p = .user := by
  have here := (List.mem_filter.mp hd).1
  rw [found, sample_discover] at here
  simp only [Except.toOption, Option.getD_some, List.mem_cons, List.not_mem_nil, or_false] at here
  obtain rfl | rfl := here
  · exact .inl ⟨rfl, List.mem_singleton.mp hp⟩
  · exact .inr ⟨rfl, List.mem_singleton.mp hp⟩

theorem sample_path {p : Package} (h : (sample.corpus .sample).Exports p) {path : Path}
    (hp : p.HasPath path) : path = ⟨"corpus/a/a.go"⟩ ∨ path = ⟨"corpus/b/b.go"⟩ := by
  have declarer : Package.declarer.paths = [⟨"corpus/a/a.go"⟩, ⟨"corpus/a/a.go"⟩] := rfl
  have user : Package.user.paths =
      [⟨"corpus/b/b.go"⟩, ⟨"corpus/b/b.go"⟩, ⟨"corpus/a/a.go"⟩] := rfl
  obtain ⟨dir, hd, h⟩ := h
  obtain ⟨-, rfl⟩ | ⟨-, rfl⟩ := sample_packages hd h
  · exact .inl (by simpa [declarer] using hp.mem_paths)
  · have spoken := hp.mem_paths
    simp only [user, List.mem_cons, List.not_mem_nil, or_false] at spoken
    tauto

theorem sample_agrees : (sample.corpus .sample).Agrees where
  closed p hp e he := by
    obtain ⟨dir, hd, hp⟩ := hp
    obtain ⟨-, rfl⟩ | ⟨-, rfl⟩ := sample_packages hd hp <;> exact absurd he (Array.not_mem_empty e)
  alike t ht t' ht' e he := by
    obtain ⟨p, ⟨dir, hd, hp⟩, rfl⟩ := ht
    obtain ⟨-, rfl⟩ | ⟨-, rfl⟩ := sample_packages hd hp <;> exact absurd he (Array.not_mem_empty e)
  apart d hd d' hd' p hp p' hp' f hf f' hf' hpath := by
    obtain ⟨rfl, rfl⟩ | ⟨rfl, rfl⟩ := sample_packages hd hp <;>
      obtain ⟨rfl, rfl⟩ | ⟨rfl, rfl⟩ := sample_packages hd' hp' <;>
      cases List.mem_singleton.mp hf <;> cases List.mem_singleton.mp hf'
    · rfl
    · exact absurd hpath (by decide)
    · exact absurd hpath (by decide)
    · rfl
  spelled := by
    have apart : Path.same ⟨"corpus/a/a.go"⟩ ⟨"corpus/b/b.go"⟩ = false := by decide +kernel
    exact .of_two (fun _ ⟨_, h, hp⟩ => sample_path h hp) apart

end Job

namespace Run

/-- A pass over the small corpus in some order, up to the sorting at its end. -/
def sampleVisits (mode : Mode) (dirs : List Path) : Run Phase.Report := do
  let [] ← Run.inspect fun d => (Ledger.read d (Job.sample.settings.logPath mode)).mapError .file
    | throw (.internal "the log is not empty")
  Run.onDisk (Ledger.prepare (Job.sample.settings.logPath mode))
  Phase.visitAll .sample mode (Job.sample.settings.logPath mode) dirs
    { finished := [], already := 0, completed := 0, packages := 0, skips := [] }

theorem run_of_sampleVisits {σ : Schedule} {mode : Mode} {candidates : List Path} {w w' : Workspace}
    {r : Phase.Report} (h : sampleVisits mode (σ mode candidates) w = .ok r w') :
    Phase.run { Job.sample with schedule := σ } mode candidates w =
      .ok { r with finished := r.finished.mergeSort Path.notAfter } w' := by
  have pending : candidates.partition (fun dir => ([] : List Path).any dir.same) =
      ([], candidates) := by
    rw [List.partition_eq_filter_filter]
    simp
  obtain ⟨done, w₁, hl, h⟩ := bind_eq_ok.mp h
  cases done with
  | cons => cases h
  | nil =>
    obtain ⟨_, w₂, hp, hv⟩ := bind_eq_ok.mp h
    refine bind_eq_ok.mpr ⟨[], w₁, hl, bind_eq_ok.mpr ⟨(), w₂, hp, ?_⟩⟩
    rw [pending]
    exact bind_eq_ok.mpr ⟨r, w', hv, rfl⟩

/-- A run over the small corpus succeeds if both of its passes visit the directories in some order. -/
theorem execute_sample_ok (σ : Schedule) {dirs : List Path}
    (order : ∀ mode, σ mode [⟨"corpus/a"⟩, ⟨"corpus/b"⟩] = dirs)
    (sorted : dirs.mergeSort Path.notAfter = [⟨"corpus/a"⟩, ⟨"corpus/b"⟩])
    (visits : (match sampleVisits .defs dirs ⟨.sample, .start .initial ⟨"corpus"⟩ 4 4⟩ with
      | .ok r w => decide (r.finished = dirs) && succeeds (sampleVisits .depth dirs) w
      | .error .. => false) = true) :
    ∃ r w, execute { Job.sample with schedule := σ } .all
      ⟨.sample, .start .initial ⟨"corpus"⟩ 4 4⟩ = .ok r w := by
  cases hdefs : sampleVisits .defs dirs ⟨.sample, .start .initial ⟨"corpus"⟩ 4 4⟩ with
  | error =>
    rw [hdefs] at visits
    cases visits
  | ok r₁ w₁ =>
    simp only [hdefs, Bool.and_eq_true, decide_eq_true_eq] at visits
    obtain ⟨finished, hdepth⟩ := visits
    obtain ⟨r₂, w₂, hdepth⟩ := ok_of_succeeds hdepth
    rw [← order .defs] at hdefs
    rw [← order .depth] at hdepth
    have first := run_of_sampleVisits hdefs
    rw [finished, sorted] at first
    have found : (Run.inspect (Discovery.discover · Job.sample.settings.corpusRoot))
        ⟨.sample, .start .initial ⟨"corpus"⟩ 4 4⟩ =
        .ok [⟨"corpus/a"⟩, ⟨"corpus/b"⟩] ⟨.sample, .start .initial ⟨"corpus"⟩ 4 4⟩ := by
      simp only [inspect, Job.sample_discover]
    exact ⟨_, w₂, bind_eq_ok.mpr ⟨_, _, found, bind_eq_ok.mpr ⟨_, w₁, first,
      bind_eq_ok.mpr ⟨_, w₂, run_of_sampleVisits hdepth, rfl⟩⟩⟩⟩

end Run

end AccessDepth
