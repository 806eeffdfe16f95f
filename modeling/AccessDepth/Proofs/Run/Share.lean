import AccessDepth.Proofs.Corpus.Parts
import AccessDepth.Proofs.Discovery
import AccessDepth.Proofs.Run.Reopening
import AccessDepth.Proofs.Shifts
import Mathlib.Data.List.Induction
import Mathlib.Data.List.Pairwise

/-!
# AccessDepth.Proofs.Run.Share

What a run analyzes, and what its passes start from.

* `Job.share` — the directories that a run in some mode analyzes, with their packages.
* `Job.Restartable` — what is asked of a job and of the disk on which it starts.
* `Workspace.Basis` — the lines of the logs are directories of which all packages were analyzed.
* `Workspace.Basis.whole` — where the logs hold all directories, all passes count as made.
-/

namespace AccessDepth

open Plan (Op Parts)

/-! ## What a run analyzes -/

namespace Job

/-- The directories that a run analyzes, with their packages. -/
def share (job : Job) (mode : Mode) (d : Disk) : Corpus where
  root := job.settings.corpusRoot
  dirs :=
    if job.settings.hasWorkers then
      (job.found d).filter fun dir => (job.loader d dir mode.loadMode).toOption.isSome
    else []
  packages dir := (job.loader d dir mode.loadMode).toOption.getD []

def parts (job : Job) (mode : Mode) (d : Disk) : Parts (Mode × Path) :=
  (job.share mode d).parts mode.phases

def exports (job : Job) (mode : Mode) (d : Disk) (m : LoadMode) (dir : Path) : List Package :=
  if m = mode.loadMode ∧ dir ∈ (job.share mode d).dirs then (job.share mode d).packages dir else []

/-- Whether runs in some mode can start on a disk: no directory has two entries of one name, the
packages that load agree and do not change while logs are written, directories can be logged, and
all logs are missing or empty once the directories above them are there. -/
structure Restartable (job : Job) (mode : Mode) (d : Disk) : Prop where
  proper : d.root.Proper
  agrees : (job.share mode d).Agrees
  steady : ∀ d', Ledger.Logged (job.settings.logPaths mode) d d' → ∀ dir ∈ job.found d,
    (job.loader d' dir mode.loadMode).toOption = (job.loader d dir mode.loadMode).toOption
  lines : ∀ dir ∈ job.found d, dir.IsLine
  blank : ∀ m d', Disk.createParents (job.settings.logPath m) d = .ok () d' →
    ∀ m', d'.Blank (job.settings.logPath m')

variable {job : Job} {mode m : Mode} {d d' : Disk} {dir : Path} {p : Package}

theorem mem_share : dir ∈ (job.share mode d).dirs ↔ job.settings.hasWorkers = true ∧
    dir ∈ job.found d ∧ (job.loader d dir mode.loadMode).toOption.isSome = true := by
  unfold share
  dsimp only
  split <;> simp [*]

theorem share_subset : (job.share mode d).dirs ⊆ job.found d := fun _ h => (mem_share.mp h).2.1

theorem exports_eq (hm : m ∈ mode.phases) (hd : dir ∈ (job.share mode d).dirs) :
    job.exports mode d m.loadMode dir = (job.share mode d).packages dir :=
  if_pos ⟨Mode.loadMode_of_mem hm, hd⟩

theorem exported (h : p ∈ job.exports mode d m.loadMode dir) : (job.share mode d).Exports p := by
  unfold exports at h
  split at h
  · exact ⟨dir, ‹_ ∧ _›.2, h⟩
  · cases h

namespace Restartable

variable (ready : job.Restartable mode d)
include ready

theorem apart : (job.found d).Pairwise fun a b => a.same b = false := by
  unfold found
  cases h : Discovery.discover d job.settings.corpusRoot with
  | error => exact .nil
  | ok found => exact Discovery.discover_apart ready.proper h

theorem eq_of_same {a b : Path} (ha : a ∈ job.found d) (hb : b ∈ job.found d)
    (h : a.same b = true) : a = b := by
  by_contra hne
  have symm : Std.Symm fun a b : Path => a.same b = false :=
    ⟨fun a b hab => (Path.same_comm b a).trans hab⟩
  have apart := ready.apart.forall ha hb hne
  rw [h] at apart
  cases apart

theorem loaded (hl : Ledger.Logged (job.settings.logPaths mode) d d')
    (hw : job.settings.hasWorkers = true) (hd : dir ∈ job.found d) {ps : List Package}
    (h : job.loader d' dir mode.loadMode = .ok ps) :
    dir ∈ (job.share mode d).dirs ∧ ps = (job.share mode d).packages dir := by
  have same := ready.steady d' hl dir hd
  rw [h] at same
  exact ⟨mem_share.mpr ⟨hw, hd, by rw [← same]; rfl⟩, congrArg (·.getD []) same⟩

theorem refused (hl : Ledger.Logged (job.settings.logPaths mode) d d')
    (hd : dir ∈ job.found d) {f : Failure} (h : job.loader d' dir mode.loadMode = .error f) :
    dir ∉ (job.share mode d).dirs := by
  have same := ready.steady d' hl dir hd
  rw [h] at same
  intro there
  rw [mem_share, ← same] at there
  cases there.2.2

theorem known (m : LoadMode) (dir : Path) : ∀ p ∈ job.exports mode d m dir, ∀ path, p.HasPath path →
    ready.agrees.setting.known path := by
  intro p hp path hpath
  unfold exports at hp
  split at hp
  · exact ⟨p, ⟨dir, ‹_ ∧ _›.2, hp⟩, hpath⟩
  · cases hp

theorem orderly : (job.parts mode d).Orderly := ready.agrees.orderly mode

end Restartable
end Job

/-! ## Between two passes -/

/-- What passes start from: the lines of the logs are directories all of whose packages were
analyzed, the logs are open, and the store is one that the passes reach. -/
structure Workspace.Basis {job : Job} {mode : Mode} {d : Disk} (ready : job.Restartable mode d)
    (lines : Mode → List Path) (w : Workspace) : Prop where
  kept : Workspace.Kept job.settings ready.agrees.setting (job.exports mode d) lines w
  reached : ∃ π, (job.parts mode d).Reached π w.session.store
  ledgers : ∀ m, Ledger.Open job.settings m w.disk
  lined : ∀ m, lines m ⊆ (job.share mode d).dirs

namespace Workspace.Basis

variable {job : Job} {mode m : Mode} {d : Disk} {ready : job.Restartable mode d}
  {lines : Mode → List Path} {w : Workspace} {dir : Path}

theorem settled (h : w.Basis ready lines) (hm : m ∈ mode.phases)
    (hd : dir ∈ (job.share mode d).dirs) (hl : dir ∈ lines m) :
    Plan.run ((job.parts mode d).code (m, dir)) ⟨w.session.store, []⟩ =
      .ok ⟨w.session.store, []⟩ := by
  rw [Job.parts, Corpus.parts_code hm hd]
  refine Plan.run_flatMap_settled fun p hp => ?_
  rw [← Job.exports_eq hm hd] at hp
  have analyzed := (h.kept.complete m dir hl).2 p hp
  have settled := analyzed.settled (fun _ => trivial) (ready.known m.loadMode dir p hp)
    (ready.agrees.closed p (Job.exported hp))
  exact settled

/-- A pass that was made for all directories counts as made. -/
theorem made (h : w.Basis ready lines) (hm : m ∈ mode.phases)
    (hl : (job.share mode d).dirs ⊆ lines m) {π : Mode × Path → Nat}
    (hr : (job.parts mode d).Reached π w.session.store)
    (due : ∀ dir, (job.parts mode d).Due π (m, dir)) :
    ∃ π', (job.parts mode d).Reached π' w.session.store ∧ (∀ x, π x ≤ π' x) ∧
      ∀ dir, ((job.parts mode d).code (m, dir)).length ≤ π' (m, dir) := by
  have dues : ∀ x ∈ (job.share mode d).dirs.map (m, ·), (job.parts mode d).Due π x := by
    intro x hx
    obtain ⟨dir, -, rfl⟩ := List.mem_map.mp hx
    exact due dir
  obtain ⟨π', hr', hle, full⟩ := hr.fill ready.orderly.closed dues fun x hx => by
    obtain ⟨dir, hd, rfl⟩ := List.mem_map.mp hx
    exact h.settled hm hd (hl hd)
  refine ⟨π', hr', hle, fun dir => ?_⟩
  by_cases hd : dir ∈ (job.share mode d).dirs
  · exact full _ (List.mem_map_of_mem hd)
  · have none : (job.parts mode d).code (m, dir) = [] := if_neg fun both => hd both.2
    simp [none]

theorem due_of_made {later : List Mode} (hs : m :: later <:+ mode.phases) {π : Mode × Path → Nat}
    (made : ∀ m' ∈ mode.phases, m' ∉ m :: later →
      ∀ dir, ((job.parts mode d).code (m', dir)).length ≤ π (m', dir)) (dir : Path) :
    (job.parts mode d).Due π (m, dir) := by
  rintro ⟨m', dir'⟩ ⟨defs, depth⟩
  obtain rfl : m' = .defs := defs
  obtain rfl : m = .depth := depth
  by_cases hm : Mode.defs ∈ mode.phases
  · exact made _ hm (Mode.defs_first hs) dir'
  · have none : (job.parts mode d).code (.defs, dir') = [] := if_neg fun both => hm both.1
    simp [none]

/-- The passes that are over count as made. -/
theorem made_past (h : w.Basis ready lines) {before after : List Mode}
    (hs : mode.phases = before ++ after)
    (past : ∀ m ∈ mode.phases, m ∉ after → (job.share mode d).dirs ⊆ lines m) :
    ∃ π, (job.parts mode d).Reached π w.session.store ∧ ∀ m ∈ mode.phases, m ∉ after →
      ∀ dir, ((job.parts mode d).code (m, dir)).length ≤ π (m, dir) := by
  induction before using List.reverseRecOn generalizing after with
  | nil =>
    obtain ⟨π, hr⟩ := h.reached
    exact ⟨π, hr, fun m hm hn => absurd (hs ▸ hm : m ∈ [] ++ after) hn⟩
  | append_singleton before m ih =>
    rw [List.append_assoc, List.singleton_append] at hs
    have once : m ∉ after := by
      have nodup := mode.phases_nodup
      rw [hs] at nodup
      exact (List.nodup_cons.mp (List.nodup_append.mp nodup).2.1).1
    have here : m ∈ mode.phases := by simp [hs]
    obtain ⟨π, hr, made⟩ := ih hs fun m' hm' hn =>
      past m' hm' fun there => hn (List.mem_cons_of_mem m there)
    obtain ⟨π', hr', hle, full⟩ := h.made here (past m here once) hr
      (due_of_made ⟨before, hs.symm⟩ made)
    refine ⟨π', hr', fun m' hm' hn dir => ?_⟩
    by_cases hm : m' = m
    · subst hm
      exact full dir
    · refine Nat.le_trans (made m' hm' (fun there => ?_) dir) (hle _)
      exact (List.mem_cons.mp there).elim hm hn

/-- When all passes are over, all parts are made. -/
theorem whole (h : w.Basis ready lines)
    (all : ∀ m ∈ mode.phases, (job.share mode d).dirs ⊆ lines m) :
    ∃ π, (job.parts mode d).Reached π w.session.store ∧ (job.parts mode d).Whole π := by
  obtain ⟨π, hr, made⟩ := h.made_past (List.append_nil _).symm fun m hm _ => all m hm
  refine ⟨π, hr, fun ⟨m, dir⟩ => ?_⟩
  by_cases hm : m ∈ mode.phases
  · exact made m hm List.not_mem_nil dir
  · have none : (job.parts mode d).code (m, dir) = [] := if_neg fun both => hm both.1
    simp [none]

end Workspace.Basis

end AccessDepth
