import AccessDepth.Proofs.Run.Crew
import AccessDepth.Run.Pipeline

/-!
# AccessDepth.Proofs.Pipeline.Moves

What an event of a shared pass does.

* `Stage.Sends` — a producer can still send.
* `Pipeline.Step` — a pass after an event, one case for each way in which a worker moves.
* `Pipeline.act_step` — every event that happens is one of these.
* `Pipeline.acts_invariant` — what every step preserves holds after any number of events.
-/

namespace AccessDepth

namespace Stage

variable {α : Type} {s s' : Stage α} {x : α} {i room : Nat}

/-- A producer is there and someone still receives what it sends. -/
def Sends (s : Stage α) (i : Nat) : Prop := s.handles[i]? = some .sending ∧ s.attended = true

theorem send_eq_true (h : s.send i x = (some true, s')) :
    s.Sends i ∧ s' = { s with queue := s.queue ++ [x] } := by
  unfold send at h
  split at h
  · rename_i hi
    split at h
    · exact ⟨⟨hi, ‹_›⟩, by cases h; rfl⟩
    · cases h
  all_goals cases h

theorem send_of_sends (h : s.Sends i) :
    s.send i x = (some true, { s with queue := s.queue ++ [x] }) := by
  unfold send
  rw [h.1]
  simp [h.2]

theorem receive_eq_value (h : s.receive = (some (.value x), s')) :
    ∃ xs, s.queue = x :: xs ∧ s' = { s with queue := xs } := by
  unfold receive at h
  split at h
  · split at h
    · rename_i hq
      cases h
      exact ⟨_, hq, rfl⟩
    · split at h <;> cases h
  · cases h

theorem receive_eq_disconnected (h : s.receive = (some .disconnected, s')) :
    s.queue = [] ∧ s.isConnected = false := by
  unfold receive at h
  split at h
  · split at h
    · cases h
    · rename_i hq
      split at h
      · cases h
      · exact ⟨hq, by simpa using ‹¬s.isConnected = true›⟩
  · cases h

theorem isFull_eq_false (h : ¬s.isFull room = true) :
    s.attended = false ∨ s.queue.length < room := by
  simp only [isFull, Bool.and_eq_true, decide_eq_true_eq, not_and, Nat.not_le] at h
  cases ha : s.attended with
  | false => exact .inl rfl
  | true => exact .inr (h ha)

end Stage

namespace Pipeline

/-- A pass after one of its workers moved. -/
inductive Step (job : Job) (mode : Mode) (room : Nat) (p : Pipeline) : Pipeline → Prop
  | emptied : p.feeder = .looking [] → Step job mode room p { p with feeder := .gone }
  | withheld {dir : Path} {dirs : List Path} :
      p.feeder = .looking (dir :: dirs) → p.stopped ≠ none →
      Step job mode room p { p with feeder := .gone }
  | chosen {dir : Path} {dirs : List Path} :
      p.feeder = .looking (dir :: dirs) → p.stopped = none →
      Step job mode room p { p with feeder := .offering dir dirs }
  | unfed {dir : Path} {dirs : List Path} :
      p.feeder = .offering dir dirs → p.loaders.all LoadWorker.isGone = true →
      Step job mode room p { p with feeder := .gone }
  | fed {dir : Path} {dirs : List Path} :
      p.feeder = .offering dir dirs → p.paths.length < room →
      Step job mode room p { p with feeder := .looking dirs, paths := p.paths ++ [dir] }
  | taken {i : Nat} {dir : Path} {dirs : List Path} :
      p.loaders[i]? = some .receiving → p.paths = dir :: dirs →
      Step job mode room p { p.setLoader i (.looking dir) with paths := dirs }
  | drained {i : Nat} :
      p.loaders[i]? = some .receiving → p.paths = [] → p.feeder = .gone →
      Step job mode room p (p.dismissLoader i)
  | unloaded {i : Nat} {dir : Path} :
      p.loaders[i]? = some (.looking dir) → p.stopped ≠ none →
      Step job mode room p (p.setLoader i .receiving)
  | loading {i : Nat} {dir : Path} :
      p.loaders[i]? = some (.looking dir) → p.stopped = none →
      Step job mode room p (p.setLoader i (.loading dir))
  | loaded {i : Nat} {dir : Path} :
      p.loaders[i]? = some (.loading dir) →
      Step job mode room p
        (p.setLoader i (.offering ⟨dir, job.loader p.workspace.disk dir mode.loadMode⟩))
  | passedOn {i : Nat} {x : Loaded} :
      p.loaders[i]? = some (.offering x) → p.loaded.Sends i → p.loaded.queue.length < room →
      Step job mode room p { p.setLoader i .receiving with
        loaded := { p.loaded with queue := p.loaded.queue ++ [x] } }
  | unwanted {i : Nat} {x : Loaded} :
      p.loaders[i]? = some (.offering x) → ¬p.loaded.Sends i →
      Step job mode room p (p.dismissLoader i)
  | refused {i : Nat} (f : Failure) :
      p.analyzers[i]? = some .opening →
      Step job mode room p ((p.dismissAnalyzer i).stop f)
  | opened {i : Nat} :
      p.analyzers[i]? = some .opening → Step job mode room p (p.setAnalyzer i .receiving)
  | received {i : Nat} {x : Loaded} {xs : List Loaded} :
      p.analyzers[i]? = some .receiving → p.loaded.queue = x :: xs →
      Step job mode room p { p.setAnalyzer i (.looking x) with
        loaded := { p.loaded with queue := xs } }
  | through {i : Nat} :
      p.analyzers[i]? = some .receiving → p.loaded.queue = [] → p.loaded.isConnected = false →
      Step job mode room p (p.dismissAnalyzer i)
  | unanalyzed {i : Nat} {x : Loaded} :
      p.analyzers[i]? = some (.looking x) → p.stopped ≠ none →
      Step job mode room p (p.setAnalyzer i .receiving)
  | examined {i : Nat} {x : Loaded} :
      p.analyzers[i]? = some (.looking x) → p.stopped = none →
      Step job mode room p (p.setAnalyzer i (examine x))
  | analyzed {i : Nat} {dir : Path} {packages : Nat} {next : Package} {left : List Package}
      {skips more : List Skip} {writesLeft : Option Nat} {w : Workspace} :
      p.analyzers[i]? = some (.analyzing dir packages (next :: left) skips) →
      Run.analyzing (AccessDepth.analyze next mode) (p.bench writesLeft) = .ok more w →
      Step job mode room p { p.setAnalyzer i (.analyzing dir packages left (skips ++ more)) with
        workspace := w }
  | failed {i : Nat} {dir : Path} {packages : Nat} {next : Package} {left : List Package}
      {skips : List Skip} {writesLeft : Option Nat} {f : Failure} {w : Workspace} :
      p.analyzers[i]? = some (.analyzing dir packages (next :: left) skips) →
      Run.analyzing (AccessDepth.analyze next mode) (p.bench writesLeft) = .error f w →
      Step job mode room p ({ p.setAnalyzer i .receiving with workspace := w }.stop f)
  | finished {i : Nat} {dir : Path} {packages : Nat} {skips : List Skip} :
      p.analyzers[i]? = some (.analyzing dir packages [] skips) →
      Step job mode room p (p.setAnalyzer i (.offering (.completed dir packages skips)))
  | handedIn {i : Nat} {v : Visit} :
      p.analyzers[i]? = some (.offering v) → p.outcomes.Sends i → p.outcomes.queue.length < room →
      Step job mode room p { p.setAnalyzer i .receiving with
        outcomes := { p.outcomes with queue := p.outcomes.queue ++ [v] } }
  | unheard {i : Nat} {v : Visit} :
      p.analyzers[i]? = some (.offering v) → ¬p.outcomes.Sends i →
      Step job mode room p (p.dismissAnalyzer i)
  | begun : p.keeper = .starting → Step job mode room p (attend { p with keeper := .receiving })
  | collected {v : Visit} {vs : List Visit} :
      p.keeper = .receiving → p.outcomes.queue = v :: vs →
      Step job mode room p { p with
        keeper := .looking v, outcomes := { p.outcomes with queue := vs } }
  | closing :
      p.keeper = .receiving → p.outcomes.queue = [] → p.outcomes.isConnected = false →
      Step job mode room p { p with keeper := .waiting }
  | forgotten {v : Visit} :
      p.keeper = .looking v → p.stopped ≠ none →
      Step job mode room p { p with keeper := .receiving }
  | settling {v : Visit} :
      p.keeper = .looking v → Step job mode room p { p with keeper := .settling v }
  | settled {v : Visit} {report : Phase.Report} {w : Workspace} :
      p.keeper = .settling v →
      Phase.settle (job.settings.logPath mode) p.report v p.workspace = .ok report w →
      Step job mode room p { p with keeper := .receiving, report := report, workspace := w }
  | unlogged {v : Visit} {f : Failure} {w : Workspace} :
      p.keeper = .settling v →
      Phase.settle (job.settings.logPath mode) p.report v p.workspace = .error f w →
      Step job mode room p ({ p with keeper := .receiving, workspace := w }.stop f)

variable {job : Job} {mode : Mode} {room i : Nat} {p p' : Pipeline}

theorem feed_step (h : p.feed room = some p') : Step job mode room p p' := by
  unfold feed at h
  split at h
  · cases h
    exact .emptied ‹_›
  · rename_i hf
    cases h
    split
    · exact .withheld hf (Option.isSome_iff_ne_none.mp ‹_›)
    · exact .chosen hf (Option.not_isSome_iff_eq_none.mp ‹_›)
  · rename_i hf
    split at h
    · cases h
      exact .unfed hf ‹_›
    · split at h
      · cases h
        exact .fed hf ‹_›
      · cases h
  · cases h

theorem load_step (h : p.load job mode room i = some p') : Step job mode room p p' := by
  unfold load at h
  split at h
  · rename_i hi
    split at h
    · cases h
      exact .taken hi ‹_›
    · cases h
      exact .drained hi ‹_› ‹_›
    · cases h
  · rename_i hi
    cases h
    split
    · exact .unloaded hi (Option.isSome_iff_ne_none.mp ‹_›)
    · exact .loading hi (Option.not_isSome_iff_eq_none.mp ‹_›)
  · cases h
    exact .loaded ‹_›
  · rename_i x hi
    split at h
    · cases h
    · rename_i room
      split at h
      · rename_i sent
        cases h
        obtain ⟨sends, rfl⟩ := Stage.send_eq_true sent
        refine .passedOn hi sends ((Stage.isFull_eq_false room).resolve_left ?_)
        simp [sends.2]
      · rename_i unsent
        cases h
        exact .unwanted hi fun sends => unsent _ (Stage.send_of_sends sends)
  · cases h
  · cases h

theorem refuse_step {f : Failure} (h : p.refuse i f = some p') : Step job mode room p p' := by
  unfold refuse at h
  split at h
  · cases h
    exact .refused f ‹_›
  · cases h

theorem analyze_step {writesLeft : Option Nat} (h : p.analyze mode room i writesLeft = some p') :
    Step job mode room p p' := by
  unfold analyze at h
  split at h
  · cases h
    exact .opened ‹_›
  · rename_i hi
    split at h
    · rename_i received
      cases h
      obtain ⟨xs, hq, rfl⟩ := Stage.receive_eq_value received
      exact .received hi hq
    · rename_i received
      cases h
      obtain ⟨hq, hc⟩ := Stage.receive_eq_disconnected received
      exact .through hi hq hc
    · cases h
  · rename_i hi
    cases h
    split
    · exact .unanalyzed hi (Option.isSome_iff_ne_none.mp ‹_›)
    · exact .examined hi (Option.not_isSome_iff_eq_none.mp ‹_›)
  · cases h
    exact .finished ‹_›
  · rename_i hi
    split at h
    · cases h
      exact .analyzed hi ‹_›
    · cases h
      exact .failed hi ‹_›
  · rename_i hi
    split at h
    · cases h
    · rename_i room
      split at h
      · rename_i sent
        cases h
        obtain ⟨sends, rfl⟩ := Stage.send_eq_true sent
        refine .handedIn hi sends ((Stage.isFull_eq_false room).resolve_left ?_)
        simp [sends.2]
      · rename_i unsent
        cases h
        exact .unheard hi fun sends => unsent _ (Stage.send_of_sends sends)
  · cases h
  · cases h

theorem keep_step (h : p.keep (job.settings.logPath mode) = some p') :
    Step job mode room p p' := by
  unfold keep at h
  split at h
  · cases h
    exact .begun ‹_›
  · rename_i hk
    split at h
    · rename_i received
      cases h
      obtain ⟨vs, hq, rfl⟩ := Stage.receive_eq_value received
      exact .collected hk hq
    · rename_i received
      cases h
      obtain ⟨hq, hc⟩ := Stage.receive_eq_disconnected received
      exact .closing hk hq hc
    · cases h
  · rename_i hk
    cases h
    split
    · rename_i forgotten
      exact .forgotten hk fun none => by simp [none] at forgotten
    · exact .settling hk
  · rename_i hk
    split at h
    · cases h
      exact .settled hk ‹_›
    · cases h
      exact .unlogged hk ‹_›
  · cases h

/-- Every event that happens is a move of a worker. -/
theorem act_step {e : Event} (h : p.act job mode room e = some p') : Step job mode room p p' := by
  cases e with
  | feed => exact feed_step h
  | load i => exact load_step h
  | refuse i f => exact refuse_step h
  | analyze i writesLeft => exact analyze_step h
  | keep => exact keep_step h

theorem acts_cons {e : Event} {es : List Event} :
    p.acts job mode room (e :: es) = (p.act job mode room e).bind (·.acts job mode room es) := by
  rw [acts, List.foldlM_cons]
  rfl

theorem acts_append {es es' : List Event} :
    p.acts job mode room (es ++ es') =
      (p.acts job mode room es).bind (·.acts job mode room es') := by
  rw [acts, List.foldlM_append]
  rfl

/-- What every move preserves holds after any number of events. -/
theorem acts_invariant {motive : Pipeline → Prop}
    (step : ∀ p p', motive p → Step job mode room p p' → motive p') {es : List Event}
    (h : motive p) (ha : p.acts job mode room es = some p') : motive p' := by
  induction es generalizing p with
  | nil =>
    cases ha
    exact h
  | cons e es ih =>
    rw [acts_cons] at ha
    obtain ⟨next, he, hs⟩ := Option.bind_eq_some_iff.mp ha
    exact ih (step p next h (act_step he)) hs

end Pipeline

end AccessDepth
