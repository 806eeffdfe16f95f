import AccessDepth.Proofs.Pipeline.Moves
import AccessDepth.Proofs.Run.Progress

/-!
# AccessDepth.Proofs.Pipeline.Standing

Who is still there, at any moment of a shared pass.

* `Stage.Manned` — the producers of a queue are the workers that have not gone, and it is closed
  when all have.
* `Pipeline.Standing` — both queues are manned; what is in a queue has someone to receive it; and
  unless something failed, a worker goes only when nothing is left for it.
* `Standing.step` — every move keeps it so.
-/

namespace AccessDepth

/-! ## Lists of workers -/

section

variable {α : Type} {l : List α} {g : α → Bool} {i : Nat} {x y : α}

theorem all_eq_false_of_getElem? (hi : l[i]? = some x) (hx : g x = false) : l.all g = false :=
  List.all_eq_false.mpr ⟨x, List.mem_of_getElem? hi, by simp [hx]⟩

theorem any_set_of_eq (hi : l[i]? = some x) (hx : g y = g x) : (l.set i y).any g = l.any g := by
  have same := Crew.map_set_of_eq (f := g) hi hx
  have mapped (xs : List α) : xs.any g = (xs.map g).any id := by simp [List.any_map]
  rw [mapped, same, ← mapped]

theorem all_set_of_eq (hi : l[i]? = some x) (hx : g y = g x) : (l.set i y).all g = l.all g := by
  have same := Crew.map_set_of_eq (f := g) hi hx
  have mapped (xs : List α) : xs.all g = (xs.map g).all id := by simp [List.all_map]
  rw [mapped, same, ← mapped]

theorem all_of_countP_eq_length (h : l.countP g = l.length) : l.all g = true :=
  List.all_eq_true.mpr (List.countP_eq_length.mp h)

end

/-! ## Queues and their producers -/

namespace Stage

variable {α β : Type} {s : Stage α} {g : β → Bool} {ws : List β} {i : Nat} {a b : β}

/-- The producers of a queue are the workers that have not gone. -/
structure Manned (g : β → Bool) (ws : List β) (s : Stage α) : Prop where
  announced : s.announced = ws.length
  handles : s.handles = ws.map fun w => if g w then Handle.dropped else .sending
  finished : s.finished = ws.countP g
  closed : s.closed = (ws.countP g == ws.length)

theorem Manned.sending (h : Manned g ws s) (hi : ws[i]? = some a) (ha : g a = false) :
    s.handles[i]? = some .sending := by
  rw [h.handles, List.getElem?_map, hi]
  simp [ha]

theorem Manned.set (h : Manned g ws s) (hi : ws[i]? = some a) (hg : g b = g a) :
    Manned g (ws.set i b) s := by
  have count : (ws.set i b).countP g = ws.countP g := by
    have same := Crew.map_set_of_eq (f := g) hi hg
    have mapped (xs : List β) : xs.countP g = (xs.map g).countP id := by simp [List.countP_map]
    rw [mapped, same, ← mapped]
  refine ⟨by simpa using h.announced, ?_, by rw [count]; exact h.finished, ?_⟩
  · rw [h.handles]
    exact (Crew.map_set_of_eq hi (by rw [hg])).symm
  · rw [count, List.length_set]
    exact h.closed

theorem Manned.drop (h : Manned g ws s) (hi : ws[i]? = some a) (ha : g a = false)
    (hb : g b = true) : Manned g (ws.set i b) (s.drop i).2 := by
  obtain ⟨hlt, hat⟩ := List.getElem?_eq_some_iff.mp hi
  have sending := h.sending hi ha
  have count : (ws.set i b).countP g = ws.countP g + 1 := by
    rw [List.countP_set hlt, hat, ha, hb]
    simp
  have more : (ws.set i b).countP g ≤ (ws.set i b).length := List.countP_le_length
  rw [count, List.length_set] at more
  simp only [Stage.drop, sending, finish]
  refine ⟨by simpa using h.announced, ?_, by rw [count, h.finished], ?_⟩
  · simp only
    rw [h.handles, List.map_set, hb]
    rfl
  · simp only [count, List.length_set, h.closed, h.finished, h.announced]
    have isOpen : (ws.countP g == ws.length) = false := beq_eq_false_iff_ne.mpr (by omega)
    rw [isOpen, Bool.false_or]

theorem Manned.all_of_not_connected (h : Manned g ws s) (hc : s.isConnected = false) :
    ws.all g = true := by
  simp only [isConnected, Bool.or_eq_false_iff, Bool.not_eq_false'] at hc
  rw [h.closed] at hc
  exact all_of_countP_eq_length (by simpa using hc.1)

theorem Manned.congr {s' : Stage α} (h : Manned g ws s) (ha : s'.announced = s.announced)
    (hh : s'.handles = s.handles) (hf : s'.finished = s.finished) (hc : s'.closed = s.closed) :
    Manned g ws s' :=
  ⟨by rw [ha, h.announced], by rw [hh, h.handles], by rw [hf, h.finished], by rw [hc, h.closed]⟩

@[simp] theorem drop_attended (i : Nat) : (s.drop i).2.attended = s.attended := by
  unfold drop
  split <;> rfl

@[simp] theorem drop_queue (i : Nat) : (s.drop i).2.queue = s.queue := by
  unfold drop
  split <;> rfl

theorem withProducers_eq (n : Nat) (s : Stage α) (hs : n = 0 ∨ s.closed = false) :
    withProducers n s = { s with handles := s.handles ++ List.replicate n .sending } := by
  induction n generalizing s with
  | zero => simp [withProducers]
  | succ n ih =>
    have isOpen : s.closed = false := by simpa using hs
    rw [withProducers, ih s.producer.2 (.inr isOpen)]
    simp [producer, isOpen, List.replicate_succ]

theorem staffed_eq {n : Nat} (hn : 0 < n) :
    staffed n = ⟨n, 0, false, List.replicate n .sending, ([] : List α), true⟩ := by
  have isOpen : (n == 0) = false := by simp; omega
  rw [staffed, withProducers_eq n (start n) (.inr isOpen)]
  simp [start, isOpen]

theorem manned_staffed {n : Nat} (hn : 0 < n) (ha : g a = false) :
    Manned g (List.replicate n a) (staffed n : Stage α) := by
  rw [staffed_eq hn]
  have none : (0 == n) = false := by simp; omega
  constructor <;> simp [ha, List.countP_replicate, none]

end Stage

/-! ## Shared passes -/

namespace Pipeline

variable {job : Job} {mode : Mode} {room i : Nat} {p p' : Pipeline}

@[simp] theorem attend_feeder : p.attend.feeder = p.feeder := by unfold attend; split <;> rfl
@[simp] theorem attend_paths : p.attend.paths = p.paths := by unfold attend; split <;> rfl
@[simp] theorem attend_loaders : p.attend.loaders = p.loaders := by unfold attend; split <;> rfl
@[simp] theorem attend_analyzers : p.attend.analyzers = p.analyzers := by
  unfold attend; split <;> rfl
@[simp] theorem attend_outcomes : p.attend.outcomes = p.outcomes := by unfold attend; split <;> rfl
@[simp] theorem attend_keeper : p.attend.keeper = p.keeper := by unfold attend; split <;> rfl
@[simp] theorem attend_stopped : p.attend.stopped = p.stopped := by unfold attend; split <;> rfl
@[simp] theorem attend_report : p.attend.report = p.report := by unfold attend; split <;> rfl
@[simp] theorem attend_workspace : p.attend.workspace = p.workspace := by
  unfold attend; split <;> rfl

theorem attend_loaded : p.attend.loaded = p.loaded ∨ p.attend.loaded = p.loaded.hangUp.2 := by
  unfold attend
  split
  · exact .inr rfl
  · exact .inl rfl

theorem attend_queue (h : p.analyzers.all AnalyzeWorker.isGone = true → p.loaded.queue = []) :
    p.attend.loaded.queue = p.loaded.queue := by
  unfold attend
  split
  · rename_i unattended
    rw [Bool.and_eq_true] at unattended
    exact (h unattended.1).symm
  · rfl

theorem queue_attend (hq : p.loaded.queue = []) : p.attend.loaded.queue = [] :=
  (attend_queue fun _ => hq).trans hq

theorem stop_ne_none (p : Pipeline) (f : Failure) : (p.stop f).stopped ≠ none := by
  unfold stop
  cases p.stopped <;> simp

def isUnattended (p : Pipeline) : Bool :=
  p.analyzers.all AnalyzeWorker.isGone && !p.keeper.isStarting

/-- Who is there, and what is left for them. -/
structure Standing (p : Pipeline) : Prop where
  loaders : p.loaded.Manned LoadWorker.isGone p.loaders
  analyzers : p.outcomes.Manned AnalyzeWorker.isGone p.analyzers
  someLoader : p.loaders ≠ []
  someAnalyzer : p.analyzers ≠ []
  heard : p.outcomes.attended = true
  attended : p.loaded.attended = !p.isUnattended
  closing : p.keeper = .waiting →
    p.outcomes.queue = [] ∧ p.analyzers.all AnalyzeWorker.isGone = true
  fed : p.stopped = none → p.loaders.any LoadWorker.isGone = true →
    p.feeder = .gone ∧ p.paths = []
  passed : p.stopped = none → p.analyzers.any AnalyzeWorker.isGone = true →
    p.loaders.all LoadWorker.isGone = true ∧ p.loaded.queue = []

theorem any_of_all {α : Type} {l : List α} {g : α → Bool} (hl : l ≠ []) (h : l.all g = true) :
    l.any g = true := by
  obtain ⟨x, hx⟩ := List.exists_mem_of_ne_nil l hl
  exact List.any_eq_true.mpr ⟨x, hx, List.all_eq_true.mp h x hx⟩

namespace Standing

theorem start (staff : Staff) (dirs : List Path) (report : Phase.Report) (w : Workspace) :
    Standing (start staff dirs report w) := by
  have loaders := staff.loaders_pos
  have analyzers := staff.analyzers_pos
  constructor
  · exact Stage.manned_staffed loaders rfl
  · exact Stage.manned_staffed analyzers rfl
  · simp [Pipeline.start]; omega
  · simp [Pipeline.start]; omega
  · simp [Pipeline.start, Stage.staffed_eq analyzers]
  · simp [Pipeline.start, Stage.staffed_eq loaders, isUnattended, Keeper.isStarting]
  · simp [Pipeline.start]
  · simp [Pipeline.start, List.any_replicate, LoadWorker.isGone]
  · simp [Pipeline.start, List.any_replicate, AnalyzeWorker.isGone]

theorem sends (h : Standing p) {a : AnalyzeWorker} (hi : p.analyzers[i]? = some a)
    (ha : a.isGone = false) : p.outcomes.Sends i :=
  ⟨h.analyzers.sending hi ha, h.heard⟩

theorem wanted (h : Standing p) (hs : p.stopped = none) {l : LoadWorker}
    (hi : p.loaders[i]? = some l) (hl : l.isGone = false) : p.loaded.Sends i := by
  refine ⟨h.loaders.sending hi hl, ?_⟩
  rw [h.attended]
  by_contra unattended
  simp only [isUnattended, Bool.not_eq_true, Bool.not_eq_false', Bool.and_eq_true] at unattended
  have all := (h.passed hs (any_of_all h.someAnalyzer unattended.1)).1
  rw [all_eq_false_of_getElem? hi hl] at all
  cases all

/-! ### What a move changes -/

theorem stop (h : Standing p) (f : Failure) : Standing (p.stop f) where
  loaders := h.loaders
  analyzers := h.analyzers
  someLoader := h.someLoader
  someAnalyzer := h.someAnalyzer
  heard := h.heard
  attended := h.attended
  closing := h.closing
  fed hs := absurd hs (p.stop_ne_none f)
  passed hs := absurd hs (p.stop_ne_none f)

theorem withFeeder (h : Standing p) {feeder : Feeder} {paths : List Path}
    (fed : p.stopped = none → p.loaders.any LoadWorker.isGone = true →
      feeder = .gone ∧ paths = []) :
    Standing { p with feeder := feeder, paths := paths } :=
  { h with fed := fed }

theorem withLoaded (h : Standing p) {xs : List Loaded}
    (passed : p.stopped = none → p.analyzers.any AnalyzeWorker.isGone = true → xs = []) :
    Standing { p with loaded := { p.loaded with queue := xs } } :=
  { h with
    loaders := h.loaders.congr rfl rfl rfl rfl
    passed := fun hs any => ⟨(h.passed hs any).1, passed hs any⟩ }

theorem withKeeper (h : Standing p) {k : Keeper} (hk : k.isStarting = p.keeper.isStarting)
    (closing : k = .waiting →
      p.outcomes.queue = [] ∧ p.analyzers.all AnalyzeWorker.isGone = true) :
    Standing { p with keeper := k } :=
  { h with
    attended := by
      simp only [isUnattended, hk]
      exact h.attended
    closing := closing }

theorem receiving (h : Standing p) (hk : p.keeper.isStarting = false) :
    Standing { p with keeper := .receiving } :=
  h.withKeeper hk.symm fun waiting => nomatch waiting

theorem withWork (h : Standing p) (report : Phase.Report) (w : Workspace) :
    Standing { p with report := report, workspace := w } :=
  { h with }

theorem withOutcomes (h : Standing p) {vs : List Visit} (hk : p.keeper = .waiting → vs = []) :
    Standing { p with outcomes := { p.outcomes with queue := vs } } :=
  { h with
    analyzers := h.analyzers.congr rfl rfl rfl rfl
    closing := fun waiting => ⟨hk waiting, (h.closing waiting).2⟩ }

theorem setLoader (h : Standing p) {l l' : LoadWorker} (hi : p.loaders[i]? = some l)
    (hl : l.isGone = false) (hl' : l'.isGone = false) : Standing (p.setLoader i l') :=
  have same : l'.isGone = l.isGone := hl'.trans hl.symm
  { h with
    loaders := h.loaders.set hi same
    someLoader := by simpa [Pipeline.setLoader] using h.someLoader
    fed := fun hs any => h.fed hs (any_set_of_eq hi same ▸ any)
    passed := fun hs any =>
      ⟨(all_set_of_eq hi same).trans (h.passed hs any).1, (h.passed hs any).2⟩ }

theorem setAnalyzer (h : Standing p) {a b : AnalyzeWorker} (hi : p.analyzers[i]? = some a)
    (ha : a.isGone = false) (hb : b.isGone = false) : Standing (p.setAnalyzer i b) :=
  have same : b.isGone = a.isGone := hb.trans ha.symm
  { h with
    analyzers := h.analyzers.set hi same
    someAnalyzer := by simpa [Pipeline.setAnalyzer] using h.someAnalyzer
    attended := by
      simp only [isUnattended, Pipeline.setAnalyzer, all_set_of_eq hi same]
      exact h.attended
    closing := fun waiting =>
      ⟨(h.closing waiting).1, (all_set_of_eq hi same).trans (h.closing waiting).2⟩
    passed := fun hs any => h.passed hs (any_set_of_eq hi same ▸ any) }

/-- A loading worker goes. Unless something failed, it has found nothing more to load. -/
theorem dismissLoader (h : Standing p) {l : LoadWorker} (hi : p.loaders[i]? = some l)
    (hl : l.isGone = false) (done : p.stopped = none → p.feeder = .gone ∧ p.paths = []) :
    Standing (p.dismissLoader i) :=
  { h with
    loaders := h.loaders.drop hi hl rfl
    someLoader := by simpa [Pipeline.dismissLoader, Pipeline.setLoader] using h.someLoader
    attended := (Stage.drop_attended i).trans h.attended
    fed := fun hs _ => done hs
    passed := fun hs any => by
      have all := (h.passed hs any).1
      rw [all_eq_false_of_getElem? hi hl] at all
      cases all }

theorem attended_attend (ha : p.loaded.attended = true) :
    p.attend.loaded.attended = !p.attend.isUnattended := by
  have same : p.attend.isUnattended = p.isUnattended := by simp [isUnattended]
  rw [same]
  unfold attend
  cases hu : p.isUnattended with
  | true =>
    rw [isUnattended] at hu
    simp [hu, Stage.hangUp]
  | false =>
    rw [isUnattended] at hu
    simp [hu, ha]

theorem manned_attend {g : LoadWorker → Bool} {ls : List LoadWorker} (h : p.loaded.Manned g ls) :
    p.attend.loaded.Manned g ls := by
  obtain same | gone := p.attend_loaded
  · rwa [same]
  · rw [gone]
    exact h.congr rfl rfl rfl rfl

/-- An analyzing worker goes. Unless something failed, nothing more comes from those who load. -/
theorem dismissAnalyzer (h : Standing p) {a : AnalyzeWorker} (hi : p.analyzers[i]? = some a)
    (ha : a.isGone = false)
    (done : p.stopped = none →
      p.loaders.all LoadWorker.isGone = true ∧ p.loaded.queue = []) :
    Standing (p.dismissAnalyzer i) where
  loaders := by
    simp only [Pipeline.dismissAnalyzer, attend_loaders]
    exact manned_attend h.loaders
  analyzers := by
    simp only [Pipeline.dismissAnalyzer, attend_outcomes, attend_analyzers]
    exact h.analyzers.drop hi ha rfl
  someLoader := by
    simp only [Pipeline.dismissAnalyzer, attend_loaders]
    exact h.someLoader
  someAnalyzer := by
    simpa [Pipeline.dismissAnalyzer, Pipeline.setAnalyzer] using h.someAnalyzer
  heard := by
    simpa [Pipeline.dismissAnalyzer] using h.heard
  attended := attended_attend (by
    have there : p.isUnattended = false := by
      simp [isUnattended, all_eq_false_of_getElem? hi ha]
    have attended := h.attended
    rw [there] at attended
    exact attended)
  closing waiting := by
    simp only [Pipeline.dismissAnalyzer, attend_keeper] at waiting
    have all := (h.closing waiting).2
    rw [all_eq_false_of_getElem? hi ha] at all
    cases all
  fed := by
    simp only [Pipeline.dismissAnalyzer, attend_stopped, attend_loaders, attend_feeder,
      attend_paths]
    exact h.fed
  passed hs _ := by
    simp only [Pipeline.dismissAnalyzer, attend_stopped] at hs
    simp only [Pipeline.dismissAnalyzer, attend_loaders]
    exact ⟨(done hs).1, queue_attend (done hs).2⟩

/-- The keeper gives up its share in the queue of what was loaded. -/
theorem begun (h : Standing p) (hk : p.keeper = .starting) :
    Standing (attend { p with keeper := .receiving }) where
  loaders := by
    simp only [attend_loaders]
    exact manned_attend h.loaders
  analyzers := by simpa using h.analyzers
  someLoader := by simpa using h.someLoader
  someAnalyzer := by simpa using h.someAnalyzer
  heard := by simpa using h.heard
  attended := attended_attend (by
    have there : p.isUnattended = false := by simp [isUnattended, hk, Keeper.isStarting]
    have attended := h.attended
    rw [there] at attended
    exact attended)
  closing waiting := by simp at waiting
  fed := by simpa using h.fed
  passed := by
    simp only [attend_stopped, attend_analyzers, attend_loaders]
    exact fun hs any => ⟨(h.passed hs any).1, queue_attend (h.passed hs any).2⟩

theorem attend_stop (p : Pipeline) (f : Failure) : (p.stop f).attend = p.attend.stop f := by
  unfold attend
  cases hu : p.isUnattended with
  | true =>
    rw [isUnattended] at hu
    simp [Pipeline.stop, hu]
  | false =>
    rw [isUnattended] at hu
    simp [Pipeline.stop, hu]

theorem step (h : Standing p) (s : Step job mode room p p') : Standing p' := by
  cases s with
  | emptied hf => exact h.withFeeder fun hs any => ⟨rfl, (h.fed hs any).2⟩
  | withheld hf stopped => exact h.withFeeder fun hs => absurd hs stopped
  | chosen hf hs =>
    exact h.withFeeder fun hs any => nomatch hf.symm.trans (h.fed hs any).1
  | unfed hf all =>
    exact h.withFeeder fun hs any => ⟨rfl, (h.fed hs any).2⟩
  | fed hf =>
    exact h.withFeeder fun hs any => nomatch hf.symm.trans (h.fed hs any).1
  | @taken i dir dirs hi hp =>
    have same := any_set_of_eq (g := LoadWorker.isGone) (y := .looking dir) hi rfl
    refine (h.setLoader hi rfl rfl).withFeeder fun hs any => ?_
    have none := (h.fed hs (same.symm.trans any)).2
    cases hp.symm.trans none
  | drained hi hp hf => exact h.dismissLoader hi rfl fun _ => ⟨hf, hp⟩
  | unloaded hi => exact h.setLoader hi rfl rfl
  | loading hi => exact h.setLoader hi rfl rfl
  | loaded hi => exact h.setLoader hi rfl rfl
  | passedOn hi =>
    refine (h.setLoader hi rfl rfl).withLoaded fun hs any => ?_
    have all := (h.passed hs any).1
    rw [all_eq_false_of_getElem? hi rfl] at all
    cases all
  | unwanted hi unsent =>
    exact h.dismissLoader hi rfl fun hs => absurd (h.wanted hs hi rfl) unsent
  | refused f hi =>
    rw [Pipeline.dismissAnalyzer, ← attend_stop]
    exact (h.stop f).dismissAnalyzer hi rfl fun hs => absurd hs (p.stop_ne_none f)
  | opened hi => exact h.setAnalyzer hi rfl rfl
  | @received i x xs hi hq =>
    have same := any_set_of_eq (g := AnalyzeWorker.isGone) (y := .looking x) hi rfl
    refine (h.setAnalyzer hi rfl rfl).withLoaded fun hs any => ?_
    have none := (h.passed hs (same.symm.trans any)).2
    cases hq.symm.trans none
  | through hi hq hc =>
    exact h.dismissAnalyzer hi rfl fun _ => ⟨h.loaders.all_of_not_connected hc, hq⟩
  | unanalyzed hi => exact h.setAnalyzer hi rfl rfl
  | examined hi =>
    refine h.setAnalyzer hi rfl ?_
    unfold examine
    split <;> rfl
  | @analyzed i dir packages next left skips more writesLeft w hi =>
    exact (h.setAnalyzer (b := .analyzing dir packages left (skips ++ more)) hi rfl rfl).withWork
      p.report w
  | @failed i dir packages next left skips writesLeft f w hi =>
    exact ((h.setAnalyzer (b := .receiving) hi rfl rfl).withWork p.report w).stop f
  | finished hi => exact h.setAnalyzer hi rfl rfl
  | handedIn hi =>
    refine (h.setAnalyzer hi rfl rfl).withOutcomes fun waiting => ?_
    have all := (h.closing waiting).2
    rw [all_eq_false_of_getElem? hi rfl] at all
    cases all
  | unheard hi unsent => exact absurd (h.sends hi rfl) unsent
  | begun hk => exact h.begun hk
  | @collected v vs hk =>
    have rest : Standing { p with outcomes := { p.outcomes with queue := vs } } :=
      h.withOutcomes fun waiting => nomatch hk.symm.trans waiting
    exact rest.withKeeper (k := .looking v) (by rw [hk]; rfl) fun waiting => nomatch waiting
  | closing hk hq hc =>
    exact h.withKeeper (by rw [hk]; rfl) fun _ => ⟨hq, h.analyzers.all_of_not_connected hc⟩
  | forgotten hk => exact h.receiving (by rw [hk]; rfl)
  | settling hk => exact h.withKeeper (by rw [hk]; rfl) (fun waiting => nomatch waiting)
  | @settled v report w hk => exact (h.receiving (by rw [hk]; rfl)).withWork report w
  | @unlogged v f w hk => exact ((h.receiving (by rw [hk]; rfl)).withWork p.report w).stop f

end Standing

end Pipeline

end AccessDepth
