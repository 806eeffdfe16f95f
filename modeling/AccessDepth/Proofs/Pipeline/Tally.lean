import AccessDepth.Proofs.Pipeline.Standing

/-!
# AccessDepth.Proofs.Pipeline.Tally

Where the directories of a shared pass are.

* `Pipeline.underway` — the directories that no one is through with.
* `Step.tally` — unless something fails, a move passes directories on and loses none; only the
  keeper takes one out.
* `Pipeline.Honest` — what is under way came out of a loader. `Honest.step` keeps it so.
-/

namespace AccessDepth

def Visit.path : Visit → Path
  | .completed dir .. => dir
  | .skipped skip => skip.path

theorem count_flatMap_set {α β : Type} [DecidableEq β] {f : α → List β} {l : List α} {i : Nat}
    {x : α} (hi : l[i]? = some x) (y : α) (b : β) :
    ((l.set i y).flatMap f).count b + (f x).count b = (l.flatMap f).count b + (f y).count b := by
  induction l generalizing i with
  | nil => cases hi
  | cons z zs ih =>
    cases i with
    | zero =>
      cases hi
      simp only [List.set_cons_zero, List.flatMap_cons, List.count_append]
      omega
    | succ i =>
      have rest := ih hi
      simp only [List.set_cons_succ, List.flatMap_cons, List.count_append]
      omega

theorem mem_set_of_mem {α : Type} {l : List α} {i : Nat} {y : α} {P : α → Prop}
    (h : ∀ x ∈ l, P x) (hy : P y) : ∀ x ∈ l.set i y, P x := by
  intro x hx
  obtain hx | rfl := List.mem_or_eq_of_mem_set hx
  · exact h x hx
  · exact hy

namespace Pipeline

def Feeder.dirs : Feeder → List Path
  | .looking dirs => dirs
  | .offering dir dirs => dir :: dirs
  | .gone => []

def LoadWorker.dirs : LoadWorker → List Path
  | .receiving => []
  | .looking dir => [dir]
  | .loading dir => [dir]
  | .offering x => [x.dir]
  | .gone => []

def AnalyzeWorker.dirs : AnalyzeWorker → List Path
  | .opening => []
  | .receiving => []
  | .looking x => [x.dir]
  | .analyzing dir _ _ _ => [dir]
  | .offering v => [v.path]
  | .gone => []

def Keeper.dirs : Keeper → List Path
  | .starting => []
  | .receiving => []
  | .looking v => [v.path]
  | .settling v => [v.path]
  | .waiting => []

def Keeper.settles : Keeper → Keeper → List Path
  | .settling v, .receiving => [v.path]
  | _, _ => []

@[simp] theorem Keeper.settles_self (k : Keeper) : k.settles k = [] := by
  cases k <;> rfl

/-- The directories that no one is through with. -/
def underway (p : Pipeline) : List Path :=
  p.feeder.dirs ++ (p.paths ++ (p.loaders.flatMap LoadWorker.dirs ++ (p.loaded.queue.map (·.dir) ++
    (p.analyzers.flatMap AnalyzeWorker.dirs ++ (p.outcomes.queue.map Visit.path ++
      p.keeper.dirs)))))

variable {job : Job} {mode : Mode} {room i : Nat} {p p' : Pipeline}

theorem count_underway (p : Pipeline) (a : Path) :
    p.underway.count a = p.feeder.dirs.count a + p.paths.count a +
      (p.loaders.flatMap LoadWorker.dirs).count a + (p.loaded.queue.map (·.dir)).count a +
      (p.analyzers.flatMap AnalyzeWorker.dirs).count a + (p.outcomes.queue.map Visit.path).count a +
      p.keeper.dirs.count a := by
  simp only [underway, List.count_append]
  omega

theorem count_setLoader {l : LoadWorker} (hi : p.loaders[i]? = some l) (l' : LoadWorker) (a : Path) :
    (p.setLoader i l').underway.count a + l.dirs.count a =
      p.underway.count a + l'.dirs.count a := by
  have moved := count_flatMap_set (f := LoadWorker.dirs) hi l' a
  simp only [count_underway, setLoader]
  omega

theorem count_setAnalyzer {x : AnalyzeWorker} (hi : p.analyzers[i]? = some x) (x' : AnalyzeWorker)
    (a : Path) : (p.setAnalyzer i x').underway.count a + x.dirs.count a =
      p.underway.count a + x'.dirs.count a := by
  have moved := count_flatMap_set (f := AnalyzeWorker.dirs) hi x' a
  simp only [count_underway, setAnalyzer]
  omega

theorem tally_setLoader {l : LoadWorker} (hi : p.loaders[i]? = some l) (l' : LoadWorker)
    (hl : l'.dirs = l.dirs) (a : Path) : p.underway.count a =
      (p.setLoader i l').underway.count a + (p.keeper.settles p.keeper).count a := by
  have moved := count_setLoader hi l' a
  rw [hl] at moved
  rw [Keeper.settles_self, List.count_nil]
  omega

theorem tally_setAnalyzer {x : AnalyzeWorker} (hi : p.analyzers[i]? = some x) (x' : AnalyzeWorker)
    (hx : x'.dirs = x.dirs) (a : Path) : p.underway.count a =
      (p.setAnalyzer i x').underway.count a + (p.keeper.settles p.keeper).count a := by
  have moved := count_setAnalyzer hi x' a
  rw [hx] at moved
  rw [Keeper.settles_self, List.count_nil]
  omega

theorem underway_dismissLoader {l : LoadWorker} (hi : p.loaders[i]? = some l) (hl : l.dirs = [])
    (a : Path) : (p.dismissLoader i).underway.count a = p.underway.count a := by
  have moved := count_setLoader hi .gone a
  rw [hl] at moved
  simp only [LoadWorker.dirs, List.count_nil, count_underway, setLoader] at moved
  simp only [count_underway, dismissLoader, setLoader, Stage.drop_queue]
  omega

theorem underway_dismissAnalyzer {x : AnalyzeWorker} (hi : p.analyzers[i]? = some x)
    (hx : x.dirs = []) (hq : p.loaded.queue = []) (a : Path) :
    (p.dismissAnalyzer i).underway.count a = p.underway.count a := by
  have moved := count_flatMap_set (f := AnalyzeWorker.dirs) hi .gone a
  rw [hx] at moved
  simp only [AnalyzeWorker.dirs, List.count_nil] at moved
  have none : (p.dismissAnalyzer i).loaded.queue = [] := queue_attend hq
  simp only [count_underway, none, hq]
  simp only [dismissAnalyzer, attend_feeder, attend_paths, attend_loaders, attend_analyzers,
    attend_outcomes, attend_keeper, setAnalyzer, Stage.drop_queue]
  omega

/-- Unless something fails, no directory is lost. Only the keeper takes one out. -/
theorem Step.tally (h : Standing p) (s : Step job mode room p p') (hs : p'.stopped = none)
    (a : Path) :
    p.underway.count a = p'.underway.count a + (p.keeper.settles p'.keeper).count a := by
  cases s with
  | emptied hf => simp [count_underway, hf, Feeder.dirs]
  | withheld _ stopped => exact absurd hs stopped
  | chosen hf => simp [count_underway, hf, Feeder.dirs]
  | unfed hf all =>
    have gone := (h.fed hs (any_of_all h.someLoader all)).1
    cases hf.symm.trans gone
  | fed hf =>
    simp only [count_underway, hf, Feeder.dirs, List.count_append, List.count_cons, List.count_nil,
      Keeper.settles_self]
    omega
  | @taken i dir dirs hi hp =>
    have moved := count_flatMap_set (f := LoadWorker.dirs) hi (.looking dir) a
    simp only [LoadWorker.dirs, List.count_cons, List.count_nil] at moved
    simp only [count_underway, setLoader, hp, List.count_cons, List.count_nil, Keeper.settles_self]
    omega
  | drained hi =>
    rw [underway_dismissLoader hi rfl]
    simp [dismissLoader, setLoader]
  | unloaded _ stopped => exact absurd hs stopped
  | loading hi => exact tally_setLoader hi (.loading _) rfl a
  | loaded hi => exact tally_setLoader hi (.offering ⟨_, _⟩) rfl a
  | @passedOn i x hi =>
    have moved := count_flatMap_set (f := LoadWorker.dirs) hi .receiving a
    simp only [LoadWorker.dirs, List.count_nil] at moved
    simp only [count_underway, setLoader, List.map_append, List.map_cons, List.map_nil,
      List.count_append, List.count_nil, Keeper.settles_self]
    omega
  | unwanted hi unsent => exact absurd (h.wanted hs hi rfl) unsent
  | refused f => exact absurd hs (stop_ne_none _ f)
  | opened hi => exact tally_setAnalyzer hi .receiving rfl a
  | @received i x xs hi hq =>
    have moved := count_flatMap_set (f := AnalyzeWorker.dirs) hi (.looking x) a
    simp only [AnalyzeWorker.dirs, List.count_cons, List.count_nil] at moved
    simp only [count_underway, setAnalyzer, hq, List.map_cons, List.count_cons, List.count_nil,
      Keeper.settles_self]
    omega
  | through hi hq =>
    rw [underway_dismissAnalyzer hi rfl hq]
    simp [dismissAnalyzer, setAnalyzer]
  | unanalyzed _ stopped => exact absurd hs stopped
  | @examined i x hi =>
    have same : (examine x).dirs = [x.dir] := by
      unfold examine
      split <;> rfl
    exact tally_setAnalyzer hi _ same a
  | @analyzed i dir packages next left skips more _ _ hi =>
    exact tally_setAnalyzer hi (.analyzing dir packages left (skips ++ more)) rfl a
  | failed => exact absurd hs (stop_ne_none _ _)
  | finished hi => exact tally_setAnalyzer hi (.offering (.completed _ _ _)) rfl a
  | @handedIn i v hi =>
    have moved := count_flatMap_set (f := AnalyzeWorker.dirs) hi .receiving a
    simp only [AnalyzeWorker.dirs, List.count_nil] at moved
    simp only [count_underway, setAnalyzer, List.map_append, List.map_cons, List.map_nil,
      List.count_append, List.count_nil, Keeper.settles_self]
    omega
  | unheard hi unsent => exact absurd (h.sends hi rfl) unsent
  | begun hk =>
    have same : (attend { p with keeper := .receiving }).loaded.queue = p.loaded.queue :=
      attend_queue fun all => (h.passed (by simpa using hs) (any_of_all h.someAnalyzer all)).2
    simp [count_underway, hk, same, Keeper.dirs, Keeper.settles]
  | collected hk hq =>
    simp only [count_underway, hk, hq, Keeper.dirs, Keeper.settles, List.map_cons, List.count_cons,
      List.count_nil]
    omega
  | closing hk => simp [count_underway, hk, Keeper.dirs, Keeper.settles]
  | forgotten _ stopped => exact absurd hs stopped
  | settling hk => simp [count_underway, hk, Keeper.dirs, Keeper.settles]
  | settled hk =>
    simp only [count_underway, hk, Keeper.dirs, Keeper.settles, List.count_nil]
    omega
  | unlogged => exact absurd hs (stop_ne_none _ _)

/-! ## What is under way -/

section

variable (T T' : Path → Except Failure (List Package) → Prop)

/-- What came of a directory came of an attempt to load it. -/
def IsHonest : Visit → Prop
  | .completed dir _ _ => ∃ packages, T dir (.ok packages)
  | .skipped skip => ∃ dir f, skip = .ofFailure dir f ∧ T dir (.error f)

def LoadWorker.IsHonest : LoadWorker → Prop
  | .offering x => T x.dir x.packages
  | _ => True

def AnalyzeWorker.IsHonest : AnalyzeWorker → Prop
  | .looking x => T x.dir x.packages
  | .analyzing dir _ _ _ => ∃ packages, T dir (.ok packages)
  | .offering v => Pipeline.IsHonest T v
  | _ => True

def Keeper.IsHonest : Keeper → Prop
  | .looking v => Pipeline.IsHonest T v
  | .settling v => Pipeline.IsHonest T v
  | _ => True

/-- Everything that is under way came of an attempt to load a directory. -/
structure Honest (p : Pipeline) : Prop where
  loaders : ∀ l ∈ p.loaders, l.IsHonest T
  loaded : ∀ x ∈ p.loaded.queue, T x.dir x.packages
  analyzers : ∀ a ∈ p.analyzers, a.IsHonest T
  outcomes : ∀ v ∈ p.outcomes.queue, IsHonest T v
  keeper : p.keeper.IsHonest T

variable {T T'}

theorem IsHonest.mono (hT : ∀ dir r, T dir r → T' dir r) {v : Visit} (h : IsHonest T v) :
    IsHonest T' v := by
  cases v with
  | completed dir packages skips =>
    obtain ⟨packages, h⟩ := h
    exact ⟨packages, hT _ _ h⟩
  | skipped skip =>
    obtain ⟨dir, f, rfl, h⟩ := h
    exact ⟨dir, f, rfl, hT _ _ h⟩

theorem Honest.mono (h : Honest T p) (hT : ∀ dir r, T dir r → T' dir r) : Honest T' p where
  loaders l hl := by
    have honest := h.loaders l hl
    cases l <;> first | exact hT _ _ honest | trivial
  loaded x hx := hT _ _ (h.loaded x hx)
  analyzers a ha := by
    have honest := h.analyzers a ha
    cases a with
    | looking x => exact hT _ _ honest
    | analyzing dir packages left skips =>
      obtain ⟨packages, honest⟩ := honest
      exact ⟨packages, hT _ _ honest⟩
    | offering v => exact IsHonest.mono hT honest
    | _ => trivial
  outcomes v hv := (h.outcomes v hv).mono hT
  keeper := by
    have honest := h.keeper
    unfold Keeper.IsHonest at honest ⊢
    split at honest
    · exact honest.mono hT
    · exact honest.mono hT
    · trivial

namespace Honest

theorem setLoader (h : Honest T p) {l : LoadWorker} (hl : l.IsHonest T) :
    Honest T (p.setLoader i l) :=
  { h with loaders := mem_set_of_mem h.loaders hl }

theorem setAnalyzer (h : Honest T p) {a : AnalyzeWorker} (ha : a.IsHonest T) :
    Honest T (p.setAnalyzer i a) :=
  { h with analyzers := mem_set_of_mem h.analyzers ha }

theorem withLoaded (h : Honest T p) {xs : List Loaded} (hx : ∀ x ∈ xs, T x.dir x.packages) :
    Honest T { p with loaded := { p.loaded with queue := xs } } :=
  { h with loaded := hx }

theorem withOutcomes (h : Honest T p) {vs : List Visit} (hv : ∀ v ∈ vs, IsHonest T v) :
    Honest T { p with outcomes := { p.outcomes with queue := vs } } :=
  { h with outcomes := hv }

theorem withKeeper (h : Honest T p) {k : Keeper} (hk : k.IsHonest T) :
    Honest T { p with keeper := k } :=
  { h with keeper := hk }

theorem attend (h : Honest T p) : Honest T p.attend where
  loaders := by simpa using h.loaders
  loaded := by
    obtain same | gone := p.attend_loaded
    · rw [same]
      exact h.loaded
    · rw [gone]
      exact fun x hx => nomatch hx
  analyzers := by simpa using h.analyzers
  outcomes := by simpa using h.outcomes
  keeper := by simpa using h.keeper

theorem dismissLoader (h : Honest T p) : Honest T (p.dismissLoader i) :=
  have gone := h.setLoader (i := i) (l := .gone) trivial
  { gone with loaded := by simpa [Pipeline.dismissLoader] using h.loaded }

theorem dismissAnalyzer (h : Honest T p) : Honest T (p.dismissAnalyzer i) :=
  have gone := h.setAnalyzer (i := i) (a := .gone) trivial
  attend { gone with outcomes := by simpa using h.outcomes }

end Honest

theorem Honest.step (h : Honest T p) (s : Step job mode room p p')
    (here : ∀ dir, T dir (job.loader p.workspace.disk dir mode.loadMode)) : Honest T p' := by
  cases s with
  | emptied | withheld | chosen | unfed | fed => exact { h with }
  | taken => exact { h.setLoader (l := .looking _) trivial with }
  | drained | unwanted => exact h.dismissLoader
  | unloaded => exact h.setLoader trivial
  | loading => exact h.setLoader trivial
  | loaded => exact h.setLoader (here _)
  | @passedOn i x hi =>
    have honest : T x.dir x.packages := h.loaders _ (List.mem_of_getElem? hi)
    refine (h.setLoader (l := .receiving) trivial).withLoaded fun y hy => ?_
    obtain hy | hy := List.mem_append.mp hy
    · exact h.loaded y hy
    · cases List.mem_singleton.mp hy
      exact honest
  | refused f => exact { h.dismissAnalyzer with }
  | opened | unanalyzed => exact h.setAnalyzer trivial
  | @received i x xs hi hq =>
    have honest : T x.dir x.packages := h.loaded x (hq ▸ List.mem_cons_self)
    refine (h.setAnalyzer (a := .looking x) honest).withLoaded fun y hy => ?_
    exact h.loaded y (hq ▸ List.mem_cons_of_mem x hy)
  | through | unheard => exact h.dismissAnalyzer
  | @examined i x hi =>
    have honest : T x.dir x.packages := h.analyzers _ (List.mem_of_getElem? hi)
    refine h.setAnalyzer ?_
    unfold examine
    split
    · rename_i f hx
      exact ⟨x.dir, f, rfl, hx ▸ honest⟩
    · rename_i packages hx
      exact ⟨packages, hx ▸ honest⟩
  | @analyzed i dir packages next left skips more writesLeft w hi =>
    have honest := h.analyzers _ (List.mem_of_getElem? hi)
    exact { h.setAnalyzer (a := .analyzing dir packages left (skips ++ more)) honest with }
  | failed => exact { h.setAnalyzer (a := .receiving) trivial with }
  | @finished i dir packages skips hi =>
    have honest : ∃ packages, T dir (.ok packages) := h.analyzers _ (List.mem_of_getElem? hi)
    exact h.setAnalyzer honest
  | @handedIn i v hi =>
    have honest : IsHonest T v := h.analyzers _ (List.mem_of_getElem? hi)
    refine (h.setAnalyzer (a := .receiving) trivial).withOutcomes fun y hy => ?_
    obtain hy | hy := List.mem_append.mp hy
    · exact h.outcomes y hy
    · cases List.mem_singleton.mp hy
      exact honest
  | begun => exact attend (h.withKeeper (k := .receiving) trivial)
  | @collected v vs hk hq =>
    have rest := h.withOutcomes fun y hy => h.outcomes y (hq ▸ List.mem_cons_of_mem v hy)
    exact rest.withKeeper (k := .looking v) (h.outcomes v (hq ▸ List.mem_cons_self))
  | closing | forgotten => exact h.withKeeper trivial
  | @settling v hk =>
    have honest := h.keeper
    rw [hk] at honest
    exact h.withKeeper (k := .settling v) honest
  | settled | unlogged => exact { h.withKeeper (k := .receiving) trivial with }

end

end Pipeline

end AccessDepth
