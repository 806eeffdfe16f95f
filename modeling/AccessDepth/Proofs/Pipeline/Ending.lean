import AccessDepth.Proofs.Pipeline.Standing
import Mathlib.Algebra.Ring.Nat
import Mathlib.Data.Prod.Lex
import Mathlib.Order.WellFounded

/-!
# AccessDepth.Proofs.Pipeline.Ending

A shared pass comes to its end.

* `Event.Allowed` — what can happen next, when it is given which sessions cannot be opened and how
  many transactions the stores still take.
* `Standing.moves` — where a pass is not over, some allowed event happens: whoever waits, waits for
  someone that does not.
* `Pipeline.rank` — how far a pass is from its end: what is still to be loaded, then what is on its
  way. `Step.rank_lt` — every move lowers it.
* `Pipeline.never_stuck` — no pass waits forever, and none goes on forever.
-/

namespace AccessDepth

theorem sum_map_set {α : Type} {f : α → Nat} {l : List α} {i : Nat} {x : α}
    (hi : l[i]? = some x) (y : α) : ((l.set i y).map f).sum + f x = (l.map f).sum + f y := by
  induction l generalizing i with
  | nil => cases hi
  | cons z zs ih =>
    cases i with
    | zero =>
      cases hi
      simp only [List.set_cons_zero, List.map_cons, List.sum_cons]
      omega
    | succ i =>
      have rest := ih hi
      simp only [List.set_cons_succ, List.map_cons, List.sum_cons]
      omega

theorem exists_getElem?_of_all_eq_false {α : Type} {l : List α} {g : α → Bool}
    (h : l.all g = false) : ∃ (i : Nat) (x : α), l[i]? = some x ∧ g x = false := by
  obtain ⟨x, hx, hg⟩ := List.all_eq_false.mp h
  obtain ⟨i, hi⟩ := List.mem_iff_getElem?.mp hx
  exact ⟨i, x, hi, by simpa using hg⟩

namespace Stage

variable {α β : Type} {s : Stage α} {g : β → Bool} {ws : List β} {room : Nat}

theorem Manned.not_all_of_connected (h : Manned g ws s) (hc : s.isConnected = true) :
    ws.all g = false := by
  by_contra all
  have gone : ∀ w ∈ ws, g w = true := List.all_eq_true.mp (by simpa using all)
  have closed : s.closed = true := by
    rw [h.closed, List.countP_eq_length.mpr gone]
    exact beq_self_eq_true _
  simp only [isConnected, closed, Bool.not_true, Bool.false_or, List.contains_iff_mem,
    h.handles, List.mem_map] at hc
  obtain ⟨w, hw, sending⟩ := hc
  rw [if_pos (gone w hw)] at sending
  cases sending

theorem isFull_of_unattended (ha : s.attended = false) : s.isFull room = false := by
  simp [isFull, ha]

theorem isFull_of_empty (hq : s.queue = []) (hr : 0 < room) : s.isFull room = false := by
  simp [isFull, hq]
  omega

theorem receive_cases (ha : s.attended = true) :
    (∃ x s', s.receive = (some (.value x), s')) ∨ (∃ s', s.receive = (some .disconnected, s')) ∨
      s.queue = [] ∧ s.isConnected = true := by
  unfold receive
  rw [if_pos ha]
  cases hq : s.queue with
  | cons x xs => exact .inl ⟨x, _, rfl⟩
  | nil =>
    cases hc : s.isConnected with
    | false => exact .inr (.inl ⟨s, rfl⟩)
    | true => exact .inr (.inr ⟨rfl, rfl⟩)

end Stage

namespace Pipeline

variable {job : Job} {mode : Mode} {room i : Nat} {p p' : Pipeline}

/-! ## Nobody waits forever -/

/-- Whether an event can happen, when some sessions cannot be opened and the stores of the others
take so many transactions. -/
def Event.Allowed (broken : Nat → Option Failure) (writesLeft : Option Nat) (p : Pipeline) :
    Event → Prop
  | .refuse i f => broken i = some f
  | .analyze i left => left = writesLeft ∧ (p.analyzers[i]? = some .opening → broken i = none)
  | _ => True

/-- Some event can happen, and does. -/
def Moves (job : Job) (mode : Mode) (room : Nat) (broken : Nat → Option Failure)
    (writesLeft : Option Nat) (p : Pipeline) : Prop :=
  ∃ e : Event, e.Allowed broken writesLeft p ∧ (p.act job mode room e).isSome = true

variable {broken : Nat → Option Failure} {writesLeft : Option Nat}

/-- The feeder waits only for room, and only for someone that may still make it. -/
theorem feeder_moves (hf : p.feeder ≠ .gone)
    (able : p.loaders.all LoadWorker.isGone = true ∨ p.paths.length < room) :
    p.Moves job mode room broken writesLeft := by
  refine ⟨.feed, trivial, ?_⟩
  simp only [act, feed]
  split
  · rfl
  · rfl
  · split
    · rfl
    · rename_i some
      rw [if_pos (able.resolve_left some)]
      rfl
  · exact absurd ‹_› hf

/-- A loading worker waits only where nothing is handed out yet, and then the feeder does not. -/
theorem loader_moves {l : LoadWorker} (hi : p.loaders[i]? = some l) (hl : l.isGone = false)
    (hr : 0 < room) (able : p.loaded.isFull room = false) :
    p.Moves job mode room broken writesLeft := by
  have moves (h : (p.load job mode room i).isSome = true) :
      p.Moves job mode room broken writesLeft := ⟨.load i, trivial, h⟩
  cases l with
  | receiving =>
    cases hp : p.paths with
    | cons dir dirs => exact moves (by simp [load, hi, hp])
    | nil =>
      by_cases hf : p.feeder = .gone
      · exact moves (by simp [load, hi, hp, hf])
      · exact feeder_moves hf (.inr (by rw [hp]; exact hr))
  | looking dir => exact moves (by simp [load, hi])
  | loading dir => exact moves (by simp [load, hi])
  | offering x =>
    refine moves ?_
    simp only [load, hi, able, Bool.false_eq_true, if_false]
    split <;> rfl
  | gone => cases hl

namespace Standing

theorem attended_of_analyzer (h : Standing p) {a : AnalyzeWorker} (hi : p.analyzers[i]? = some a)
    (ha : a.isGone = false) : p.loaded.attended = true := by
  rw [h.attended, isUnattended, all_eq_false_of_getElem? hi ha]
  rfl

/-- An analyzing worker waits only where nothing is loaded yet, and then those before it do not. -/
theorem analyzer_moves (h : Standing p) {a : AnalyzeWorker} (hi : p.analyzers[i]? = some a)
    (ha : a.isGone = false) (hr : 0 < room) (able : p.outcomes.isFull room = false) :
    p.Moves job mode room broken writesLeft := by
  have moves (hb : a ≠ .opening) (h : (p.analyze mode room i writesLeft).isSome = true) :
      p.Moves job mode room broken writesLeft :=
    ⟨.analyze i writesLeft, ⟨rfl, fun same => absurd (Option.some.inj (hi.symm.trans same)) hb⟩, h⟩
  cases a with
  | opening =>
    cases hb : broken i with
    | some f => exact ⟨.refuse i f, hb, by simp [act, refuse, hi]⟩
    | none => exact ⟨.analyze i writesLeft, ⟨rfl, fun _ => hb⟩, by simp [act, analyze, hi]⟩
  | receiving =>
    obtain ⟨x, s, received⟩ | ⟨s, received⟩ | ⟨empty, connected⟩ :=
      Stage.receive_cases (h.attended_of_analyzer hi ha)
    · exact moves nofun (by simp [analyze, hi, received])
    · exact moves nofun (by simp [analyze, hi, received])
    · obtain ⟨j, l, hj, hl⟩ :=
        exists_getElem?_of_all_eq_false (h.loaders.not_all_of_connected connected)
      exact loader_moves hj hl hr (Stage.isFull_of_empty empty hr)
  | looking x => exact moves nofun (by simp [analyze, hi])
  | analyzing dir packages left skips =>
    refine moves nofun ?_
    cases left with
    | nil => simp [analyze, hi]
    | cons next left =>
      simp only [analyze, hi]
      split <;> rfl
  | offering v =>
    refine moves nofun ?_
    simp only [analyze, hi, able, Bool.false_eq_true, if_false]
    split <;> rfl
  | gone => cases ha

theorem moves_of_waiting (h : Standing p) (hk : p.keeper = .waiting) (going : p.isOver = false)
    (hr : 0 < room) : p.Moves job mode room broken writesLeft := by
  have gone := (h.closing hk).2
  have unattended : p.loaded.attended = false := by
    rw [h.attended, isUnattended, gone, hk]
    rfl
  cases loading : p.loaders.all LoadWorker.isGone with
  | false =>
    obtain ⟨j, l, hj, hl⟩ := exists_getElem?_of_all_eq_false loading
    exact loader_moves hj hl hr (Stage.isFull_of_unattended unattended)
  | true =>
    refine feeder_moves (fun fed => ?_) (.inl loading)
    simp [isOver, fed, hk, loading, gone] at going

/-- Where a pass is not over, someone moves. -/
theorem moves (h : Standing p) (hr : 0 < room) (going : p.isOver = false) :
    p.Moves job mode room broken writesLeft := by
  have keeps (hs : (p.keep (job.settings.logPath mode)).isSome = true) :
      p.Moves job mode room broken writesLeft := ⟨.keep, trivial, hs⟩
  cases hk : p.keeper with
  | starting => exact keeps (by simp [keep, hk])
  | receiving =>
    obtain ⟨v, s, received⟩ | ⟨s, received⟩ | ⟨empty, connected⟩ := Stage.receive_cases h.heard
    · exact keeps (by simp [keep, hk, received])
    · exact keeps (by simp [keep, hk, received])
    · obtain ⟨j, a, hj, ha⟩ :=
        exists_getElem?_of_all_eq_false (h.analyzers.not_all_of_connected connected)
      exact h.analyzer_moves hj ha hr (Stage.isFull_of_empty empty hr)
  | looking v => exact keeps (by simp [keep, hk])
  | settling v =>
    refine keeps ?_
    simp only [keep, hk]
    split <;> rfl
  | waiting => exact h.moves_of_waiting hk going hr

end Standing

/-! ## Nobody goes on forever

The weights fall at every hand-over. A directory weighs 5 with the feeder, 3 in the queue, 2 and 1
while it is loaded. What was loaded weighs 9 with the worker that offers it, then 7, 6, 5 and 3 up to
the keeper, and 1 more for each package that is still to be analyzed. -/

def Feeder.toLoad : Feeder → Nat
  | .looking dirs => 5 * dirs.length + 1
  | .offering _ dirs => 5 * dirs.length + 5
  | .gone => 0

def LoadWorker.toLoad : LoadWorker → Nat
  | .looking _ => 2
  | .loading _ => 1
  | _ => 0

def Loaded.size (x : Loaded) : Nat :=
  match x.packages with
  | .error _ => 0
  | .ok packages => packages.length

def Loaded.toKeep (x : Loaded) : Nat := x.size + 7

def LoadWorker.toKeep : LoadWorker → Nat
  | .offering x => x.size + 9
  | .gone => 0
  | _ => 1

def AnalyzeWorker.toKeep : AnalyzeWorker → Nat
  | .opening => 2
  | .receiving => 1
  | .looking x => x.size + 7
  | .analyzing _ _ left _ => left.length + 6
  | .offering _ => 5
  | .gone => 0

def Keeper.toKeep : Keeper → Nat
  | .starting => 2
  | .receiving => 1
  | .looking _ => 3
  | .settling _ => 2
  | .waiting => 0

def toLoad (p : Pipeline) : Nat :=
  p.feeder.toLoad + 3 * p.paths.length + (p.loaders.map LoadWorker.toLoad).sum

def toKeep (p : Pipeline) : Nat :=
  (p.loaders.map LoadWorker.toKeep).sum + (p.loaded.queue.map Loaded.toKeep).sum +
    (p.analyzers.map AnalyzeWorker.toKeep).sum + 3 * p.outcomes.queue.length + p.keeper.toKeep

/-- How far a pass is from its end. A directory that is loaded may have any number of packages. -/
def rank (p : Pipeline) : Nat ×ₗ Nat := toLex (p.toLoad, p.toKeep)

theorem rank_lt_iff :
    p'.rank < p.rank ↔ p'.toLoad < p.toLoad ∨ p'.toLoad = p.toLoad ∧ p'.toKeep < p.toKeep :=
  Prod.Lex.toLex_lt_toLex

@[simp] theorem toLoad_attend (p : Pipeline) : p.attend.toLoad = p.toLoad := by
  simp [toLoad]

theorem toKeep_attend (p : Pipeline) : p.attend.toKeep ≤ p.toKeep := by
  have less : (p.attend.loaded.queue.map Loaded.toKeep).sum ≤
      (p.loaded.queue.map Loaded.toKeep).sum := by
    obtain same | gone := p.attend_loaded
    · rw [same]
    · rw [gone]
      exact Nat.zero_le _
  simp only [toKeep, attend_loaders, attend_analyzers, attend_outcomes, attend_keeper]
  omega

theorem rank_attend (p : Pipeline) : p.attend.rank ≤ p.rank := by
  obtain less | same := Nat.lt_or_eq_of_le p.toKeep_attend
  · exact le_of_lt (rank_lt_iff.mpr (.inr ⟨p.toLoad_attend, less⟩))
  · rw [rank, rank, same, toLoad_attend]

@[simp] theorem rank_stop (p : Pipeline) (f : Failure) : (p.stop f).rank = p.rank := rfl

@[simp] theorem rank_withWorkspace (p : Pipeline) (w : Workspace) :
    rank { p with workspace := w } = p.rank := rfl

theorem toLoad_setLoader {l m : LoadWorker} (hi : p.loaders[i]? = some l) :
    (p.setLoader i m).toLoad + l.toLoad = p.toLoad + m.toLoad := by
  have moved := sum_map_set (f := LoadWorker.toLoad) hi m
  simp only [toLoad, setLoader]
  omega

theorem toKeep_setLoader {l m : LoadWorker} (hi : p.loaders[i]? = some l) :
    (p.setLoader i m).toKeep + l.toKeep = p.toKeep + m.toKeep := by
  have moved := sum_map_set (f := LoadWorker.toKeep) hi m
  simp only [toKeep, setLoader]
  omega

theorem toKeep_setAnalyzer {a b : AnalyzeWorker} (hi : p.analyzers[i]? = some a) :
    (p.setAnalyzer i b).toKeep + a.toKeep = p.toKeep + b.toKeep := by
  have moved := sum_map_set (f := AnalyzeWorker.toKeep) hi b
  simp only [toKeep, setAnalyzer]
  omega

theorem rank_setAnalyzer_lt {a b : AnalyzeWorker} (hi : p.analyzers[i]? = some a)
    (less : b.toKeep < a.toKeep) : (p.setAnalyzer i b).rank < p.rank := by
  have moved := toKeep_setAnalyzer (b := b) hi
  exact rank_lt_iff.mpr (.inr ⟨rfl, by omega⟩)

theorem rank_dismissAnalyzer_lt {a : AnalyzeWorker} (hi : p.analyzers[i]? = some a)
    (ha : 0 < a.toKeep) : (p.dismissAnalyzer i).rank < p.rank := by
  refine lt_of_le_of_lt (rank_attend _) ?_
  have moved := toKeep_setAnalyzer (b := .gone) hi
  have same : toKeep { p.setAnalyzer i .gone with outcomes := (p.outcomes.drop i).2 } =
      (p.setAnalyzer i .gone).toKeep := by
    simp [toKeep, setAnalyzer]
  have gone : AnalyzeWorker.toKeep .gone = 0 := rfl
  have less : (p.setAnalyzer i .gone).toKeep < p.toKeep := by omega
  exact rank_lt_iff.mpr (.inr ⟨rfl, same.trans_lt less⟩)

theorem rank_setLoader_lt {l m : LoadWorker} (hi : p.loaders[i]? = some l)
    (less : m.toLoad < l.toLoad) : (p.setLoader i m).rank < p.rank := by
  have load := toLoad_setLoader (m := m) hi
  exact rank_lt_iff.mpr (.inl (by omega))

theorem rank_dismissLoader_lt {l : LoadWorker} (hi : p.loaders[i]? = some l) (hl : l.toLoad = 0)
    (hk : 0 < l.toKeep) : (p.dismissLoader i).rank < p.rank := by
  have load := toLoad_setLoader (m := .gone) hi
  have keep := toKeep_setLoader (m := .gone) hi
  have sameLoad : (p.dismissLoader i).toLoad = (p.setLoader i .gone).toLoad := rfl
  have sameKeep : (p.dismissLoader i).toKeep = (p.setLoader i .gone).toKeep := by
    simp [toKeep, dismissLoader, setLoader]
  have goneLoad : LoadWorker.toLoad .gone = 0 := rfl
  have goneKeep : LoadWorker.toKeep .gone = 0 := rfl
  exact rank_lt_iff.mpr (.inr ⟨by omega, by omega⟩)

/-- Every move brings a pass nearer to its end. -/
theorem Step.rank_lt (s : Step job mode room p p') : p'.rank < p.rank := by
  cases s with
  | emptied hf =>
    refine rank_lt_iff.mpr (.inl ?_)
    simp only [toLoad, hf, Feeder.toLoad]
    omega
  | withheld hf | chosen hf =>
    refine rank_lt_iff.mpr (.inl ?_)
    simp only [toLoad, hf, Feeder.toLoad, List.length_cons]
    omega
  | unfed hf =>
    refine rank_lt_iff.mpr (.inl ?_)
    simp only [toLoad, hf, Feeder.toLoad]
    omega
  | fed hf =>
    refine rank_lt_iff.mpr (.inl ?_)
    simp only [toLoad, hf, Feeder.toLoad, List.length_append, List.length_singleton]
    omega
  | @taken i dir dirs hi hp =>
    have load := toLoad_setLoader (m := .looking dir) hi
    refine rank_lt_iff.mpr (.inl ?_)
    simp only [toLoad, setLoader, LoadWorker.toLoad, hp, List.length_cons] at load ⊢
    omega
  | drained hi => exact rank_dismissLoader_lt hi rfl (by decide)
  | unloaded hi | loading hi | loaded hi =>
    exact rank_setLoader_lt hi (by simp [LoadWorker.toLoad])
  | @passedOn i x hi =>
    have load := toLoad_setLoader (m := .receiving) hi
    have keep := toKeep_setLoader (m := .receiving) hi
    simp only [toLoad, setLoader, LoadWorker.toLoad] at load
    simp only [toKeep, setLoader, LoadWorker.toKeep] at keep
    refine rank_lt_iff.mpr (.inr ⟨?_, ?_⟩)
    · simp only [toLoad, setLoader]
      omega
    · simp only [toKeep, setLoader, List.map_append, List.map_cons, List.map_nil, List.sum_append,
        List.sum_cons, List.sum_nil, Loaded.toKeep] at keep ⊢
      omega
  | unwanted hi => exact rank_dismissLoader_lt hi rfl (Nat.succ_pos _)
  | refused f hi => exact rank_dismissAnalyzer_lt hi (by decide)
  | opened hi => exact rank_setAnalyzer_lt hi (by decide)
  | @received i x xs hi hq =>
    have keep := toKeep_setAnalyzer (b := .looking x) hi
    refine rank_lt_iff.mpr (.inr ⟨rfl, ?_⟩)
    simp only [toKeep, setAnalyzer, AnalyzeWorker.toKeep, hq, List.map_cons, List.sum_cons,
      Loaded.toKeep] at keep ⊢
    omega
  | through hi => exact rank_dismissAnalyzer_lt hi (by decide)
  | @unanalyzed i x hi =>
    refine rank_setAnalyzer_lt hi ?_
    simp only [AnalyzeWorker.toKeep]
    omega
  | @examined i x hi =>
    refine rank_setAnalyzer_lt hi ?_
    unfold examine
    split <;> simp_all [AnalyzeWorker.toKeep, Loaded.size]
  | analyzed hi =>
    rw [rank_withWorkspace]
    exact rank_setAnalyzer_lt hi (by simp [AnalyzeWorker.toKeep])
  | failed hi =>
    rw [rank_stop, rank_withWorkspace]
    exact rank_setAnalyzer_lt hi (by simp [AnalyzeWorker.toKeep])
  | finished hi => exact rank_setAnalyzer_lt hi (by simp [AnalyzeWorker.toKeep])
  | @handedIn i v hi =>
    have keep := toKeep_setAnalyzer (b := .receiving) hi
    refine rank_lt_iff.mpr (.inr ⟨rfl, ?_⟩)
    simp only [toKeep, setAnalyzer, AnalyzeWorker.toKeep, List.length_append,
      List.length_singleton] at keep ⊢
    omega
  | unheard hi => exact rank_dismissAnalyzer_lt hi (Nat.succ_pos 4)
  | begun hk =>
    refine lt_of_le_of_lt (rank_attend _) (rank_lt_iff.mpr (.inr ⟨rfl, ?_⟩))
    simp only [toKeep, hk, Keeper.toKeep]
    omega
  | collected hk hq =>
    refine rank_lt_iff.mpr (.inr ⟨rfl, ?_⟩)
    simp only [toKeep, hk, hq, Keeper.toKeep, List.length_cons]
    omega
  | closing hk | forgotten hk | settling hk | settled hk | unlogged hk =>
    refine rank_lt_iff.mpr (.inr ⟨rfl, ?_⟩)
    simp only [toKeep, stop, hk, Keeper.toKeep]
    omega

theorem no_endless (job : Job) (mode : Mode) (room : Nat) :
    ¬∃ (ps : Nat → Pipeline) (es : Nat → Event),
      ∀ n, (ps n).act job mode room (es n) = some (ps (n + 1)) := by
  rintro ⟨ps, es, go⟩
  obtain ⟨n, more⟩ := WellFounded.not_rel_apply_succ (r := (· < ·)) fun n => (ps n).rank
  exact more (act_step (go n)).rank_lt

/-- From wherever it is, a pass can be brought to its end. -/
theorem Standing.ends (h : Standing p) (hr : 0 < room) :
    ∃ es last, p.acts job mode room es = some last ∧ last.isOver = true := by
  induction hrank : p.rank using WellFoundedLT.induction generalizing p with
  | ind r ih =>
    cases ended : p.isOver with
    | true => exact ⟨[], p, rfl, ended⟩
    | false =>
      have some : p.Moves job mode room (fun _ => none) none := h.moves hr ended
      obtain ⟨e, -, happens⟩ := some
      obtain ⟨next, he⟩ := Option.isSome_iff_exists.mp happens
      have s := act_step he
      obtain ⟨es, last, hes, done⟩ := ih next.rank (hrank ▸ s.rank_lt) (h.step s) rfl
      exact ⟨e :: es, last, by rw [acts_cons, he]; exact hes, done⟩

/-- A pass never gets stuck. Whatever it loads, whichever sessions cannot be opened and whenever a
store fails: where not everyone is through, someone can move, and no pass goes on forever. -/
theorem never_stuck (job : Job) (mode : Mode) (staff : Staff) (dirs : List Path)
    (report : Phase.Report) (w : Workspace) :
    (∀ es p, (start staff dirs report w).acts job mode staff.room es = some p →
      p.isOver = false → ∀ broken writesLeft, ∃ e : Event, e.Allowed broken writesLeft p ∧
        (p.act job mode staff.room e).isSome = true) ∧
    ¬∃ (ps : Nat → Pipeline) (es : Nat → Event), ps 0 = start staff dirs report w ∧
      ∀ n, (ps n).act job mode staff.room (es n) = some (ps (n + 1)) := by
  refine ⟨fun es p reached going broken writesLeft => ?_, ?_⟩
  · have standing : Standing p :=
      acts_invariant (fun _ _ => Standing.step) (Standing.start staff dirs report w) reached
    exact standing.moves staff.room_pos going
  · rintro ⟨ps, es, -, go⟩
    exact no_endless job mode staff.room ⟨ps, es, go⟩

end Pipeline

end AccessDepth
