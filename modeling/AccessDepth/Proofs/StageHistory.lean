import AccessDepth.Run.Stage
import Mathlib.Data.List.Infix

/-!
# AccessDepth.Proofs.StageHistory

What a queue answers, by what was done to it before.

* `Stage.Action`, `Stage.Event` — something that is done to a queue, and the same with its answer.
* `Stage.completions`, `sent`, `received`, `Live`, `Muted` — what a history tells of the producers and
  of the values.
* `Event.Follows` — an answer is the one that the history before it calls for.
* `Stage.Kept` — a queue holds what its history tells. `Kept.next` — every action keeps it so, and is
  answered accordingly.
* `Stage.history_lawful` — so are all actions on a new queue. It closes with the last producer that was
  announced, stays closed, and hands on what was sent in order.
-/

namespace AccessDepth
namespace Stage

variable {α : Type}

/-! ## Histories -/

/-- Something that is done to a queue. -/
inductive Action (α : Type) where
  | producer
  | send (handle : Nat) (x : α)
  | drop (handle : Nat)
  | finish
  | receive
  | hangUp

/-- Something that was done to a queue, with its answer. -/
inductive Event (α : Type) where
  | producer (handle : Nat)
  | send (handle : Nat) (x : α) (answer : Option Bool)
  | drop (handle : Nat) (answer : Bool)
  | finish (answer : Bool)
  | receive (answer : Option (Received α))
  | hangUp (answer : Bool)

def Action.perform (s : Stage α) : Action α → Event α × Stage α
  | .producer => (.producer s.producer.1, s.producer.2)
  | .send handle x => (.send handle x (s.send handle x).1, (s.send handle x).2)
  | .drop handle => (.drop handle (s.drop handle).1, (s.drop handle).2)
  | .finish => (.finish s.finish.1, s.finish.2)
  | .receive => (.receive s.receive.1, s.receive.2)
  | .hangUp => (.hangUp s.hangUp.1, s.hangUp.2)

def perform (s : Stage α) : List (Action α) → List (Event α) × Stage α
  | [] => ([], s)
  | a :: as =>
    let (e, s) := a.perform s
    let (es, s) := s.perform as
    (e :: es, s)

/-! ## What a history tells -/

/-- Whether a producer finishes here: its handle is dropped, or it is said to be done. -/
def Event.completes : Event α → Bool
  | .drop _ answer => answer
  | .finish _ => true
  | _ => false

/-- How many producers have finished. -/
def completions (h : List (Event α)) : Nat := h.countP (·.completes)

def Event.sent? : Event α → Option α
  | .send _ x (some true) => some x
  | _ => none

def Event.received? : Event α → Option α
  | .receive (some (.value x)) => some x
  | _ => none

/-- The values for which `send` answered that they were sent. -/
def sent (h : List (Event α)) : List α := h.filterMap (·.sent?)

def received (h : List (Event α)) : List α := h.filterMap (·.received?)

def Event.makes : Event α → Bool
  | .producer _ => true
  | _ => false

def made (h : List (Event α)) : Nat := h.countP (·.makes)

def HungUp (h : List (Event α)) : Prop := ∃ answer, .hangUp answer ∈ h

/-- A handle was made and was not dropped. -/
def Live (h : List (Event α)) (handle : Nat) : Prop :=
  .producer handle ∈ h ∧ .drop handle true ∉ h

/-- A handle was made when all announced producers had finished. -/
def Muted (n : Nat) (h : List (Event α)) (handle : Nat) : Prop :=
  ∃ before after, h = before ++ .producer handle :: after ∧ n ≤ completions before

def Standing (n : Nat) (h : List (Event α)) (handle : Nat) : Handle → Prop
  | .sending => Live h handle ∧ ¬ Muted n h handle
  | .mute => Live h handle ∧ Muted n h handle
  | .dropped => .producer handle ∈ h ∧ .drop handle true ∈ h

/-- Nobody can send any more: all announced producers have finished, and no live handle was made before
that. -/
def Silent (n : Nat) (h : List (Event α)) : Prop :=
  n ≤ completions h ∧ ∀ handle, Live h handle → Muted n h handle

/-- An answer is the one that the history before it calls for, on a queue for `n` producers. -/
def Event.Follows (n : Nat) (before : List (Event α)) : Event α → Prop
  | .producer handle => handle = made before
  | .send handle _ answer =>
    (answer = some true ↔ Live before handle ∧ ¬ (HungUp before ∨ Muted n before handle)) ∧
    (answer = some false ↔ Live before handle ∧ (HungUp before ∨ Muted n before handle))
  | .drop handle answer => answer = true ↔ Live before handle
  | .finish answer => answer = true ↔ completions before + 1 = n
  | .receive answer =>
    (answer = none ↔ HungUp before) ∧
    (answer = some .disconnected ↔
      ¬ HungUp before ∧ Silent n before ∧ received before = sent before) ∧
    (answer = some .empty ↔
      ¬ HungUp before ∧ ¬ Silent n before ∧ received before = sent before) ∧
    ∀ x, answer = some (.value x) ↔
      ¬ HungUp before ∧ (sent before)[(received before).length]? = some x
  | .hangUp answer => answer = true ↔ ¬ HungUp before

section

variable {n k : Nat} {h : List (Event α)} {e : Event α}

theorem completions_append (h : List (Event α)) (e : Event α) :
    completions (h ++ [e]) = completions h + if e.completes then 1 else 0 := by
  simp [completions, List.countP_append, List.countP_singleton]

theorem made_append (h : List (Event α)) (e : Event α) :
    made (h ++ [e]) = made h + if e.makes then 1 else 0 := by
  simp [made, List.countP_append, List.countP_singleton]

theorem sent_append (h : List (Event α)) (e : Event α) :
    sent (h ++ [e]) = sent h ++ e.sent?.toList := by
  cases he : e.sent? <;> simp [sent, he]

theorem received_append (h : List (Event α)) (e : Event α) :
    received (h ++ [e]) = received h ++ e.received?.toList := by
  cases he : e.received? <;> simp [received, he]

theorem completions_mono (h h' : List (Event α)) : completions h ≤ completions (h ++ h') := by
  simp [completions, List.countP_append]

theorem hungUp_append : HungUp (h ++ [e]) ↔ HungUp h ∨ ∃ answer, e = .hangUp answer := by
  unfold HungUp
  simp only [List.mem_append, List.mem_singleton, exists_or]
  exact or_congr_right (exists_congr fun _ => eq_comm)

theorem live_append : Live (h ++ [e]) k ↔
    (.producer k ∈ h ∨ e = .producer k) ∧ .drop k true ∉ h ∧ e ≠ .drop k true := by
  unfold Live
  rw [List.mem_append, List.mem_append, List.mem_singleton, List.mem_singleton, not_or,
    @eq_comm _ e, ne_eq, @eq_comm _ e]

theorem muted_append : Muted n (h ++ [e]) k ↔
    Muted n h k ∨ e = .producer k ∧ n ≤ completions h := by
  constructor
  · rintro ⟨before, after, same, closed⟩
    obtain rfl | ⟨after, last, rfl⟩ := List.eq_nil_or_concat' after
    · obtain ⟨rfl, he⟩ := List.append_inj' same rfl
      exact .inr ⟨(List.cons.inj he).1, closed⟩
    · rw [← List.cons_append, ← List.append_assoc] at same
      obtain ⟨rfl, -⟩ := List.append_inj' same rfl
      exact .inl ⟨before, after, rfl, closed⟩
  · rintro (⟨before, after, rfl, closed⟩ | ⟨rfl, closed⟩)
    · exact ⟨before, after ++ [e], by simp, closed⟩
    · exact ⟨h, [], rfl, closed⟩

/-- How a handle stands is changed only where it is made or dropped. -/
theorem standing_append_of_ne (hp : e ≠ .producer k) (hd : e ≠ .drop k true) (x : Handle) :
    Standing n (h ++ [e]) k x ↔ Standing n h k x := by
  have live : Live (h ++ [e]) k ↔ Live h k := by
    rw [live_append]
    simp only [hp, hd, or_false, ne_eq, not_false_eq_true, and_true]
    rfl
  have muted : Muted n (h ++ [e]) k ↔ Muted n h k := by
    rw [muted_append]
    simp only [hp, false_and, or_false]
  cases x with
  | sending => rw [Standing, Standing, live, muted]
  | mute => rw [Standing, Standing, live, muted]
  | dropped =>
    simp only [Standing, List.mem_append, List.mem_singleton, Ne.symm hp, Ne.symm hd, or_false]

end

/-! ## Queues and their histories -/

/-- A queue for `n` producers holds what its history tells. -/
structure Kept (n : Nat) (h : List (Event α)) (s : Stage α) : Prop where
  announced : s.announced = n
  finished : s.finished = completions h
  closed : s.closed = true ↔ n ≤ completions h
  attended : s.attended = true ↔ ¬ HungUp h
  made : s.handles.length = made h
  handles : ∀ k x, s.handles[k]? = some x ↔ Standing n h k x
  dropped : ∀ k, .drop k true ∈ h → .producer k ∈ h
  /-- While someone receives, what was sent and not received is in the queue. -/
  queue : s.attended = true → received h ++ s.queue = sent h
  inOrder : received h <+: sent h

namespace Kept

variable {n k : Nat} {h : List (Event α)} {s : Stage α} {e : Event α}

theorem start (n : Nat) : Kept n [] (start n : Stage α) where
  announced := rfl
  finished := rfl
  closed := by simp [Stage.start, completions]
  attended := by simp [Stage.start, HungUp]
  made := rfl
  handles k x := by cases x <;> simp [Stage.start, Standing, Live]
  dropped k hk := by cases hk
  queue _ := rfl
  inOrder := List.prefix_rfl

theorem known (kept : Kept n h s) : .producer k ∈ h ↔ k < s.handles.length := by
  constructor
  · intro mem
    have there : ∃ x, s.handles[k]? = some x := by
      by_cases dropped : .drop k true ∈ h
      · exact ⟨.dropped, (kept.handles k _).mpr ⟨mem, dropped⟩⟩
      · by_cases muted : Muted n h k
        · exact ⟨.mute, (kept.handles k _).mpr ⟨⟨mem, dropped⟩, muted⟩⟩
        · exact ⟨.sending, (kept.handles k _).mpr ⟨⟨mem, dropped⟩, muted⟩⟩
    obtain ⟨x, hx⟩ := there
    exact (List.getElem?_eq_some_iff.mp hx).1
  · intro lt
    have stands := (kept.handles k _).mp (List.getElem?_eq_getElem lt)
    generalize s.handles[k] = x at stands
    cases x with
    | sending => exact stands.1.1
    | mute => exact stands.1.1
    | dropped => exact stands.1

theorem live (kept : Kept n h s) :
    Live h k ↔ s.handles[k]? = some .sending ∨ s.handles[k]? = some .mute := by
  rw [kept.handles, kept.handles, Standing, Standing, ← and_or_left]
  simp only [Classical.em, or_comm, and_true]

theorem isConnected (kept : Kept n h s) : s.isConnected = false ↔ Silent n h := by
  unfold Stage.isConnected Silent
  rw [Bool.or_eq_false_iff, Bool.not_eq_false', kept.closed]
  refine and_congr_right fun _ => ?_
  rw [← Bool.not_eq_true, List.contains_iff_mem]
  constructor
  · intro none k live
    by_contra speaks
    exact none (List.mem_of_getElem? ((kept.handles k _).mpr ⟨live, speaks⟩))
  · intro muted mem
    obtain ⟨k, hk⟩ := List.mem_iff_getElem?.mp mem
    obtain ⟨live, speaks⟩ := (kept.handles k _).mp hk
    exact speaks (muted k live)

/-- What is done to the values is no business of the producers. -/
theorem values (kept : Kept n h s) {queue : List α} {attended : Bool}
    (hp : ∀ k, e ≠ .producer k) (hd : ∀ k, e ≠ .drop k true) (hm : e.makes = false)
    (hc : e.completes = false) (ha : attended = true ↔ ¬ HungUp (h ++ [e]))
    (hq : attended = true → received (h ++ [e]) ++ queue = sent (h ++ [e]))
    (ho : received (h ++ [e]) <+: sent (h ++ [e])) :
    Kept n (h ++ [e]) { s with queue := queue, attended := attended } := by
  have standing (k : Nat) (x : Handle) : Standing n (h ++ [e]) k x ↔ Standing n h k x :=
    standing_append_of_ne (hp k) (hd k) x
  have same : completions (h ++ [e]) = completions h := by rw [completions_append, hc]; rfl
  constructor
  · exact kept.announced
  · exact kept.finished.trans same.symm
  · rw [same]
    exact kept.closed
  · exact ha
  · rw [made_append, hm]
    exact kept.made
  · intro k x
    rw [standing]
    exact kept.handles k x
  · intro k hk
    rw [List.mem_append, List.mem_singleton] at hk ⊢
    exact .inl (kept.dropped k (hk.resolve_right (hd k).symm))
  · exact hq
  · exact ho

theorem silence (kept : Kept n h s) (hs : e.sent? = none) (hr : e.received? = none)
    (hh : ∀ answer, e ≠ .hangUp answer) :
    (s.attended = true ↔ ¬ HungUp (h ++ [e])) ∧
      (s.attended = true → received (h ++ [e]) ++ s.queue = sent (h ++ [e])) ∧
      received (h ++ [e]) <+: sent (h ++ [e]) := by
  have gone : HungUp (h ++ [e]) ↔ HungUp h := by
    rw [hungUp_append]
    simp only [hh, exists_false, or_false]
  rw [gone, received_append, sent_append, hs, hr]
  simpa using ⟨kept.attended, kept.queue, kept.inOrder⟩

theorem producer (kept : Kept n h s) :
    Kept n (h ++ [.producer s.handles.length]) s.producer.2 := by
  obtain ⟨ha, hq, ho⟩ := kept.silence (e := .producer s.handles.length) rfl rfl (by simp)
  have same : completions (h ++ [.producer s.handles.length]) = completions h :=
    completions_append ..
  constructor
  · exact kept.announced
  · exact kept.finished.trans same.symm
  · rw [same]
    exact kept.closed
  · exact ha
  · rw [made_append, ← kept.made]
    simp [Stage.producer, Event.makes]
  · intro k x
    simp only [Stage.producer, List.getElem?_append]
    by_cases hk : k = s.handles.length
    · subst hk
      have isNew : .producer s.handles.length ∉ h := by simp [kept.known]
      have undropped : .drop s.handles.length true ∉ h := fun hd => isNew (kept.dropped _ hd)
      have unmuted : ¬ Muted n h s.handles.length := by
        rintro ⟨before, after, rfl, -⟩
        exact isNew (by simp)
      have muted : Muted n (h ++ [.producer s.handles.length]) s.handles.length ↔
          s.closed = true := by
        rw [muted_append, kept.closed]
        simp [unmuted]
      have live : Live (h ++ [.producer s.handles.length]) s.handles.length := by
        rw [live_append]
        exact ⟨.inr rfl, undropped, by simp⟩
      cases x <;> cases hc : s.closed <;> simp [Standing, hc, live, muted, undropped]
    · rw [standing_append_of_ne (by simpa using Ne.symm hk) (by simp), ← kept.handles]
      by_cases lt : k < s.handles.length
      · rw [if_pos lt]
      · have past : s.handles.length < k := by omega
        rw [if_neg lt, List.getElem?_eq_none (by simp; omega), List.getElem?_eq_none (by omega)]
  · intro k hk
    rw [List.mem_append, List.mem_singleton] at hk ⊢
    exact .inl (kept.dropped k (hk.resolve_right (by simp)))
  · exact hq
  · exact ho

theorem closed_append (kept : Kept n h s) (hc : e.completes = true) :
    (s.closed || s.finished + 1 == s.announced) = true ↔ n ≤ completions (h ++ [e]) := by
  rw [completions_append, hc, Bool.or_eq_true, kept.closed, beq_iff_eq, kept.finished,
    kept.announced, if_pos rfl]
  omega

theorem finish (kept : Kept n h s) : Kept n (h ++ [.finish s.finish.1]) s.finish.2 := by
  obtain ⟨ha, hq, ho⟩ := kept.silence (e := .finish s.finish.1) rfl rfl (by simp)
  constructor
  · exact kept.announced
  · rw [completions_append, ← kept.finished]
    rfl
  · exact kept.closed_append rfl
  · exact ha
  · rw [made_append, ← kept.made]
    rfl
  · intro k x
    rw [standing_append_of_ne (by simp) (by simp)]
    exact kept.handles k x
  · intro k hk
    rw [List.mem_append, List.mem_singleton] at hk ⊢
    exact .inl (kept.dropped k (hk.resolve_right (by simp)))
  · exact hq
  · exact ho

theorem undropped (kept : Kept n h s) (k : Nat) : Kept n (h ++ [.drop k false]) s :=
  have ⟨ha, hq, ho⟩ := kept.silence (e := .drop k false) rfl rfl (by simp)
  kept.values (by simp) (by simp) rfl rfl ha hq ho

/-- A live handle is dropped. -/
theorem letGo (kept : Kept n h s) (live : Live h k) :
    Kept n (h ++ [.drop k true]) ({ s with handles := s.handles.set k .dropped }).finish.2 := by
  obtain ⟨ha, hq, ho⟩ := kept.silence (e := .drop k true) rfl rfl (by simp)
  have lt := kept.known.mp live.1
  constructor
  · exact kept.announced
  · rw [completions_append, ← kept.finished]
    rfl
  · exact kept.closed_append rfl
  · exact ha
  · rw [made_append, ← kept.made]
    exact List.length_set
  · intro k' x
    simp only [Stage.finish]
    by_cases same : k' = k
    · subst same
      rw [List.getElem?_set_self lt]
      cases x <;> simp [Standing, Live, live.1]
    · rw [standing_append_of_ne (by simp) (by simpa using Ne.symm same),
        List.getElem?_set_ne (Ne.symm same)]
      exact kept.handles k' x
  · intro k' hk
    rw [List.mem_append, List.mem_singleton] at hk ⊢
    obtain hk | hk := hk
    · exact .inl (kept.dropped k' hk)
    · cases hk
      exact .inl live.1
  · exact hq
  · exact ho

theorem drop (kept : Kept n h s) (k : Nat) : Kept n (h ++ [.drop k (s.drop k).1]) (s.drop k).2 := by
  unfold Stage.drop
  split
  · rename_i hk
    exact kept.letGo (kept.live.mpr (.inl hk))
  · rename_i hk
    exact kept.letGo (kept.live.mpr (.inr hk))
  · exact kept.undropped k
  · exact kept.undropped k

theorem send (kept : Kept n h s) (k : Nat) (x : α) :
    Kept n (h ++ [.send k x (s.send k x).1]) (s.send k x).2 := by
  have unsent (answer : Option Bool) (ha : answer ≠ some true) :
      Kept n (h ++ [.send k x answer]) s := by
    have none : (Event.send k x answer).sent? = none := by
      cases answer with
      | none => rfl
      | some b => cases b <;> simp [Event.sent?] at ha ⊢
    obtain ⟨ha, hq, ho⟩ := kept.silence (e := .send k x answer) none rfl (by simp)
    exact kept.values (by simp) (by simp) rfl rfl ha hq ho
  unfold Stage.send
  split
  · split
    · rename_i here
      refine kept.values (by simp) (by simp) rfl rfl ?_ (fun _ => ?_) ?_
      · rw [hungUp_append]
        simpa using kept.attended
      · rw [received_append, sent_append, ← kept.queue here]
        simp [Event.received?, Event.sent?]
      · rw [received_append, sent_append]
        exact (List.append_nil (received h)).symm ▸ kept.inOrder.trans (List.prefix_append _ _)
    · exact unsent _ (by simp)
  · exact unsent _ (by simp)
  · exact unsent _ (by simp)
  · exact unsent _ (by simp)

theorem receive (kept : Kept n h s) : Kept n (h ++ [.receive s.receive.1]) s.receive.2 := by
  have unreceived (answer : Option (Received α))
      (ha : (Event.receive answer).received? = none) :
      Kept n (h ++ [.receive answer]) s := by
    obtain ⟨ha, hq, ho⟩ := kept.silence (e := .receive answer) rfl ha (by simp)
    exact kept.values (by simp) (by simp) rfl rfl ha hq ho
  unfold Stage.receive
  split
  · rename_i here
    split
    · rename_i x rest hx
      have order := kept.queue here
      rw [hx] at order
      refine kept.values (by simp) (by simp) rfl rfl ?_ (fun _ => ?_) ?_
      · rw [hungUp_append]
        simpa using kept.attended
      · rw [received_append, sent_append, ← order]
        simp [Event.received?, Event.sent?]
      · rw [received_append, sent_append, ← order]
        exact ⟨rest, by simp [Event.received?, Event.sent?]⟩
    · refine unreceived _ ?_
      split <;> rfl
  · exact unreceived _ rfl

theorem hangUp (kept : Kept n h s) : Kept n (h ++ [.hangUp s.hangUp.1]) s.hangUp.2 := by
  refine kept.values (by simp) (by simp) rfl rfl ?_ (fun gone => by cases gone) ?_
  · rw [hungUp_append]
    simp
  · rw [received_append, sent_append]
    simpa [Event.received?, Event.sent?] using kept.inOrder

/-! ### Answers -/

theorem send_follows (kept : Kept n h s) (k : Nat) (x : α) :
    (Event.send k x (s.send k x).1).Follows n h := by
  have gone : s.attended = false ↔ HungUp h := by
    rw [← Bool.not_eq_true, kept.attended, not_not]
  have live := kept.live (k := k)
  simp only [Event.Follows, Stage.send]
  split
  · rename_i hk
    obtain ⟨isLive, speaks⟩ := (kept.handles k _).mp hk
    cases ha : s.attended <;> simp [isLive, speaks, ← gone, ha]
  · rename_i hk
    obtain ⟨isLive, muted⟩ := (kept.handles k _).mp hk
    simp [isLive, muted]
  · rename_i hk
    simp [live, hk]
  · rename_i hk
    simp [live, hk]

theorem drop_follows (kept : Kept n h s) (k : Nat) :
    (Event.drop k (s.drop k).1 : Event α).Follows n h := by
  simp only [Event.Follows, Stage.drop, kept.live]
  split <;> simp [*]

theorem receive_follows (kept : Kept n h s) :
    (Event.receive s.receive.1).Follows n h := by
  simp only [Event.Follows, Stage.receive, ← kept.isConnected]
  cases ha : s.attended with
  | false =>
    have gone : HungUp h := by
      by_contra here
      exact Bool.noConfusion (ha.symm.trans (kept.attended.mpr here))
    simp [gone]
  | true =>
    have here : ¬ HungUp h := kept.attended.mp ha
    have order := kept.queue ha
    cases hq : s.queue with
    | nil =>
      rw [hq, List.append_nil] at order
      cases hc : s.isConnected <;> simp [here, order]
    | cons x rest =>
      rw [hq] at order
      simp [here, ← order]

/-- Every action is answered as its history calls for, and keeps the queue as it should be. -/
theorem next (kept : Kept n h s) (a : Action α) :
    (a.perform s).1.Follows n h ∧ Kept n (h ++ [(a.perform s).1]) (a.perform s).2 := by
  cases a with
  | producer => exact ⟨kept.made, kept.producer⟩
  | send k x => exact ⟨kept.send_follows k x, kept.send k x⟩
  | drop k => exact ⟨kept.drop_follows k, kept.drop k⟩
  | finish =>
    refine ⟨?_, kept.finish⟩
    simp only [Action.perform, Event.Follows, Stage.finish, beq_iff_eq, kept.finished,
      kept.announced]
  | receive => exact ⟨kept.receive_follows, kept.receive⟩
  | hangUp => exact ⟨kept.attended, kept.hangUp⟩

/-- So does every sequence of actions. -/
theorem perform (kept : Kept n h s) (actions : List (Action α)) :
    (∀ before e after, (s.perform actions).1 = before ++ e :: after → e.Follows n (h ++ before)) ∧
      Kept n (h ++ (s.perform actions).1) (s.perform actions).2 := by
  induction actions generalizing h s with
  | nil => exact ⟨by simp [Stage.perform], by simpa [Stage.perform] using kept⟩
  | cons a actions ih =>
    obtain ⟨follows, kept'⟩ := kept.next a
    obtain ⟨answers, last⟩ := ih kept'
    simp only [Stage.perform]
    refine ⟨fun before e after split => ?_, by simpa using last⟩
    cases before with
    | nil =>
      cases split
      rwa [List.append_nil]
    | cons first before =>
      obtain ⟨rfl, rest⟩ := List.cons.inj split
      have later := answers before e after rest
      rwa [List.append_assoc] at later

end Kept

theorem perform_append (s : Stage α) (as bs : List (Action α)) :
    s.perform (as ++ bs) = ((s.perform as).1 ++ ((s.perform as).2.perform bs).1,
      ((s.perform as).2.perform bs).2) := by
  induction as generalizing s with
  | nil => rfl
  | cons a as ih => simp only [List.cons_append, perform, ih]

/-- Whatever is done to a new queue for `n` producers, every answer is the one that the history before
it calls for: a send fails only after the consumer has gone or through a handle that was made too late,
`finish` tells of the `n`-th completion and of no other one, and the end is told only when nobody can
send and all that was sent was received. The queue is closed exactly once all `n` have finished, stays
closed, and what is received is what was sent first, in order. -/
theorem history_lawful (n : Nat) (actions : List (Action α)) :
    (∀ before e after, ((start n).perform actions).1 = before ++ e :: after →
        e.Follows n before) ∧
      (((start n).perform actions).2.closed = true ↔
        n ≤ completions ((start n).perform actions).1) ∧
      (((start n).perform actions).2.closed = true → ∀ more,
        ((start n).perform (actions ++ more)).2.closed = true) ∧
      received ((start n).perform actions).1 <+: sent ((start n).perform actions).1 := by
  have kept (as : List (Action α)) := (Kept.start n).perform as
  obtain ⟨answers, last⟩ := kept actions
  refine ⟨answers, last.closed, fun closed more => ?_, last.inOrder⟩
  refine (kept (actions ++ more)).2.closed.mpr ?_
  rw [perform_append]
  exact Nat.le_trans (last.closed.mp closed) (completions_mono _ _)

end Stage
end AccessDepth
