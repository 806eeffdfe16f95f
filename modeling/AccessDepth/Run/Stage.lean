/-!
# AccessDepth.Run.Stage

A queue between two stages of a run, which closes by itself.

* `Stage` — the queue, who may still send to it, and how many producers have finished.
* `Stage.producer`, `send`, `drop`, `finish` — the side of the producers. The queue closes when the
  number of finished producers reaches the number that was announced; a producer that is made after
  that cannot send.
* `Stage.receive`, `hangUp` — the side of the consumer. It is told that nothing more will come once
  the queue is empty, closed, and no producer that can send is left.

The number of finished producers grows without a limit. A machine word would begin again at zero, but
not before 2^64 of them have finished.
-/

namespace AccessDepth

/-- A producer's handle on a queue. -/
inductive Handle where
  | sending
  /-- Made after the queue was closed. -/
  | mute
  | dropped
  deriving DecidableEq, Repr, Inhabited

/-- A queue of values. -/
structure Stage (α : Type) where
  /-- How many producers will finish before the queue closes. -/
  announced : Nat
  finished : Nat
  closed : Bool
  handles : List Handle
  queue : List α
  /-- Whether someone still receives. -/
  attended : Bool

/-- What a consumer gets. -/
inductive Received (α : Type) where
  | value (x : α)
  | empty
  | disconnected
  deriving DecidableEq, Repr

namespace Stage

variable {α : Type}

/-- A queue for a number of producers; without any it is closed at once. -/
def start (announced : Nat) : Stage α :=
  { announced := announced, finished := 0, closed := announced == 0, handles := [], queue := [],
    attended := true }

/-- A new producer, and its number. -/
def producer (s : Stage α) : Nat × Stage α :=
  (s.handles.length,
    { s with handles := s.handles ++ [if s.closed then .mute else .sending] })

/-- Sends a value; tells whether it was sent, or nothing if there is no such producer. -/
def send (s : Stage α) (handle : Nat) (x : α) : Option Bool × Stage α :=
  match s.handles[handle]? with
  | some .sending =>
    if s.attended then (some true, { s with queue := s.queue ++ [x] }) else (some false, s)
  | some .mute => (some false, s)
  | some .dropped => (none, s)
  | none => (none, s)

/-- Counts one more finished producer; tells whether this closes the queue. -/
def finish (s : Stage α) : Bool × Stage α :=
  let finished := s.finished + 1
  let closes := finished == s.announced
  (closes, { s with finished := finished, closed := s.closed || closes })

/-- Drops a producer, which finishes it; tells whether it was still there. -/
def drop (s : Stage α) (handle : Nat) : Bool × Stage α :=
  match s.handles[handle]? with
  | some .sending => (true, ({ s with handles := s.handles.set handle .dropped }).finish.2)
  | some .mute => (true, ({ s with handles := s.handles.set handle .dropped }).finish.2)
  | some .dropped => (false, s)
  | none => (false, s)

/-- Whether a value may still be sent. -/
def isConnected (s : Stage α) : Bool := !s.closed || s.handles.contains .sending

/-- Receives without waiting; nothing after the consumer has gone. -/
def receive (s : Stage α) : Option (Received α) × Stage α :=
  if s.attended then
    match s.queue with
    | x :: rest => (some (.value x), { s with queue := rest })
    | [] => (some (if s.isConnected then .empty else .disconnected), s)
  else (none, s)

/-- The consumer goes, and what is in the queue with it; tells whether it was there. -/
def hangUp (s : Stage α) : Bool × Stage α :=
  (s.attended, { s with attended := false, queue := [] })

end Stage

end AccessDepth
