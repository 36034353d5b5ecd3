import CppNotes.Lib.Run

/-!
# `Channel` and its demo threads (`chan1/chan.cpp`)

The channel is a queue under a mutex, a condition variable `q_not_empty` and an atomic flag `done`.
`step` runs one atomic step of one thread: every lock operation, every `isDone()` test, every look at
the queue, the push, the pop and the notification is a step of its own, so that `close()`, which sets
`done` without the mutex, can fall between any two of them.

* A thread is at a `Pc`; `Pc.holds` says at which of them it owns the mutex.
* `~Cv_Guard` runs before `~unique_lock` (the guard is declared after the lock), so `notify_one` is
  called with the mutex held; it picks any one thread that waits without a notification.
* `wait(lock, pred)` is `while (!pred()) wait(lock)`; a waiting thread goes on when it was notified, or
  spuriously.
* `Role` says what a thread runs: the `producer` or `consumer` of the demo, or a client that calls the
  two operators in any order.

`pushed`, `removed` and `fresh` are history: the items pushed, the items moved out (with the thread that
took them), and whether `operator>>` moved an item out since the consumer's last loop test.
-/

namespace CppNotes.Chan

/-- What a thread runs. -/
inductive Role where
  | client | producer | consumer
  deriving DecidableEq

/-- Where a thread is: at the operation that it does next.

* `idle` is outside the operators; there `producer` and `consumer` test `while (!chx.isDone())`;
* `operator<<`: `sendLock` takes the mutex, `sendTest` and `sendSize` are the two tests of the capacity
  loop, `sendUnlock` and `sendRelock` its `unlock()` and, after the sleep, its `lock()`; `sendDone` is
  `if (ch.isDone())`, `sendPush` the push, `sendNotify` and `sendExit` the two destructors;
* `operator>>`: `recvLock` takes the mutex, `recvEmpty` and `recvPred` are the two tests of the wait
  predicate; `recvBlock` has found it false and is about to wait, `recvWait` is blocked, `recvWoken` has to
  take the mutex again; `recvDone` is `if (ch.isDone())`, `recvPop` moves the item out, `recvExit` is the
  destructor;
* `print` is `cout << *data` of `consumer`; `returned` has left the thread function. -/
inductive Pc (α : Type) where
  | idle
  | sendLock (v : α) | sendTest (v : α) | sendSize (v : α) | sendUnlock (v : α) | sendRelock (v : α)
  | sendDone (v : α) | sendPush (v : α) | sendNotify | sendExit
  | recvLock | recvEmpty | recvPred | recvBlock | recvWait | recvWoken | recvDone | recvPop | recvExit
  | print
  | returned
  deriving DecidableEq

/-- The places at which a thread owns the mutex. -/
def Pc.holds {α : Type} : Pc α → Bool
  | .sendTest _ | .sendSize _ | .sendUnlock _ | .sendDone _ | .sendPush _ | .sendNotify | .sendExit => true
  | .recvEmpty | .recvPred | .recvBlock | .recvDone | .recvPop | .recvExit => true
  | _ => false

/-- One execution of `cout << *data`: the thread, what `data` holds (`none` is the null pointer), and
whether `operator>>` moved an item out in this turn of the loop. -/
structure Print (T α : Type) where
  thread : T
  data : Option α
  fresh : Bool

/-- A channel, what each thread runs, and the item a producer makes from its counter. -/
structure Config (T α : Type) where
  capacity : ℕ
  capacity_pos : 0 < capacity
  role : T → Role
  make : T → ℕ → α

/-- The channel (`q`, `done`, the owner of the mutex), the threads (their places, the notifications pending
for them, the consumers' `data`, the producers' counter `i`) and the history.  `badPop` records that
`front()` and `pop()` were called on an empty queue. -/
structure St (T α : Type) where
  q : List α
  done : Bool
  lock : Option T
  pc : T → Pc α
  notified : T → Bool
  data : T → Option α
  i : T → ℕ
  fresh : T → Bool
  pushed : List α
  removed : List (T × α)
  printed : List (Print T α)
  badPop : Bool

/-- What happens next: a thread steps (`u` is the thread that `notify_one` picks, if it is called), a
waiting thread wakes up spuriously, a client calls an operator, someone calls `close()`. -/
inductive Act (T α : Type) where
  | run (t : T) (u : Option T)
  | spurious (t : T)
  | send (t : T) (v : α)
  | recv (t : T)
  | close

section Step

variable {T α : Type} [DecidableEq T]

def St.init : St T α :=
  { q := [], done := false, lock := none, pc := fun _ => .idle, notified := fun _ => false,
    data := fun _ => none, i := fun _ => 0, fresh := fun _ => false, pushed := [], removed := [],
    printed := [], badPop := false }

def St.goto (s : St T α) (t : T) (p : Pc α) : St T α := { s with pc := Function.update s.pc t p }

/-- Taking the mutex: possible when it is free. -/
def St.acquire (s : St T α) (t : T) (p : Pc α) : Option (St T α) :=
  match s.lock with
  | none => some { s.goto t p with lock := some t }
  | some _ => none

def St.release (s : St T α) (t : T) (p : Pc α) : St T α := { s.goto t p with lock := none }

/-- The thread is blocked in the condition variable and no notification is pending for it. -/
def St.waits (s : St T α) (t : T) : Bool :=
  match s.pc t with
  | .recvWait => !s.notified t
  | _ => false

/-- `notify_one`: it wakes one of the waiting threads, and does nothing when there is none. -/
def St.notifyOne [Fintype T] (s : St T α) : Option T → Option (St T α)
  | some u => if s.waits u then some { s with notified := Function.update s.notified u true } else none
  | none => if ∀ u, s.waits u = false then some s else none

/-- A waiting thread leaves `wait`; what was pending for it is used up. -/
def St.wake (s : St T α) (t : T) : St T α :=
  { s.goto t .recvWoken with notified := Function.update s.notified t false }

/-- `ch.q.push(move(data))`. -/
def St.push (s : St T α) (t : T) (v : α) : St T α :=
  { s.goto t .sendNotify with q := s.q ++ [v], pushed := s.pushed ++ [v] }

/-- `data = std::move(ch.q.front()); ch.q.pop()`. -/
def St.pop (s : St T α) (t : T) : St T α :=
  match s.q with
  | [] => { s.goto t .recvExit with badPop := true }
  | v :: q =>
    { s.goto t .recvExit with
      q := q
      data := Function.update s.data t (some v)
      fresh := Function.update s.fresh t true
      removed := s.removed ++ [(t, v)] }

/-- `while (!chx.isDone())` of a producer, and the item it makes for its next `operator<<`. -/
def St.producerTurn (s : St T α) (c : Config T α) (t : T) : St T α :=
  if s.done then s.goto t .returned
  else { s.goto t (.sendLock (c.make t (s.i t))) with i := Function.update s.i t (s.i t + 1) }

/-- `while (!chx.isDone())` of a consumer. -/
def St.consumerTurn (s : St T α) (t : T) : St T α :=
  if s.done then s.goto t .returned
  else { s.goto t .recvLock with fresh := Function.update s.fresh t false }

/-- `cout << *data << endl`. -/
def St.print (s : St T α) (t : T) : St T α :=
  { s.goto t .idle with printed := s.printed ++ [⟨t, s.data t, s.fresh t⟩] }

/-- One step of thread `t`; `u` is the choice of `notify_one`. -/
def threadStep [Fintype T] (c : Config T α) (s : St T α) (t : T) (u : Option T) : Option (St T α) :=
  match s.pc t with
  | .idle =>
    match c.role t with
    | .client => none
    | .producer => some (s.producerTurn c t)
    | .consumer => some (s.consumerTurn t)
  | .sendLock v => s.acquire t (.sendTest v)
  | .sendTest v => some (s.goto t (if s.done then .sendDone v else .sendSize v))
  | .sendSize v => some (s.goto t (if c.capacity ≤ s.q.length then .sendUnlock v else .sendDone v))
  | .sendUnlock v => some (s.release t (.sendRelock v))
  | .sendRelock v => s.acquire t (.sendTest v)
  | .sendDone v => some (s.goto t (if s.done then .sendNotify else .sendPush v))
  | .sendPush v => some (s.push t v)
  | .sendNotify => (s.notifyOne u).map fun s => s.goto t .sendExit
  | .sendExit => some (s.release t .idle)
  | .recvLock => s.acquire t .recvEmpty
  | .recvEmpty => some (s.goto t (if s.q.isEmpty then .recvPred else .recvDone))
  | .recvPred => some (s.goto t (if s.done then .recvDone else .recvBlock))
  | .recvBlock => some (s.release t .recvWait)
  | .recvWait => if s.notified t then some (s.wake t) else none
  | .recvWoken => s.acquire t .recvEmpty
  | .recvDone => some (s.goto t (if s.done then .recvExit else .recvPop))
  | .recvPop => some (s.pop t)
  | .recvExit => some (s.release t (if c.role t = .consumer then .print else .idle))
  | .print => some (s.print t)
  | .returned => none

def step [Fintype T] (c : Config T α) (s : St T α) : Act T α → Option (St T α)
  | .run t u => threadStep c s t u
  | .spurious t =>
    match s.pc t with
    | .recvWait => some (s.wake t)
    | _ => none
  | .send t v =>
    match c.role t, s.pc t with
    | .client, .idle => some (s.goto t (.sendLock v))
    | _, _ => none
  | .recv t =>
    match c.role t, s.pc t with
    | .client, .idle => some (s.goto t .recvLock)
    | _, _ => none
  | .close => some { s with done := true }

end Step

end CppNotes.Chan
