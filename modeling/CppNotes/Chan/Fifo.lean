import CppNotes.Chan.Moves

/-!
# The channel is a FIFO queue

`Inv` is what holds in every reachable state, whatever the threads call and whenever `close()` falls:

* the mutex is owned by exactly the thread whose place says so;
* what was moved out, followed by what is in the queue, is what was pushed, in that order;
* a thread that has left the wait predicate (`recvDone`) sees a non-empty queue or `done`, and a thread
  that is about to pop sees a non-empty queue.

Only the owner of the mutex changes the queue, and the places that need a non-empty queue all own the
mutex, so no other thread can empty it under them.  `done` is set at any time, but it only grows, and a
thread that finds it set at `recvDone` does not pop.
-/

set_option linter.unusedSectionVars false

namespace CppNotes.Chan

open CppNotes.Lib

variable {T α : Type} [DecidableEq T]

/-- What the place of a thread needs of the queue. -/
def Ready (q : List α) (done : Bool) : Pc α → Prop
  | .recvDone => q ≠ [] ∨ done = true
  | .recvPop => q ≠ []
  | _ => True

structure Inv (s : St T α) : Prop where
  /-- The mutex is owned by the thread whose place says so. -/
  mutex : ∀ t, (s.pc t).holds = true ↔ s.lock = some t
  /-- Moved out, then still queued, is pushed. -/
  fifo : s.removed.map Prod.snd ++ s.q = s.pushed
  ready : ∀ t, Ready s.q s.done (s.pc t)
  /-- `front()` and `pop()` were never called on an empty queue. -/
  noBadPop : s.badPop = false

theorem inv_init : Inv (St.init : St T α) :=
  ⟨fun t => by simp [St.init, Pc.holds], rfl, fun t => trivial, rfl⟩

/-- A place that needs something of the queue owns the mutex. -/
theorem ready_of_not_holds {q : List α} {done : Bool} {p : Pc α} (h : p.holds = false) : Ready q done p := by
  cases p <;> trivial

/-- Two threads cannot both own the mutex. -/
theorem Inv.alone {s : St T α} (hi : Inv s) {t u : T} (ht : (s.pc t).holds = true) (hu : u ≠ t) :
    (s.pc u).holds = false := by
  by_contra h
  have h₁ := (hi.mutex t).1 ht
  have h₂ := (hi.mutex u).1 (by simpa using h)
  rw [h₁] at h₂
  exact hu (Option.some.inj h₂).symm

/-! ## One lemma for each kind of step -/

theorem mutex_goto {s : St T α} (hi : Inv s) {t : T} {p : Pc α} (hp : p.holds = (s.pc t).holds) (u : T) :
    (Function.update s.pc t p u).holds = true ↔ s.lock = some u := by
  by_cases hu : u = t
  · subst hu
    rw [Function.update_self, hp]
    exact hi.mutex u
  · rw [Function.update_of_ne hu]
    exact hi.mutex u

/-- A thread moves on and neither the queue nor the mutex changes. -/
theorem Inv.goto {s : St T α} (hi : Inv s) {t : T} {p : Pc α} (hp : p.holds = (s.pc t).holds)
    (hr : Ready s.q s.done p) : Inv (s.goto t p) where
  mutex := mutex_goto hi hp
  fifo := hi.fifo
  ready u := by
    by_cases hu : u = t
    · subst hu
      simpa [St.goto] using hr
    · simpa [St.goto, Function.update_of_ne hu] using hi.ready u
  noBadPop := hi.noBadPop

theorem Inv.acquire {s : St T α} (hi : Inv s) {t : T} {p : Pc α} (hl : s.lock = none) (hp : p.holds = true)
    (hr : Ready s.q s.done p) : Inv { s.goto t p with lock := some t } := by
  -- the mutex is free, so no thread owns it
  have hfree : ∀ u, (s.pc u).holds = false := by
    intro u
    have := hi.mutex u
    rw [hl] at this
    simpa using this
  refine ⟨fun u => ?_, hi.fifo, fun u => ?_, hi.noBadPop⟩
  · by_cases hu : u = t
    · subst hu
      simp [St.goto, hp]
    · have hne : ¬ t = u := fun e => hu e.symm
      simp [St.goto, Function.update_of_ne hu, hfree u, hne]
  · by_cases hu : u = t
    · subst hu
      simpa [St.goto] using hr
    · simpa [St.goto, Function.update_of_ne hu] using hi.ready u

theorem Inv.release {s : St T α} (hi : Inv s) {t : T} {p : Pc α} (ht : (s.pc t).holds = true)
    (hp : p.holds = false) : Inv (s.release t p) := by
  refine ⟨fun u => ?_, hi.fifo, fun u => ?_, hi.noBadPop⟩
  · by_cases hu : u = t
    · subst hu
      simp [St.release, St.goto, hp]
    · simp [St.release, St.goto, Function.update_of_ne hu, hi.alone ht hu]
  · by_cases hu : u = t
    · subst hu
      simpa [St.release, St.goto] using ready_of_not_holds hp
    · simpa [St.release, St.goto, Function.update_of_ne hu] using hi.ready u

/-- The owner of the mutex changes the queue: nobody else is at a place that needs it. -/
theorem Inv.setQueue {s : St T α} (hi : Inv s) {t : T} (ht : (s.pc t).holds = true) {s' : St T α} {p : Pc α}
    (hp : p.holds = true) (hr : Ready s'.q s'.done p) (hpc : s'.pc = Function.update s.pc t p)
    (hl : s'.lock = s.lock) (hf : s'.removed.map Prod.snd ++ s'.q = s'.pushed)
    (hb : s'.badPop = false) : Inv s' := by
  refine ⟨fun u => ?_, hf, fun u => ?_, hb⟩
  · rw [hpc, hl]
    exact mutex_goto hi (by rw [hp, ht]) u
  · rw [hpc]
    by_cases hu : u = t
    · subst hu
      rwa [Function.update_self]
    · rw [Function.update_of_ne hu]
      exact ready_of_not_holds (hi.alone ht hu)

theorem Inv.push {s : St T α} (hi : Inv s) {t : T} (v : α) (ht : (s.pc t).holds = true) :
    Inv (s.push t v) := by
  refine hi.setQueue ht (p := .sendNotify) rfl trivial rfl rfl ?_ hi.noBadPop
  show s.removed.map Prod.snd ++ (s.q ++ [v]) = s.pushed ++ [v]
  rw [← List.append_assoc, hi.fifo]

theorem Inv.pop {s : St T α} (hi : Inv s) {t : T} (ht : s.pc t = .recvPop) : Inv (s.pop t) := by
  have hq : s.q ≠ [] := by
    have := hi.ready t
    rwa [ht] at this
  have hh : (s.pc t).holds = true := by rw [ht]; rfl
  obtain ⟨v, q, hvq⟩ := List.exists_cons_of_ne_nil hq
  unfold St.pop
  rw [hvq]
  refine hi.setQueue hh (p := .recvExit) rfl trivial rfl rfl ?_ hi.noBadPop
  have hf := hi.fifo
  rw [hvq] at hf
  simpa [St.goto] using hf

theorem Inv.wake {s : St T α} (hi : Inv s) {t : T} (ht : s.pc t = .recvWait) : Inv (s.wake t) := by
  have h := hi.goto (t := t) (p := .recvWoken) (by rw [ht]; rfl) trivial
  exact ⟨h.mutex, h.fifo, h.ready, h.noBadPop⟩

/-- `close()` only sets the flag: what a place needs of the queue can only get easier. -/
theorem Inv.close {s : St T α} (hi : Inv s) : Inv { s with done := true } := by
  refine ⟨hi.mutex, hi.fifo, fun u => ?_, hi.noBadPop⟩
  have hr := hi.ready u
  show Ready s.q true (s.pc u)
  cases hp : s.pc u <;> first | trivial | exact Or.inr rfl | (rw [hp] at hr; exact hr)

/-! ## Every step keeps the invariant -/

variable [Fintype T] {c : Config T α}

theorem LockEdge.ready {q : List α} {done : Bool} {p p' : Pc α} (h : LockEdge p p') : Ready q done p' := by
  cases h <;> trivial

/-- The outcome of a test is what the next place needs: the wait predicate is left with an item or with
`done` set, and the pop is reached only when `done` is not set. -/
theorem TestEdge.ready {s : St T α} {p p' : Pc α} (h : TestEdge c s p p') (hr : Ready s.q s.done p) :
    Ready s.q s.done p' := by
  cases h with
  | item hq => exact Or.inl hq
  | predDone hd => exact Or.inr hd
  | take hd => exact hr.resolve_right (by simp [hd])
  | _ => trivial

theorem move_inv {s s' : St T α} {t : T} (hi : Inv s) (h : Move c s t s') : Inv s' := by
  cases h with
  | quit hp _ => exact hi.goto (by rw [hp]; rfl) trivial
  | produce hp _ _ =>
    have h := hi.goto (t := t) (p := .sendLock (c.make t (s.i t))) (by rw [hp]; rfl) trivial
    exact ⟨h.mutex, h.fifo, h.ready, h.noBadPop⟩
  | consume hp _ _ =>
    have h := hi.goto (t := t) (p := .recvLock) (by rw [hp]; rfl) trivial
    exact ⟨h.mutex, h.fifo, h.ready, h.noBadPop⟩
  | lock _ he hl => exact hi.acquire hl he.holds.2 he.ready
  | unlock hp he => exact hi.release (by rw [hp]; exact he.holds.1) he.holds.2
  | test hp he =>
    have hr := hi.ready t
    rw [hp] at hr
    exact hi.goto (by rw [hp, he.holds.1, he.holds.2]) (he.ready hr)
  | push v hp => exact hi.push v (by rw [hp]; rfl)
  | notify w hp _ =>
    have h := hi.goto (t := t) (p := .sendExit) (by rw [hp]; rfl) trivial
    exact ⟨h.mutex, h.fifo, h.ready, h.noBadPop⟩
  | silent hp _ => exact hi.goto (by rw [hp]; rfl) trivial
  | wake hp _ => exact hi.wake hp
  | pop hp => exact hi.pop hp
  | print hp =>
    have h := hi.goto (t := t) (p := .idle) (by rw [hp]; rfl) trivial
    exact ⟨h.mutex, h.fifo, h.ready, h.noBadPop⟩

theorem step_inv {s s' : St T α} {a : Act T α} (hi : Inv s) (h : step c s a = some s') : Inv s' := by
  rcases step_cases h with ⟨t, u, -, hm⟩ | ⟨t, -, hp, rfl⟩ | ⟨t, v, -, -, hp, rfl⟩ | ⟨t, -, -, hp, rfl⟩ | ⟨-, rfl⟩
  · exact move_inv hi hm
  · exact hi.wake hp
  · exact hi.goto (by rw [hp]; rfl) trivial
  · exact hi.goto (by rw [hp]; rfl) trivial
  · exact hi.close

theorem reach_inv {ok : St T α → Act T α → Prop} {s : St T α} (h : Reach (step c) ok .init s) : Inv s :=
  h.invariant Inv inv_init fun _ _ _ _ hi _ hs => step_inv hi hs

/-- **The channel is FIFO, without loss or duplication**, for any threads, any interleaving of their calls
and a `close()` at any moment; and `front()` and `pop()` are never called on an empty queue. -/
theorem channel_fifo (c : Config T α) {s : St T α} (h : Reach (step c) Any .init s) :
    s.removed.map Prod.snd ++ s.q = s.pushed ∧ s.badPop = false ∧ ∀ t, s.pc t = .recvPop → s.q ≠ [] := by
  have hi := reach_inv h
  refine ⟨hi.fifo, hi.noBadPop, fun t ht => ?_⟩
  have hr := hi.ready t
  rwa [ht] at hr

/-- Two clients of a channel of capacity `2`. -/
def twoClients : Config (Fin 2) ℕ where
  capacity := 2
  capacity_pos := by decide
  role _ := .client
  make _ n := n

/-- Thread `0` sends `7` and `8`, and thread `1` receives one of them before the channel is closed. -/
def sendSendRecv : List (Act (Fin 2) ℕ) :=
  [Act.send 0 7] ++ List.replicate 7 (Act.run 0 none) ++ [Act.send 0 8] ++ List.replicate 7 (Act.run 0 none) ++
    [Act.recv 1] ++ List.replicate 4 (Act.run 1 none) ++ [Act.close, Act.run 1 none]

theorem channel_fifo_two_sends : ∃ s, Reach (step twoClients) Any .init s ∧ s.pushed = [7, 8] ∧ s.q = [8] ∧
    s.removed.map Prod.snd ++ s.q = s.pushed := by
  obtain ⟨s, hs, hp⟩ := reach_of_runs (step twoClients) Any .init
    sendSendRecv
    (fun s => decide (s.pushed = [7, 8] ∧ s.q = [8])) (by decide)
  have hp := of_decide_eq_true hp
  exact ⟨s, hs, hp.1, hp.2, (channel_fifo twoClients hs).1⟩

end CppNotes.Chan
