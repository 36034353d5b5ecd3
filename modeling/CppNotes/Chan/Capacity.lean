import CppNotes.Chan.Fifo

/-!
# The capacity of the channel

A sender tests the size, tests `done` and pushes without giving the mutex back in between, so the room that it has seen
is still there when it pushes (`Room`).  `done` is set without the mutex: a sender that has passed `if (ch.isDone())` by
then still pushes.  It owns the mutex, so there is at most one, and behind it nobody passes that test any more.
-/

set_option linter.unusedSectionVars false

namespace CppNotes.Chan

open CppNotes.Lib

variable {T α : Type} [DecidableEq T]

/-! ## The size of the queue -/

/-- What the place of a sender knows of the queue: the capacity loop is left with room or with `done` set. -/
def Room (c : Config T α) (q : List α) (done : Bool) : Pc α → Prop
  | .sendDone _ => q.length < c.capacity ∨ done = true
  | .sendPush _ => q.length < c.capacity
  | _ => True

structure Bounded (c : Config T α) (s : St T α) : Prop where
  bound : s.q.length ≤ c.capacity
  room : ∀ t, Room c s.q s.done (s.pc t)

variable {c : Config T α} {s s' : St T α} {t : T}

theorem bounded_init (c : Config T α) : Bounded c (St.init : St T α) :=
  ⟨Nat.zero_le _, fun _ => trivial⟩

/-- A place that knows something of the queue owns the mutex. -/
theorem room_of_not_holds {q : List α} {done : Bool} {p : Pc α} (h : p.holds = false) : Room c q done p := by
  cases p with
  | sendDone v => simp [Pc.holds] at h
  | sendPush v => simp [Pc.holds] at h
  | _ => trivial

/-- The queue stays, and one thread goes to a place where it knows enough. -/
theorem Bounded.goto (hb : Bounded c s) (hq : s'.q = s.q) (hd : s'.done = s.done)
    (hpc : ∀ w, w ≠ t → s'.pc w = s.pc w) (hr : Room c s.q s.done (s'.pc t)) : Bounded c s' := by
  refine ⟨hq ▸ hb.bound, fun w => ?_⟩
  rw [hq, hd]
  by_cases hw : w = t
  · exact hw ▸ hr
  · rw [hpc w hw]
    exact hb.room w

/-- The owner of the mutex changes the queue: nobody else knows anything of it. -/
theorem Bounded.setQueue (hi : Inv s) (ht : (s.pc t).holds = true) (hq : s'.q.length ≤ c.capacity)
    (hpc : ∀ w, w ≠ t → s'.pc w = s.pc w) (hr : Room c s'.q s'.done (s'.pc t)) : Bounded c s' := by
  refine ⟨hq, fun w => ?_⟩
  by_cases hw : w = t
  · exact hw ▸ hr
  · rw [hpc w hw]
    exact room_of_not_holds (hi.alone ht hw)

theorem LockEdge.hasRoom {q : List α} {done : Bool} {p p' : Pc α} (h : LockEdge p p') : Room c q done p' := by
  cases h <;> trivial

/-- The outcome of a test is what the next place knows. -/
theorem TestEdge.hasRoom {p p' : Pc α} (h : TestEdge c s p p') (hr : Room c s.q s.done p) : Room c s.q s.done p' := by
  cases h with
  | loopDone v hd => exact .inr hd
  | room v hlt => exact .inl hlt
  | keep v hd => exact hr.resolve_right (by simp [hd])
  | _ => trivial

variable [Fintype T]

theorem Bounded.move (hb : Bounded c s) (hi : Inv s) (h : Move c s t s') : Bounded c s' := by
  have hpc := h.frame.pc
  cases h with
  | quit => exact hb.goto rfl rfl hpc (by simp [St.goto, Room])
  | produce => exact hb.goto rfl rfl hpc (by simp [St.goto, Room])
  | consume => exact hb.goto rfl rfl hpc (by simp [St.goto, Room])
  | lock _ he _ => exact hb.goto rfl rfl hpc (by simpa [St.goto] using he.hasRoom)
  | unlock _ he =>
    exact hb.goto rfl rfl hpc (by simpa [St.release, St.goto] using room_of_not_holds he.holds.2)
  | test hp he =>
    have hr := hb.room t
    rw [hp] at hr
    exact hb.goto rfl rfl hpc (by simpa [St.goto] using he.hasRoom hr)
  | push v hp =>
    have hr : s.q.length < c.capacity := by
      have := hb.room t
      rwa [hp] at this
    refine Bounded.setQueue hi (by rw [hp]; rfl) ?_ hpc (by simp [St.push, St.goto, Room])
    simp only [St.push, List.length_append, List.length_singleton]
    omega
  | notify => exact hb.goto rfl rfl hpc (by simp [St.goto, Room])
  | silent => exact hb.goto rfl rfl hpc (by simp [St.goto, Room])
  | wake => exact hb.goto rfl rfl hpc (by simp [St.wake, St.goto, Room])
  | pop hp =>
    refine Bounded.setQueue hi (by rw [hp]; rfl) ?_ hpc (by simp [Room])
    have hle := hb.bound
    unfold St.pop
    split
    · simp_all [St.goto]
    · rename_i hq
      rw [hq, List.length_cons] at hle
      simp only
      omega
  | print => exact hb.goto rfl rfl hpc (by simp [St.print, St.goto, Room])

theorem Bounded.step {a : Act T α} (hb : Bounded c s) (hi : Inv s) (h : step c s a = some s') : Bounded c s' := by
  rcases step_cases h with ⟨t, u, -, hm⟩ | ⟨t, -, -, rfl⟩ | ⟨t, v, -, -, -, rfl⟩ | ⟨t, -, -, -, rfl⟩ | ⟨-, rfl⟩
  · exact hb.move hi hm
  · exact hb.goto (t := t) rfl rfl (frame_goto s t _).pc (by simp [St.wake, St.goto, Room])
  · exact hb.goto (t := t) rfl rfl (frame_goto s t _).pc (by simp [St.goto, Room])
  · exact hb.goto (t := t) rfl rfl (frame_goto s t _).pc (by simp [St.goto, Room])
  · -- `done` only grows, so what a place knows stays true
    refine ⟨hb.bound, fun w => ?_⟩
    have hr := hb.room w
    show Room c s.q true (s.pc w)
    cases hp : s.pc w with
    | sendDone v => exact .inr rfl
    | sendPush v => rwa [hp] at hr
    | _ => trivial

theorem reach_bounded (h : Reach (step c) Any .init s) : Bounded c s :=
  h.invariant (Bounded c) (bounded_init c) fun _ _ _ hr hb _ hs => hb.step (reach_inv hr) hs

/-! ## Pushes behind `close()` -/

def Pc.pushes : Pc α → Bool
  | .sendPush _ => true
  | _ => false

/-- The channel is closed; nothing was pushed since there were `n` items, or one item was and nobody is left who
pushes. -/
structure Closed (n : ℕ) (s : St T α) : Prop where
  done : s.done = true
  pushed : s.pushed.length = n ∨ s.pushed.length = n + 1 ∧ ∀ t, (s.pc t).pushes = false

theorem TestEdge.not_pushes {p p' : Pc α} (h : TestEdge c s p p') (hd : s.done = true) : p'.pushes = false := by
  cases h with
  | keep v ho => simp [hd] at ho
  | _ => rfl

/-- A step that pushes nothing, to a place where nothing is pushed. -/
theorem Closed.goto {n : ℕ} (hc : Closed n s) (hd : s'.done = s.done) (hq : s'.pushed = s.pushed)
    (hpc : ∀ w, w ≠ t → s'.pc w = s.pc w) (hp : (s'.pc t).pushes = false) : Closed n s' := by
  refine ⟨hd ▸ hc.done, ?_⟩
  rw [hq]
  refine hc.pushed.imp_right fun h => ⟨h.1, fun w => ?_⟩
  by_cases hw : w = t
  · exact hw ▸ hp
  · rw [hpc w hw]
    exact h.2 w

theorem Closed.move {n : ℕ} (hc : Closed n s) (hi : Inv s) (h : Move c s t s') : Closed n s' := by
  have hf := h.frame
  cases h with
  | quit => exact hc.goto rfl rfl hf.pc (by simp [St.goto, Pc.pushes])
  | produce => exact hc.goto rfl rfl hf.pc (by simp [St.goto, Pc.pushes])
  | consume => exact hc.goto rfl rfl hf.pc (by simp [St.goto, Pc.pushes])
  | lock _ he _ => exact hc.goto rfl rfl hf.pc (by cases he <;> simp [St.goto, Pc.pushes])
  | unlock _ he => exact hc.goto rfl rfl hf.pc (by cases he <;> simp [St.release, St.goto, Pc.pushes])
  | test _ he => exact hc.goto rfl rfl hf.pc (by simpa [St.goto] using he.not_pushes hc.done)
  | push v hp =>
    have hn : s.pushed.length = n := by
      refine hc.pushed.resolve_right fun h => ?_
      have := h.2 t
      simp [hp, Pc.pushes] at this
    refine ⟨hc.done, .inr ⟨by simp [St.push, hn], fun w => ?_⟩⟩
    by_cases hw : w = t
    · subst hw
      simp [St.push, St.goto, Pc.pushes]
    · -- the sender owns the mutex, so no other thread is about to push
      rw [hf.pc w hw]
      have hfree := hi.alone (t := t) (by rw [hp]; rfl) hw
      cases hpw : s.pc w with
      | sendPush v => simp [hpw, Pc.holds] at hfree
      | _ => rfl
  | notify => exact hc.goto rfl rfl hf.pc (by simp [St.goto, Pc.pushes])
  | silent => exact hc.goto rfl rfl hf.pc (by simp [St.goto, Pc.pushes])
  | wake => exact hc.goto rfl rfl hf.pc (by simp [St.wake, St.goto, Pc.pushes])
  | pop => exact hc.goto hf.done (pop_pushed s t) hf.pc (by simp [Pc.pushes])
  | print => exact hc.goto rfl rfl hf.pc (by simp [St.print, St.goto, Pc.pushes])

theorem Closed.step {n : ℕ} {a : Act T α} (hc : Closed n s) (hi : Inv s) (h : step c s a = some s') : Closed n s' := by
  rcases step_cases h with ⟨t, u, -, hm⟩ | ⟨t, -, -, rfl⟩ | ⟨t, v, -, -, -, rfl⟩ | ⟨t, -, -, -, rfl⟩ | ⟨-, rfl⟩
  · exact hc.move hi hm
  · exact hc.goto (t := t) rfl rfl (frame_goto s t _).pc (by simp [St.wake, St.goto, Pc.pushes])
  · exact hc.goto (t := t) rfl rfl (frame_goto s t _).pc (by simp [St.goto, Pc.pushes])
  · exact hc.goto (t := t) rfl rfl (frame_goto s t _).pc (by simp [St.goto, Pc.pushes])
  · exact ⟨rfl, hc.pushed⟩

theorem reach_closed (hi : Inv s) (hd : s.done = true) (h : Reach (step c) Any s s') : Closed s.pushed.length s' := by
  have hboth := h.invariant (fun s' => Inv s' ∧ Closed s.pushed.length s') ⟨hi, hd, .inl rfl⟩
    fun _ _ _ _ hI _ hs => ⟨step_inv hI.1 hs, hI.2.step hI.1 hs⟩
  exact hboth.2

/-- **The queue never holds more than the capacity**, and in the run behind a state in which the channel is closed there is
at most one push, whatever the threads call and whenever `close()` falls. -/
theorem channel_capacity (c : Config T α) {s : St T α} (h : Reach (step c) Any .init s) :
    s.q.length ≤ c.capacity ∧
      (s.done = true → ∀ s', Reach (step c) Any s s' → s'.pushed.length ≤ s.pushed.length + 1) := by
  refine ⟨(reach_bounded h).bound, fun hd s' h' => ?_⟩
  have := (reach_closed (reach_inv h) hd h').pushed
  omega

/-- Thread `0` of `twoClients` has passed `if (ch.isDone())` when the channel is closed. -/
theorem capacity_closed_before_push : ∃ s, Reach (step twoClients) Any .init s ∧ s.pc 0 = .sendPush 7 ∧
    s.q.length ≤ 2 ∧ ∀ s', Reach (step twoClients) Any s s' → s'.pushed.length ≤ s.pushed.length + 1 := by
  obtain ⟨s, hs, hp⟩ := reach_of_runs (step twoClients) Any .init
    ([Act.send 0 7] ++ List.replicate 4 (Act.run 0 none) ++ [Act.close])
    (fun s => decide (s.pc 0 = .sendPush 7) && s.done) (by decide)
  simp only [Bool.and_eq_true, decide_eq_true_eq] at hp
  obtain ⟨hle, hpush⟩ := channel_capacity twoClients hs
  exact ⟨s, hs, hp.1, hle, hpush hp.2⟩

end CppNotes.Chan
