import CppNotes.Chan.Fifo

/-!
# Closing the channel under a waiting receiver

`close()` sets `done` and wakes nobody; the only wake-ups are the `notify_one` of the `Cv_Guard` that every
`operator<<` runs on its way out.  So a receiver that waits when `done` is set is woken only by a sender
that is still inside `operator<<`, and each of those wakes one.

* `stuck` — the thread is in `q_not_empty.wait` with no notification pending, or has found the predicate
  false and is about to wait;
* `sending` — the thread is inside `operator<<` and has not yet run its `notify_one`.

Once `done` is set nobody gets newly stuck (the predicate is true), and every sender that leaves takes one
stuck thread with it, so `stuck ≤ sending` lasts from the moment of `close()` on (`move_closed`).  A channel
that is closed with more threads stuck than sending strands the rest.
-/

set_option linter.unusedSectionVars false

namespace CppNotes.Chan

open CppNotes.Lib

variable {T α : Type} [DecidableEq T]

def stuck (s : St T α) (t : T) : Bool :=
  match s.pc t with
  | .recvBlock => true
  | .recvWait => !s.notified t
  | _ => false

/-- The places inside `operator<<`, up to its `notify_one`. -/
def Pc.sends : Pc α → Bool
  | .sendLock _ | .sendTest _ | .sendSize _ | .sendUnlock _ | .sendRelock _ | .sendDone _ | .sendPush _ => true
  | .sendNotify => true
  | _ => false

def sending (s : St T α) (t : T) : Bool := (s.pc t).sends

/-- The places inside `operator>>`, and the print after it. -/
def Pc.receives : Pc α → Bool
  | .recvLock | .recvEmpty | .recvPred | .recvBlock | .recvWait | .recvWoken | .recvDone | .recvPop => true
  | .recvExit | .print => true
  | _ => false

/-- A consumer inside `operator<<`, or a producer inside `operator>>`. -/
def strays (c : Config T α) (s : St T α) (t : T) : Bool :=
  match c.role t with
  | .client => false
  | .producer => (s.pc t).receives
  | .consumer => (s.pc t).sends

theorem stuck_eq_waits {s : St T α} {t : T} (h : (s.pc t).holds = false) : stuck s t = s.waits t := by
  unfold stuck St.waits
  cases hp : s.pc t <;> simp_all [Pc.holds]

/-- A thread that is neither about to wait nor waiting is not stuck. -/
theorem stuck_goto (s : St T α) {t : T} {p : Pc α} (h₁ : p ≠ .recvBlock) (h₂ : p ≠ .recvWait) :
    stuck (s.goto t p) t = false := by
  have hp : (s.goto t p).pc t = p := by simp [St.goto]
  unfold stuck
  rw [hp]
  cases p <;> first | rfl | exact absurd rfl h₁ | exact absurd rfl h₂

variable [Fintype T] {c : Config T α}

/-! ## Once the channel is closed -/

/-- One thread moves, does not get stuck and stays a sender if it was one. -/
theorem tally_le_of_move {s s' : St T α} {t : T} (hpc : ∀ w, w ≠ t → s'.pc w = s.pc w)
    (hn : ∀ w, w ≠ t → s'.notified w = s.notified w) (h₁ : (stuck s' t).toNat ≤ (stuck s t).toNat)
    (h₂ : (sending s t).toNat ≤ (sending s' t).toNat) (hle : tally (stuck s) ≤ tally (sending s)) :
    tally (stuck s') ≤ tally (sending s') := by
  have hs := tally_change (f := stuck s) (g := stuck s') t fun w hw => by
    unfold stuck
    rw [hpc w hw, hn w hw]
  have hq := tally_change (f := sending s) (g := sending s') t fun w hw => by
    unfold sending
    rw [hpc w hw]
  omega

/-- `notify_one` with a thread waiting: one sender leaves and one stuck thread with it. -/
theorem notify_closed {s : St T α} {t w : T} (hp : s.pc t = .sendNotify) (hw : s.waits w = true)
    (hle : tally (stuck s) ≤ tally (sending s)) :
    tally (stuck ({ s with notified := Function.update s.notified w true }.goto t .sendExit)) ≤
      tally (sending ({ s with notified := Function.update s.notified w true }.goto t .sendExit)) := by
  set s₁ : St T α := { s with notified := Function.update s.notified w true } with hs₁
  have hwp : s.pc w = .recvWait := by
    unfold St.waits at hw
    split at hw
    · assumption
    · simp at hw
  have hwt : w ≠ t := by
    rintro rfl
    rw [hp] at hwp
    cases hwp
  -- first the notification, then the sender's step
  have h₁ := tally_change (f := stuck s) (g := stuck s₁) w fun v hv => by
    unfold stuck
    simp [hs₁, Function.update_of_ne hv]
  have h₂ : stuck s w = true := by
    unfold St.waits at hw
    simpa [stuck, hwp] using hw
  have h₃ : stuck s₁ w = false := by simp [stuck, hs₁, hwp]
  have h₄ := tally_change (f := stuck s₁) (g := stuck (s₁.goto t .sendExit)) t fun v hv => by
    unfold stuck
    simp [St.goto, Function.update_of_ne hv]
  have h₅ := tally_change (f := sending s) (g := sending (s₁.goto t .sendExit)) t fun v hv => by
    simp [sending, hs₁, St.goto, Function.update_of_ne hv]
  have h₆ : sending s t = true := by simp [sending, hp, Pc.sends]
  have h₇ : sending (s₁.goto t .sendExit) t = false := by simp [sending, St.goto, Pc.sends]
  have h₈ : stuck (s₁.goto t .sendExit) t = false := stuck_goto s₁ (by simp) (by simp)
  simp only [h₂, h₃, h₆, h₇, h₈, Bool.toNat_true, Bool.toNat_false] at *
  omega

/-- `notify_one` with nobody waiting: the sender owns the mutex, so nobody is about to wait either. -/
theorem silent_closed {s : St T α} {t : T} (hi : Inv s) (hp : s.pc t = .sendNotify)
    (hw : ∀ w, s.waits w = false) : tally (stuck (s.goto t .sendExit)) = 0 := by
  refine tally_eq_zero.2 fun v => ?_
  by_cases hv : v = t
  · subst hv
    exact stuck_goto s (by simp) (by simp)
  · have hh : (s.pc v).holds = false := hi.alone (t := t) (by rw [hp]; rfl) hv
    have : stuck (s.goto t .sendExit) v = stuck s v := by
      simp [stuck, St.goto, Function.update_of_ne hv]
    rw [this, stuck_eq_waits hh]
    exact hw v

theorem move_closed {s s' : St T α} {t : T} (hi : Inv s) (hd : s.done = true) (h : Move c s t s')
    (hle : tally (stuck s) ≤ tally (sending s)) : tally (stuck s') ≤ tally (sending s') := by
  have hpc := h.frame.pc
  cases h with
  | quit hp _ => exact tally_le_of_move hpc (fun _ _ => rfl) (by simp [stuck, St.goto]) (by simp [sending, hp, Pc.sends]) hle
  | produce _ _ ho => simp [hd] at ho
  | consume _ _ ho => simp [hd] at ho
  | lock hp he _ =>
    refine tally_le_of_move hpc (fun _ _ => rfl) ?_ ?_ hle
    · cases he <;> simp [stuck, St.goto]
    · cases he <;> simp [sending, St.goto, hp, Pc.sends]
  | unlock hp he =>
    refine tally_le_of_move hpc (fun _ _ => rfl) ?_ ?_ hle
    · cases he with
      | wait =>
        have := Bool.toNat_le (!s.notified t)
        simpa [stuck, St.release, St.goto, hp] using this
      | _ => simp [stuck, St.release, St.goto]
    · cases he <;> simp [sending, St.release, St.goto, hp, Pc.sends]
  | test hp he =>
    refine tally_le_of_move hpc (fun _ _ => rfl) ?_ ?_ hle
    · cases he with
      | predOpen ho => simp [hd] at ho
      | _ => simp [stuck, St.goto]
    · cases he <;> simp [sending, St.goto, hp, Pc.sends]
  | push v hp =>
    exact tally_le_of_move hpc (fun _ _ => rfl) (by simp [stuck, St.push, St.goto])
      (by simp [sending, St.push, St.goto, hp, Pc.sends]) hle
  | notify w hp hw => exact notify_closed hp hw hle
  | silent hp hw => exact (silent_closed hi hp hw).le.trans (Nat.zero_le _)
  | wake hp _ =>
    refine tally_le_of_move hpc (fun w hw => Function.update_of_ne hw _ _) ?_ ?_ hle
    · simp [stuck, St.wake, St.goto]
    · simp [sending, hp, Pc.sends]
  | pop hp =>
    exact tally_le_of_move hpc (fun w _ => by rw [pop_notified]) (by simp [stuck]) (by simp [sending, hp, Pc.sends]) hle
  | print hp =>
    exact tally_le_of_move hpc (fun _ _ => rfl) (by simp [stuck, St.print, St.goto])
      (by simp [sending, hp, Pc.sends]) hle

/-! ## Who runs what -/

theorem move_strays {s s' : St T α} {t : T} (h : Move c s t s') (hs : strays c s t = false) :
    strays c s' t = false := by
  unfold strays at *
  cases hr : c.role t with
  | client => rfl
  | producer =>
    rw [hr] at hs
    cases h with
    | consume _ hp _ => simp [hr] at hp
    | lock hp he _ => cases he <;> simp_all [St.goto, Pc.receives]
    | unlock hp he => cases he <;> simp_all [St.release, St.goto, Pc.receives]
    | test hp he => cases he <;> simp_all [St.goto, Pc.receives]
    | wake hp _ => simp [hp, Pc.receives] at hs
    | pop hp => simp [hp, Pc.receives] at hs
    | _ => simp [St.goto, St.push, St.print, Pc.receives]
  | consumer =>
    rw [hr] at hs
    cases h with
    | produce _ hp _ => simp [hr] at hp
    | lock hp he _ => cases he <;> simp_all [St.goto, Pc.sends]
    | unlock hp he => cases he <;> simp_all [St.release, St.goto, Pc.sends]
    | test hp he => cases he <;> simp_all [St.goto, Pc.sends]
    | push v hp => simp [hp, Pc.sends] at hs
    | _ => simp [St.goto, St.wake, St.print, Pc.sends]

theorem step_strays {s s' : St T α} {a : Act T α} (h : step c s a = some s') (hs : ∀ t, strays c s t = false) :
    ∀ t, strays c s' t = false := by
  intro t
  have hother : ∀ {s' : St T α}, s'.pc t = s.pc t → strays c s' t = false := by
    intro s' hp
    have := hs t
    unfold strays at this ⊢
    rwa [hp]
  have hcall (v : T) (p : Pc α) (hcl : c.role v = .client) : strays c (s.goto v p) t = false := by
    by_cases hv : t = v
    · subst hv
      simp [strays, hcl]
    · exact hother ((frame_goto s v p).pc t hv)
  rcases step_cases h with ⟨v, u, -, hm⟩ | ⟨v, -, hp, rfl⟩ | ⟨v, x, -, hcl, -, rfl⟩ | ⟨v, -, hcl, -, rfl⟩ | ⟨-, rfl⟩
  · by_cases hv : t = v
    · subst hv
      exact move_strays hm (hs t)
    · exact hother (hm.frame.pc t hv)
  · by_cases hv : t = v
    · subst hv
      have := hs t
      unfold strays at this ⊢
      cases hr : c.role t <;> simp_all [St.wake, St.goto, Pc.receives, Pc.sends]
    · exact hother (by simp [St.wake, St.goto, Function.update_of_ne hv])
  · exact hcall v _ hcl
  · exact hcall v _ hcl
  · exact hs t

theorem reach_strays {ok : St T α → Act T α → Prop} {s : St T α} (h : Reach (step c) ok .init s) :
    ∀ t, strays c s t = false := by
  refine h.invariant (fun s => ∀ t, strays c s t = false) (fun t => ?_) fun _ _ _ _ hs _ hst => step_strays hst hs
  unfold strays
  cases c.role t <;> rfl

/-! ## The condition on `close()` -/

/-- `close()` is called only while the threads inside `operator<<` are at least as many as the threads that
wait, or are about to wait, for an item. -/
def ClosesCovered (s : St T α) : Act T α → Prop
  | .close => s.done = false → tally (stuck s) ≤ tally (sending s)
  | _ => True

instance (s : St T α) (a : Act T α) : Decidable (ClosesCovered s a) := by
  cases a <;> unfold ClosesCovered <;> infer_instance

/-- `done` is set, every producer has returned, and a consumer is blocked in `q_not_empty.wait` with no
notification pending for it. -/
def Stranded (c : Config T α) (s : St T α) : Prop :=
  s.done = true ∧ (∀ t, c.role t = .producer → s.pc t = .returned) ∧ ∃ t, c.role t = .consumer ∧ s.waits t = true

instance [DecidableEq α] (c : Config T α) (s : St T α) : Decidable (Stranded c s) := by
  unfold Stranded
  infer_instance

theorem step_closed {s s' : St T α} {a : Act T α} (hc : ∀ t, c.role t ≠ .client) (hi : Inv s)
    (hok : ClosesCovered s a) (h : step c s a = some s')
    (hle : s.done = true → tally (stuck s) ≤ tally (sending s)) :
    s'.done = true → tally (stuck s') ≤ tally (sending s') := by
  intro hd'
  rcases step_cases h with ⟨t, u, -, hm⟩ | ⟨t, -, hp, rfl⟩ | ⟨t, x, -, hcl, -⟩ | ⟨t, -, hcl, -⟩ | ⟨rfl, rfl⟩
  · have hd : s.done = true := hm.frame.done ▸ hd'
    exact move_closed hi hd hm (hle hd)
  · refine tally_le_of_move (s := s) (t := t) (fun w hw => ?_) (fun w hw => ?_) ?_ ?_ (hle hd')
    · simp [St.wake, St.goto, Function.update_of_ne hw]
    · simp [St.wake, Function.update_of_ne hw]
    · simp [stuck, St.wake, St.goto]
    · simp [sending, hp, Pc.sends]
  · exact absurd hcl (hc t)
  · exact absurd hcl (hc t)
  · by_cases hd : s.done = true
    · exact hle hd
    · exact hok (by simpa using hd)

/-- **A covered `close()` strands no receiver**: in every run of producers and consumers in which `close()` is
called only while the senders inside `operator<<` cover the waiting receivers, no state is stranded. -/
theorem covered_close_strands_none (c : Config T α) (hc : ∀ t, c.role t ≠ .client) {s : St T α}
    (h : Reach (step c) ClosesCovered .init s) : ¬ Stranded c s := by
  rintro ⟨hd, hret, t, -, hw⟩
  have hle : tally (stuck s) ≤ tally (sending s) :=
    h.invariant (fun s => s.done = true → tally (stuck s) ≤ tally (sending s))
      (fun hf => by simp [St.init] at hf)
      (fun _ _ _ hr hs hok hst => step_closed hc (reach_inv hr) hok hst hs) hd
  -- every producer has returned and no consumer sends, so nobody is left to send
  have hnone : tally (sending s) = 0 := by
    refine tally_eq_zero.2 fun v => ?_
    cases hv : c.role v with
    | client => exact absurd hv (hc v)
    | producer => simp [sending, hret v hv, Pc.sends]
    | consumer =>
      have hst := reach_strays h v
      simpa [strays, hv, sending] using hst
  have hzero := tally_eq_zero.1 (Nat.le_zero.1 (hnone ▸ hle)) t
  have hst : stuck s t = s.waits t := by
    refine stuck_eq_waits ?_
    unfold St.waits at hw
    split at hw
    · rename_i hp
      rw [hp]
      rfl
    · simp at hw
  rw [hst, hw] at hzero
  simp at hzero

/-- The demo: a consumer (thread `0`), a producer (thread `1`) and a channel of capacity `100`. -/
def demoOf {α : Type} (make : Fin 2 → ℕ → α) : Config (Fin 2) α where
  capacity := 100
  capacity_pos := by decide
  role t := if t.val = 0 then .consumer else .producer
  make := make

def demo : Config (Fin 2) ℕ := demoOf fun _ n => n

/-- The consumer waits, the producer is inside `operator<<` when the channel is closed, and wakes it. -/
theorem covered_close_demo : ∃ s, Reach (step demo) ClosesCovered .init s ∧ s.done = true ∧
    s.pc 1 = .returned ∧ s.pc 0 = .recvWoken ∧ ¬ Stranded demo s := by
  obtain ⟨s, hs, hp⟩ := reach_of_runs (step demo) ClosesCovered .init
    (List.replicate 5 (Act.run 0 none) ++ [Act.run 1 none, .close] ++ List.replicate 3 (Act.run 1 none) ++
      [Act.run 1 (some 0), .run 1 none, .run 1 none, .run 0 none])
    (fun s => decide (s.done = true ∧ s.pc 1 = .returned ∧ s.pc 0 = .recvWoken)) (by decide)
  obtain ⟨hd, h₁, h₀⟩ := of_decide_eq_true hp
  exact ⟨s, hs, hd, h₁, h₀, covered_close_strands_none demo (by decide) hs⟩

/-- **`close()` can strand a receiver**: the consumer waits on the empty queue, the channel is closed while
the producer is between two calls, and the producer returns without waking anyone. -/
theorem idle_close_strands : ¬ ∀ s, Reach (step demo) Any .init s → ¬ Stranded demo s := by
  intro h
  obtain ⟨s, hs, hp⟩ := reach_of_runs (step demo) Any .init
    (List.replicate 5 (Act.run 0 none) ++ [Act.close, .run 1 none])
    (fun s => decide (Stranded demo s)) (by decide)
  exact h s hs (of_decide_eq_true hp)

end CppNotes.Chan
