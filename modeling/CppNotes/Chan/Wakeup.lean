import CppNotes.Chan.Close

/-!
# No wake-up is lost while the channel is open

Every `operator<<` notifies one receiver, and a receiver that is woken may find the queue empty again because another one was
faster.  What keeps this from going wrong is a count: as long as some receiver is `stuck`, each item in the queue has a thread
of its own on the way (`coming`): a sender that has yet to call `notify_one`, or a receiver that has yet to look at the queue
or to take the item that it has seen.

* A push adds an item and the sender that will notify for it; a notification replaces that sender by the receiver it wakes.
* A receiver leaves the count by taking an item, or by finding the queue empty.
* If `notify_one` finds nobody waiting, nobody is stuck, since the sender owns the mutex.

So a receiver sleeps on a non-empty queue only while the item is another thread's, and the threads that are inside the
operators are enough for the next item to be taken (`waiting_receiver_served`).
-/

set_option linter.unusedSectionVars false

namespace CppNotes.Chan

open CppNotes.Lib

variable {T α : Type} [DecidableEq T]

/-- The thread is about to notify, or about to look at the queue, or to take what it has seen there. -/
def coming (s : St T α) (t : T) : Bool :=
  match s.pc t with
  | .sendNotify => true
  | .recvLock | .recvEmpty | .recvWoken | .recvDone | .recvPop => true
  | .recvWait => s.notified t
  | _ => false

variable [Fintype T] {c : Config T α}

structure Awake (s : St T α) : Prop where
  /-- A receiver that has found the queue empty still holds the mutex. -/
  seen : ∀ t, s.pc t = .recvPred ∨ s.pc t = .recvBlock → s.q = []
  covered : s.done = false → ∀ t, stuck s t = true → s.q.length ≤ tally (coming s)

theorem awake_init : Awake (St.init : St T α) :=
  ⟨fun _ _ => rfl, fun _ _ _ => Nat.zero_le _⟩

variable {s s' : St T α} {t : T}

/-- With an empty queue there is nothing to be on the way for. -/
theorem Awake.of_empty (hq : s.q = []) : Awake s :=
  ⟨fun _ _ => hq, fun _ _ _ => by simp [hq]⟩

/-- The queue stays as it is, and the thread that moves does not get stuck and stays on its way if it was. -/
theorem Awake.quiet (h : Awake s) (hq : s'.q = s.q) (hd : s'.done = s.done) (hpc : ∀ w, w ≠ t → s'.pc w = s.pc w)
    (hn : ∀ w, w ≠ t → s'.notified w = s.notified w) (hseen : s'.pc t ≠ .recvPred) (hblock : s'.pc t ≠ .recvBlock)
    (hst : stuck s' t = true → stuck s t = true) (hco : coming s t = true → coming s' t = true) : Awake s' := by
  have hc := tally_change (f := coming s) (g := coming s') t fun w hw => by
    unfold coming
    rw [hpc w hw, hn w hw]
  have hle : (coming s t).toNat ≤ (coming s' t).toNat := by
    cases hs : coming s t with
    | false => exact Nat.zero_le _
    | true => rw [hco hs]
  refine ⟨fun w hw => ?_, fun ho w hw => ?_⟩
  · rw [hq]
    by_cases hwt : w = t
    · subst hwt
      rcases hw with hw | hw
      · exact absurd hw hseen
      · exact absurd hw hblock
    · exact h.seen w (hpc w hwt ▸ hw)
  · have hstuck : stuck s w = true := by
      by_cases hwt : w = t
      · subst hwt
        exact hst hw
      · unfold stuck at hw ⊢
        rwa [hpc w hwt, hn w hwt] at hw
    have := h.covered (hd ▸ ho) w hstuck
    rw [hq]
    omega

/-- The owner of the mutex moves on with a queue of its own. -/
theorem Awake.seen_of_alone (hi : Inv s) (ht : (s.pc t).holds = true) (hpc : ∀ w, w ≠ t → s'.pc w = s.pc w)
    (hseen : s'.pc t ≠ .recvPred) (hblock : s'.pc t ≠ .recvBlock) (w : T) :
    ¬ (s'.pc w = .recvPred ∨ s'.pc w = .recvBlock) := by
  by_cases hwt : w = t
  · subst hwt
    exact not_or.mpr ⟨hseen, hblock⟩
  · have hw := hi.alone ht hwt
    rw [← hpc w hwt] at hw
    rintro (hp | hp) <;> simp [hp, Pc.holds] at hw

theorem Awake.push (h : Awake s) (hi : Inv s) {v : α} (hp : s.pc t = .sendPush v) : Awake (s.push t v) := by
  have hpc (w : T) (hw : w ≠ t) : (s.push t v).pc w = s.pc w := Function.update_of_ne hw _ _
  have hc := tally_change (f := coming s) (g := coming (s.push t v)) t fun w hw => by
    simp [coming, St.push, St.goto, Function.update_of_ne hw]
  have h₀ : coming s t = false := by simp [coming, hp]
  have h₁ : coming (s.push t v) t = true := by simp [coming, St.push, St.goto]
  refine ⟨fun w hw => absurd hw ?_, fun ho w hw => ?_⟩
  · exact Awake.seen_of_alone hi (by rw [hp]; rfl) hpc (by simp [St.push, St.goto]) (by simp [St.push, St.goto]) w
  · have hstuck : stuck s w = true := by
      by_cases hwt : w = t
      · subst hwt
        simp [stuck, St.push, St.goto] at hw
      · unfold stuck at hw ⊢
        rwa [hpc w hwt] at hw
    have := h.covered ho w hstuck
    rw [h₀, h₁] at hc
    simp only [St.push, List.length_append, List.length_singleton, Bool.toNat_true, Bool.toNat_false] at hc ⊢
    omega

theorem Awake.pop (h : Awake s) (hi : Inv s) (hp : s.pc t = .recvPop) : Awake (s.pop t) := by
  have hpc (w : T) (hw : w ≠ t) : (s.pop t).pc w = s.pc w := by simp [Function.update_of_ne hw]
  have hc := tally_change (f := coming s) (g := coming (s.pop t)) t fun w hw => by
    simp [coming, Function.update_of_ne hw]
  have h₀ : coming s t = true := by simp [coming, hp]
  have h₁ : coming (s.pop t) t = false := by simp [coming]
  have hlen : (s.pop t).q.length = s.q.length - 1 := by
    unfold St.pop
    split
    · rename_i hq
      simp [St.goto, hq]
    · rename_i hq
      simp [hq]
  have hdone : (s.pop t).done = s.done := by
    unfold St.pop
    split <;> rfl
  refine ⟨fun w hw => absurd hw ?_, fun ho w hw => ?_⟩
  · exact Awake.seen_of_alone hi (by rw [hp]; rfl) hpc (by simp) (by simp) w
  · have hstuck : stuck s w = true := by
      by_cases hwt : w = t
      · subst hwt
        simp [stuck] at hw
      · unfold stuck at hw ⊢
        rwa [hpc w hwt, pop_notified] at hw
    have := h.covered (hdone ▸ ho) w hstuck
    rw [h₀, h₁] at hc
    simp only [Bool.toNat_true, Bool.toNat_false] at hc
    omega

/-- `notify_one` with a thread waiting: the sender leaves the count, and the thread it wakes enters it. -/
theorem Awake.notify (h : Awake s) (hi : Inv s) {w : T} (hp : s.pc t = .sendNotify) (hw : s.waits w = true) :
    Awake ({ s with notified := Function.update s.notified w true }.goto t .sendExit) := by
  set s₁ : St T α := { s with notified := Function.update s.notified w true } with hs₁
  have hwp : s.pc w = .recvWait := by
    unfold St.waits at hw
    split at hw
    · assumption
    · simp at hw
  have hn : s.notified w = false := by simpa [St.waits, hwp] using hw
  have hwt : w ≠ t := by
    rintro rfl
    rw [hp] at hwp
    cases hwp
  have h₁ := tally_change (f := coming s) (g := coming s₁) w fun v hv => by
    simp [coming, hs₁, Function.update_of_ne hv]
  have h₂ : coming s w = false := by simp [coming, hwp, hn]
  have h₃ : coming s₁ w = true := by simp [coming, hs₁, hwp]
  have h₄ := tally_change (f := coming s₁) (g := coming (s₁.goto t .sendExit)) t fun v hv => by
    simp [coming, St.goto, Function.update_of_ne hv]
  have h₅ : coming s₁ t = true := by simp [coming, hs₁, hp]
  have h₆ : coming (s₁.goto t .sendExit) t = false := by simp [coming, St.goto]
  have hpc (v : T) (hv : v ≠ t) : (s₁.goto t .sendExit).pc v = s.pc v := Function.update_of_ne hv _ _
  refine ⟨fun v hv => absurd hv ?_, fun ho v _ => ?_⟩
  · exact Awake.seen_of_alone hi (by rw [hp]; rfl) hpc (by simp [St.goto]) (by simp [St.goto]) v
  · have := h.covered ho w (by simp [stuck, hwp, hn])
    rw [h₂, h₃] at h₁
    rw [h₅, h₆] at h₄
    simp only [Bool.toNat_true, Bool.toNat_false] at h₁ h₄
    have hq : (s₁.goto t .sendExit).q = s.q := rfl
    rw [hq]
    omega

/-- `notify_one` with nobody waiting: nobody is stuck. -/
theorem Awake.silent (hi : Inv s) (hp : s.pc t = .sendNotify) (hw : ∀ w, s.waits w = false) :
    Awake (s.goto t .sendExit) := by
  refine ⟨fun v hv => absurd hv ?_, fun _ v hv => ?_⟩
  · exact Awake.seen_of_alone hi (by rw [hp]; rfl) (frame_goto s t _).pc (by simp [St.goto]) (by simp [St.goto]) v
  · have := tally_eq_zero.mp (silent_closed hi hp hw) v
    simp [hv] at this

theorem Awake.wake (h : Awake s) (t : T) : Awake (s.wake t) := by
  refine h.quiet (t := t) rfl rfl (fun w hw => Function.update_of_ne hw _ _) (fun w hw => Function.update_of_ne hw _ _)
    ?_ ?_ ?_ ?_
  · simp [St.wake, St.goto]
  · simp [St.wake, St.goto]
  · simp [stuck, St.wake, St.goto]
  · simp [coming, St.wake, St.goto]

/-- Only the tests of `operator>>` can make a thread stuck or take it off the count: then the queue is empty, or the channel
is closed. -/
theorem Awake.test (h : Awake s) {p p' : Pc α} (hp : s.pc t = p) (he : TestEdge c s p p') : Awake (s.goto t p') := by
  have hpc := (frame_goto s t p').pc
  cases he with
  | empty hq => exact Awake.of_empty hq
  | predOpen => exact Awake.of_empty (h.seen t (.inl hp))
  | stale hd =>
    refine ⟨fun w hw => ?_, fun ho => ?_⟩
    · by_cases hwt : w = t
      · subst hwt
        simp [St.goto] at hw
      · exact h.seen w (hpc w hwt ▸ hw)
    · exact absurd ho (by simp [St.goto, hd])
  | _ =>
    refine h.quiet (t := t) rfl rfl hpc (fun _ _ => rfl) ?_ ?_ ?_ ?_
    · simp [St.goto]
    · simp [St.goto]
    · simp [stuck, St.goto]
    · simp [coming, St.goto, hp]

theorem Awake.move (h : Awake s) (hi : Inv s) (hm : Move c s t s') : Awake s' := by
  have hpc := hm.frame.pc
  cases hm with
  | test hp he => exact h.test hp he
  | push v hp => exact h.push hi hp
  | pop hp => exact h.pop hi hp
  | notify w hp hw => exact h.notify hi hp hw
  | silent hp hw => exact Awake.silent hi hp hw
  | wake => exact h.wake t
  | lock hp he _ =>
    refine h.quiet (t := t) rfl rfl hpc (fun _ _ => rfl) ?_ ?_ ?_ ?_
    all_goals cases he <;> simp [stuck, coming, St.goto, hp]
  | unlock hp he =>
    refine h.quiet (t := t) rfl rfl hpc (fun _ _ => rfl) ?_ ?_ ?_ ?_
    all_goals cases he <;> simp [stuck, coming, St.release, St.goto, hp]
  | quit hp _ | produce hp _ _ | consume hp _ _ | print hp =>
    refine h.quiet (t := t) rfl rfl hpc (fun _ _ => rfl) ?_ ?_ ?_ ?_
    all_goals simp [stuck, coming, St.print, St.goto, hp]

theorem Awake.step {a : Act T α} (h : Awake s) (hi : Inv s) (hs : step c s a = some s') : Awake s' := by
  rcases step_cases hs with ⟨t, u, -, hm⟩ | ⟨t, -, -, rfl⟩ | ⟨t, v, -, -, hp, rfl⟩ | ⟨t, -, -, hp, rfl⟩ | ⟨-, rfl⟩
  · exact h.move hi hm
  · exact h.wake t
  · refine h.quiet (t := t) rfl rfl (frame_goto s t _).pc (fun _ _ => rfl) ?_ ?_ ?_ ?_
    all_goals simp [stuck, coming, St.goto, hp]
  · refine h.quiet (t := t) rfl rfl (frame_goto s t _).pc (fun _ _ => rfl) ?_ ?_ ?_ ?_
    all_goals simp [stuck, coming, St.goto]
  · exact ⟨h.seen, fun ho => Bool.noConfusion ho⟩

theorem reach_awake {ok : St T α → Act T α → Prop} (h : Reach (CppNotes.Chan.step c) ok .init s) : Awake s := by
  have hboth := h.invariant (fun s => Inv s ∧ Awake s) ⟨inv_init, awake_init⟩
    fun _ _ _ _ hI _ hs => ⟨step_inv hI.1 hs, hI.2.step hI.1 hs⟩
  exact hboth.2

/-- **No wake-up is lost**: while the channel is open, a receiver waits without a notification only if every item in the
queue has a thread on the way to it. -/
theorem no_lost_wakeup (c : Config T α) {s : St T α} (h : Reach (CppNotes.Chan.step c) Any .init s) (ho : s.done = false)
    {t : T} (hw : s.waits t = true) : s.q.length ≤ tally (coming s) := by
  refine (reach_awake h).covered ho t ?_
  unfold St.waits at hw
  unfold stuck
  split at hw
  · rename_i hp
    rw [hp]
    exact hw
  · exact absurd hw (by simp)

/-- The client `r` waits when the client `t` has pushed `v` and is about to notify it. -/
def pushedToWaiter (t r : T) (v : α) : List (Act T α) :=
  [.recv r, .run r none, .run r none, .run r none, .run r none,
    .send t v, .run t none, .run t none, .run t none, .run t none, .run t none]

theorem wakeup_on_its_way : ∃ s, Reach (step twoClients) Any .init s ∧ s.waits 1 = true ∧ s.q = [7] ∧
    1 ≤ tally (coming s) := by
  obtain ⟨s, hs, hp⟩ := reach_of_runs (step twoClients) Any .init (pushedToWaiter 0 1 7)
    (fun s => decide (s.waits 1 = true ∧ s.q = [7] ∧ s.done = false)) (by decide)
  obtain ⟨hw, hq, ho⟩ := of_decide_eq_true hp
  have hle := no_lost_wakeup twoClients hs ho hw
  rw [hq] at hle
  exact ⟨s, hs, hw, hq, hle⟩

/-! ## The threads inside the operators are enough -/

/-- Only threads inside the operators move: nobody starts a call, nobody closes the channel, nobody wakes up spuriously. -/
def Inside (s : St T α) : Act T α → Prop
  | .run t _ => s.pc t ≠ .idle
  | _ => False

/-- The places of `operator>>` up to the pop. -/
def Pc.takes : Pc α → Bool
  | .recvLock | .recvEmpty | .recvPred | .recvBlock | .recvWait | .recvWoken | .recvDone | .recvPop => true
  | _ => false

/-- How many steps the owner of the mutex of an open channel is away from giving it back, or from the pop. -/
def Pc.rank : Pc α → ℕ
  | .sendTest _ => 6
  | .sendSize _ => 5
  | .sendDone _ => 4
  | .sendPush _ => 3
  | .sendNotify => 2
  | .recvEmpty => 3
  | .recvDone => 2
  | _ => 1

/-- An item can be taken. -/
structure Offers (s : St T α) : Prop where
  inv : Inv s
  awake : Awake s
  open_ : s.done = false
  item : s.q ≠ []

/-- What a step of the owner `v` of the mutex comes to: the item is taken, the mutex is given back by a thread that does not
want one, or the owner is nearer to one of the two. -/
def Nearer (v : T) (s s' : St T α) : Prop :=
  s.removed.length < s'.removed.length ∨
    s'.q ≠ [] ∧ s'.removed = s.removed ∧ (s'.pc v).takes = (s.pc v).takes ∧
      (s'.lock = none ∧ (s.pc v).takes = false ∨ s'.lock = some v ∧ (s'.pc v).rank < (s.pc v).rank)

variable {v : T}

theorem nearer_goto (hq : s.q ≠ []) (hl : s.lock = some v) {p p' : Pc α} (hp : s.pc v = p) (ht : p'.takes = p.takes)
    (hr : p'.rank < p.rank) : Nearer v s (s.goto v p') := by
  refine .inr ⟨hq, rfl, ?_, .inr ⟨hl, ?_⟩⟩
  · simp [St.goto, hp, ht]
  · simpa [St.goto, hp] using hr

theorem nearer_release (hq : s.q ≠ []) {p p' : Pc α} (hp : s.pc v = p) (ht : p.takes = false) (ht' : p'.takes = false) :
    Nearer v s (s.release v p') := by
  refine .inr ⟨hq, rfl, ?_, .inl ⟨rfl, ?_⟩⟩
  · simp [St.release, St.goto, hp, ht, ht']
  · rw [hp, ht]

/-- `notify_one` can always be called: there is a thread to wake, or there is none. -/
theorem notifyOne_total (s : St T α) : ∃ u s₁, s.notifyOne u = some s₁ ∧ s₁.q = s.q ∧ s₁.lock = s.lock ∧
    s₁.removed = s.removed ∧ s₁.pc = s.pc := by
  by_cases hw : ∀ u, s.waits u = false
  · exact ⟨none, s, by simp [St.notifyOne, hw], rfl, rfl, rfl, rfl⟩
  · obtain ⟨u, hu⟩ := not_forall.mp hw
    exact ⟨some u, { s with notified := Function.update s.notified u true }, by simpa [St.notifyOne] using hu,
      rfl, rfl, rfl, rfl⟩

theorem Offers.owner (c : Config T α) (h : Offers s) (hl : s.lock = some v) :
    ∃ u s', step c s (.run v u) = some s' ∧ Nearer v s s' := by
  have hh := (h.inv.mutex v).mpr hl
  have ho := h.open_
  cases hp : s.pc v with
  | sendTest x =>
    exact ⟨none, s.goto v (.sendSize x), by simp [step, threadStep, hp, ho],
      nearer_goto h.item hl hp rfl (by simp [Pc.rank])⟩
  | sendSize x =>
    by_cases hfull : c.capacity ≤ s.q.length
    · exact ⟨none, s.goto v (.sendUnlock x), by simp [step, threadStep, hp, hfull],
        nearer_goto h.item hl hp rfl (by simp [Pc.rank])⟩
    · exact ⟨none, s.goto v (.sendDone x), by simp [step, threadStep, hp, hfull],
        nearer_goto h.item hl hp rfl (by simp [Pc.rank])⟩
  | sendUnlock x =>
    exact ⟨none, s.release v (.sendRelock x), by simp [step, threadStep, hp],
      nearer_release h.item hp rfl rfl⟩
  | sendDone x =>
    exact ⟨none, s.goto v (.sendPush x), by simp [step, threadStep, hp, ho],
      nearer_goto h.item hl hp rfl (by simp [Pc.rank])⟩
  | sendPush x =>
    refine ⟨none, s.push v x, by simp [step, threadStep, hp], .inr ⟨?_, rfl, ?_, .inr ⟨hl, ?_⟩⟩⟩
    · simp [St.push]
    · simp [St.push, St.goto, hp, Pc.takes]
    · simp [St.push, St.goto, hp, Pc.rank]
  | sendNotify =>
    obtain ⟨u, s₁, hu, hq, hlock, hrem, hpc⟩ := notifyOne_total s
    refine ⟨u, s₁.goto v .sendExit, by simp [step, threadStep, hp, hu], .inr ⟨?_, hrem, ?_, .inr ⟨hlock.trans hl, ?_⟩⟩⟩
    · exact hq ▸ h.item
    · simp [St.goto, hp, Pc.takes]
    · simp [St.goto, hp, Pc.rank]
  | sendExit => exact ⟨none, s.release v .idle, by simp [step, threadStep, hp], nearer_release h.item hp rfl rfl⟩
  | recvEmpty =>
    exact ⟨none, s.goto v .recvDone, by simp [step, threadStep, hp, h.item],
      nearer_goto h.item hl hp rfl (by simp [Pc.rank])⟩
  | recvPred => exact absurd (h.awake.seen v (.inl hp)) h.item
  | recvBlock => exact absurd (h.awake.seen v (.inr hp)) h.item
  | recvDone =>
    exact ⟨none, s.goto v .recvPop, by simp [step, threadStep, hp, ho],
      nearer_goto h.item hl hp rfl (by simp [Pc.rank])⟩
  | recvPop =>
    refine ⟨none, s.pop v, by simp [step, threadStep, hp], .inl ?_⟩
    obtain ⟨x, q, hq⟩ := List.exists_cons_of_ne_nil h.item
    simp [St.pop, hq]
  | recvExit =>
    refine ⟨none, s.release v (if c.role v = .consumer then .print else .idle), by simp [step, threadStep, hp],
        nearer_release h.item hp rfl ?_⟩
    split <;> rfl
  | _ => simp [hp, Pc.holds] at hh

theorem Offers.next (h : Offers s) {u : Option T} (hs : step c s (.run v u) = some s') (hq : s'.q ≠ []) : Offers s' :=
  ⟨step_inv h.inv hs, h.awake.step h.inv hs, (threadStep_move hs).frame.done.trans h.open_, hq⟩

/-- The threads besides the one that moves keep wanting what they want. -/
theorem takes_of_step {u : Option T} (hs : step c s (.run v u) = some s') (hv : (s'.pc v).takes = (s.pc v).takes) (t : T) :
    (s'.pc t).takes = (s.pc t).takes := by
  by_cases ht : t = v
  · rw [ht, hv]
  · rw [(threadStep_move hs).frame.pc t ht]

/-- The owner of the mutex runs until the item is taken or the mutex is free; if it wants the item itself, the item is taken.
The induction is on its rank. -/
theorem Offers.settle (c : Config T α) {n : ℕ} (h : Offers s) (hl : s.lock = some v) (hn : (s.pc v).rank = n) :
    ∃ s', Reach (step c) Inside s s' ∧ (s.removed.length < s'.removed.length ∨
      (s.pc v).takes = false ∧ s'.lock = none ∧ Offers s' ∧ s'.removed = s.removed ∧ ∀ t, (s'.pc t).takes = (s.pc t).takes) := by
  induction n using Nat.strong_induction_on generalizing s with
  | _ n ih =>
    have hin (u : Option T) : Inside s (.run v u) := by
      intro hp
      have hh := (h.inv.mutex v).mpr hl
      simp [hp, Pc.holds] at hh
    obtain ⟨u, s₁, hs, hgrow | ⟨hq, hrem, htv, hend⟩⟩ := h.owner c hl
    · exact ⟨s₁, .next .init (hin u) hs, .inl hgrow⟩
    · have h₁ := h.next hs hq
      have htake := takes_of_step hs htv
      rcases hend with ⟨hfree, hno⟩ | ⟨hl₁, hrank⟩
      · exact ⟨s₁, .next .init (hin u) hs, .inr ⟨hno, hfree, h₁, hrem, htake⟩⟩
      · obtain ⟨s₂, hr, hgrow | ⟨hno, hfree, h₂, hrem₂, htake₂⟩⟩ := ih _ (hn ▸ hrank) h₁ hl₁ rfl
        · exact ⟨s₂, hr.head (hin u) hs, .inl (hrem ▸ hgrow)⟩
        · refine ⟨s₂, hr.head (hin u) hs, .inr ⟨htv ▸ hno, hfree, h₂, hrem₂.trans hrem, fun t => ?_⟩⟩
          rw [htake₂ t, htake t]

/-- With the mutex free, some thread that wants an item can go on: it wants the mutex, or it was notified. -/
theorem Offers.comer (h : Offers s) (hl : s.lock = none) (ht : (s.pc t).takes = true) :
    ∃ u, s.pc u = .recvLock ∨ s.pc u = .recvWoken ∨ s.pc u = .recvWait ∧ s.notified u = true := by
  have hfree (u : T) : (s.pc u).holds = false := by
    rw [Bool.eq_false_iff]
    exact fun hu => by simpa [hl] using (h.inv.mutex u).mp hu
  have hcome {u : T} (hu : coming s u = true) :
      s.pc u = .recvLock ∨ s.pc u = .recvWoken ∨ s.pc u = .recvWait ∧ s.notified u = true := by
    have := hfree u
    unfold coming at hu
    cases hp : s.pc u <;> simp_all [Pc.holds]
  by_cases hst : stuck s t = true
  · have hle := h.awake.covered h.open_ t hst
    have hpos := List.length_pos_of_ne_nil h.item
    by_contra hnone
    have hzero : tally (coming s) = 0 := tally_eq_zero.mpr fun u => by
      rw [Bool.eq_false_iff]
      exact fun hu => hnone ⟨u, hcome hu⟩
    omega
  · refine ⟨t, hcome ?_⟩
    have := hfree t
    unfold stuck at hst
    unfold coming
    cases hp : s.pc t <;> simp_all [Pc.holds, Pc.takes]

/-- It takes the mutex. -/
theorem Offers.enter (c : Config T α) (h : Offers s) (hl : s.lock = none) {u : T}
    (hu : s.pc u = .recvLock ∨ s.pc u = .recvWoken) :
    ∃ s', Reach (step c) Inside s s' ∧ Offers s' ∧ s'.lock = some u ∧ (s'.pc u).takes = true ∧ s'.removed = s.removed := by
  have hin : Inside s (.run u none) := by
    rcases hu with hu | hu <;> simp [Inside, hu]
  have hs : step c s (.run u none) = some { s.goto u .recvEmpty with lock := some u } := by
    rcases hu with hu | hu <;> simp [step, threadStep, hu, St.acquire, hl]
  exact ⟨_, .next .init hin hs, h.next hs h.item, rfl, by simp [St.goto, Pc.takes], rfl⟩

theorem Offers.wakes (c : Config T α) (h : Offers s) {u : T} (hu : s.pc u = .recvWait) (hn : s.notified u = true) :
    step c s (.run u none) = some (s.wake u) ∧ Offers (s.wake u) := by
  have hs : step c s (.run u none) = some (s.wake u) := by simp [step, threadStep, hu, hn]
  exact ⟨hs, h.next hs h.item⟩

/-- With the mutex free, an item is taken. -/
theorem Offers.serve (c : Config T α) (h : Offers s) (hl : s.lock = none) (ht : (s.pc t).takes = true) :
    ∃ s', Reach (step c) Inside s s' ∧ s.removed.length < s'.removed.length := by
  obtain ⟨u, hu⟩ := h.comer hl ht
  have hgo {s₀ : St T α} (h₀ : Offers s₀) (hl₀ : s₀.lock = none) (hu₀ : s₀.pc u = .recvLock ∨ s₀.pc u = .recvWoken) :
      ∃ s', Reach (step c) Inside s₀ s' ∧ s₀.removed.length < s'.removed.length := by
    obtain ⟨s₁, hr₁, h₁, hl₁, htake, hrem⟩ := h₀.enter c hl₀ hu₀
    obtain ⟨s₂, hr₂, hgrow | ⟨hno, -⟩⟩ := h₁.settle c hl₁ rfl
    · exact ⟨s₂, hr₁.append hr₂, hrem ▸ hgrow⟩
    · simp [htake] at hno
  rcases hu with hu | hu | ⟨hu, hn⟩
  · exact hgo h hl (.inl hu)
  · exact hgo h hl (.inr hu)
  · obtain ⟨hs, hw⟩ := h.wakes c hu hn
    obtain ⟨s', hr, hgrow⟩ := hgo hw hl (.inr (by simp [St.wake, St.goto]))
    exact ⟨s', hr.head (by simp [Inside, hu]) hs, hgrow⟩

/-- **A receiver is always served**: while the channel is open and holds an item, and some thread is inside `operator>>` for one
(waiting or not), the threads inside the operators can run, without a new call and without a spurious wake-up, until an item
has been taken. -/
theorem waiting_receiver_served (c : Config T α) {s : St T α} (h : Reach (step c) Any .init s) (ho : s.done = false)
    (hq : s.q ≠ []) {t : T} (ht : (s.pc t).takes = true) :
    ∃ s', Reach (step c) Inside s s' ∧ s.removed.length < s'.removed.length := by
  have hoff : Offers s := ⟨reach_inv h, reach_awake h, ho, hq⟩
  cases hl : s.lock with
  | none => exact hoff.serve c hl ht
  | some v =>
    obtain ⟨s₁, hr₁, hgrow | ⟨-, hfree, h₁, hrem, htake⟩⟩ := hoff.settle c hl rfl
    · exact ⟨s₁, hr₁, hgrow⟩
    · obtain ⟨s₂, hr₂, hgrow⟩ := h₁.serve c hfree (t := t) (by rw [htake t, ht])
      exact ⟨s₂, hr₁.append hr₂, hrem ▸ hgrow⟩

theorem waiting_client_served : ∃ s, Reach (step twoClients) Any .init s ∧ s.waits 1 = true ∧
    ∃ s', Reach (step twoClients) Inside s s' ∧ s.removed.length < s'.removed.length := by
  obtain ⟨s, hs, hp⟩ := reach_of_runs (step twoClients) Any .init (pushedToWaiter 0 1 7)
    (fun s => decide (s.waits 1 = true ∧ s.q ≠ [] ∧ s.done = false ∧ s.pc 1 = .recvWait)) (by decide)
  obtain ⟨hw, hq, ho, hpc⟩ := of_decide_eq_true hp
  exact ⟨s, hs, hw, waiting_receiver_served twoClients hs ho hq (t := 1) (by rw [hpc]; rfl)⟩

end CppNotes.Chan
