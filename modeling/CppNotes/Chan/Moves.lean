import CppNotes.Chan.Defs

/-!
# What a thread step can do

`threadStep` follows the source line by line.  `Move` says the same by effect: which steps take the mutex,
which give it back, which only test something and go on, and the few that change the queue, the
notifications or the consumer's data.  `threadStep_move` is the only place that looks into `threadStep`;
every invariant of the channel is proved by cases on `Move`.
-/

set_option linter.unusedSectionVars false

namespace CppNotes.Chan

variable {T α : Type} [DecidableEq T]

/-! ## The pop, whatever the queue holds -/

@[simp] theorem pop_pc (s : St T α) (t : T) : (s.pop t).pc = Function.update s.pc t .recvExit := by
  unfold St.pop; split <;> rfl
@[simp] theorem pop_notified (s : St T α) (t : T) : (s.pop t).notified = s.notified := by
  unfold St.pop; split <;> rfl
@[simp] theorem pop_i (s : St T α) (t : T) : (s.pop t).i = s.i := by
  unfold St.pop; split <;> rfl
@[simp] theorem pop_pushed (s : St T α) (t : T) : (s.pop t).pushed = s.pushed := by
  unfold St.pop; split <;> rfl

/-! ## The edges of the control flow -/

/-- The places that take the mutex, and where they lead. -/
inductive LockEdge : Pc α → Pc α → Prop
  | send (v : α) : LockEdge (.sendLock v) (.sendTest v)
  | resend (v : α) : LockEdge (.sendRelock v) (.sendTest v)
  | recv : LockEdge .recvLock .recvEmpty
  | rerecv : LockEdge .recvWoken .recvEmpty

/-- The places that give the mutex back. -/
inductive UnlockEdge (c : Config T α) (t : T) : Pc α → Pc α → Prop
  | sleep (v : α) : UnlockEdge c t (.sendUnlock v) (.sendRelock v)
  | sent : UnlockEdge c t .sendExit .idle
  | wait : UnlockEdge c t .recvBlock .recvWait
  | received : c.role t = .consumer → UnlockEdge c t .recvExit .print
  | returned : c.role t ≠ .consumer → UnlockEdge c t .recvExit .idle

/-- The tests that are made with the mutex held, and their outcomes. -/
inductive TestEdge (c : Config T α) (s : St T α) : Pc α → Pc α → Prop
  | loopDone (v : α) : s.done = true → TestEdge c s (.sendTest v) (.sendDone v)
  | loopOpen (v : α) : s.done = false → TestEdge c s (.sendTest v) (.sendSize v)
  | full (v : α) : c.capacity ≤ s.q.length → TestEdge c s (.sendSize v) (.sendUnlock v)
  | room (v : α) : s.q.length < c.capacity → TestEdge c s (.sendSize v) (.sendDone v)
  | drop (v : α) : s.done = true → TestEdge c s (.sendDone v) .sendNotify
  | keep (v : α) : s.done = false → TestEdge c s (.sendDone v) (.sendPush v)
  | empty : s.q = [] → TestEdge c s .recvEmpty .recvPred
  | item : s.q ≠ [] → TestEdge c s .recvEmpty .recvDone
  | predDone : s.done = true → TestEdge c s .recvPred .recvDone
  | predOpen : s.done = false → TestEdge c s .recvPred .recvBlock
  | stale : s.done = true → TestEdge c s .recvDone .recvExit
  | take : s.done = false → TestEdge c s .recvDone .recvPop

/-- What one step of thread `t` can do. -/
inductive Move (c : Config T α) (s : St T α) (t : T) : St T α → Prop
  | quit : s.pc t = .idle → s.done = true → Move c s t (s.goto t .returned)
  | produce : s.pc t = .idle → c.role t = .producer → s.done = false →
      Move c s t { s.goto t (.sendLock (c.make t (s.i t))) with i := Function.update s.i t (s.i t + 1) }
  | consume : s.pc t = .idle → c.role t = .consumer → s.done = false →
      Move c s t { s.goto t .recvLock with fresh := Function.update s.fresh t false }
  | lock {p p' : Pc α} : s.pc t = p → LockEdge p p' → s.lock = none →
      Move c s t { s.goto t p' with lock := some t }
  | unlock {p p' : Pc α} : s.pc t = p → UnlockEdge c t p p' → Move c s t (s.release t p')
  | test {p p' : Pc α} : s.pc t = p → TestEdge c s p p' → Move c s t (s.goto t p')
  | push (v : α) : s.pc t = .sendPush v → Move c s t (s.push t v)
  | notify (w : T) : s.pc t = .sendNotify → s.waits w = true →
      Move c s t ({ s with notified := Function.update s.notified w true }.goto t .sendExit)
  | silent : s.pc t = .sendNotify → (∀ w, s.waits w = false) → Move c s t (s.goto t .sendExit)
  | wake : s.pc t = .recvWait → s.notified t = true → Move c s t (s.wake t)
  | pop : s.pc t = .recvPop → Move c s t (s.pop t)
  | print : s.pc t = .print → Move c s t (s.print t)

theorem acquire_move {c : Config T α} {s s' : St T α} {t : T} {p p' : Pc α} (hp : s.pc t = p)
    (he : LockEdge p p') (h : s.acquire t p' = some s') : Move c s t s' := by
  unfold St.acquire at h
  split at h
  · rename_i hl
    obtain rfl := Option.some.inj h
    exact .lock hp he hl
  · simp at h

variable [Fintype T] {c : Config T α}

theorem notify_move {s s₁ : St T α} {t : T} {u : Option T} (hp : s.pc t = .sendNotify)
    (h : s.notifyOne u = some s₁) : Move c s t (s₁.goto t .sendExit) := by
  cases u with
  | some w =>
    simp only [St.notifyOne] at h
    split at h
    · rename_i hw
      obtain rfl := Option.some.inj h
      exact .notify w hp hw
    · simp at h
  | none =>
    simp only [St.notifyOne] at h
    split at h
    · rename_i hw
      obtain rfl := Option.some.inj h
      exact .silent hp hw
    · simp at h

theorem idle_move {s s' : St T α} {t : T} {u : Option T} (hp : s.pc t = .idle)
    (h : threadStep c s t u = some s') : Move c s t s' := by
  simp only [threadStep, hp] at h
  split at h
  · simp at h
  · rename_i hr
    obtain rfl := Option.some.inj h
    unfold St.producerTurn
    split
    · rename_i hd
      exact .quit hp hd
    · rename_i hd
      exact .produce hp hr (by simpa using hd)
  · rename_i hr
    obtain rfl := Option.some.inj h
    unfold St.consumerTurn
    split
    · rename_i hd
      exact .quit hp hd
    · rename_i hd
      exact .consume hp hr (by simpa using hd)

/-- A test that goes one way or the other. -/
theorem test_move {s s' : St T α} {t : T} {p p₁ p₂ : Pc α} {b : Bool} (hp : s.pc t = p)
    (h₁ : b = true → TestEdge c s p p₁) (h₂ : b = false → TestEdge c s p p₂)
    (h : some (s.goto t (if b then p₁ else p₂)) = some s') : Move c s t s' := by
  obtain rfl := Option.some.inj h
  cases b with
  | true => exact .test hp (h₁ rfl)
  | false => exact .test hp (h₂ rfl)

theorem threadStep_move {s s' : St T α} {t : T} {u : Option T} (h : threadStep c s t u = some s') :
    Move c s t s' := by
  cases hp : s.pc t with
  | idle => exact idle_move hp h
  | sendLock v => exact acquire_move hp (.send v) (by simpa [threadStep, hp] using h)
  | sendTest v => exact test_move hp (.loopDone v) (.loopOpen v) (by simpa [threadStep, hp] using h)
  | sendSize v =>
    refine test_move (b := decide (c.capacity ≤ s.q.length)) hp (fun hb => .full v (by simpa using hb))
      (fun hb => .room v (by simpa using hb)) (by simpa [threadStep, hp] using h)
  | sendUnlock v =>
    simp only [threadStep, hp, Option.some.injEq] at h
    exact h ▸ .unlock hp (.sleep v)
  | sendRelock v => exact acquire_move hp (.resend v) (by simpa [threadStep, hp] using h)
  | sendDone v => exact test_move hp (.drop v) (.keep v) (by simpa [threadStep, hp] using h)
  | sendPush v =>
    simp only [threadStep, hp, Option.some.injEq] at h
    exact h ▸ .push v hp
  | sendNotify =>
    simp only [threadStep, hp, Option.map_eq_some_iff] at h
    obtain ⟨s₁, h₁, rfl⟩ := h
    exact notify_move hp h₁
  | sendExit =>
    simp only [threadStep, hp, Option.some.injEq] at h
    exact h ▸ .unlock hp .sent
  | recvLock => exact acquire_move hp .recv (by simpa [threadStep, hp] using h)
  | recvEmpty =>
    refine test_move (b := s.q.isEmpty) hp (fun hb => .empty (by simpa using hb))
      (fun hb => .item (by simpa using hb)) (by simpa [threadStep, hp] using h)
  | recvPred => exact test_move hp .predDone .predOpen (by simpa [threadStep, hp] using h)
  | recvBlock =>
    simp only [threadStep, hp, Option.some.injEq] at h
    exact h ▸ .unlock hp .wait
  | recvWait =>
    simp only [threadStep, hp] at h
    split at h
    · rename_i hn
      obtain rfl := Option.some.inj h
      exact .wake hp hn
    · simp at h
  | recvWoken => exact acquire_move hp .rerecv (by simpa [threadStep, hp] using h)
  | recvDone => exact test_move hp .stale .take (by simpa [threadStep, hp] using h)
  | recvPop =>
    simp only [threadStep, hp, Option.some.injEq] at h
    exact h ▸ .pop hp
  | recvExit =>
    simp only [threadStep, hp, Option.some.injEq] at h
    subst h
    split
    · rename_i hr
      exact .unlock hp (.received hr)
    · rename_i hr
      exact .unlock hp (.returned hr)
  | print =>
    simp only [threadStep, hp, Option.some.injEq] at h
    exact h ▸ .print hp
  | returned => simp [threadStep, hp] at h

/-- What a step of the whole system can do. -/
theorem step_cases {s s' : St T α} {a : Act T α} (h : step c s a = some s') :
    (∃ t u, a = .run t u ∧ Move c s t s') ∨
    (∃ t, a = .spurious t ∧ s.pc t = .recvWait ∧ s' = s.wake t) ∨
    (∃ t v, a = .send t v ∧ c.role t = .client ∧ s.pc t = .idle ∧ s' = s.goto t (.sendLock v)) ∨
    (∃ t, a = .recv t ∧ c.role t = .client ∧ s.pc t = .idle ∧ s' = s.goto t .recvLock) ∨
    (a = .close ∧ s' = { s with done := true }) := by
  cases a with
  | run t u => exact Or.inl ⟨t, u, rfl, threadStep_move h⟩
  | spurious t =>
    simp only [step] at h
    split at h
    · rename_i hp
      exact Or.inr (Or.inl ⟨t, rfl, hp, (Option.some.inj h).symm⟩)
    · simp at h
  | send t v =>
    simp only [step] at h
    split at h
    · rename_i hr hp
      exact Or.inr (Or.inr (Or.inl ⟨t, v, rfl, hr, hp, (Option.some.inj h).symm⟩))
    · simp at h
  | recv t =>
    simp only [step] at h
    split at h
    · rename_i hr hp
      exact Or.inr (Or.inr (Or.inr (Or.inl ⟨t, rfl, hr, hp, (Option.some.inj h).symm⟩)))
    · simp at h
  | close => exact Or.inr (Or.inr (Or.inr (Or.inr ⟨rfl, (Option.some.inj h).symm⟩)))

/-! ## What the edges keep -/

theorem LockEdge.holds {p p' : Pc α} (h : LockEdge p p') : p.holds = false ∧ p'.holds = true := by
  cases h <;> exact ⟨rfl, rfl⟩

theorem UnlockEdge.holds {t : T} {p p' : Pc α} (h : UnlockEdge c t p p') :
    p.holds = true ∧ p'.holds = false := by
  cases h <;> exact ⟨rfl, rfl⟩

theorem TestEdge.holds {s : St T α} {p p' : Pc α} (h : TestEdge c s p p') :
    p.holds = true ∧ p'.holds = true := by
  cases h <;> exact ⟨rfl, rfl⟩

/-- What the step of a thread leaves alone: the flag, and everything of the other threads but a
notification. -/
structure Frame (s s' : St T α) (t : T) : Prop where
  done : s'.done = s.done
  pc : ∀ w, w ≠ t → s'.pc w = s.pc w
  data : ∀ w, w ≠ t → s'.data w = s.data w
  fresh : ∀ w, w ≠ t → s'.fresh w = s.fresh w
  i : ∀ w, w ≠ t → s'.i w = s.i w

theorem frame_goto (s : St T α) (t : T) (p : Pc α) : Frame s (s.goto t p) t where
  done := rfl
  pc _ hw := Function.update_of_ne hw _ _
  data _ _ := rfl
  fresh _ _ := rfl
  i _ _ := rfl

theorem Move.frame {s s' : St T α} {t : T} (h : Move c s t s') : Frame s s' t := by
  have hg := frame_goto s t
  cases h with
  | quit => exact hg _
  | produce => exact ⟨rfl, (hg _).pc, fun _ _ => rfl, fun _ _ => rfl, fun _ hw => Function.update_of_ne hw _ _⟩
  | consume => exact ⟨rfl, (hg _).pc, fun _ _ => rfl, fun _ hw => Function.update_of_ne hw _ _, fun _ _ => rfl⟩
  | lock => exact ⟨rfl, (hg _).pc, fun _ _ => rfl, fun _ _ => rfl, fun _ _ => rfl⟩
  | unlock => exact ⟨rfl, (hg _).pc, fun _ _ => rfl, fun _ _ => rfl, fun _ _ => rfl⟩
  | test => exact hg _
  | push => exact ⟨rfl, (hg _).pc, fun _ _ => rfl, fun _ _ => rfl, fun _ _ => rfl⟩
  | notify => exact ⟨rfl, (hg _).pc, fun _ _ => rfl, fun _ _ => rfl, fun _ _ => rfl⟩
  | silent => exact hg _
  | wake => exact ⟨rfl, (hg _).pc, fun _ _ => rfl, fun _ _ => rfl, fun _ _ => rfl⟩
  | pop =>
    unfold St.pop
    split
    · exact ⟨rfl, (hg _).pc, fun _ _ => rfl, fun _ _ => rfl, fun _ _ => rfl⟩
    · exact ⟨rfl, (hg _).pc, fun _ hw => Function.update_of_ne hw _ _, fun _ hw => Function.update_of_ne hw _ _,
        fun _ _ => rfl⟩
  | print => exact ⟨rfl, (hg _).pc, fun _ _ => rfl, fun _ _ => rfl, fun _ _ => rfl⟩

end CppNotes.Chan
