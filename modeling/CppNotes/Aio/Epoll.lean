import CppNotes.Lib.Run

/-!
# Counting completions with an eventfd (`aio/aio_epoll.c`)

`main` submits `NUM_EVENTS` requests whose completions are signalled on an eventfd, and then reaps them: `epoll_wait`
for the eventfd, `read` its counter into `finished_aio`, and `io_getevents` until as many have been reaped.

The model starts after `io_submit` has accepted all requests.  For each request the kernel first appends the completion
to the ring (`append`) and then adds it to the eventfd (`signal`); only the numbers of completions matter.  `prog r` is
the program's next step, with the answer `r` of its system call.  `finished_aio` is unsigned and wraps.

`io_getevents` takes what the ring holds, also completions that came after the `read`.  The count goes right exactly
while the ring never holds more than `finished_aio` when `io_getevents` is called (`Counted`).
-/

namespace CppNotes.Epoll

open CppNotes.Lib

def NUM_EVENTS : ℕ := 128

/-- Where `main` is: at `epoll_create` or `epoll_ctl`, at the test of the outer loop, at `epoll_wait` or `read`, at the
test of the inner loop, at `io_getevents`, or at its end. -/
inductive Pc where
  | create | ctl
  | outer | wait | read
  | inner | getevents
  | ret (v : ℕ)
  deriving DecidableEq

/-- The kernel has `pending` requests and `unsignalled` completions that the eventfd does not count yet; `edge` is an
event that `epoll_wait` has not reported. -/
structure St where
  pending : ℕ
  ring : ℕ
  unsignalled : ℕ
  counter : ℕ
  edge : Bool
  pc : Pc
  i : ℕ
  finishedAio : UInt64
  deriving DecidableEq

def St.init : St where
  pending := NUM_EVENTS
  ring := 0
  unsignalled := 0
  counter := 0
  edge := false
  pc := .create
  i := 0
  finishedAio := 0

inductive Act where
  | append
  | signal
  | prog (r : ℤ)
  deriving DecidableEq

/-- One step of `main` with the answer `r`; `none` when the call cannot answer that. -/
def progStep (s : St) (r : ℤ) : Option St :=
  match s.pc with
  | .create => some { s with pc := if r = -1 then .ret 7 else .ctl }
  | .ctl =>
    if r ≠ 0 then some { s with pc := .ret 8 }
    -- an eventfd that is readable already is an event
    else some { s with pc := .outer, edge := decide (0 < s.counter) }
  | .outer => some { s with pc := if s.i < NUM_EVENTS then .wait else .ret 0 }
  | .wait =>
    if r ≠ 1 then some { s with pc := .ret 9 }
    else if s.edge = true ∧ 0 < s.counter then some { s with pc := .read, edge := false }
    else none
  | .read =>
    if r ≠ 8 then some { s with pc := .ret 10 }
    else if 0 < s.counter then some { s with pc := .inner, finishedAio := .ofNat s.counter, counter := 0 }
    else none
  | .inner => some { s with pc := if 0 < s.finishedAio then .getevents else .outer }
  | .getevents =>
    if 0 < r then
      if r.toNat ≤ s.ring then
        some { s with
          pc := .inner
          ring := s.ring - r.toNat
          i := s.i + r.toNat
          finishedAio := s.finishedAio - .ofNat r.toNat }
      else none
    else some { s with pc := .inner }
  | .ret _ => none

def step (s : St) : Act → Option St
  | .append =>
    if 0 < s.pending then
      some { s with pending := s.pending - 1, ring := s.ring + 1, unsignalled := s.unsignalled + 1 }
    else none
  | .signal =>
    if 0 < s.unsignalled then
      some { s with unsignalled := s.unsignalled - 1, counter := s.counter + 1, edge := true }
    else none
  | .prog r => progStep s r

/-! ## What is where -/

variable {s s' : St} {a : Act}

/-- What a step can do: the kernel's two steps, the two that count, and the rest, which only move `main` on. -/
inductive Move (s : St) : Act → St → Prop
  | append (h : 0 < s.pending) :
    Move s .append { s with pending := s.pending - 1, ring := s.ring + 1, unsignalled := s.unsignalled + 1 }
  | signal (h : 0 < s.unsignalled) :
    Move s .signal { s with unsignalled := s.unsignalled - 1, counter := s.counter + 1, edge := true }
  | read (h : s.pc = .read) (hc : 0 < s.counter) :
    Move s (.prog 8) { s with pc := .inner, finishedAio := .ofNat s.counter, counter := 0 }
  | reap (n : ℕ) (h : s.pc = .getevents) (hn : 0 < n) (hr : n ≤ s.ring) :
    Move s (.prog n)
      { s with pc := .inner, ring := s.ring - n, i := s.i + n, finishedAio := s.finishedAio - .ofNat n }
  | again (r : ℤ) (h : s.pc = .getevents) (hr : r ≤ 0) : Move s (.prog r) { s with pc := .inner }
  | enter (r : ℤ) (h : s.pc = .inner) (hf : s.finishedAio ≠ 0) : Move s (.prog r) { s with pc := .getevents }
  | leave (r : ℤ) (h : s.pc = .inner) (hf : s.finishedAio = 0) : Move s (.prog r) { s with pc := .outer }
  | go (r : ℤ) (p : Pc) (e : Bool) (h : s.pc ≠ .inner ∧ s.pc ≠ .getevents) (hp : p ≠ .inner ∧ p ≠ .getevents) :
    Move s (.prog r) { s with pc := p, edge := e }

theorem progStep_move {r : ℤ} (hs : progStep s r = some s') : Move s (.prog r) s' := by
  unfold progStep at hs
  split at hs
  · rename_i hp
    obtain rfl := Option.some.inj hs
    exact .go r _ s.edge (by simp [hp]) (by split <;> simp)
  · rename_i hp
    split at hs <;> obtain rfl := Option.some.inj hs
    · exact .go r _ s.edge (by simp [hp]) (by simp)
    · exact .go r _ _ (by simp [hp]) (by simp)
  · rename_i hp
    obtain rfl := Option.some.inj hs
    exact .go r _ s.edge (by simp [hp]) (by split <;> simp)
  · rename_i hp
    split at hs
    · obtain rfl := Option.some.inj hs
      exact .go r _ s.edge (by simp [hp]) (by simp)
    · simp only [Option.ite_none_right_eq_some, Option.some.injEq] at hs
      obtain ⟨_, rfl⟩ := hs
      exact .go r _ _ (by simp [hp]) (by simp)
  · rename_i hp
    split at hs
    · obtain rfl := Option.some.inj hs
      exact .go r _ s.edge (by simp [hp]) (by simp)
    · rename_i h8
      simp only [Option.ite_none_right_eq_some, Option.some.injEq] at hs
      obtain ⟨hc, rfl⟩ := hs
      obtain rfl : r = 8 := by simpa using h8
      exact .read hp hc
  · rename_i hp
    obtain rfl := Option.some.inj hs
    by_cases hf : s.finishedAio = 0
    · simpa [hf] using Move.leave r hp hf
    · simpa [UInt64.pos_iff_ne_zero, hf] using Move.enter r hp hf
  · rename_i hp
    split at hs
    · rename_i hr
      simp only [Option.ite_none_right_eq_some, Option.some.injEq] at hs
      obtain ⟨hle, rfl⟩ := hs
      obtain ⟨n, rfl⟩ := Int.eq_ofNat_of_zero_le hr.le
      exact .reap n hp (by simpa using hr) hle
    · rename_i hr
      obtain rfl := Option.some.inj hs
      exact .again r hp (not_lt.1 hr)
  · simp at hs

theorem step_move (hs : step s a = some s') : Move s a s' := by
  cases a with
  | append =>
    simp only [step, Option.ite_none_right_eq_some, Option.some.injEq] at hs
    obtain ⟨h, rfl⟩ := hs
    exact .append h
  | signal =>
    simp only [step, Option.ite_none_right_eq_some, Option.some.injEq] at hs
    obtain ⟨h, rfl⟩ := hs
    exact .signal h
  | prog r => exact progStep_move hs

/-- Every completion is still to come, in the ring, or reaped. -/
def Conserved (s : St) : Prop := s.pending + s.ring + s.i = NUM_EVENTS

theorem Conserved.step (h : Conserved s) (hm : Move s a s') : Conserved s' := by
  unfold Conserved at *
  cases hm with
  | append hp => simp only; omega
  | reap n _ _ hr => simp only; omega
  | signal | read | again | enter | leave | go => exact h

theorem reach_conserved {ok : St → Act → Prop} (h : Reach step ok .init s) : Conserved s :=
  h.invariant Conserved rfl fun _ _ _ _ hI _ hs => hI.step (step_move hs)

/-! ## The count -/

/-- When `io_getevents` is called, the ring holds no completion beyond those that `finished_aio` counts. -/
def Counted (s : St) (_ : Act) : Prop := s.pc = .getevents → s.ring ≤ s.finishedAio.toNat

instance (s : St) (a : Act) : Decidable (Counted s a) := inferInstanceAs (Decidable (_ → _))

/-- Every completion is still to come, on its way to the eventfd, counted there or in `finished_aio`, or reaped. -/
structure Tallied (s : St) : Prop where
  sum : s.pending + s.unsignalled + s.counter + s.finishedAio.toNat + s.i = NUM_EVENTS
  rest : s.pc ≠ .inner → s.pc ≠ .getevents → s.finishedAio = 0
  busy : s.pc = .getevents → s.finishedAio ≠ 0

theorem tallied_init : Tallied .init := by
  constructor <;> simp [St.init]

theorem Tallied.step (h : Tallied s) (hok : Counted s a) (hm : Move s a s') : Tallied s' := by
  have hsum := h.sum
  cases hm with
  | append hp => exact ⟨by simp only; omega, h.rest, h.busy⟩
  | signal hu => exact ⟨by simp only; omega, h.rest, h.busy⟩
  | read hp hc =>
    have h0 : s.finishedAio.toNat = 0 := by simp [h.rest (by simp [hp]) (by simp [hp])]
    have hlt : s.counter < 2 ^ 64 := by
      have : NUM_EVENTS = 128 := rfl
      omega
    refine ⟨?_, by simp, by simp⟩
    simp only [UInt64.toNat_ofNat_of_lt' hlt]
    omega
  | reap n hp hn hr =>
    have hle : n ≤ s.finishedAio.toNat := hr.trans (hok hp)
    have hlt : n < 2 ^ 64 := hle.trans_lt s.finishedAio.toNat_lt
    have hsub : (s.finishedAio - .ofNat n).toNat = s.finishedAio.toNat - n := by
      rw [UInt64.toNat_sub_of_le _ _ (by rw [UInt64.le_iff_toNat_le, UInt64.toNat_ofNat_of_lt' hlt]; exact hle),
        UInt64.toNat_ofNat_of_lt' hlt]
    exact ⟨by simp only [hsub]; omega, by simp, by simp⟩
  | again r hp => exact ⟨hsum, by simp, by simp⟩
  | enter r hp hf => exact ⟨hsum, by simp, fun _ => hf⟩
  | leave r hp hf => exact ⟨hsum, fun _ _ => hf, by simp⟩
  | go r p e h' hp => exact ⟨hsum, fun _ _ => h.rest h'.1 h'.2, fun hg => absurd hg hp.2⟩

theorem reach_tallied (h : Reach step Counted .init s) : Tallied s :=
  h.invariant Tallied tallied_init fun _ _ _ _ hI hok hs => hI.step hok (step_move hs)

/-- `io_getevents` can answer any number up to what the ring holds. -/
theorem getevents_le_iff (hp : s.pc = .getevents) (n : ℕ) :
    (∀ r s', step s (.prog r) = some s' → r ≤ n) ↔ s.ring ≤ n := by
  constructor
  · intro h
    by_contra hlt
    have hpos : (0 : ℤ) < s.ring := by omega
    have := h s.ring _ (by simp only [step, progStep, hp, if_pos hpos, Int.toNat_natCast, le_refl, if_true]; rfl)
    omega
  · intro hle r s' hs
    cases step_move hs with
    | reap m _ _ hr => omega
    | again _ _ hr => omega
    | read hp' | enter _ hp' | leave _ hp' => simp [hp] at hp'
    | go _ _ _ hp' => simp [hp] at hp'

/-- **The count of completions.**  In every run in which the ring never holds more than `finished_aio` counts when
`io_getevents` is called, the subtraction does not wrap, `i` stays in its range, and once everything is reaped the inner
loop is left.  In every other state before an `io_getevents` there is an answer with which the subtraction wraps. -/
theorem completions_counted (s : St) :
    (Reach step Counted .init s →
      (∀ r s', s.pc = .getevents → Counted s (.prog r) → step s (.prog r) = some s' → r ≤ s.finishedAio.toNat) ∧
      s.i ≤ NUM_EVENTS ∧ (s.i = NUM_EVENTS → s.finishedAio = 0 ∧ s.pc ≠ .getevents)) ∧
    (Reach step Any .init s → s.pc = .getevents →
      ((∀ r s', step s (.prog r) = some s' → r ≤ s.finishedAio.toNat) ↔ s.ring ≤ s.finishedAio.toNat)) := by
  refine ⟨fun hr => ⟨fun r s' hp hok hs => ?_, ?_, fun hi => ?_⟩, fun _ hp => getevents_le_iff hp _⟩
  · exact (getevents_le_iff hp _).2 (hok hp) r s' hs
  · have := reach_conserved hr
    unfold Conserved at this
    omega
  · have ht := reach_tallied hr
    have hsum := ht.sum
    have h0 : s.finishedAio = 0 := by
      have : s.finishedAio.toNat = 0 := by omega
      exact UInt64.toNat_inj.1 this
    exact ⟨h0, fun hp => ht.busy hp h0⟩

theorem single_completion_counted : ∃ s, Reach step Counted .init s ∧ s.pc = .getevents ∧
    ∀ r s', step s (.prog r) = some s' → r ≤ s.finishedAio.toNat := by
  obtain ⟨s, hs, hp⟩ := reach_of_runs step Counted .init
    [.prog 3, .prog 0, .prog 0, .append, .signal, .prog 1, .prog 8, .prog 0]
    (fun s => decide (s.pc = .getevents) && decide (Counted s (.prog 0))) (by decide)
  simp only [Bool.and_eq_true, decide_eq_true_eq] at hp
  exact ⟨s, hs, hp.1, fun r s' => ((completions_counted s).1 hs).1 r s' hp.1 hp.2⟩

/-- One completion is counted and all others come after the `read`: `io_getevents` then takes all of them. -/
def lateRun : List Act :=
  [.prog 3, .prog 0, .prog 0, .append, .signal, .prog 1, .prog 8] ++ List.replicate 127 .append ++ [.prog 0]

theorem late_completions_wrap_the_count :
    (¬ ∀ s r s', Reach step Any .init s → s.pc = .getevents → step s (.prog r) = some s' →
      r ≤ s.finishedAio.toNat) ∧
    ¬ ∀ s, Reach step Any .init s → s.i = NUM_EVENTS → s.finishedAio = 0 := by
  constructor
  · intro h
    obtain ⟨s, hs, hp⟩ := reach_of_runs step Any .init lateRun
      (fun s => decide (s.pc = .getevents) && decide (s.ring = 128) && decide (s.finishedAio = 1)) (by decide +kernel)
    simp only [Bool.and_eq_true, decide_eq_true_eq] at hp
    obtain ⟨⟨hpc, hring⟩, hf⟩ := hp
    have hle := (getevents_le_iff hpc _).1 fun r s' => h s r s' hs hpc
    simp [hring, hf] at hle
  · intro h
    obtain ⟨s, hs, hp⟩ := reach_of_runs step Any .init (lateRun ++ [.prog 128])
      (fun s => decide (s.i = NUM_EVENTS) && decide (s.finishedAio ≠ 0)) (by decide +kernel)
    simp only [Bool.and_eq_true, decide_eq_true_eq] at hp
    exact hp.2 (h s hs hp.1)

end CppNotes.Epoll
