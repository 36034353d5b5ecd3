import CppNotes.Lib.Run

/-!
# The hand-off of `increaser_main` and `decreaser_main` (`atomic_barrier/atomic_arr.c`)

The increaser sets the items of `a_arr` one by one and counts each of them in `change_items`; the decreaser waits for
a count that is not zero, asserts and clears the items below it, and resets the count.

`step` is one load, store or increment of one thread, with the thread's own loop tests; the interleaving is sequentially
consistent.  A test that keeps a thread waiting leaves the state as it is; the time-outs are left out.

The decreaser reads its bound again before each item, so it follows an increaser that is still in its round.  What
breaks the hand-off is an end of that loop before the round is complete, or an item of the next round that is counted
before the reset (`Ordered`).  While neither happens, the items from the decreaser's index up to the count are set
(`Rounds`).
-/

namespace CppNotes.Atomic

open CppNotes.Lib

def ARRLEN : ℕ := 100
def TESTLOOPCNT : ℕ := 100000

/-- Where the increaser is: at the load of the `while` test, at `a_arr[i] = 1`, at `change_items++`, or at its end. -/
inductive IncPc where
  | load | store | count
  | returned
  deriving DecidableEq

/-- Where the decreaser is: at the `while` test, at the `for` test, at the assertion, at `a_arr[i] = 0`, at
`change_items = 0`, or at its end.  `aborted` is the end of the process by the assertion. -/
inductive DecPc where
  | wait
  | bound (i : ℕ) | check (i : ℕ) | clear (i : ℕ)
  | reset
  | returned
  | aborted
  deriving DecidableEq

/-- The shared variables, and the threads with their `loop_i`; `i` is the increaser's. -/
structure St where
  arr : ℕ → ℕ
  changeItems : ℕ
  inc : IncPc
  i : ℕ
  incLoop : ℕ
  dec : DecPc
  decLoop : ℕ

/-- The start, with the increaser's `max_change_items`. -/
def St.init (max : ℕ) : St where
  arr := fun _ => 0
  changeItems := 0
  inc := if 0 < max then .load else .returned
  i := 0
  incLoop := 0
  dec := .wait
  decLoop := 0

/-- The thread that moves. -/
inductive Act where
  | inc | dec
  deriving DecidableEq

/-- After `change_items++`: the next item, the next round or the end. -/
def St.nextItem (max : ℕ) (s : St) : St :=
  if s.i + 1 < max then { s with inc := .load, i := s.i + 1 }
  else { s with inc := if s.incLoop + 1 < TESTLOOPCNT then .load else .returned, i := 0, incLoop := s.incLoop + 1 }

/-- `increaser_main` -/
def incStep (max : ℕ) (s : St) : Option St :=
  match s.inc with
  | .load => some (if s.arr s.i ≠ 0 then s else { s with inc := .store })
  | .store => some { s with arr := fun j => if j = s.i then 1 else s.arr j, inc := .count }
  | .count => some ({ s with changeItems := s.changeItems + 1 }.nextItem max)
  | .returned => none

/-- `decreaser_main` -/
def decStep (s : St) : Option St :=
  match s.dec with
  | .wait => some (if s.changeItems = 0 then s else { s with dec := .bound 0 })
  | .bound i => some { s with dec := if i < s.changeItems then .check i else .reset }
  | .check i => some { s with dec := if s.arr i = 1 then .clear i else .aborted }
  | .clear i => some { s with arr := fun j => if j = i then 0 else s.arr j, dec := .bound (i + 1) }
  | .reset =>
    some { s with
      changeItems := 0
      dec := if s.decLoop + 1 < TESTLOOPCNT then .wait else .returned
      decLoop := s.decLoop + 1 }
  | .returned | .aborted => none

def step (max : ℕ) (s : St) (a : Act) : Option St :=
  if s.dec = .aborted then none
  else
    match a with
    | .inc => incStep max s
    | .dec => decStep s

/-! ## Complete rounds -/

/-- The decreaser is at a `for` test that ends its loop. -/
def DecPc.ends (changeItems : ℕ) : DecPc → Bool
  | .bound i => decide (changeItems ≤ i)
  | _ => false

/-- The increaser counts an item only while its round is not complete, and the decreaser's loop ends only when the
round is complete. -/
def Ordered (max : ℕ) (s : St) : Act → Prop
  | .inc => s.inc = .count → s.changeItems < max
  | .dec => s.dec.ends s.changeItems = true → s.changeItems = max

instance (max : ℕ) (s : St) (a : Act) : Decidable (Ordered max s a) :=
  match a with
  | .inc => inferInstanceAs (Decidable (_ → _))
  | .dec => inferInstanceAs (Decidable (_ → _))

/-- How many items the decreaser has cleared in its round. -/
def DecPc.cleared (max : ℕ) : DecPc → ℕ
  | .bound i | .check i | .clear i => i
  | .reset => max
  | .wait | .returned | .aborted => 0

/-- The count is the increaser's index, or the round is complete and the increaser is at its next one.  What is counted
and not cleared is set. -/
structure Rounds (max : ℕ) (s : St) : Prop where
  idx : s.i < max
  count : s.changeItems = s.i ∨ (s.changeItems = max ∧ s.i = 0)
  cleared : s.dec.cleared max ≤ s.changeItems
  ones : ∀ j, s.dec.cleared max ≤ j → j < s.changeItems → s.arr j = 1
  stored : s.inc = .count → s.arr s.i = 1
  early : s.inc = .store ∨ s.inc = .count → s.changeItems = max → 0 < s.dec.cleared max
  item : ∀ i, s.dec = .check i ∨ s.dec = .clear i → i < s.changeItems

variable {max : ℕ} {s s' : St}

theorem rounds_init (h : 0 < max) : Rounds max (St.init max) := by
  constructor <;> simp [St.init, DecPc.cleared, h]

theorem Rounds.le (h : Rounds max s) : s.changeItems ≤ max := by
  have := h.idx
  have := h.count
  omega

theorem Rounds.incStep (h : Rounds max s) (hok : Ordered max s .inc) (hs : incStep max s = some s') :
    Rounds max s' := by
  obtain ⟨hidx, hcount, hcl, hones, hst, hearly, hitem⟩ := h
  unfold Atomic.incStep at hs
  split at hs
  · rename_i hp
    obtain rfl := Option.some.inj hs
    split
    · exact ⟨hidx, hcount, hcl, hones, hst, hearly, hitem⟩
    · rename_i hz
      refine ⟨hidx, hcount, hcl, hones, by simp, fun _ hmax => ?_, hitem⟩
      -- the item was found clear, so in a complete round the decreaser is past it
      simp only at hmax ⊢
      by_contra h0
      have hone := hones s.i (by omega) (by omega)
      exact hz (by simp [hone])
  · rename_i hp
    obtain rfl := Option.some.inj hs
    refine ⟨hidx, hcount, hcl, fun j hd hj => ?_, by simp, fun _ => hearly (.inl hp), hitem⟩
    by_cases hji : j = s.i
    · simp [hji]
    · simpa [hji] using hones j hd hj
  · rename_i hp
    have hlt : s.changeItems < max := hok hp
    have hci : s.changeItems = s.i := by omega
    have hones' : ∀ j, s.dec.cleared max ≤ j → j < s.changeItems + 1 → s.arr j = 1 := by
      intro j hd hj
      rcases Nat.lt_succ_iff_lt_or_eq.1 hj with hj | rfl
      · exact hones j hd hj
      · exact hci ▸ hst hp
    have hitem' : ∀ i, s.dec = .check i ∨ s.dec = .clear i → i < s.changeItems + 1 :=
      fun i hi => Nat.lt_succ_of_lt (hitem i hi)
    obtain rfl := Option.some.inj hs
    unfold St.nextItem
    split
    · rename_i hnext
      exact ⟨hnext, .inl (by simp [hci]), Nat.le_succ_of_le hcl, hones', by simp, by simp, hitem'⟩
    · rename_i hnext
      have hmax : s.changeItems + 1 = max := by simp only at hnext; omega
      refine ⟨by simp only; omega, .inr ⟨hmax, rfl⟩, Nat.le_succ_of_le hcl, hones', ?_, ?_, hitem'⟩
      · simp only; split <;> simp
      · simp only; split <;> simp
  · simp at hs

theorem Rounds.decStep (h : Rounds max s) (hok : Ordered max s .dec) (hs : decStep s = some s') : Rounds max s' := by
  have hle := h.le
  obtain ⟨hidx, hcount, hcl, hones, hst, hearly, hitem⟩ := h
  unfold Atomic.decStep at hs
  split at hs
  · rename_i hp
    obtain rfl := Option.some.inj hs
    split
    · exact ⟨hidx, hcount, hcl, hones, hst, hearly, hitem⟩
    · simp only [hp, DecPc.cleared] at hcl hones hearly
      exact ⟨hidx, hcount, hcl, hones, hst, hearly, by simp⟩
  · rename_i i hp
    obtain rfl := Option.some.inj hs
    simp only [hp, DecPc.cleared] at hcl hones hearly
    by_cases hi : i < s.changeItems
    · simp only [hi, if_true]
      exact ⟨hidx, hcount, hcl, hones, hst, hearly, by simp [hi]⟩
    · have hmax : s.changeItems = max := hok (by simp [hp, DecPc.ends]; omega)
      simp only [hi, if_false]
      refine ⟨hidx, hcount, hmax.ge, fun j hd hj => ?_, hst, fun _ _ => ?_, by simp⟩
      · simp only [DecPc.cleared] at hd hj
        omega
      · simp only [DecPc.cleared]
        omega
  · rename_i i hp
    obtain rfl := Option.some.inj hs
    have hi := hitem i (.inl hp)
    simp only [hp, DecPc.cleared] at hcl hones hearly
    rw [if_pos (hones i le_rfl hi)]
    exact ⟨hidx, hcount, hcl, hones, hst, hearly, by simp [hi]⟩
  · rename_i i hp
    obtain rfl := Option.some.inj hs
    have hi := hitem i (.inr hp)
    simp only [hp, DecPc.cleared] at hcl hones hearly
    refine ⟨hidx, hcount, hi, fun j hd hj => ?_, fun hc => ?_, fun _ _ => Nat.succ_pos i, by simp⟩
    · simp only [DecPc.cleared] at hd
      simpa [show j ≠ i by omega] using hones j (by omega) hj
    · -- the stored item is not the one that is cleared: it lies above, or the decreaser is past it
      have hne : s.i ≠ i := by
        rcases hcount with hci | ⟨hmax, h0⟩
        · omega
        · have := hearly (.inr hc) hmax
          omega
      simpa [hne] using hst hc
  · rename_i hp
    obtain rfl := Option.some.inj hs
    simp only [hp, DecPc.cleared] at hcl
    have h0 : s.i = 0 := by omega
    have hwait : (if s.decLoop + 1 < TESTLOOPCNT then DecPc.wait else .returned).cleared max = 0 := by
      split <;> rfl
    refine ⟨hidx, .inl h0.symm, by simp [hwait], by simp, hst, fun _ hmax => ?_, ?_⟩
    · simp only at hmax; omega
    · simp only; split <;> simp
  · simp at hs
  · simp at hs

theorem Rounds.step {a : Act} (h : Rounds max s) (hok : Ordered max s a) (hs : step max s a = some s') :
    Rounds max s' := by
  unfold Atomic.step at hs
  split at hs
  · simp at hs
  · cases a with
    | inc => exact h.incStep hok hs
    | dec => exact h.decStep hok hs

/-! ## The assertion -/

/-- A run into the failing assertion.  With more than one item, the decreaser clears and resets after the first one,
so the second is counted as if it were the first.  With a single item, the increaser counts it again before the
decreaser's loop ends. -/
def hastyRun (max : ℕ) : List Act :=
  [Act.inc, .inc, .inc, .dec, .dec, .dec, .dec] ++
    if max = 1 then [Act.inc, .inc, .inc, .dec] else [Act.dec, .dec, .inc, .inc, .inc, .dec, .dec]

/-- The assertion is about to be executed on an item that is not set. -/
def St.fails (s : St) : Bool :=
  match s.dec with
  | .check i => decide (s.arr i ≠ 1)
  | _ => false

theorem hastyRun_fails (h : 0 < max) (hlen : max < ARRLEN) :
    ∃ s i, Reach (step max) Any (St.init max) s ∧ s.dec = .check i ∧ s.arr i ≠ 1 := by
  have hall : ∀ m < ARRLEN, 0 < m → (runs (step m) Any (St.init m) (hastyRun m)).map St.fails = some true := by
    decide
  obtain ⟨s, hs, hf⟩ := reach_of_runs _ _ _ _ _ (hall max hlen h)
  unfold St.fails at hf
  split at hf
  · rename_i i hi
    exact ⟨s, i, hs, hi, of_decide_eq_true hf⟩
  · simp at hf

/-- **The assertion of `decreaser_main`.**  It holds each time it is executed, on an item inside the array, in every run
whose rounds are kept apart; with every `max_change_items` there are runs in which it fails. -/
theorem assertion_holds_in_order (h : 0 < max) (hlen : max < ARRLEN) :
    (∀ s i, Reach (step max) (Ordered max) (St.init max) s → s.dec = .check i → i < ARRLEN ∧ s.arr i = 1) ∧
    ∃ s i, Reach (step max) Any (St.init max) s ∧ s.dec = .check i ∧ s.arr i ≠ 1 := by
  refine ⟨fun s i hr hp => ?_, hastyRun_fails h hlen⟩
  have hR : Rounds max s := hr.invariant (Rounds max) (rounds_init h) fun _ _ _ _ hI hok hs => hI.step hok hs
  have hi := hR.item i (.inl hp)
  have hle := hR.le
  exact ⟨by omega, hR.ones i (by simp [hp, DecPc.cleared]) hi⟩

/-- Two items: the increaser counts both, then the decreaser clears both. -/
def twoItems : List Act := List.replicate 6 .inc ++ List.replicate 9 .dec

theorem assertion_holds_in_second_round : ∃ s, Reach (step 2) (Ordered 2) (St.init 2) s ∧ s.decLoop = 1 ∧
    s.dec = .check 1 ∧ s.arr 1 = 1 := by
  obtain ⟨s, hs, hp⟩ := reach_of_runs (step 2) (Ordered 2) (St.init 2)
    (twoItems ++ (List.replicate 6 .inc ++ List.replicate 5 .dec)) (fun s => decide (s.decLoop = 1 ∧ s.dec = .check 1))
    (by decide)
  obtain ⟨hround, hp⟩ := of_decide_eq_true hp
  exact ⟨s, hs, hround, hp, ((assertion_holds_in_order (by decide) (by decide)).1 s 1 hs hp).2⟩

theorem assertion_fails_on_second_item : ¬ ∀ max, 0 < max → max < ARRLEN → ∀ s i,
    Reach (step max) Any (St.init max) s → s.dec = .check i → s.arr i = 1 := by
  intro h
  obtain ⟨s, i, hs, hp, hne⟩ := hastyRun_fails (show 0 < 2 by decide) (by decide)
  exact hne (h 2 (by decide) (by decide) s i hs hp)

end CppNotes.Atomic
