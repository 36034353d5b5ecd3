import CppNotes.Lib.Run
import Mathlib.Algebra.Order.BigOperators.Group.Finset

/-!
# Locks on regions

Processes take and drop locks on regions, shared or exclusive.  A lock is granted when no other process holds a lock on a
region that overlaps, unless both are shared; a process that asks for a lock waits until it is granted.  A process is what it
holds and what it has still to do.

If every process asks only for regions of a rank above those that others could wait for because of what it holds
(`LockOrdered`), no wait is in vain: from every state that is reached all processes come to their end (`lockStep_finishes`).
-/

namespace CppNotes.Lib

inductive LockAct (R : Type) where
  | take (excl : Bool) (r : R)
  | drop (r : R)
  deriving DecidableEq

structure Locker (R : Type) where
  held : List (R × Bool)
  todo : List (LockAct R)
  deriving DecidableEq

section Locks

variable {ι R : Type} [Fintype ι] [DecidableEq ι] [DecidableEq R] (overlap : R → R → Bool)

/-- Two locks that two processes may hold at once. -/
def compatible (a b : R × Bool) : Bool := !overlap a.1 b.1 || (!a.2 && !b.2)

def granted (s : ι → Locker R) (i : ι) (l : R × Bool) : Bool :=
  decide (∀ j, j ≠ i → (s j).held.all (compatible overlap l))

/-- The process goes on, if it does not have to wait. -/
def lockStep (s : ι → Locker R) (i : ι) : Option (ι → Locker R) :=
  match (s i).todo with
  | [] => none
  | .take excl r :: rest =>
    if granted overlap s i (r, excl) then some (Function.update s i ⟨(r, excl) :: (s i).held, rest⟩) else none
  | .drop r :: rest => some (Function.update s i ⟨(s i).held.filter (·.1 ≠ r), rest⟩)

/-- Whoever waits for a region because of a lock that is held waits for one of a smaller rank than the region that is asked
for, and nothing is held at the end. -/
def LockOrdered (rank : R → ℕ) : List (R × Bool) → List (LockAct R) → Prop
  | held, [] => held = []
  | held, .take excl r :: acts =>
    (∀ h ∈ held, ∀ r', overlap r' h.1 → rank r' < rank r) ∧ LockOrdered rank ((r, excl) :: held) acts
  | held, .drop r :: acts => LockOrdered rank (held.filter (·.1 ≠ r)) acts

variable {overlap} {rank : R → ℕ} {s s' : ι → Locker R}

/-- One thing after the other. -/
theorem LockOrdered.append {held : List (R × Bool)} {acts acts' : List (LockAct R)}
    (h : LockOrdered overlap rank held acts) (h' : LockOrdered overlap rank [] acts') :
    LockOrdered overlap rank held (acts ++ acts') := by
  induction acts generalizing held with
  | nil =>
    obtain rfl : held = [] := h
    exact h'
  | cons act acts ih =>
    cases act with
    | take excl r => exact ⟨h.1, ih h.2⟩
    | drop r => exact ih h

/-- A lock that is given back at once. -/
theorem LockOrdered.takeDrop {held : List (R × Bool)} {r : R} {acts : List (LockAct R)}
    (h : LockOrdered overlap rank held acts) (hwait : ∀ h ∈ held, ∀ r', overlap r' h.1 → rank r' < rank r)
    (hne : ∀ h ∈ held, h.1 ≠ r) (excl : Bool) :
    LockOrdered overlap rank held (.take excl r :: .drop r :: acts) := by
  have hfilter : ((r, excl) :: held).filter (·.1 ≠ r) = held := by
    rw [List.filter_cons_of_neg (by simp), List.filter_eq_self]
    simpa using hne
  refine ⟨hwait, ?_⟩
  rw [LockOrdered, hfilter]
  exact h

/-- One lock. -/
theorem lockOrdered_one (excl : Bool) (r : R) : LockOrdered overlap rank [] [.take excl r, .drop r] := by
  have hend : LockOrdered overlap rank [] [] := rfl
  exact hend.takeDrop (by simp) (by simp) excl

/-- A process that cannot go on waits for a region that another process has locked. -/
theorem lockStep_eq_none {i : ι} (hne : (s i).todo ≠ []) (h : lockStep overlap s i = none) :
    ∃ excl r rest, (s i).todo = .take excl r :: rest ∧ ∃ j, ∃ l ∈ (s j).held, overlap r l.1 = true := by
  unfold lockStep at h
  split at h
  · rename_i htodo
    exact absurd htodo hne
  · rename_i excl r rest htodo
    refine ⟨excl, r, rest, htodo, ?_⟩
    by_contra hno
    push Not at hno
    have hgrant : granted overlap s i (r, excl) = true := by
      simp only [granted, compatible, decide_eq_true_eq, List.all_eq_true]
      intro j _ l hl
      have := hno j l hl
      simp_all
    simp [hgrant] at h
  · simp at h

theorem lockOrdered_step (h : ∀ i, LockOrdered overlap rank (s i).held (s i).todo) {i : ι}
    (hs : lockStep overlap s i = some s') :
    (∀ j, LockOrdered overlap rank (s' j).held (s' j).todo) ∧
      ∑ j, (s' j).todo.length < ∑ j, (s j).todo.length := by
  have hi := h i
  -- the process that goes on is ordered, and has one thing less to do
  obtain ⟨p, rfl, hp, hlt⟩ : ∃ p, s' = Function.update s i p ∧ LockOrdered overlap rank p.held p.todo ∧
      p.todo.length < (s i).todo.length := by
    unfold lockStep at hs
    split at hs
    · simp at hs
    · rename_i excl r rest htodo
      rw [htodo] at hi ⊢
      split at hs
      · exact ⟨_, (Option.some.inj hs).symm, hi.2, by simp⟩
      · simp at hs
    · rename_i r rest htodo
      rw [htodo] at hi ⊢
      exact ⟨_, (Option.some.inj hs).symm, hi, by simp⟩
  constructor
  · intro j
    by_cases hj : j = i
    · subst hj
      rwa [Function.update_self]
    · rw [Function.update_of_ne hj]
      exact h j
  · apply Finset.sum_lt_sum
    · intro j _
      by_cases hj : j = i
      · subst hj
        rw [Function.update_self]
        exact hlt.le
      · rw [Function.update_of_ne hj]
    · exact ⟨i, Finset.mem_univ i, by rw [Function.update_self]; exact hlt⟩

/-- **Somebody can go on**, as long as one process is not at its end. -/
theorem exists_lockStep {bound : ℕ} (hrank : ∀ r, rank r ≤ bound)
    (h : ∀ i, LockOrdered overlap rank (s i).held (s i).todo) {i : ι} (hne : (s i).todo ≠ []) :
    ∃ j s', lockStep overlap s j = some s' := by
  by_contra hno
  push Not at hno
  have hnone : ∀ j, lockStep overlap s j = none := fun j => Option.eq_none_iff_forall_ne_some.mpr (hno j)
  -- along the waits the rank grows without end
  have hclimb : ∀ n, ∃ i excl r rest, (s i).todo = .take excl r :: rest ∧ n ≤ rank r := by
    intro n
    induction n with
    | zero =>
      obtain ⟨excl, r, rest, htodo, -⟩ := lockStep_eq_none hne (hnone i)
      exact ⟨i, excl, r, rest, htodo, Nat.zero_le _⟩
    | succ n ih =>
      obtain ⟨i, excl, r, rest, htodo, hn⟩ := ih
      obtain ⟨_, _, _, htodo', j, l, hl, hov⟩ := lockStep_eq_none (by rw [htodo]; simp) (hnone i)
      rw [htodo] at htodo'
      obtain ⟨hact, -⟩ := List.cons.inj htodo'
      obtain ⟨-, rfl⟩ := LockAct.take.inj hact
      have hj := h j
      have hne' : (s j).todo ≠ [] := by
        intro hnil
        rw [hnil] at hj
        have hheld : (s j).held = [] := hj
        rw [hheld] at hl
        simp at hl
      obtain ⟨excl', r', rest', htodo', -⟩ := lockStep_eq_none hne' (hnone j)
      rw [htodo'] at hj
      exact ⟨j, excl', r', rest', htodo', Nat.succ_le_of_lt (hn.trans_lt (hj.1 l hl r hov))⟩
  obtain ⟨_, _, r, _, -, hr⟩ := hclimb (bound + 1)
  have := hrank r
  omega

/-- **All processes come to their end**, whatever order they went on in before. -/
theorem lockStep_finishes {bound : ℕ} (hrank : ∀ r, rank r ≤ bound)
    (h : ∀ i, LockOrdered overlap rank (s i).held (s i).todo) :
    ∃ t, Reach (lockStep overlap) Any s t ∧ ∀ i, t i = ⟨[], []⟩ := by
  induction hn : ∑ j, (s j).todo.length using Nat.strong_induction_on generalizing s with
  | _ n ih =>
    subst hn
    by_cases hall : ∀ i, (s i).todo = []
    · refine ⟨s, .init, fun i => ?_⟩
      have hi := h i
      rw [hall i] at hi
      have hheld : (s i).held = [] := hi
      rw [← hheld, ← hall i]
    · push Not at hall
      obtain ⟨i, hi⟩ := hall
      obtain ⟨j, s', hs⟩ := exists_lockStep hrank h hi
      obtain ⟨h', hlt⟩ := lockOrdered_step h hs
      obtain ⟨t, ht, hend⟩ := ih _ hlt h' rfl
      exact ⟨t, ht.head trivial hs, hend⟩

end Locks

end CppNotes.Lib
