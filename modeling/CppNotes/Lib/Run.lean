import Mathlib.Data.Fintype.BigOperators

/-!
# Machines that run against an environment

A machine is a partial step function `step : σ → α → Option σ`.  The label `α` carries whatever the
environment decides at that step (which thread moves, what a system call answers); `none` says that
the label cannot happen in this state.

* `Reach step ok s₀ s` — `s` is reached from `s₀` by steps that all meet `ok`, a condition on the
  state before the step and on its label.  `Any` is the condition that every step meets.
* `Reach.invariant` — what holds at the start and is kept by every step holds in every state reached.
* `runs` — the run along a list of labels, for evaluating concrete runs; `reach_of_runs` turns a test that
  such a run passes into a `Reach`.
* `tally` — a count over all threads, and how it changes when one thread moves.
-/

namespace CppNotes.Lib

variable {σ α : Type}

/-- The states reached from `s₀` by steps that meet `ok`. -/
inductive Reach (step : σ → α → Option σ) (ok : σ → α → Prop) (s₀ : σ) : σ → Prop
  | init : Reach step ok s₀ s₀
  | next {s s' : σ} {a : α} : Reach step ok s₀ s → ok s a → step s a = some s' → Reach step ok s₀ s'

/-- Every step is allowed. -/
def Any (_ : σ) (_ : α) : Prop := True

variable {step : σ → α → Option σ} {ok : σ → α → Prop} {s₀ s s' : σ}

/-- **The invariant rule.**  The step hypothesis may use that the state before the step is reached. -/
theorem Reach.invariant (I : σ → Prop) (h : Reach step ok s₀ s) (h₀ : I s₀)
    (hstep : ∀ s s' a, Reach step ok s₀ s → I s → ok s a → step s a = some s' → I s') : I s := by
  induction h with
  | init => exact h₀
  | next hr hok hs ih => exact hstep _ _ _ hr ih hok hs

/-- A weaker condition on the steps reaches at least as much. -/
theorem Reach.mono {ok' : σ → α → Prop} (h : Reach step ok s₀ s) (hm : ∀ s a, ok s a → ok' s a) :
    Reach step ok' s₀ s := by
  induction h with
  | init => exact .init
  | next _ hok hs ih => exact .next ih (hm _ _ hok) hs

theorem Reach.any (h : Reach step ok s₀ s) : Reach step Any s₀ s := h.mono fun _ _ _ => trivial

/-- A step before a run. -/
theorem Reach.head {a : α} {t : σ} (h : Reach step ok s t) (hok : ok s₀ a) (hs : step s₀ a = some s) :
    Reach step ok s₀ t := by
  induction h with
  | init => exact .next .init hok hs
  | next _ hok' hs' ih => exact .next ih hok' hs'

/-- A run behind a run. -/
theorem Reach.append {t : σ} (h : Reach step ok s₀ s) (h' : Reach step ok s t) : Reach step ok s₀ t := by
  induction h' with
  | init => exact h
  | next _ hok hs ih => exact .next ih hok hs

/-! ## Concrete runs -/

instance (s : σ) (a : α) : Decidable (Any s a) := isTrue trivial

/-- The run along a list of labels; `none` as soon as a label breaks the condition or cannot happen. -/
def runs (step : σ → α → Option σ) (ok : σ → α → Prop) [∀ s a, Decidable (ok s a)] : σ → List α → Option σ
  | s, [] => some s
  | s, a :: as => if ok s a then (step s a).bind fun s' => runs step ok s' as else none

theorem Reach.runs [∀ s a, Decidable (ok s a)] {as : List α} (hs : Reach step ok s₀ s)
    (hr : runs step ok s as = some s') : Reach step ok s₀ s' := by
  induction as generalizing s with
  | nil =>
    simp only [Lib.runs, Option.some.injEq] at hr
    exact hr ▸ hs
  | cons a as ih =>
    simp only [Lib.runs] at hr
    split at hr
    · rename_i hok
      obtain ⟨t, ht, hr⟩ := Option.bind_eq_some_iff.1 hr
      exact ih (.next hs hok ht) hr
    · simp at hr

/-- A test that a concrete run passes holds in some reached state. -/
theorem reach_of_runs (step : σ → α → Option σ) (ok : σ → α → Prop) [∀ s a, Decidable (ok s a)] (s₀ : σ)
    (as : List α) (p : σ → Bool) (hr : (runs step ok s₀ as).map p = some true) :
    ∃ s, Reach step ok s₀ s ∧ p s = true := by
  obtain ⟨s, hs, hp⟩ := Option.map_eq_some_iff.1 hr
  exact ⟨s, Reach.init.runs hs, hp⟩

/-- A run is as short as a measure that every step lowers. -/
theorem length_add_le_of_runs [∀ s a, Decidable (ok s a)] (f : σ → ℕ)
    (hf : ∀ s s' a, Reach step ok s₀ s → ok s a → step s a = some s' → f s' < f s) {as : List α}
    (hs : Reach step ok s₀ s) (hr : runs step ok s as = some s') : as.length + f s' ≤ f s := by
  induction as generalizing s with
  | nil =>
    simp only [Lib.runs, Option.some.injEq] at hr
    simp [hr]
  | cons a as ih =>
    simp only [Lib.runs] at hr
    split at hr
    · rename_i hok
      obtain ⟨t, ht, hr⟩ := Option.bind_eq_some_iff.1 hr
      have hlt := hf _ _ _ hs hok ht
      have hle := ih (.next hs hok ht) hr
      rw [List.length_cons]
      omega
    · simp at hr

/-! ## Counting threads -/

section Tally

variable {T : Type} [Fintype T]

/-- How many threads satisfy `f`. -/
def tally (f : T → Bool) : ℕ := ∑ t, (f t).toNat

theorem tally_eq_zero {f : T → Bool} : tally f = 0 ↔ ∀ t, f t = false := by
  simp [tally, Finset.sum_eq_zero_iff]

/-- Only thread `t` changes: its old value leaves the sum and its new one enters it. -/
theorem sum_change [DecidableEq T] {f g : T → ℕ} (t : T) (h : ∀ u, u ≠ t → g u = f u) :
    ∑ u, g u + f t = ∑ u, f u + g t := by
  have h₁ := Finset.add_sum_erase Finset.univ g (Finset.mem_univ t)
  have h₂ := Finset.add_sum_erase Finset.univ f (Finset.mem_univ t)
  have h₃ : ∑ u ∈ Finset.univ.erase t, g u = ∑ u ∈ Finset.univ.erase t, f u :=
    Finset.sum_congr rfl fun u hu => h u (Finset.ne_of_mem_erase hu)
  omega

/-- Only thread `t` changes: its old value leaves the count and its new one enters it. -/
theorem tally_change [DecidableEq T] {f g : T → Bool} (t : T) (h : ∀ u, u ≠ t → g u = f u) :
    tally g + (f t).toNat = tally f + (g t).toNat :=
  sum_change t fun u hu => congrArg Bool.toNat (h u hu)

end Tally

end CppNotes.Lib
