import Mathlib.Order.Basic
import Mathlib.Logic.Function.Iterate

/-!
# Loops with fuel, and calls that stop

`loop cond body fuel s` runs `while (cond) body` from `s` for at most `fuel` tests of the condition; `none` says that
the fuel ran out.  A loop whose state gets smaller ends with enough fuel, a loop whose condition never fails does not
end with any, and a loop that ends keeps its invariant.  `Visits` are the states in which the condition is tested.

A call that may stop the process is an `Except`; `bind_eq_ok` takes a row of such calls apart.
-/

namespace CppNotes.Lib

variable {σ : Type} {cond : σ → Bool} {body : σ → σ}

def loop (cond : σ → Bool) (body : σ → σ) : ℕ → σ → Option σ
  | 0, _ => none
  | fuel + 1, s => if cond s then loop cond body fuel (body s) else some s

/-- **Termination.**  `inv` may be used for the measure to go down. -/
theorem loop_isSome (inv : σ → Prop) (μ : σ → ℕ) (hinv : ∀ s, inv s → cond s = true → inv (body s))
    (hμ : ∀ s, inv s → cond s = true → μ (body s) < μ s) {fuel : ℕ} {s : σ} (hs : inv s) (hfuel : μ s < fuel) :
    (loop cond body fuel s).isSome = true := by
  induction fuel generalizing s with
  | zero => omega
  | succ fuel ih =>
    unfold loop
    split
    · rename_i hc
      have := hμ s hs hc
      exact ih (hinv s hs hc) (by omega)
    · rfl

/-- **Partial correctness.**  What the body keeps holds at the end, where the condition does not. -/
theorem loop_spec (inv : σ → Prop) (hinv : ∀ s, inv s → cond s = true → inv (body s)) {fuel : ℕ} {s s' : σ}
    (hs : inv s) (h : loop cond body fuel s = some s') : inv s' ∧ cond s' = false := by
  induction fuel generalizing s with
  | zero => simp [loop] at h
  | succ fuel ih =>
    unfold loop at h
    split at h
    · rename_i hc
      exact ih (hinv s hs hc) h
    · rename_i hc
      obtain rfl := Option.some.inj h
      exact ⟨hs, by simpa using hc⟩

/-- A loop whose condition always holds never ends. -/
theorem loop_eq_none (inv : σ → Prop) (hinv : ∀ s, inv s → cond s = true ∧ inv (body s)) (fuel : ℕ) {s : σ}
    (hs : inv s) : loop cond body fuel s = none := by
  induction fuel generalizing s with
  | zero => rfl
  | succ fuel ih =>
    unfold loop
    rw [if_pos (hinv s hs).1]
    exact ih (hinv s hs).2

/-- A loop ends when its condition fails after `k` turns. -/
theorem loop_isSome_of_iterate {fuel : ℕ} {s : σ} (k : ℕ) (hk : k < fuel) (hc : cond (body^[k] s) = false) :
    (loop cond body fuel s).isSome = true := by
  induction k generalizing fuel s with
  | zero =>
    obtain ⟨m, rfl⟩ := Nat.exists_eq_add_of_lt hk
    have hc : cond s = false := hc
    simp [loop, hc]
  | succ k ih =>
    obtain ⟨m, rfl⟩ : ∃ m, fuel = m + 1 := ⟨fuel - 1, by omega⟩
    unfold loop
    split
    · exact ih (by omega) hc
    · rfl

/-- The states in which the loop tests its condition. -/
inductive Visits (cond : σ → Bool) (body : σ → σ) (s₀ : σ) : σ → Prop
  | init : Visits cond body s₀ s₀
  | next {s : σ} : Visits cond body s₀ s → cond s = true → Visits cond body s₀ (body s)

/-! ## Calls in a row -/

section Calls

variable {ε α β : Type}

@[simp] theorem ok_bind (a : α) (f : α → Except ε β) : (Except.ok a >>= f) = f a := rfl

theorem bind_eq_ok {x : Except ε α} {f : α → Except ε β} {b : β} : (x >>= f) = .ok b ↔ ∃ a, x = .ok a ∧ f a = .ok b := by
  cases x with
  | error e => simp [bind, Except.bind]
  | ok a => simp

end Calls

end CppNotes.Lib
