import Mathlib.Algebra.Ring.Nat
import Mathlib.Data.Nat.Log

/-!
# Hexadecimal numbers

`hexDigits k n` is `n` with `k` upper-case digits, `padHex w n` what `%0wX` prints.  Digits are appended group by group
(`hexDigits_add`), and `k` of them determine a number below `16 ^ k` (`hexDigits_inj`).
-/

namespace CppNotes.Lib

def hexDigit (d : ℕ) : Char :=
  ['0', '1', '2', '3', '4', '5', '6', '7', '8', '9', 'A', 'B', 'C', 'D', 'E', 'F'].getD d '0'

/-- The last `k` digits. -/
def hexDigits : ℕ → ℕ → List Char
  | 0, _ => []
  | k + 1, n => hexDigits k (n / 16) ++ [hexDigit (n % 16)]

/-- `%0wX` -/
def padHex (w n : ℕ) : List Char := hexDigits (max w (Nat.log 16 n + 1)) n

theorem hexDigits_length (k n : ℕ) : (hexDigits k n).length = k := by
  induction k generalizing n with
  | zero => rfl
  | succ k ih => rw [hexDigits, List.length_append, ih, List.length_singleton]

theorem hexDigit_inj {c d : ℕ} (hc : c < 16) (hd : d < 16) (h : hexDigit c = hexDigit d) : c = d := by
  have hall : ∀ c : Fin 16, ∀ d : Fin 16, hexDigit c = hexDigit d → c = d := by decide
  exact congrArg Fin.val (hall ⟨c, hc⟩ ⟨d, hd⟩ h)

theorem hexDigits_inj {k m n : ℕ} (hm : m < 16 ^ k) (hn : n < 16 ^ k) (h : hexDigits k m = hexDigits k n) : m = n := by
  induction k generalizing m n with
  | zero => omega
  | succ k ih =>
    obtain ⟨hinit, hlast⟩ := List.append_inj h (by rw [hexDigits_length, hexDigits_length])
    have hq := ih (Nat.div_lt_of_lt_mul (by rwa [← Nat.pow_succ'])) (Nat.div_lt_of_lt_mul (by rwa [← Nat.pow_succ']))
      hinit
    have hr := hexDigit_inj (Nat.mod_lt m (by decide)) (Nat.mod_lt n (by decide)) (List.cons.inj hlast).1
    omega

theorem padHex_of_lt {k n : ℕ} (hk : 0 < k) (h : n < 16 ^ k) : padHex k n = hexDigits k n := by
  have hlog : Nat.log 16 n < k := Nat.log_lt_of_lt_pow' hk.ne' h
  rw [padHex, max_eq_left (by omega)]

/-- The digits above the last `l`, and those. -/
theorem hexDigits_add (k l n : ℕ) : hexDigits (k + l) n = hexDigits k (n / 16 ^ l) ++ hexDigits l n := by
  induction l generalizing n with
  | zero => rw [Nat.add_zero, Nat.pow_zero, Nat.div_one, hexDigits, List.append_nil]
  | succ l ih =>
    rw [← Nat.add_assoc, hexDigits, ih, hexDigits, Nat.div_div_eq_div_mul, ← Nat.pow_succ', List.append_assoc]

theorem hexDigits_mod (k n : ℕ) : hexDigits k (n % 16 ^ k) = hexDigits k n := by
  induction k generalizing n with
  | zero => rfl
  | succ k ih =>
    have hlast : n % 16 ^ (k + 1) % 16 = n % 16 := Nat.mod_mod_of_dvd n (Nat.pow_succ' ▸ Nat.dvd_mul_right 16 _)
    rw [hexDigits, hexDigits, hlast, Nat.pow_succ', Nat.mod_mul_right_div_self, ih]

end CppNotes.Lib
