import Mathlib.Data.Nat.Digits.Defs
import Mathlib.Data.List.TakeWhile
import Mathlib.Data.UInt
import Mathlib.Algebra.Ring.Nat

/-!
# Strings and decimal numbers as bytes

`cstring` is the string at the start of a buffer, up to the first NUL.

`decimal n` is what `%d` prints for a natural number, `padded w n` what `%*d` prints with the width `w`: blanks in front, and
the whole number also if it is wider.  `decimalValue` reads digits back, and `number` reads as `strtol` and its relatives do:
behind white space, with a sign, up to the first byte that is no digit.
-/

namespace CppNotes.Lib

/-- The string at the start of a buffer. -/
def cstring (buf : List UInt8) : List UInt8 := buf.takeWhile (· ≠ 0)

theorem nul_not_mem_cstring (buf : List UInt8) : 0 ∉ cstring buf := by
  intro h
  simpa using List.mem_takeWhile_imp h

theorem cstring_of_nul_not_mem {s : List UInt8} (h : 0 ∉ s) : cstring s = s :=
  List.takeWhile_eq_self_iff.mpr fun _ hx => decide_eq_true fun h0 => h (h0 ▸ hx)

theorem length_cstring_le (buf : List UInt8) : (cstring buf).length ≤ buf.length :=
  (List.takeWhile_sublist _).length_le

/-! ## Decimal numbers -/

/-- The ASCII digit. -/
def asciiDigit (d : ℕ) : UInt8 := UInt8.ofNat (48 + d)

def decimal (n : ℕ) : List UInt8 := if n = 0 then [48] else (Nat.digits 10 n).reverse.map asciiDigit

/-- The value of a row of digits. -/
def decimalValue (ds : List UInt8) : ℕ := ds.foldl (fun v d => 10 * v + (d.toNat - 48)) 0

/-- The number in a field of `w` characters. -/
def padded (w n : ℕ) : List UInt8 := List.replicate (w - (decimal n).length) 32 ++ decimal n

theorem asciiDigit_toNat {d : ℕ} (h : d < 10) : (asciiDigit d).toNat = 48 + d := by
  unfold asciiDigit
  rw [UInt8.toNat_ofNat']
  omega

theorem decimal_of_lt {n : ℕ} (h : n < 10) : decimal n = [asciiDigit n] := by
  unfold decimal
  split
  · rename_i h0
    rw [h0]
    rfl
  · rename_i h0
    rw [Nat.digits_of_lt 10 n h0 h]
    rfl

theorem decimal_of_ge {n : ℕ} (h : 10 ≤ n) : decimal n = decimal (n / 10) ++ [asciiDigit (n % 10)] := by
  have h0 : n / 10 ≠ 0 := by omega
  unfold decimal
  rw [if_neg (by omega), if_neg h0, Nat.digits_def' (by omega) (by omega), List.reverse_cons, List.map_append]
  rfl

/-- **Induction on the digits**: a single one, or one more at the end. -/
theorem decimal_induction {motive : ℕ → Prop} (one : ∀ n < 10, motive n) (more : ∀ n, 10 ≤ n → motive (n / 10) → motive n)
    (n : ℕ) : motive n := by
  induction n using Nat.strong_induction_on with
  | _ n ih =>
    rcases lt_or_ge n 10 with h | h
    · exact one n h
    · exact more n h (ih _ (by omega))

/-- Reading back what was printed. -/
theorem decimalValue_decimal (n : ℕ) : decimalValue (decimal n) = n := by
  induction n using decimal_induction with
  | one n h =>
    rw [decimal_of_lt h]
    simp [decimalValue, asciiDigit_toNat h]
  | more n h ih =>
    have hd : n % 10 < 10 := by omega
    unfold decimalValue at ih ⊢
    rw [decimal_of_ge h, List.foldl_append, ih]
    simp only [List.foldl_cons, List.foldl_nil, asciiDigit_toNat hd]
    omega

theorem decimal_digits (n : ℕ) : ∀ c ∈ decimal n, 48 ≤ c.toNat ∧ c.toNat ≤ 57 := by
  induction n using decimal_induction with
  | one n h =>
    intro c hc
    rw [decimal_of_lt h, List.mem_singleton] at hc
    rw [hc, asciiDigit_toNat h]
    omega
  | more n h ih =>
    intro c hc
    rw [decimal_of_ge h, List.mem_append, List.mem_singleton] at hc
    rcases hc with hc | rfl
    · exact ih c hc
    · rw [asciiDigit_toNat (by omega)]
      omega

/-- A byte that is no digit does not occur. -/
theorem not_mem_decimal {c : UInt8} (h : c.toNat < 48 ∨ 57 < c.toNat) (n : ℕ) : c ∉ decimal n := by
  intro hc
  have := decimal_digits n c hc
  omega

theorem decimal_length_pos (n : ℕ) : 0 < (decimal n).length := by
  rcases lt_or_ge n 10 with h | h
  · simp [decimal_of_lt h]
  · simp [decimal_of_ge h]

theorem decimal_length_le {k n : ℕ} (hk : 0 < k) (h : n < 10 ^ k) : (decimal n).length ≤ k := by
  induction k generalizing n with
  | zero => omega
  | succ k ih =>
    rcases lt_or_ge n 10 with hn | hn
    · rw [decimal_of_lt hn]
      simp
    · have hk' : 0 < k := by
        rcases Nat.eq_zero_or_pos k with rfl | hk'
        · simp only [Nat.zero_add, Nat.pow_one] at h
          omega
        · exact hk'
      have := ih hk' (n := n / 10) (by rw [Nat.pow_succ] at h; omega)
      rw [decimal_of_ge hn]
      simpa using this

theorem padded_length {w n : ℕ} (hw : 0 < w) (h : n < 10 ^ w) : (padded w n).length = w := by
  have := decimal_length_le hw h
  simp only [padded, List.length_append, List.length_replicate]
  omega

/-! ## Scanning -/

def isSpace (c : UInt8) : Bool := c = 32 || (9 ≤ c && c ≤ 13)

def isDigit (c : UInt8) : Bool := 48 ≤ c && c ≤ 57

/-- The sign and the digits at the start of a string, behind white space. -/
def scanNumber (value : List UInt8) : Bool × List UInt8 :=
  match value.dropWhile isSpace with
  | 43 :: cs => (false, cs.takeWhile isDigit)
  | 45 :: cs => (true, cs.takeWhile isDigit)
  | cs => (false, cs.takeWhile isDigit)

/-- The number at the start of the string. -/
def number (value : List UInt8) : ℤ :=
  if (scanNumber value).1 then -decimalValue (scanNumber value).2 else decimalValue (scanNumber value).2

theorem isDigit_decimal {n : ℕ} {c : UInt8} (hc : c ∈ decimal n) : isDigit c = true := by
  have h := decimal_digits n c hc
  simp only [isDigit, Bool.and_eq_true, decide_eq_true_eq, UInt8.le_iff_toNat_le]
  exact h

theorem number_decimal (k n : ℕ) : number (List.replicate k 32 ++ decimal n) = n := by
  obtain ⟨c, cs, hcs⟩ : ∃ c cs, decimal n = c :: cs := List.exists_cons_of_length_pos (decimal_length_pos n)
  have hc : 48 ≤ c.toNat ∧ c.toNat ≤ 57 := decimal_digits n c (by rw [hcs]; exact List.mem_cons_self)
  have hspace : isSpace c = false := by
    simp only [isSpace, Bool.or_eq_false_iff, decide_eq_false_iff_not, Bool.and_eq_false_iff, UInt8.le_iff_toNat_le]
    refine ⟨fun h => ?_, .inr ?_⟩
    · rw [h] at hc
      exact absurd hc.1 (by decide)
    · exact Nat.not_le.mpr (Nat.lt_of_lt_of_le (by decide) hc.1)
  have hdrop : (List.replicate k 32 ++ decimal n).dropWhile isSpace = c :: cs := by
    rw [List.dropWhile_append_of_pos fun x hx => ?_, hcs, List.dropWhile_cons_of_neg (by simp [hspace])]
    rw [List.eq_of_mem_replicate hx]
    rfl
  have hscan : scanNumber (List.replicate k 32 ++ decimal n) = (false, decimal n) := by
    have htake : (c :: cs).takeWhile isDigit = decimal n := by
      rw [← hcs]
      exact List.takeWhile_eq_self_iff.mpr fun x hx => isDigit_decimal hx
    unfold scanNumber
    rw [hdrop]
    split
    · rename_i h
      obtain ⟨rfl, -⟩ := List.cons.inj h
      exact absurd hc.1 (by decide)
    · rename_i h
      obtain ⟨rfl, -⟩ := List.cons.inj h
      exact absurd hc.1 (by decide)
    · rw [htake]
  rw [number, hscan]
  exact congrArg Nat.cast (decimalValue_decimal n)

end CppNotes.Lib
