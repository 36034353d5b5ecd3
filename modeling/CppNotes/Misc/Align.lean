import CppNotes.Lib.Word
import Mathlib.Algebra.Order.Floor.Div
import Mathlib.Data.BitVec

/-!
# Rounding up (`DIV_ROUND_UP`, `ALIGN`)

`ALIGN` rounds up with a mask and `DIV_ROUND_UP` with a division.  For a power of two both give the least multiple that is
not below, as long as the sum fits into the word.
-/

namespace CppNotes.Misc

open CppNotes.Lib

variable {w k : ℕ}

/-- `DIV_ROUND_UP(n, d)` -/
def divRoundUp (n d : BitVec w) : BitVec w := (n + d - 1#w) / d

/-- `ALIGN_MASK(x, mask)` -/
def alignMask (x mask : BitVec w) : BitVec w := (x + mask) &&& ~~~mask

/-- `ALIGN(x, a)` -/
def align (x a : BitVec w) : BitVec w := alignMask x (a - 1#w)

/-! ## Multiples -/

theorem isLeast_mul_ceilDiv {a : ℕ} (ha : 0 < a) (x : ℕ) : IsLeast {m | a ∣ m ∧ x ≤ m} (a * (x ⌈/⌉ a)) := by
  refine ⟨⟨Nat.dvd_mul_right a _, le_smul_ceilDiv ha⟩, ?_⟩
  rintro m ⟨⟨q, rfl⟩, hm⟩
  exact Nat.mul_le_mul_left a ((ceilDiv_le_iff_le_smul ha).mpr hm)

/-! ## Powers of two -/

section Power

variable {x a : BitVec w}

theorem toNat_pred (ha : a.toNat = 2 ^ k) : (a - 1#w).toNat = 2 ^ k - 1 := by
  have hpos : 0 < 2 ^ k := Nat.two_pow_pos k
  have hone : (1#w).toNat = 1 := Nat.mod_eq_of_lt (Nat.lt_of_le_of_lt hpos (ha ▸ a.isLt))
  rw [BitVec.toNat_sub_of_le (BitVec.le_def.mpr (by omega)), ha, hone]

/-- The sum that both macros start with. -/
theorem toNat_sum (ha : a.toNat = 2 ^ k) (h : x.toNat + a.toNat - 1 < 2 ^ w) :
    (x + (a - 1#w)).toNat = x.toNat + 2 ^ k - 1 := by
  have hpos : 0 < 2 ^ k := Nat.two_pow_pos k
  rw [BitVec.toNat_add, toNat_pred ha, Nat.mod_eq_of_lt (by omega)]
  omega

theorem toNat_align (ha : a.toNat = 2 ^ k) (h : x.toNat + a.toNat - 1 < 2 ^ w) :
    (align x a).toNat = 2 ^ k * (x.toNat ⌈/⌉ 2 ^ k) := by
  rw [align, alignMask, toNat_and_not_mask (toNat_pred ha), toNat_sum ha h, Nat.ceilDiv_eq_add_pred_div, Nat.mul_comm]

theorem toNat_divRoundUp (ha : a.toNat = 2 ^ k) (h : x.toNat + a.toNat - 1 < 2 ^ w) :
    (divRoundUp x a).toNat = x.toNat ⌈/⌉ 2 ^ k := by
  -- the sum may wrap around before 1 is subtracted
  rw [divRoundUp, add_sub_assoc, BitVec.toNat_udiv, toNat_sum ha h, ha, Nat.ceilDiv_eq_add_pred_div]

theorem align_isLeast (ha : a.toNat = 2 ^ k) (h : x.toNat + a.toNat - 1 < 2 ^ w) :
    IsLeast {m | a.toNat ∣ m ∧ x.toNat ≤ m} (align x a).toNat := by
  rw [toNat_align ha h, ha]
  exact isLeast_mul_ceilDiv (Nat.two_pow_pos k) x.toNat

theorem align_eq_mul (ha : a.toNat = 2 ^ k) (h : x.toNat + a.toNat - 1 < 2 ^ w) : align x a = divRoundUp x a * a := by
  apply BitVec.eq_of_toNat_eq
  rw [BitVec.toNat_mul, toNat_divRoundUp ha h, ha, Nat.mul_comm, ← toNat_align ha h, Nat.mod_eq_of_lt (align x a).isLt]

/-- A multiple of `a` below the end of the word has room for the sum. -/
theorem sum_lt_of_dvd (ha : a.toNat = 2 ^ k) (h : a.toNat ∣ x.toNat) : x.toNat + a.toNat - 1 < 2 ^ w := by
  have hk : k < w := (Nat.pow_lt_pow_iff_right (by decide)).mp (ha ▸ a.isLt)
  obtain ⟨q, hq⟩ := ha ▸ h
  obtain ⟨p, hp⟩ : 2 ^ k ∣ 2 ^ w := Nat.pow_dvd_pow 2 hk.le
  have hlt : q < p := Nat.lt_of_mul_lt_mul_left (hq ▸ hp ▸ x.isLt : 2 ^ k * q < 2 ^ k * p)
  have hle : 2 ^ k * q + 2 ^ k ≤ 2 ^ k * p := Nat.mul_le_mul_left (2 ^ k) hlt
  have hpos : 0 < 2 ^ k := Nat.two_pow_pos k
  omega

theorem align_align (ha : a.toNat = 2 ^ k) (h : x.toNat + a.toNat - 1 < 2 ^ w) : align (align x a) a = align x a := by
  have hleast := align_isLeast ha h
  have hagain := align_isLeast ha (sum_lt_of_dvd ha hleast.1.1)
  apply BitVec.eq_of_toNat_eq
  exact Nat.le_antisymm (hagain.2 ⟨hleast.1.1, le_rfl⟩) hagain.1.2

theorem align_mono {y : BitVec w} (ha : a.toNat = 2 ^ k) (hx : x.toNat + a.toNat - 1 < 2 ^ w)
    (hy : y.toNat + a.toNat - 1 < 2 ^ w) (hxy : x ≤ y) : align x a ≤ align y a := by
  have hleast := align_isLeast ha hy
  exact BitVec.le_def.mpr ((align_isLeast ha hx).2 ⟨hleast.1.1, (BitVec.le_def.mp hxy).trans hleast.1.2⟩)

/-- **Mask and division agree**, and they round up to the least multiple. -/
theorem align_eq_div_round_up (x a : BitVec w) (ha : a.toNat = 2 ^ k) (h : x.toNat + a.toNat - 1 < 2 ^ w) :
    align x a = divRoundUp x a * a ∧ IsLeast {m | a.toNat ∣ m ∧ x.toNat ≤ m} (align x a).toNat ∧
      align (align x a) a = align x a ∧
      ∀ y : BitVec w, y.toNat + a.toNat - 1 < 2 ^ w → x ≤ y → align x a ≤ align y a :=
  ⟨align_eq_mul ha h, align_isLeast ha h, align_align ha h, fun _ hy hxy => align_mono ha h hy hxy⟩

/-- The example of the source. -/
theorem align_eq_div_round_up_page :
    align 3888#32 4096#32 = divRoundUp 3888#32 4096#32 * 4096#32 ∧ align 3888#32 4096#32 = 4096#32 :=
  ⟨(align_eq_div_round_up 3888#32 4096#32 (show (4096#32).toNat = 2 ^ 12 from rfl) (by decide)).1, by decide⟩

end Power

end CppNotes.Misc
