import Mathlib.Data.UInt

/-!
# Signed words seen as unsigned ones

In C a comparison or a sum of a signed and an unsigned 64-bit word converts the signed one.  `unat a` is the value of
`a` after that conversion; it agrees with `a` when `a` is not negative.

`packSigned x y` puts two words into one of the double width.  The conversion of the lower one fills the high half with
its sign, so the higher one can be read back when that sign is not set.  A mask `2 ^ k - 1` whose complement is applied
rounds down to a multiple of `2 ^ k`.
-/

namespace CppNotes.Lib

/-- The value of a signed word after a conversion to an unsigned one. -/
def unat (a : Int64) : ℕ := a.toUInt64.toNat

variable {a b : Int64}

theorem unat_lt (a : Int64) : unat a < 2 ^ 64 := a.toUInt64.toNat_lt

theorem unat_cases (a : Int64) :
    unat a < 2 ^ 63 ∧ a.toInt = unat a ∨ 2 ^ 63 ≤ unat a ∧ a.toInt = unat a - 2 ^ 64 := by
  have h := BitVec.toInt_eq_toNat_cond a.toUInt64.toBitVec
  rw [Int64.toBitVec_toUInt64, Int64.toInt_toBitVec, ← Int64.toBitVec_toUInt64, UInt64.toNat_toBitVec] at h
  have hlt := unat_lt a
  unfold unat at hlt ⊢
  split at h <;> omega

theorem nonneg_iff_unat : 0 ≤ a ↔ unat a < 2 ^ 63 := by
  rw [Int64.le_iff_toInt_le, Int64.toInt_zero]
  have := unat_lt a
  rcases unat_cases a with h | h <;> omega

theorem neg_iff_unat : a < 0 ↔ 2 ^ 63 ≤ unat a := by
  rw [Int64.lt_iff_toInt_lt, Int64.toInt_zero]
  have := unat_lt a
  rcases unat_cases a with h | h <;> omega

theorem toInt_of_nonneg (h : unat a < 2 ^ 63) : a.toInt = unat a := by
  rcases unat_cases a with h' | h' <;> omega

theorem toInt_eq_unat (h : 0 ≤ a) : a.toInt = unat a := toInt_of_nonneg (nonneg_iff_unat.mp h)

theorem unat_of_toInt {n : ℕ} (h : a.toInt = n) : unat a = n := by
  have := unat_lt a
  rcases unat_cases a with h' | h' <;> omega

theorem not_neg_of_toInt {n : ℕ} (h : a.toInt = n) : ¬ a < 0 := by
  rw [Int64.lt_iff_toInt_lt, Int64.toInt_zero]
  omega

theorem toInt_emod (a : Int64) : a.toInt % 2 ^ 64 = unat a := by
  have := unat_lt a
  rcases unat_cases a with h | h <;> omega

theorem unat_add (a b : Int64) : unat (a + b) = (unat a + unat b) % 2 ^ 64 := by
  rw [unat, Int64.toUInt64_add, UInt64.toNat_add]
  rfl

theorem unat_mul (a b : Int64) : unat (a * b) = unat a * unat b % 2 ^ 64 := by
  rw [unat, Int64.toUInt64_mul, UInt64.toNat_mul]
  rfl

theorem unat_ofNat {n : ℕ} (h : n < 2 ^ 64) : unat (Int64.ofNat n) = n :=
  Nat.mod_eq_of_lt h

theorem ofNat_unat (a : Int64) : Int64.ofNat (unat a) = a := by
  apply Int64.toBitVec_inj.mp
  rw [Int64.toBitVec_ofNat', unat, ← UInt64.toNat_toBitVec, Int64.toBitVec_toUInt64]
  simp

theorem unat_toInt64 (x : UInt64) : unat x.toInt64 = x.toNat := by
  rw [unat, UInt64.toUInt64_toInt64]

theorem toInt_toInt64 {x : UInt64} (h : x.toNat < 2 ^ 63) : x.toInt64.toInt = x.toNat := by
  rw [toInt_of_nonneg (by rwa [unat_toInt64]), unat_toInt64]

theorem toNat_pos_of_ne {x : UInt64} (h : x ≠ 0) : 0 < x.toNat :=
  Nat.pos_of_ne_zero fun h0 => h (UInt64.toNat_inj.mp h0)

theorem unat_pos_of_ne (h : a ≠ 0) : 0 < unat a :=
  Nat.pos_of_ne_zero fun h0 => h (by rw [← ofNat_unat a, h0]; rfl)

/-- A loop counter of type `int`. -/
theorem ofNat_add_one (n : ℕ) : Int32.ofNat n + 1 = Int32.ofNat (n + 1) := (Int32.ofNat_add n 1).symm

theorem natCast_toUInt32 (a : Int32) : (a.toUInt32.toNat : ℤ) = a.toInt % 2 ^ 32 := by
  have h := BitVec.toInt_eq_toNat_cond a.toBitVec
  have hlt := a.toBitVec.isLt
  rw [Int32.toInt_toBitVec] at h
  rw [← UInt32.toNat_toBitVec, Int32.toBitVec_toUInt32]
  split at h <;> omega

/-! ## Two words in one -/

section Packed

variable {w : ℕ} {x y x' y' : BitVec w}

/-- `x` in the high half and `y` in the low one, both extended with their sign. -/
def packSigned (x y : BitVec w) : BitVec (w + w) := (x.signExtend (w + w) <<< w) ||| y.signExtend (w + w)

theorem packSigned_low (x y : BitVec w) : (packSigned x y).setWidth w = y := by
  ext i hi
  have hlt : i < w + w := Nat.lt_add_right w hi
  simp [packSigned, hi, hlt, BitVec.getElem_signExtend]

theorem packSigned_high (x : BitVec w) (h : y.msb = false) : (packSigned x y).extractLsb' w w = x := by
  ext i hi
  have hge : ¬ w + i < w := Nat.not_lt.mpr (Nat.le_add_right w i)
  simp [packSigned, hi, hge, BitVec.getElem_signExtend, h]

/-- The sign of `y` covers the high half. -/
theorem packSigned_of_msb (x : BitVec w) (h : y.msb = true) : packSigned x y = y.signExtend (w + w) := by
  ext i hi
  by_cases hiw : i < w
  · simp [packSigned, hiw]
  · simp [packSigned, hiw, BitVec.getElem_signExtend, h]

theorem packSigned_inj : packSigned x y = packSigned x' y' ↔ y = y' ∧ (y.msb = true ∨ x = x') := by
  constructor
  · intro h
    have hy : y = y' := by rw [← packSigned_low x y, h, packSigned_low]
    refine ⟨hy, ?_⟩
    cases hmsb : y.msb with
    | true => exact .inl rfl
    | false => exact .inr (by rw [← packSigned_high x hmsb, h, packSigned_high x' (hy ▸ hmsb)])
  · rintro ⟨rfl, hmsb | rfl⟩
    · rw [packSigned_of_msb x hmsb, packSigned_of_msb x' hmsb]
    · rfl

theorem msb_iff_neg (a : Int32) : a.toBitVec.msb = true ↔ a < 0 := by
  rw [BitVec.msb_eq_toInt, decide_eq_true_eq, Int32.lt_iff_toInt_lt]
  rfl

end Packed

/-! ## Masks -/

section Masks

variable {w k : ℕ} {m : BitVec w}

/-- A mask clears the bits below that of the power. -/
theorem and_not_mask (hm : m.toNat = 2 ^ k - 1) (x : BitVec w) : x &&& ~~~m = (x >>> k) <<< k := by
  ext i hi
  have hbit : m[i] = decide (i < k) := by
    rw [← BitVec.getLsbD_eq_getElem, BitVec.getLsbD, hm, Nat.testBit_two_pow_sub_one]
  by_cases hik : i < k
  · simp [hbit, hik]
  · simp [hbit, hik, Nat.add_sub_cancel' (Nat.not_lt.mp hik), BitVec.getLsbD_eq_getElem hi]

theorem toNat_and_not_mask (hm : m.toNat = 2 ^ k - 1) (x : BitVec w) :
    (x &&& ~~~m).toNat = x.toNat / 2 ^ k * 2 ^ k := by
  have hle : x.toNat / 2 ^ k * 2 ^ k ≤ x.toNat := Nat.div_mul_le_self _ _
  rw [and_not_mask hm, BitVec.toNat_shiftLeft, BitVec.toNat_ushiftRight, Nat.shiftRight_eq_div_pow,
    Nat.shiftLeft_eq, Nat.mod_eq_of_lt (Nat.lt_of_le_of_lt hle x.isLt)]

end Masks

end CppNotes.Lib
