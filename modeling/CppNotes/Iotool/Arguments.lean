import CppNotes.Iotool.CheckArgs

/-!
# What `CheckArgs` hands on

`CheckArgs` tests the length of the input before it has copied it, while the array is still zero, so that no input is too
long for it; the path is not tested at all.  `strncpy` cuts both off at 64 bytes and then stores no NUL.

`mystrtoull` and `mystrtoll` look at `errno` without having set it to 0 before, and so refuse numbers that are in range if
a call before them has failed: 0, and the values that the library returns when a number is out of range.
-/

namespace CppNotes.Iotool

open CppNotes.Lib

/-! ## Strings -/

/-- The path on the command line. -/
def pathArg (argv : List (List UInt8)) : List UInt8 := argv.getD 3 []

/-- The input on the command line. -/
def inputArg (argv : List (List UInt8)) : List UInt8 := (getopt (argv.drop 4)).2.getD 2 []

/-- The array holds the string: there is a NUL in it, and the string is what stands before the first one. -/
def Holds (arr s : List UInt8) : Prop := 0 ∈ arr ∧ arr.takeWhile (· ≠ 0) = s

/-- Both arrays hold the strings of the command line. -/
def HandsOn (argv : List (List UInt8)) (c : RawArgs) : Prop :=
  Holds c.devPath (pathArg argv) ∧ Holds c.inp (inputArg argv)

theorem strncpy_holds_iff {s : List UInt8} (hs : 0 ∉ s) (n : ℕ) : Holds (strncpy s n) s ↔ s.length < n := by
  constructor
  · rintro ⟨hmem, -⟩
    rcases List.mem_append.mp hmem with h | h
    · exact absurd (List.mem_of_mem_take h) hs
    · have := List.length_pos_of_mem h
      rw [List.length_replicate] at this
      omega
  · intro hlt
    obtain ⟨k, hk⟩ : ∃ k, n - s.length = k + 1 := ⟨n - s.length - 1, by omega⟩
    have hne : ∀ b ∈ s, decide (b ≠ 0) = true := fun b hb => decide_eq_true fun h0 => hs (h0 ▸ hb)
    rw [Holds, strncpy, List.take_of_length_le hlt.le, hk, List.replicate_succ, List.takeWhile_append_of_pos hne]
    simp

/-- The operands are arguments. -/
theorem mem_of_mem_getopt {args : List (List UInt8)} {a : List UInt8} (h : a ∈ (getopt args).2) : a ∈ args := by
  fun_induction getopt args <;> grind

theorem nul_not_mem_getD {l : List (List UInt8)} (h : ∀ s ∈ l, 0 ∉ s) (n : ℕ) : 0 ∉ l.getD n [] := by
  rw [List.getD_eq_getElem?_getD]
  cases hn : l[n]? with
  | none => simp
  | some s => exact h s (List.mem_of_getElem? hn)

theorem checkArgs_strings {errno : ℤ} {argv : List (List UInt8)} {c : RawArgs} (h : checkArgs errno argv = .ok c) :
    c.devPath = strncpy (pathArg argv) 64 ∧ c.inp = strncpy (inputArg argv) MAX_STR_IN_SIZE := by
  unfold checkArgs at h
  split at h
  · obtain ⟨⟨bs, e⟩, -, h⟩ := bind_eq_ok.mp h
    exact (readOperands_ok h).2
  · simp at h

/-- **When the strings of an accepted command line are handed on**: when there is room for the NUL.  A longer one is
accepted as well. -/
theorem hands_on_iff {errno : ℤ} {argv : List (List UInt8)} {c : RawArgs} (hargv : ∀ s ∈ argv, 0 ∉ s)
    (h : checkArgs errno argv = .ok c) :
    HandsOn argv c ↔ (pathArg argv).length < 64 ∧ (inputArg argv).length < 64 := by
  obtain ⟨hpath, hinp⟩ := checkArgs_strings h
  have hops : ∀ s ∈ (getopt (argv.drop 4)).2, 0 ∉ s := fun s hs =>
    hargv s (List.mem_of_mem_drop (mem_of_mem_getopt hs))
  rw [HandsOn, hpath, hinp]
  exact and_congr (strncpy_holds_iff (nul_not_mem_getD hargv 3) 64) (strncpy_holds_iff (nul_not_mem_getD hops 2) 64)

/-- `iotool b R A 0 1 A` -/
theorem letter_handed_on :
    HandsOn [[], [98], [82], [65], [48], [49], [65]] ⟨512, 0, 1, strncpy [65] 64, strncpy [65] 64⟩ := by
  have h : checkArgs 0 [[], [98], [82], [65], [48], [49], [65]] =
      .ok ⟨512, 0, 1, strncpy [65] 64, strncpy [65] 64⟩ := by decide
  exact (hands_on_iff (by decide) h).mpr (by decide)

/-- 64 letters are accepted and cut off without a NUL. -/
theorem long_input_accepted : ¬ ∀ (errno : ℤ) (argv : List (List UInt8)) (c : RawArgs), (∀ s ∈ argv, 0 ∉ s) →
    checkArgs errno argv = .ok c → HandsOn argv c := by
  intro hall
  have hc : checkArgs 0 [[], [98], [82], [65], [48], [49], List.replicate 64 65] =
      .ok ⟨512, 0, 1, strncpy [65] 64, List.replicate 64 65⟩ := by decide
  exact absurd (hall _ _ _ (by simp) hc).2.1 (by simp)

/-! ## Numbers -/

/-- There is no digit where a number would be. -/
def NoNumber (value : List UInt8) : Prop := (scanNumber value).2 = []

/-- `mystrtoull` aborts exactly if there is no number or its magnitude is out of range, and otherwise returns what the
library does. -/
def ParsesUll (errno : ℤ) (value : List UInt8) : Prop :=
  (mystrtoull errno value = .error .aborted ↔ NoNumber value ∨ 2 ^ 64 ≤ (number value).natAbs) ∧
    ∀ v e, mystrtoull errno value = .ok (v, e) → v = (strtoull value).val

def ParsesLl (errno : ℤ) (value : List UInt8) : Prop :=
  (mystrtoll errno value = .error .aborted ↔ NoNumber value ∨ number value < -2 ^ 63 ∨ 2 ^ 63 ≤ number value) ∧
    ∀ v e, mystrtoll errno value = .ok (v, e) → v = (strtoll value).val

section Conv

variable {α : Type} [OfNat α 0]

/-- The test of both functions, for a conversion whose value is `s₁` or `s₂` if it is out of range. -/
def Conv.Aborts (errno : ℤ) (c : Conv α) (s₁ s₂ : α) : Prop :=
  ((if c.erange then ERANGE else errno) = ERANGE ∧ (c.val = s₁ ∨ c.val = s₂)) ∨
    ((if c.erange then ERANGE else errno) ≠ 0 ∧ c.val = 0) ∨ c.empty = true

theorem Conv.aborts_iff {errno : ℤ} {c : Conv α} {s₁ s₂ : α} (h : c.erange = true → c.val = s₁ ∨ c.val = s₂) :
    c.Aborts errno s₁ s₂ ↔ c.empty = true ∨ c.erange = true ∨
      (errno = ERANGE ∧ (c.val = s₁ ∨ c.val = s₂) ∨ errno ≠ 0 ∧ c.val = 0) := by
  unfold Conv.Aborts
  cases hr : c.erange with
  | false => simp; tauto
  | true => simp [h hr]

end Conv

theorem ite_error_iff {α : Type} {P : Prop} [Decidable P] {a : α} :
    (if P then .error .aborted else .ok a : Except Failure α) = .error .aborted ↔ P := by
  split_ifs with h <;> simp [h]

theorem ite_ok_fst {α β : Type} {P : Prop} [Decidable P] {a : α} {b : β} {v : α} {e : β}
    (h : (if P then .error .aborted else .ok (a, b) : Except Failure (α × β)) = .ok (v, e)) : v = a := by
  split_ifs at h
  simp only [Except.ok.injEq, Prod.mk.injEq] at h
  exact h.1.symm

variable (errno : ℤ) (value : List UInt8)

theorem strtoull_spec : (strtoull value).empty = (scanNumber value).2.isEmpty ∧
    ((strtoull value).erange = true ↔ 2 ^ 64 ≤ (number value).natAbs) ∧
    (2 ^ 64 ≤ (number value).natAbs → (strtoull value).val = .ofNat (2 ^ 64 - 1)) ∧
    ((number value).natAbs < 2 ^ 64 → ((strtoull value).val.toNat : ℤ) = number value % 2 ^ 64) := by
  unfold strtoull number
  generalize scanNumber value = p
  obtain ⟨neg, ds⟩ := p
  simp only
  split_ifs <;> simp [UInt64.size] <;> omega

theorem strtoll_spec : (strtoll value).empty = (scanNumber value).2.isEmpty ∧
    ((strtoll value).erange = true ↔ number value < -2 ^ 63 ∨ 2 ^ 63 ≤ number value) ∧
    (number value < -2 ^ 63 ∨ 2 ^ 63 ≤ number value →
      (strtoll value).val = Int64.maxValue ∨ (strtoll value).val = Int64.minValue) ∧
    (-2 ^ 63 ≤ number value → number value < 2 ^ 63 → (strtoll value).val.toInt = number value) := by
  unfold strtoll number
  generalize scanNumber value = p
  obtain ⟨neg, ds⟩ := p
  simp only
  split_ifs <;> simp [Int.bmod_def] <;> omega

/-- The numbers in range that `mystrtoull` refuses when `errno` was set before. -/
def UllStale : Prop :=
  errno = ERANGE ∧ (number value = 2 ^ 64 - 1 ∨ number value = -1 ∨ number value = 2 ^ 63 ∨ number value = -2 ^ 63) ∨
    errno ≠ 0 ∧ number value = 0

/-- The numbers in range that `mystrtoll` refuses when `errno` was set before. -/
def LlStale : Prop :=
  errno = ERANGE ∧ (number value = 2 ^ 63 - 1 ∨ number value = -2 ^ 63) ∨ errno ≠ 0 ∧ number value = 0

theorem mystrtoull_aborts_iff : mystrtoull errno value = .error .aborted ↔
    NoNumber value ∨ 2 ^ 64 ≤ (number value).natAbs ∨ UllStale errno value := by
  have htest : mystrtoull errno value = .error .aborted ↔
      (strtoull value).Aborts errno (.ofNat (2 ^ 64 - 1)) (.ofNat (2 ^ 63)) := ite_error_iff
  obtain ⟨hempty, herange, hout, hval⟩ := strtoull_spec value
  rw [htest, Conv.aborts_iff fun hr => .inl (hout (herange.mp hr)), herange, hempty, List.isEmpty_iff]
  refine or_congr_right (or_congr_right' fun hin => or_congr (and_congr_right fun _ => ?_) (and_congr_right fun _ => ?_))
  · have hv := hval (Nat.lt_of_not_le hin)
    have h₁ : (UInt64.ofNat (2 ^ 64 - 1)).toNat = 2 ^ 64 - 1 := rfl
    have h₂ : (UInt64.ofNat (2 ^ 63)).toNat = 2 ^ 63 := rfl
    rw [← UInt64.toNat_inj, ← UInt64.toNat_inj, h₁, h₂]
    omega
  · have hv := hval (Nat.lt_of_not_le hin)
    rw [← UInt64.toNat_inj, UInt64.toNat_zero]
    omega

theorem mystrtoll_aborts_iff : mystrtoll errno value = .error .aborted ↔
    NoNumber value ∨ (number value < -2 ^ 63 ∨ 2 ^ 63 ≤ number value) ∨ LlStale errno value := by
  have htest : mystrtoll errno value = .error .aborted ↔
      (strtoll value).Aborts errno Int64.maxValue Int64.minValue := ite_error_iff
  obtain ⟨hempty, herange, hout, hval⟩ := strtoll_spec value
  rw [htest, Conv.aborts_iff fun hr => hout (herange.mp hr), herange, hempty, List.isEmpty_iff]
  refine or_congr_right (or_congr_right' fun hin => or_congr (and_congr_right fun _ => ?_) (and_congr_right fun _ => ?_))
  · have hv := hval (by omega) (by omega)
    rw [← Int64.toInt_inj, ← Int64.toInt_inj, hv, Int64.toInt_maxValue, Int64.toInt_minValue]
  · rw [← Int64.toInt_inj, hval (by omega) (by omega), Int64.toInt_zero]

/-- **When numbers are read independently of `errno`.** -/
theorem numbers_parse_iff : (ParsesUll errno value ↔
      NoNumber value ∨ 2 ^ 64 ≤ (number value).natAbs ∨ ¬ UllStale errno value) ∧
    (ParsesLl errno value ↔
      NoNumber value ∨ (number value < -2 ^ 63 ∨ 2 ^ 63 ≤ number value) ∨ ¬ LlStale errno value) := by
  constructor
  · have hok : ∀ v e, mystrtoull errno value = .ok (v, e) → v = (strtoull value).val := fun v e h => ite_ok_fst h
    rw [ParsesUll, mystrtoull_aborts_iff, and_iff_left hok]
    tauto
  · have hok : ∀ v e, mystrtoll errno value = .ok (v, e) → v = (strtoll value).val := fun v e h => ite_ok_fst h
    rw [ParsesLl, mystrtoll_aborts_iff, and_iff_left hok]
    tauto

/-- After an error the string `0` is refused. -/
theorem zero_refused : ¬ ∀ (errno : ℤ) (value : List UInt8), ParsesUll errno value ∧ ParsesLl errno value := by
  intro h
  have habort : mystrtoull 2 [48] = .error .aborted := by decide
  rcases (h 2 [48]).1.1.mp habort with hno | hbig
  · exact absurd hno (by unfold NoNumber; decide)
  · exact absurd hbig (by decide)

end CppNotes.Iotool
