import CppNotes.Lib.Word
import Mathlib.Data.List.TakeWhile

/-!
# Octal modes (`str_to_mode`)

`str_to_mode` reads a number from a string, digit by digit, and complains about each value above 07777 on the way.  It
takes the first character without a look at it.  An empty string is then read behind its end, and a character from `8` on
counts as a digit above 7, of which nothing is said while the value is small.
-/

namespace CppNotes.Misc

open CppNotes.Lib

/-! ## `octal_to_mode` -/

/-- The bits of `mode_t` on a platform, `S_ISUID` to `S_IXOTH`. -/
structure ModeBits where
  suid : UInt32
  sgid : UInt32
  svtx : UInt32
  rusr : UInt32
  wusr : UInt32
  xusr : UInt32
  rgrp : UInt32
  wgrp : UInt32
  xgrp : UInt32
  roth : UInt32
  woth : UInt32
  xoth : UInt32
  deriving DecidableEq

/-- The traditional bits, `SUID` to `XOTH`. -/
def traditional : ModeBits where
  suid := 0o4000
  sgid := 0o2000
  svtx := 0o1000
  rusr := 0o400
  wusr := 0o200
  xusr := 0o100
  rgrp := 0o40
  wgrp := 0o20
  xgrp := 0o10
  roth := 0o4
  woth := 0o2
  xoth := 0o1

def ALLM : UInt32 := 0o7777

def octalToMode (bits : ModeBits) (octal : UInt32) : UInt32 :=
  let pick (mask bit : UInt32) : UInt32 := if octal &&& mask ≠ 0 then bit else 0
  if bits = traditional then octal
  else
    pick traditional.suid bits.suid ||| pick traditional.sgid bits.sgid ||| pick traditional.svtx bits.svtx |||
      pick traditional.rusr bits.rusr ||| pick traditional.wusr bits.wusr ||| pick traditional.xusr bits.xusr |||
      pick traditional.rgrp bits.rgrp ||| pick traditional.wgrp bits.wgrp ||| pick traditional.xgrp bits.xgrp |||
      pick traditional.roth bits.roth ||| pick traditional.woth bits.woth ||| pick traditional.xoth bits.xoth

/-! ## `str_to_mode` -/

/-- A string without its terminating NUL; a `char` is signed. -/
structure CString where
  chars : List Int8
  noNul : 0 ∉ chars

/-- The bytes from the start of the string on: its characters, the NUL and what follows it. -/
def CString.memory (s : CString) (after : List Int8) : List Int8 := s.chars ++ 0 :: after

/-- What `str_to_mode` returns, what it writes to `cerr` and the position of the last byte that it reads. -/
structure ModeRun where
  mode : UInt32
  cerr : List String
  last : ℕ

def invalidOctalMode (octalMode : UInt32) : String := "invalid octal_mode: " ++ toString octalMode ++ "\n"

/-- `'0' <= *p && *p < '8'` -/
def isOctal (c : Int8) : Bool := 48 ≤ c && c < 56

/-- The body of the loop for the character `c`: the value and the diagnostics. -/
def modeTurn (st : UInt32 × List String) (c : Int8) : UInt32 × List String :=
  let octalMode := 8 * st.1 + c.toInt32.toUInt32 - 48
  (octalMode, if ALLM < octalMode then st.2 ++ [invalidOctalMode octalMode] else st.2)

/-- The loop with `c` at position `p`, in front of the bytes that follow; there is no result if they cannot be read. -/
def strToModeLoop (st : UInt32 × List String) (p : ℕ) (c : Int8) : List Int8 → Option ((UInt32 × List String) × ℕ)
  | [] => none
  | next :: mem =>
    if isOctal next then strToModeLoop (modeTurn st c) (p + 1) next mem else some (modeTurn st c, p + 1)

def strToMode (bits : ModeBits) : List Int8 → Option ModeRun
  | [] => none
  | c :: mem => (strToModeLoop (0, []) 0 c mem).map fun r => ⟨octalToMode bits r.1.1, r.1.2, r.2⟩

/-! ## What is read -/

/-- The digits that a string starts with. -/
def octalRun (chars : List Int8) : List Int8 := chars.takeWhile isOctal

/-- The value of digits behind the value `v`. -/
def octalValue (v : ℕ) (digits : List Int8) : ℕ := digits.foldl (fun v d => 8 * v + (d.toInt - 48).toNat) v

/-- The string starts with a mode. -/
def StartsWithMode (s : CString) : Prop := octalRun s.chars ≠ [] ∧ octalValue 0 (octalRun s.chars) ≤ ALLM.toNat

/-- `str_to_mode` accepts modes only and reads them as they are, inside of the string. -/
def ReadsMode (s : CString) (after : List Int8) : Prop :=
  ∃ run, strToMode traditional (s.memory after) = some run ∧ (run.cerr = [] ↔ StartsWithMode s) ∧
    (StartsWithMode s → run.mode.toNat = octalValue 0 (octalRun s.chars)) ∧ run.last ≤ s.chars.length

section Turns

variable {st : UInt32 × List String} {c : Int8} {v : ℕ} {digits : List Int8}

theorem isOctal_iff : isOctal c = true ↔ 48 ≤ c.toInt ∧ c.toInt < 56 := by
  rw [isOctal, Bool.and_eq_true, decide_eq_true_eq, decide_eq_true_eq, Int8.le_iff_toInt_le, Int8.lt_iff_toInt_lt]
  rfl

theorem modeTurn_toNat (st : UInt32 × List String) (c : Int8) :
    ((modeTurn st c).1.toNat : ℤ) = (8 * st.1.toNat + c.toInt - 48) % 2 ^ 32 := by
  have hchar := natCast_toUInt32 c.toInt32
  have h8 : (8 : UInt32).toNat = 8 := rfl
  have h48 : (48 : UInt32).toNat = 48 := rfl
  rw [Int8.toInt_toInt32] at hchar
  rw [modeTurn, UInt32.toNat_sub, UInt32.toNat_add, UInt32.toNat_mul, h8, h48]
  omega

/-- A turn says something exactly if the value is too large after it. -/
theorem modeTurn_cerr_iff (st : UInt32 × List String) (c : Int8) :
    (modeTurn st c).2 = [] ↔ st.2 = [] ∧ (modeTurn st c).1.toNat ≤ ALLM.toNat := by
  rw [← UInt32.le_iff_toNat_le, ← UInt32.not_lt]
  simp only [modeTurn]
  split_ifs with h <;> simp [h]

/-- Nothing that was said is taken back. -/
theorem cerr_ne_nil_of_turns (h : st.2 ≠ []) (digits : List Int8) : (digits.foldl modeTurn st).2 ≠ [] := by
  induction digits generalizing st with
  | nil => exact h
  | cons d digits ih => exact ih fun hnil => h ((modeTurn_cerr_iff st d).mp hnil).1

theorem le_octalValue (v : ℕ) (digits : List Int8) : v ≤ octalValue v digits := by
  induction digits generalizing v with
  | nil => exact le_rfl
  | cons d digits ih => exact le_trans (by omega) (ih (8 * v + (d.toInt - 48).toNat))

/-- The digits behind a value that is not too large.  The first value that is too large has not wrapped around yet. -/
theorem turns_spec (st : UInt32 × List String) (hdigits : ∀ d ∈ digits, isOctal d = true) (hnil : st.2 = [])
    (hv : st.1.toNat ≤ ALLM.toNat) :
    ((digits.foldl modeTurn st).2 = [] ↔ octalValue st.1.toNat digits ≤ ALLM.toNat) ∧
      (octalValue st.1.toNat digits ≤ ALLM.toNat →
        (digits.foldl modeTurn st).1.toNat = octalValue st.1.toNat digits) := by
  induction digits generalizing st with
  | nil => exact ⟨iff_of_true hnil hv, fun _ => rfl⟩
  | cons d digits ih =>
    have hd := isOctal_iff.mp (hdigits d List.mem_cons_self)
    have hturn : (modeTurn st d).1.toNat = 8 * st.1.toNat + (d.toInt - 48).toNat := by
      have hall : ALLM.toNat = 4095 := rfl
      have := modeTurn_toNat st d
      omega
    have hcerr := modeTurn_cerr_iff st d
    simp only [octalValue, List.foldl_cons, ← hturn]
    by_cases hle : (modeTurn st d).1.toNat ≤ ALLM.toNat
    · exact ih _ (fun x hx => hdigits x (List.mem_cons_of_mem d hx)) (hcerr.mpr ⟨hnil, hle⟩) hle
    · have hsaid : (modeTurn st d).2 ≠ [] := fun h => hle (hcerr.mp h).2
      have hlarge : ¬ octalValue (modeTurn st d).1.toNat digits ≤ ALLM.toNat := fun h => hle ((le_octalValue _ _).trans h)
      exact ⟨iff_of_false (cerr_ne_nil_of_turns hsaid digits) hlarge, fun h => absurd h hlarge⟩

/-- The loop takes `c` and the digits behind it. -/
theorem strToModeLoop_eq (st : UInt32 × List String) (p : ℕ) (c : Int8) (chars after : List Int8) :
    strToModeLoop st p c (chars ++ 0 :: after) =
      some ((c :: octalRun chars).foldl modeTurn st, p + (octalRun chars).length + 1) := by
  induction chars generalizing st p c with
  | nil => rfl
  | cons next chars ih =>
    rw [List.cons_append, strToModeLoop, octalRun, List.takeWhile_cons]
    by_cases hnext : isOctal next
    · rw [if_pos hnext, if_pos hnext, ih]
      simp only [octalRun, List.foldl_cons, List.length_cons]
      congr 2
      omega
    · rw [if_neg hnext, if_neg hnext]
      rfl

/-- The byte behind `c` is read in any case. -/
theorem lt_of_strToModeLoop {mem : List Int8} {p : ℕ} {r : (UInt32 × List String) × ℕ}
    (h : strToModeLoop st p c mem = some r) : p < r.2 := by
  induction mem generalizing st p c with
  | nil => cases h
  | cons next mem ih =>
    rw [strToModeLoop] at h
    split_ifs at h with hnext
    · exact Nat.lt_of_succ_lt (ih h)
    · cases h
      exact Nat.lt_succ_self p

theorem octalValue_bounds (hdigits : ∀ d ∈ digits, isOctal d = true) (v : ℕ) :
    v * 8 ^ digits.length ≤ octalValue v digits ∧ octalValue v digits < (v + 1) * 8 ^ digits.length := by
  induction digits generalizing v with
  | nil => simp [octalValue]
  | cons d digits ih =>
    have hd := isOctal_iff.mp (hdigits d List.mem_cons_self)
    obtain ⟨hge, hlt⟩ := ih (fun x hx => hdigits x (List.mem_cons_of_mem d hx)) (8 * v + (d.toInt - 48).toNat)
    rw [List.length_cons, Nat.pow_succ']
    constructor
    · calc v * (8 * 8 ^ digits.length) = 8 * v * 8 ^ digits.length := by rw [Nat.mul_left_comm, Nat.mul_assoc]
        _ ≤ (8 * v + (d.toInt - 48).toNat) * 8 ^ digits.length := Nat.mul_le_mul_right _ (by omega)
        _ ≤ _ := hge
    · calc octalValue v (d :: digits) < (8 * v + (d.toInt - 48).toNat + 1) * 8 ^ digits.length := hlt
        _ ≤ 8 * (v + 1) * 8 ^ digits.length := Nat.mul_le_mul_right _ (by omega)
        _ = _ := by rw [Nat.mul_left_comm, Nat.mul_assoc]

end Turns

/-! ## Which strings are read as modes -/

section Strings

variable {s : CString} {after chars : List Int8} {c : Int8}

theorem isOctal_of_mem_octalRun : ∀ d ∈ octalRun chars, isOctal d = true := fun _ => List.mem_takeWhile_imp

theorem strToMode_cons (hs : s.chars = c :: chars) : strToMode traditional (s.memory after) =
    some ⟨((c :: octalRun chars).foldl modeTurn (0, [])).1, ((c :: octalRun chars).foldl modeTurn (0, [])).2,
      (octalRun chars).length + 1⟩ := by
  rw [CString.memory, hs, List.cons_append, strToMode, strToModeLoop_eq, Option.map_some, Nat.zero_add, octalToMode,
    if_pos rfl]

/-- The NUL of an empty string is taken for a digit. -/
theorem not_readsMode_of_nil (hs : s.chars = []) : ¬ ReadsMode s after := by
  rintro ⟨run, hrun, -, -, hlast⟩
  rw [CString.memory, hs, List.nil_append, strToMode, Option.map_eq_some_iff] at hrun
  obtain ⟨r, hr, rfl⟩ := hrun
  rw [hs] at hlast
  exact absurd (lt_of_strToModeLoop hr) (Nat.not_lt.mpr hlast)

theorem readsMode_cons_iff (hs : s.chars = c :: chars) : ReadsMode s after ↔
    (((c :: octalRun chars).foldl modeTurn (0, [])).2 = [] ↔ StartsWithMode s) ∧
      (StartsWithMode s → ((c :: octalRun chars).foldl modeTurn (0, [])).1.toNat = octalValue 0 (octalRun s.chars)) := by
  have hlast : (octalRun chars).length + 1 ≤ s.chars.length := by
    rw [hs, List.length_cons]
    exact Nat.succ_le_succ (List.takeWhile_sublist _).length_le
  simp only [ReadsMode, strToMode_cons hs, Option.some.injEq, exists_eq_left', hlast, and_true]

/-- A string that starts with a digit. -/
theorem readsMode_of_isOctal (hs : s.chars = c :: chars) (hc : isOctal c = true) : ReadsMode s after := by
  have hrun : octalRun s.chars = c :: octalRun chars := by rw [hs, octalRun, List.takeWhile_cons_of_pos hc]; rfl
  have hspec := turns_spec (0, []) (hrun ▸ isOctal_of_mem_octalRun) rfl (by decide)
  have hmode : StartsWithMode s ↔ octalValue 0 (c :: octalRun chars) ≤ ALLM.toNat := by
    rw [StartsWithMode, hrun]
    exact and_iff_right (List.cons_ne_nil _ _)
  rw [readsMode_cons_iff hs, hmode, hrun]
  exact hspec

/-- A string that does not is read as none exactly if its value is too large. -/
theorem readsMode_iff_of_not_isOctal (hs : s.chars = c :: chars) (hc : ¬ isOctal c = true) :
    ReadsMode s after ↔ ((octalRun chars).foldl modeTurn (modeTurn (0, []) c)).2 ≠ [] := by
  have hmode : ¬ StartsWithMode s := by
    rw [StartsWithMode, hs, octalRun, List.takeWhile_cons_of_neg hc]
    exact fun h => h.1 rfl
  rw [readsMode_cons_iff hs, iff_false_right hmode]
  exact and_iff_left fun h => absurd h hmode

theorem firstTurn_toNat (c : Int8) : ((modeTurn (0, []) c).1.toNat : ℤ) = (c.toInt - 48) % 2 ^ 32 := by
  simpa using modeTurn_toNat (0, []) c

/-- A character below the digits makes the value wrap around. -/
theorem said_of_lt (hc : c.toInt < 48) (digits : List Int8) : (digits.foldl modeTurn (modeTurn (0, []) c)).2 ≠ [] := by
  refine cerr_ne_nil_of_turns (fun hnil => ?_) digits
  have hle := ((modeTurn_cerr_iff _ c).mp hnil).2
  have hall : ALLM.toNat = 4095 := rfl
  have hge := c.le_toInt
  have := firstTurn_toNat c
  omega

/-- With a character above the digits the value is too large when enough of them follow. -/
theorem said_iff_of_le (hc : 56 ≤ c.toInt) {digits : List Int8} (hdigits : ∀ d ∈ digits, isOctal d = true) :
    (digits.foldl modeTurn (modeTurn (0, []) c)).2 ≠ [] ↔
      3 ≤ digits.length ∨ 2 ≤ digits.length ∧ 112 ≤ c.toInt := by
  have hall : ALLM.toNat = 4095 := rfl
  have hlt := c.toInt_lt
  have hfirst := firstTurn_toNat c
  have hsmall : (modeTurn (0, []) c).1.toNat ≤ ALLM.toNat := by omega
  rw [ne_eq, (turns_spec _ hdigits ((modeTurn_cerr_iff _ c).mpr ⟨rfl, hsmall⟩) hsmall).1]
  obtain ⟨hlow, hhigh⟩ := octalValue_bounds hdigits (modeTurn (0, []) c).1.toNat
  rcases Nat.lt_or_ge digits.length 3 with hlen | hlen
  · rcases (by omega : digits.length = 0 ∨ digits.length = 1 ∨ digits.length = 2) with hk | hk | hk
    all_goals
      simp only [hk] at hlow hhigh ⊢
      omega
  · have hpow : 8 ^ 3 ≤ 8 ^ digits.length := Nat.pow_le_pow_right (by decide) hlen
    have hmul := Nat.mul_le_mul_left (modeTurn (0, []) c).1.toNat hpow
    omega

/-- **`str_to_mode` accepts exactly the modes** among the strings that are not empty and start with a character below `8`;
for other ones when at least three digits follow the first character, or two and it is at least a `p`. -/
theorem str_to_mode_reads_mode_iff (s : CString) (after : List Int8) : ReadsMode s after ↔
    ∃ c chars, s.chars = c :: chars ∧
      (c < 56 ∨ 3 ≤ (octalRun chars).length ∨ 2 ≤ (octalRun chars).length ∧ 112 ≤ c) := by
  cases hs : s.chars with
  | nil => simp [not_readsMode_of_nil hs]
  | cons c chars =>
    have h56 : c < 56 ↔ c.toInt < 56 := Int8.lt_iff_toInt_lt
    have h112 : 112 ≤ c ↔ 112 ≤ c.toInt := Int8.le_iff_toInt_le
    simp only [List.cons.injEq, and_assoc, exists_and_left, exists_eq_left', h56, h112]
    by_cases hc : isOctal c = true
    · exact iff_of_true (readsMode_of_isOctal hs hc) (.inl (isOctal_iff.mp hc).2)
    rw [readsMode_iff_of_not_isOctal hs hc]
    rcases lt_or_ge c.toInt 48 with hlow | hlow
    · exact iff_of_true (said_of_lt hlow _) (.inl (by omega))
    · have hhigh : 56 ≤ c.toInt := Int.not_lt.mp fun h => hc (isOctal_iff.mpr ⟨hlow, h⟩)
      rw [said_iff_of_le hhigh isOctal_of_mem_octalRun]
      exact (or_iff_right (Int.not_lt.mpr hhigh)).symm

example : (strToMode traditional [48, 55, 53, 53, 0]).map ModeRun.mode = some 0o755 := by decide

/-- `8` alone is read as a mode. -/
theorem str_to_mode_accepts_eight : ¬ ∀ s after, ReadsMode s after := by
  intro h
  have hsaid := (readsMode_iff_of_not_isOctal (s := ⟨[56], by decide⟩) rfl (by decide)).mp (h _ [])
  exact hsaid (by decide)

end Strings

end CppNotes.Misc
