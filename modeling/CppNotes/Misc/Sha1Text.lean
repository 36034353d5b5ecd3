import CppNotes.Lib.Groups
import CppNotes.Lib.Hex
import Mathlib.Data.UInt
import Mathlib.Logic.Function.Basic

/-!
# The text of a digest (`GetSHA1`)

`GetSHA1` takes the five words of a digest from memory byte by byte, reverses the bytes of each word, since the lowest one
comes first, and prints them as two digits each.  The bytes are signed, but masks take their sign away.
-/

namespace CppNotes.Misc

open CppNotes.Lib

/-- Byte `j` of the words in memory, as a `char`; the lowest byte of a word comes first. -/
def digestByte (digest : Fin 5 → UInt32) (j : ℕ) : Int8 :=
  (digest (Fin.ofNat 5 (j / 4)) >>> .ofNat (8 * (j % 4))).toUInt8.toInt8

/-- The turn of the first loop for word `i`. -/
def reverseWord (tmp hash : ℕ → Int8) (i : ℕ) : ℕ → Int8 :=
  let hash := Function.update hash (i * 4) (tmp (i * 4 + 3))
  let hash := Function.update hash (i * 4 + 1) (tmp (i * 4 + 2))
  let hash := Function.update hash (i * 4 + 2) (tmp (i * 4 + 1))
  Function.update hash (i * 4 + 3) (tmp (i * 4))

/-- The first loop, with what is in `hash` before. -/
def hashBytes (digest : Fin 5 → UInt32) (hash : ℕ → Int8) : ℕ → Int8 :=
  (List.range 5).foldl (reverseWord (digestByte digest)) hash

/-- `buf << setiosflags(ios::uppercase) << std::hex << n` -/
def hexInt (n : Int32) : List Char := padHex 1 n.toUInt32.toNat

/-- The turn of the second loop for the byte `b`. -/
def printByte (b : Int8) : List Char := hexInt ((b.toInt32 &&& 0xF0) >>> 4) ++ hexInt (b.toInt32 &&& 0xF)

/-- `GetSHA1` with the digest that it gets: its result and the string. -/
def getSha1 (digest : Fin 5 → UInt32) (hash : ℕ → Int8) : Bool × String :=
  (true, String.ofList ((List.range 20).flatMap fun i => printByte (hashBytes digest hash i)))

/-! ## The bytes -/

section Bytes

variable {tmp hash : ℕ → Int8} {digest : Fin 5 → UInt32}

theorem reverseWord_apply (i k : ℕ) :
    reverseWord tmp hash i k = if k / 4 = i then tmp (k / 4 * 4 + (3 - k % 4)) else hash k := by
  simp only [reverseWord, Function.update_apply]
  split_ifs
  all_goals first | rfl | omega | (congr 1; omega)

theorem reverseWords_apply (n k : ℕ) : (List.range n).foldl (reverseWord tmp) hash k =
    if k / 4 < n then tmp (k / 4 * 4 + (3 - k % 4)) else hash k := by
  induction n with
  | zero => rfl
  | succ n ih =>
    rw [List.range_succ, List.foldl_append, List.foldl_cons, List.foldl_nil, reverseWord_apply, ih]
    split_ifs <;> first | rfl | omega

theorem digestByte_toNat (i : Fin 5) {m : ℕ} (hm : m < 4) :
    (digestByte digest (4 * i + m)).toUInt8.toNat = (digest i).toNat / 16 ^ (2 * m) % 16 ^ 2 := by
  have hword : Fin.ofNat 5 ((4 * i.val + m) / 4) = i := by
    apply Fin.ext
    rw [Fin.val_ofNat]
    omega
  have hshift : (UInt32.ofNat (8 * m)).toNat % 32 = 8 * m := by
    rw [UInt32.toNat_ofNat', Nat.mod_mod_of_dvd _ (by decide), Nat.mod_eq_of_lt (by omega)]
  rw [digestByte, hword, Nat.mul_add_mod, Nat.mod_eq_of_lt hm, UInt8.toUInt8_toInt8, UInt32.toNat_toUInt8,
    UInt32.toNat_shiftRight, hshift, Nat.shiftRight_eq_div_pow, Nat.pow_mul, Nat.pow_mul]
  rfl

/-- The bytes of a word are in order of their weight. -/
theorem hashBytes_toNat (i : Fin 5) {j : ℕ} (hj : j < 4) : (hashBytes digest hash (4 * i + j)).toUInt8.toNat =
    (digest i).toNat / 16 ^ (2 * (3 - j)) % 16 ^ 2 := by
  have hdiv : (4 * i.val + j) / 4 = i := by omega
  have hmod : (4 * i.val + j) % 4 = j := by omega
  rw [hashBytes, reverseWords_apply, hdiv, hmod, if_pos i.isLt, Nat.mul_comm, digestByte_toNat i (by omega)]

end Bytes

/-! ## The digits -/

theorem hexInt_of_lt {n : Int32} (h : n.toUInt32.toNat < 16) : hexInt n = [hexDigit n.toUInt32.toNat] := by
  rw [hexInt, padHex_of_lt (by decide) h, hexDigits, hexDigits, Nat.mod_eq_of_lt h]
  rfl

/-- What the masks leave of a `char`, whatever its sign. -/
theorem toNat_nibbles (x : BitVec 8) :
    (((Int8.ofBitVec x).toInt32 &&& 0xF0) >>> 4).toUInt32.toNat = x.toNat / 16 ∧
      ((Int8.ofBitVec x).toInt32 &&& 0xF).toUInt32.toNat = x.toNat % 16 := by
  revert x
  decide

theorem printByte_eq (b : Int8) : printByte b = hexDigits 2 b.toUInt8.toNat := by
  have hlt := b.toUInt8.toNat_lt
  have hb : Int8.ofBitVec b.toUInt8.toBitVec = b := rfl
  obtain ⟨hhigh, hlow⟩ := toNat_nibbles b.toUInt8.toBitVec
  rw [hb, UInt8.toNat_toBitVec] at hhigh hlow
  rw [printByte, hexInt_of_lt (by omega), hexInt_of_lt (by omega), hhigh, hlow, hexDigits, hexDigits, hexDigits,
    Nat.mod_eq_of_lt (by omega : b.toUInt8.toNat / 16 < 16)]
  rfl

theorem wordText (digest : Fin 5 → UInt32) (hash : ℕ → Int8) (i : Fin 5) :
    ((List.range' (4 * i) 4).flatMap fun k => printByte (hashBytes digest hash k)) = hexDigits 8 (digest i).toNat := by
  have hbyte (j : ℕ) (hj : j < 4) : printByte (hashBytes digest hash (4 * i + j)) =
      hexDigits 2 ((digest i).toNat / 16 ^ (2 * (3 - j))) := by
    rw [printByte_eq, hashBytes_toNat i hj, hexDigits_mod]
  calc (List.range' (4 * i) 4).flatMap (fun k => printByte (hashBytes digest hash k))
    _ = (List.range 4).flatMap fun j => hexDigits 2 ((digest i).toNat / 16 ^ (2 * (3 - j))) := by
        rw [List.range'_eq_map_range, List.flatMap_map]
        exact List.flatMap_congr fun j hj => hbyte j (List.mem_range.mp hj)
    _ = hexDigits 2 ((digest i).toNat / 16 ^ 6) ++ (hexDigits 2 ((digest i).toNat / 16 ^ 4) ++
          (hexDigits 2 ((digest i).toNat / 16 ^ 2) ++ hexDigits 2 (digest i).toNat)) := by
        rw [show List.range 4 = [0, 1, 2, 3] from rfl]
        simp
    _ = hexDigits 8 (digest i).toNat := by
        rw [← hexDigits_add, ← hexDigits_add, ← hexDigits_add]

/-! ## The text -/

/-- The digits of a digest. -/
def digestText (digest : Fin 5 → UInt32) : List Char := (List.finRange 5).flatMap fun i => hexDigits 8 (digest i).toNat

theorem printed_eq (digest : Fin 5 → UInt32) (hash : ℕ → Int8) :
    ((List.range 20).flatMap fun k => printByte (hashBytes digest hash k)) = digestText digest := by
  have hwords : List.range 20 = (List.finRange 5).flatMap fun i => List.range' (4 * i.val) 4 := rfl
  rw [hwords, List.flatMap_assoc]
  exact List.flatMap_congr fun i _ => wordText digest hash i

theorem digestText_length (digest : Fin 5 → UInt32) : (digestText digest).length = 40 := by
  have hlen (n : ℕ) : (hexDigits 8 n).length = (hexDigits 8 0).length := by rw [hexDigits_length, hexDigits_length]
  exact length_flatMap_congr fun i _ => hlen _

theorem digestText_inj {digest digest' : Fin 5 → UInt32} (h : digestText digest = digestText digest') :
    digest = digest' := by
  -- the words by their number in the list
  let text (digest : Fin 5 → UInt32) (i : ℕ) : List Char := hexDigits 8 (digest (Fin.ofNat 5 i)).toNat
  have hlen (digest : Fin 5 → UInt32) (i : ℕ) : (text digest i).length = 8 := hexDigits_length 8 _
  have htexts : (List.range 5).flatMap (text digest) = (List.range 5).flatMap (text digest') := h
  have hwords : ∀ i < 5, text digest i = text digest' i :=
    (flatMap_range_inj (fun i => (hlen digest i).trans (hlen digest' i).symm) (fun i => by rw [hlen]; decide) htexts).2
  funext i
  have hi := hwords i i.isLt
  simp only [text, Fin.ofNat_val_eq_self] at hi
  exact UInt32.toNat_inj.mp (hexDigits_inj (UInt32.toNat_lt _) (UInt32.toNat_lt _) hi)

/-- **The digest is printed in the usual form**: eight upper-case digits for each of its words, forty in all, and different
digests are printed differently. -/
theorem get_sha1_prints_digest (digest : Fin 5 → UInt32) (hash : ℕ → Int8) :
    (getSha1 digest hash).2.toList = ((List.finRange 5).flatMap fun i => hexDigits 8 (digest i).toNat) ∧
      (getSha1 digest hash).2.length = 40 ∧
      ∀ digest' hash', (getSha1 digest hash).2 = (getSha1 digest' hash').2 ↔ digest = digest' := by
  have htext (digest : Fin 5 → UInt32) (hash : ℕ → Int8) : (getSha1 digest hash).2.toList = digestText digest := by
    rw [getSha1, String.toList_ofList, printed_eq]
  refine ⟨htext digest hash, ?_, fun digest' hash' => ?_⟩
  · rw [← String.length_toList, htext, digestText_length]
  · rw [← String.toList_inj, htext, htext]
    exact ⟨digestText_inj, congrArg digestText⟩

example (hash : ℕ → Int8) : getSha1 (fun i => [0x01234567, 0x89ABCDEF, 0xFEDCBA98, 0x76543210, 0].getD i 0) hash =
    (true, "0123456789ABCDEFFEDCBA987654321000000000") := by
  rw [getSha1, printed_eq]
  rfl

end CppNotes.Misc
