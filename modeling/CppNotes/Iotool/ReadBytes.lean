import CppNotes.Iotool.Reads

/-!
# `_do_read_bytes` (`iotool_cpp/iotool.c`)

The buffer is as long as the read, so there is no room behind the bytes for the NUL that ends the string.  It is stored
over the last byte that was read, which is then missing from the text; after a read that finds nothing it is stored in
front of the buffer, and `%s` prints what the memory held, in the buffer and behind it.
-/

namespace CppNotes.Iotool

open CppNotes.Lib

/-- `_do_read_bytes`, with the indices of the buffer that it stores to.  The first `extent` bytes of the memory can be read:
there is a NUL among them, in the buffer or behind it. -/
def doReadBytes (byteOff : Int64) (byteCnt : UInt64) (mem : Option Mem) (extent : ℕ) (rs : List Int64) (s : Sys) :
    Exit × Sys × List ℤ :=
  match mem, rs with
  | none, _ => (.ret (-1), s.print (.mallocFailed byteCnt), [])
  | some _, [] => (.pending, s, [])
  | some heap, r :: _ =>
    let stored : List ℤ := (List.range (s.got byteOff r).length).map (↑)
    let (buf, s) := s.pread heap byteCnt byteOff r
    if r < 0 then (.ret (-1), s.print .preadFailed, stored)
    else
      let nul := (r - 1).toInt
      let buf : Mem := fun i => if (i : ℤ) = nul then 0 else buf i
      (.ret 0, s.print (.bytes byteOff byteCnt (cString buf (max byteCnt.toNat extent))), stored ++ [nul])

/-- Every index is inside the buffer, and bytes without a NUL are printed as they were read. -/
structure ReadsExactly (byteOff : Int64) (byteCnt : UInt64) (heap : Mem) (extent : ℕ) (r : Int64) (s : Sys) : Prop where
  inside : ∀ i ∈ (doReadBytes byteOff byteCnt (some heap) extent [r] s).2.2, 0 ≤ i ∧ i < byteCnt.toNat
  text : 0 ∉ s.got byteOff r → (doReadBytes byteOff byteCnt (some heap) extent [r] s).2.1.out =
    s.out ++ [.bytes byteOff byteCnt (s.got byteOff r)]

variable {byteOff : Int64} {byteCnt : UInt64} {heap : Mem} {extent : ℕ} {r : Int64} {s : Sys}

theorem toInt_pred (hr : 0 ≤ r) : (r - 1).toInt = r.toInt - 1 := by
  have h0 := Int64.le_iff_toInt_le.mp hr
  have hlt := r.toInt_lt
  rw [Int64.toInt_zero] at h0
  rw [Int64.toInt_sub, Int64.toInt_one, Int.bmod_def]
  split <;> omega

theorem mem_stored_iff (hr : 0 ≤ r) (i : ℤ) : i ∈ (doReadBytes byteOff byteCnt (some heap) extent [r] s).2.2 ↔
    (0 ≤ i ∧ i < (s.got byteOff r).length) ∨ i = r.toInt - 1 := by
  have hneg : ¬ r < 0 := Int64.not_lt.mpr hr
  simp only [doReadBytes, if_neg hneg, List.mem_append, List.mem_map, List.mem_range, List.mem_singleton, toInt_pred hr]
  refine or_congr_left ⟨?_, fun h => ⟨i.toNat, by omega, by omega⟩⟩
  rintro ⟨k, hk, rfl⟩
  omega

/-- A string is not longer than the bytes before a NUL. -/
theorem cString_length_le {buf : Mem} {k n : ℕ} (hk : k < n) (h0 : buf k = 0) : (cString buf n).length ≤ k := by
  rw [cString_eq hk h0]
  exact (List.takeWhile_sublist _).length_le.trans_eq (by rw [List.length_map, List.length_range])

/-- After at least one byte the text is shorter than what was read. -/
theorem out_of_pos (byteOff : Int64) (heap : Mem) (extent : ℕ) (s : Sys) (hr : 1 ≤ r) (hcnt : r.toInt ≤ byteCnt.toNat) :
    ∃ text, (doReadBytes byteOff byteCnt (some heap) extent [r] s).2.1.out = s.out ++ [.bytes byteOff byteCnt text] ∧
      text.length < r.toInt := by
  have h1 := Int64.le_iff_toInt_le.mp hr
  rw [Int64.toInt_one] at h1
  have h0 : 0 ≤ r := Int64.le_iff_toInt_le.mpr (by rw [Int64.toInt_zero]; omega)
  have hneg : ¬ r < 0 := Int64.not_lt.mpr h0
  refine ⟨_, by simp only [doReadBytes, if_neg hneg]; rfl, ?_⟩
  refine lt_of_le_of_lt (Int.ofNat_le.mpr (cString_length_le (k := (r.toInt - 1).toNat) (by omega) ?_)) (by omega)
  exact if_pos (by rw [toInt_pred h0]; omega)

/-- **When `_do_read_bytes` stays in its buffer and prints what it has read**: when it has read something, and there is a
NUL in it. -/
theorem read_bytes_exact_iff (hr : 0 ≤ r) (hvalid : (⟨byteOff, byteCnt, r, s.got byteOff r⟩ : Pread).Valid) :
    ReadsExactly byteOff byteCnt heap extent r s ↔ 1 ≤ r ∧ 0 ∈ s.got byteOff r := by
  obtain ⟨-, hcnt, hlen⟩ := hvalid.resolve_left (Int64.not_lt.mpr hr)
  simp only at hcnt hlen
  have h0 := Int64.le_iff_toInt_le.mp hr
  have hone : 1 ≤ r ↔ 1 ≤ r.toInt := by rw [Int64.le_iff_toInt_le, Int64.toInt_one]
  rw [Int64.toInt_zero] at h0
  constructor
  · intro h
    have h1 : 1 ≤ r := by
      have := h.inside (r.toInt - 1) ((mem_stored_iff hr _).mpr (.inr rfl))
      rw [hone]
      omega
    refine ⟨h1, ?_⟩
    by_contra hnul
    obtain ⟨text, hout, hshort⟩ := out_of_pos byteOff heap extent s h1 hcnt
    rw [h.text hnul] at hout
    simp only [List.append_cancel_left_eq, List.cons.injEq, Line.bytes.injEq, true_and, and_true] at hout
    rw [← hout] at hshort
    omega
  · rintro ⟨h1, hnul⟩
    refine ⟨fun i hi => ?_, fun h => absurd hnul h⟩
    rw [hone] at h1
    rcases (mem_stored_iff hr i).mp hi with h | h
    · omega
    · omega

/-- Two bytes, of which the second is a NUL. -/
theorem read_letter_and_nul : ReadsExactly 0 2 (fun _ => 66) 2 2
    ⟨File.empty.write 0 2 fun i => if i = 0 then 65 else 0, [], [], []⟩ := by
  refine (read_bytes_exact_iff ?_ ?_).mpr ?_
  · decide
  · decide
  · decide

/-- A read at the end of the file stores in front of the buffer. -/
theorem empty_read_stores_in_front : ¬ ∀ (byteOff : Int64) (byteCnt : UInt64) (heap : Mem) (extent : ℕ) (r : Int64) (s : Sys),
    1 ≤ byteCnt → 0 ≤ r → (⟨byteOff, byteCnt, r, s.got byteOff r⟩ : Pread).Valid →
      ReadsExactly byteOff byteCnt heap extent r s := by
  intro hall
  have h := hall 0 1 (fun _ => 66) 1 0 ⟨File.empty, [], [], []⟩ (by decide) (by decide) (by decide)
  exact absurd (h.inside (-1) (by decide)) (by decide)

end CppNotes.Iotool
