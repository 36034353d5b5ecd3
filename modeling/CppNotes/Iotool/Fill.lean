import CppNotes.Iotool.Blocks
import CppNotes.Iotool.Pattern

/-!
# The buffers of the fill loops

Four functions fill a buffer with copies of a string.  Three count the position in an `off_t`; `WriteIO` counts it in an
`int`, which does not get to the end of a buffer of 2 GiB or more.

The guard of the loops, `pos + strlen(str) <= buf_len`, leaves a last part without a copy and forgets the NUL that
`strcpy` stores.  So the copies cover the buffer exactly if the length of the string divides that of the buffer, and in
that case the last NUL is stored one cell behind the buffer.
-/

namespace CppNotes.Iotool

open CppNotes.Lib

/-- The fill loops, each with the arguments that set the length of its buffer. -/
inductive FillLoop where
  | bytesStr (byteOff : Int64) (byteCnt : UInt64)
  | sectsStr (sectOff : Int64) (sectCnt : UInt64)
  | aio (byteCnt : UInt64)
  | writeIo (bs : UInt64)

namespace FillLoop

/-- The length of the buffer, as it was allocated. -/
def len (str : CStr) : FillLoop → UInt64
  | .bytesStr byteOff byteCnt => bufLen (doWrBytesStr byteOff byteCnt str).dataLen
  | .sectsStr sectOff sectCnt => bufLen (doWrSectsStr sectOff sectCnt str).dataLen
  | .aio byteCnt => byteCnt
  | .writeIo bs => bs

/-- The buffer after the loop. -/
def fill (str : CStr) : FillLoop → Mem → Option Mem
  | .bytesStr byteOff byteCnt => (doWrBytesStr byteOff byteCnt str).fill (bufLen (doWrBytesStr byteOff byteCnt str).dataLen)
  | .sectsStr sectOff sectCnt => (doWrSectsStr sectOff sectCnt str).fill (bufLen (doWrSectsStr sectOff sectCnt str).dataLen)
  | .aio byteCnt => fillStr str byteCnt
  | .writeIo bs => fillData str bs

/-- `strcpy(buf + pos, str)` is executed by a loop that counts in an `off_t`. -/
def StrExecutes (str : CStr) (n : UInt64) (heap : Mem) (pos : ℕ) : Prop :=
  ∃ s, Visits (fillCond str n) (fillBody str) (0, heap) s ∧ fillCond str n s = true ∧ unat s.1 = pos

/-- `strcpy(data + pos, str)` is executed by the loop of `WriteIO`. -/
def DataExecutes (str : CStr) (bs : UInt64) (heap : Mem) (pos : ℕ) : Prop :=
  ∃ s, Visits (dataCond str bs) (dataBody str) (0, heap) s ∧ dataCond str bs s = true ∧ (asSize s.1).toNat = pos

def Executes (str : CStr) (heap : Mem) (pos : ℕ) : FillLoop → Prop
  | .bytesStr byteOff byteCnt => StrExecutes str (bufLen (doWrBytesStr byteOff byteCnt str).dataLen) heap pos
  | .sectsStr sectOff sectCnt => StrExecutes str (bufLen (doWrSectsStr sectOff sectCnt str).dataLen) heap pos
  | .aio byteCnt => StrExecutes str byteCnt heap pos
  | .writeIo bs => DataExecutes str bs heap pos

/-- The loop ends, after however many turns. -/
def Ends (str : CStr) (heap : Mem) : FillLoop → Prop
  | .writeIo bs => ∃ fuel, (loop (dataCond str bs) (dataBody str) fuel (0, heap)).isSome = true
  | l => ∃ fuel, (loop (fillCond str (l.len str)) (fillBody str) fuel (0, heap)).isSome = true

/-- The string of `WriteIO` is in an array of 64 bytes; its length is assigned to an `int`. -/
def StrFits (str : CStr) : FillLoop → Prop
  | .writeIo _ => str.bytes.length < 2 ^ 31
  | _ => True

/-- There are such a buffer and such a string: no object has 2^63 bytes. -/
def Feasible (str : CStr) (l : FillLoop) : Prop := (l.len str).toNat < 2 ^ 63 ∧ l.StrFits str

/-- What the allocation of the buffer may answer. -/
def Allocates (str : CStr) (mem : Option Mem) (l : FillLoop) : Prop := 2 ^ 63 ≤ (l.len str).toNat → mem = none

/-- The loop ends wherever the buffer is, and is not entered without one. -/
def EndsAllocated (str : CStr) (l : FillLoop) : Prop := ∀ mem, l.Allocates str mem → ∀ heap ∈ mem, l.Ends str heap

/-- The position can count up to the end of the buffer. -/
def Counts : FillLoop → Prop
  | .writeIo bs => bs.toNat < 2 ^ 31
  | _ => True

/-- The loop ends, and every cell of the buffer then holds its byte of the pattern, whatever was in it before. -/
def Covers (str : CStr) (l : FillLoop) : Prop :=
  ∀ heap, ∃ buf, l.fill str heap = some buf ∧
    ∀ k < (l.len str).toNat, buf k = str.bytes.getD (k % str.bytes.length) 0

/-- No `strcpy` of the loop writes behind the buffer: the bytes of the string and the NUL go to cells inside. -/
def Inside (str : CStr) (l : FillLoop) : Prop :=
  ∀ heap pos, l.Executes str heap pos → ∀ i, pos ≤ i → i ≤ pos + str.bytes.length → i < (l.len str).toNat

/-- Where the position stops to count. -/
def top (str : CStr) : FillLoop → ℕ
  | .writeIo bs => min bs.toNat (2 ^ 31 - 1)
  | l => (l.len str).toNat

variable {str : CStr} {l : FillLoop}

theorem top_le (str : CStr) (l : FillLoop) : l.top str ≤ (l.len str).toNat := by
  cases l with
  | writeIo bs => exact Nat.min_le_left _ _
  | _ => exact le_rfl

theorem top_eq_iff (str : CStr) (l : FillLoop) : l.top str = (l.len str).toNat ↔ l.Counts := by
  cases l with
  | writeIo bs =>
    simp only [top, len, Counts]
    omega
  | _ => exact ⟨fun _ => trivial, fun _ => rfl⟩

/-! ## One loop -/

theorem fillData_eq {inp : CStr} (h : inp.bytes ≠ []) (hlen : inp.bytes.length < 2 ^ 31) {bs : UInt64}
    (hbs : bs.toNat < 2 ^ 63) (heap : Mem) :
    fillData inp bs heap = some (copies inp (min bs.toNat (2 ^ 31 - 1) / inp.bytes.length) heap) := by
  obtain ⟨s, hs, hmem⟩ := (data_stride hlen hbs).ends (List.length_pos_iff.mpr h) (0, heap)
    (show min bs.toNat (2 ^ 31 - 1) < bs.toNat + 2 by omega) (fun k s => s.2 = copies inp k heap) rfl
    (copies_zero inp heap).symm
    (fun k s hmem hk hle => by
      rw [Nat.add_one_mul] at hle
      show strcpy s.2 (asSize s.1).toNat inp = copies inp (k + 1) heap
      rw [hmem, toNat_asSize_eq, hk, sizeView, if_pos (by omega), strcpy_copies])
  rw [fillData_loop, hs, Option.map_some, hmem]

theorem strExecutes_iff (str : CStr) {n : UInt64} (hn : n.toNat < 2 ^ 63) (heap : Mem) (pos : ℕ) :
    StrExecutes str n heap pos ↔ ∃ k, pos = k * str.bytes.length ∧ (k + 1) * str.bytes.length ≤ n.toNat :=
  (fill_stride str hn).turns_iff (0, heap) rfl pos

theorem dataExecutes_iff (hlen : str.bytes.length < 2 ^ 31) {bs : UInt64} (hbs : bs.toNat < 2 ^ 63) (heap : Mem)
    (pos : ℕ) : DataExecutes str bs heap pos ↔
      ∃ k, pos = k * str.bytes.length ∧ (k + 1) * str.bytes.length ≤ min bs.toNat (2 ^ 31 - 1) := by
  rw [← (data_stride hlen hbs).turns_iff (0, heap) rfl pos]
  refine exists_congr fun s => and_congr_right fun hv => and_congr_right fun _ => ?_
  -- a position that is visited is not negative
  obtain ⟨k, hk, hle⟩ := (data_stride hlen hbs).visits rfl hv
  rw [toNat_asSize_eq, sizeView, if_pos (by omega)]

theorem sizeView_inj : ∀ x < 2 ^ 32, ∀ y < 2 ^ 32, sizeView x = sizeView y → x = y := by
  intro x hx y hy h
  unfold sizeView at h
  split at h <;> split at h <;> omega

theorem fillStr_isSome_iff (str : CStr) (n : UInt64) (heap : Mem) :
    (fillStr str n heap).isSome = true ↔ ∃ k, n.toNat < k * str.bytes.length % 2 ^ 64 := by
  rw [fillStr_loop, Option.isSome_map]
  exact (fill_rotates str n).isSome_iff (by decide) (fun _ _ _ _ h => h) (Nat.zero_le _) rfl (by omega)

theorem fillData_isSome_iff (str : CStr) (bs : UInt64) (heap : Mem) :
    (fillData str bs heap).isSome = true ↔ ∃ k, bs.toNat < sizeView (k * str.bytes.length % 2 ^ 32) := by
  rw [fillData_loop, Option.isSome_map]
  exact (data_rotates str bs).isSome_iff (by decide) sizeView_inj (Nat.zero_le _) rfl (by omega)

/-! ## All of them -/

/-- The fuel of the model is enough: a loop that ends at all ends with it. -/
theorem ends_iff_isSome (l : FillLoop) (str : CStr) (heap : Mem) :
    l.Ends str heap ↔ (l.fill str heap).isSome = true := by
  cases l with
  | writeIo bs =>
    exact ((data_rotates str bs).ends_iff (by decide) sizeView_inj (Nat.zero_le _) rfl).trans
      (fillData_isSome_iff str bs heap).symm
  | _ =>
    exact ((fill_rotates str _).ends_iff (by decide) (fun _ _ _ _ h => h) (Nat.zero_le _) rfl).trans
      (fillStr_isSome_iff str _ heap).symm

theorem Feasible.fill_eq (h : l.Feasible str) (hne : str.bytes ≠ []) (heap : Mem) :
    l.fill str heap = some (copies str (l.top str / str.bytes.length) heap) := by
  cases l with
  | writeIo bs => exact fillData_eq hne h.2 h.1 heap
  | _ => exact fillStr_eq hne h.1 heap

theorem Feasible.executes_iff (h : l.Feasible str) (heap : Mem) (pos : ℕ) : l.Executes str heap pos ↔
    ∃ k, pos = k * str.bytes.length ∧ (k + 1) * str.bytes.length ≤ l.top str := by
  cases l with
  | writeIo bs => exact dataExecutes_iff h.2 h.1 heap pos
  | _ => exact strExecutes_iff str h.1 heap pos

/-! ## The pattern covers the buffer -/

/-- `k` copies show the pattern in the first `n` cells exactly if they are that long. -/
theorem copies_pattern_iff (hne : str.bytes ≠ []) (k n : ℕ) :
    (∀ heap, ∀ i < n, copies str k heap i = str.bytes.getD (i % str.bytes.length) 0) ↔ n ≤ k * str.bytes.length := by
  have hpos : 0 < str.bytes.length := List.length_pos_iff.mpr hne
  constructor
  · intro h
    by_contra hlt
    -- the first cell behind the copies holds the last NUL, or a zero of the heap if there are none
    have hcell := h (fun _ => 0) (k * str.bytes.length) (by omega)
    rw [copies, if_neg (lt_irrefl _), ite_self, Nat.mul_mod_left, List.getD_eq_getElem _ _ hpos] at hcell
    exact str.noNul (hcell ▸ List.getElem_mem hpos)
  · intro hle heap i hi
    rw [copies, if_pos (by omega)]

theorem len_le_copies_iff {len top L : ℕ} (htop : top ≤ len) : len ≤ top / L * L ↔ L ∣ len ∧ top = len := by
  have hmul := Nat.div_mul_le_self top L
  constructor
  · intro h
    obtain rfl : top = len := by omega
    exact ⟨⟨top / L, by rw [Nat.mul_comm]; omega⟩, rfl⟩
  · rintro ⟨hdvd, rfl⟩
    rw [Nat.div_mul_cancel hdvd]

theorem fill_covers_iff (l : FillLoop) {str : CStr} (hne : str.bytes ≠ []) (h : l.Feasible str) :
    l.Covers str ↔ str.bytes.length ∣ (l.len str).toNat ∧ l.Counts := by
  have hcov : l.Covers str ↔ ∀ heap, ∀ i < (l.len str).toNat,
      copies str (l.top str / str.bytes.length) heap i = str.bytes.getD (i % str.bytes.length) 0 := by
    simp only [Covers, h.fill_eq hne, Option.some.injEq, exists_eq_left']
  rw [hcov, copies_pattern_iff hne, len_le_copies_iff (l.top_le str), top_eq_iff]

theorem fill_covers_four : lettersAB.bytes ≠ [] ∧ (bytesStr 0 4).Feasible lettersAB ∧
    (bytesStr 0 4).Covers lettersAB := by
  have h : (bytesStr 0 4).Feasible lettersAB := ⟨by decide, trivial⟩
  exact ⟨by decide, h, (fill_covers_iff (bytesStr 0 4) (by decide) h).mpr ⟨by decide, trivial⟩⟩

/-- Of three cells the last one is left with the NUL. -/
theorem fill_leaves_nul : ¬ ∀ (l : FillLoop) (str : CStr), str.bytes ≠ [] → l.Feasible str → l.Covers str := by
  intro hall
  have h : (bytesStr 0 3).Feasible lettersAB := ⟨by decide, trivial⟩
  obtain ⟨buf, hfill, hbuf⟩ := hall (bytesStr 0 3) lettersAB (by decide) h fun _ => 0
  rw [h.fill_eq (by decide), Option.some.injEq] at hfill
  have hcell := hbuf 2 (by decide)
  rw [← hfill] at hcell
  exact absurd hcell (by decide)

/-! ## The copies stay inside the buffer -/

/-- The NUL of the last copy is the only byte that can get behind the buffer. -/
theorem Feasible.inside_iff (h : l.Feasible str) : l.Inside str ↔
    ∀ k, (k + 1) * str.bytes.length ≤ l.top str → (k + 1) * str.bytes.length < (l.len str).toNat := by
  have hend (k : ℕ) : k * str.bytes.length + str.bytes.length = (k + 1) * str.bytes.length := (Nat.add_one_mul _ _).symm
  constructor
  · intro hin k hk
    have hex := (h.executes_iff (fun _ => 0) (k * str.bytes.length)).mpr ⟨k, rfl, hk⟩
    exact hend k ▸ hin _ _ hex (k * str.bytes.length + str.bytes.length) (Nat.le_add_right _ _) le_rfl
  · intro hlt heap pos hex i _ hi
    obtain ⟨k, rfl, hk⟩ := (h.executes_iff heap pos).mp hex
    rw [hend] at hi
    exact hi.trans_lt (hlt k hk)

theorem copies_lt_len_iff {len top L : ℕ} (hL : 0 < L) (htop : top ≤ len) :
    (∀ k, (k + 1) * L ≤ top → (k + 1) * L < len) ↔ len = 0 ∨ ¬ L ∣ len ∨ top ≠ len := by
  constructor
  · intro h
    by_contra! hbad
    obtain ⟨hne, ⟨m, rfl⟩, rfl⟩ := hbad
    obtain ⟨k, rfl⟩ := Nat.exists_eq_succ_of_ne_zero (Nat.pos_of_mul_pos_left (Nat.pos_of_ne_zero hne)).ne'
    have := h k (by rw [Nat.mul_comm])
    rw [Nat.mul_comm] at this
    exact absurd this (lt_irrefl _)
  · intro h k hk
    refine lt_of_le_of_ne (hk.trans htop) fun heq => ?_
    rcases h with rfl | hdvd | hne
    · exact (Nat.mul_pos (Nat.succ_pos k) hL).ne' heq
    · exact hdvd ⟨k + 1, by rw [← heq, Nat.mul_comm]⟩
    · omega

theorem fill_inside_iff (l : FillLoop) {str : CStr} (hne : str.bytes ≠ []) (h : l.Feasible str) :
    l.Inside str ↔ l.len str = 0 ∨ ¬ str.bytes.length ∣ (l.len str).toNat ∨ ¬ l.Counts := by
  rw [h.inside_iff, copies_lt_len_iff (List.length_pos_iff.mpr hne) (l.top_le str), ← UInt64.toNat_inj, ← top_eq_iff str l]
  rfl

theorem fill_inside_three : lettersAB.bytes ≠ [] ∧ (bytesStr 0 3).Feasible lettersAB ∧
    (bytesStr 0 3).Inside lettersAB := by
  have h : (bytesStr 0 3).Feasible lettersAB := ⟨by decide, trivial⟩
  exact ⟨by decide, h, (fill_inside_iff (bytesStr 0 3) (by decide) h).mpr (.inr (.inl (by decide)))⟩

/-- One letter fills a buffer of one byte, and its NUL is stored behind. -/
theorem fill_overruns : ¬ ∀ (l : FillLoop) (str : CStr), str.bytes ≠ [] → l.Feasible str → l.Inside str := by
  intro hall
  have h : (bytesStr 0 1).Feasible letterA := ⟨by decide, trivial⟩
  have hex := (h.executes_iff (fun _ => 0) 0).mpr ⟨0, by decide, by decide⟩
  exact absurd (hall (bytesStr 0 1) letterA (by decide) h _ _ hex 1 (by decide) (by decide)) (by decide)

end FillLoop

end CppNotes.Iotool
