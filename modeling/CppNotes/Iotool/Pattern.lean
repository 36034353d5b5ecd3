import CppNotes.Iotool.Sectors
import Mathlib.Data.List.GetD

/-!
# What the string engines write

The fill loop copies the string into the buffer as often as it fits; the NUL of the last copy stays, and behind it the
memory is what it was (`copies`).

Every `pwrite` of an engine writes from the start of the buffer, also after a short write.  So what `_do_wr_bytes_str`
leaves in the file depends on how the kernel splits the writes, unless the part of the buffer that is written holds one
byte only.
-/

namespace CppNotes.Iotool

open CppNotes.Lib

/-! ## The filled buffer -/

/-- The memory after `k` copies of the string. -/
def copies (str : CStr) (k : ℕ) (heap : Mem) : Mem := fun i =>
  if i < k * str.bytes.length then str.bytes.getD (i % str.bytes.length) 0
  else if 0 < k ∧ i = k * str.bytes.length then 0
  else heap i

theorem copies_zero (str : CStr) (heap : Mem) : copies str 0 heap = heap := by
  funext i
  simp [copies]

theorem strcpy_copies (str : CStr) (k : ℕ) (heap : Mem) :
    strcpy (copies str k heap) (k * str.bytes.length) str = copies str (k + 1) heap := by
  funext i
  have hsucc := Nat.add_one_mul k str.bytes.length
  unfold strcpy copies
  by_cases hlo : i < k * str.bytes.length
  · rw [if_neg (by omega), if_pos hlo, if_pos (by omega)]
  · by_cases hmid : i < (k + 1) * str.bytes.length
    · have hmod : i % str.bytes.length = i - k * str.bytes.length := by
        rw [Nat.mod_eq_sub_div_mul, Nat.div_eq_of_lt_le (not_lt.mp hlo) hmid]
      rw [if_pos (by omega), if_pos hmid, hmod]
    · by_cases heq : i = (k + 1) * str.bytes.length
      · rw [if_pos (by omega), if_neg hmid, if_pos ⟨Nat.succ_pos k, heq⟩]
        exact List.getD_eq_default _ _ (by omega)
      · rw [if_neg (by omega), if_neg hlo, if_neg (by omega), if_neg hmid, if_neg fun h => heq h.2]

/-- **The fill loop.**  It ends with as many copies as the buffer holds. -/
theorem fillStr_eq {str : CStr} (h : str.bytes ≠ []) {n : UInt64} (hn : n.toNat < 2 ^ 63) (heap : Mem) :
    fillStr str n heap = some (copies str (n.toNat / str.bytes.length) heap) := by
  obtain ⟨s, hs, hmem⟩ := (fill_stride str hn).ends (List.length_pos_iff.mpr h) (0, heap)
    (show n.toNat < n.toNat + 2 by omega) (fun k s => s.2 = copies str k heap) rfl (copies_zero str heap).symm
    (fun k s hmem hk _ => by
      show strcpy s.2 (unat s.1) str = copies str (k + 1) heap
      rw [hmem, hk, strcpy_copies])
  rw [fillStr_loop, hs, Option.map_some, hmem]

/-- The string does not fit into the buffer, which holds one byte only; or its copies fill the buffer and it is one byte
repeated. -/
def OneByte (str : CStr) (n : ℕ) (heap : Mem) : Prop :=
  (n < str.bytes.length ∧ ∀ i < n, heap i = heap 0) ∨
    (str.bytes.length ∣ n ∧ ∀ b ∈ str.bytes, ∀ b' ∈ str.bytes, b = b')

theorem copies_of_lt {str : CStr} {k i : ℕ} (heap : Mem) (h : i < k * str.bytes.length) :
    copies str k heap i ∈ str.bytes := by
  have hpos : 0 < str.bytes.length := Nat.pos_of_ne_zero fun h0 => by simp [h0] at h
  have hi := Nat.mod_lt i hpos
  rw [copies, if_pos h, List.getD_eq_getElem _ _ hi]
  exact List.getElem_mem hi

theorem copies_end {str : CStr} {k : ℕ} (heap : Mem) (h : 0 < k) : copies str k heap (k * str.bytes.length) = 0 := by
  rw [copies, if_neg (lt_irrefl _), if_pos ⟨h, rfl⟩]

/-- The cells of a buffer of `n` bytes that the fill loop does not touch hold `c`. -/
def Spare (str : CStr) (n : ℕ) (c : UInt8) (heap : Mem) : Prop :=
  ∀ i < n, n < str.bytes.length ∨ n / str.bytes.length * str.bytes.length < i → heap i = c

theorem copies_of_spare {str : CStr} {n : ℕ} {c : UInt8} {heap : Mem} (hpos : 0 < str.bytes.length)
    (h : Spare str n c heap) {i : ℕ} (hi : i < n) :
    copies str (n / str.bytes.length) heap i = copies str (n / str.bytes.length) (fun _ => c) i := by
  unfold copies
  split
  · rfl
  · rename_i hge
    split
    · rfl
    · rename_i hne
      refine h i hi ?_
      by_cases h0 : n < str.bytes.length
      · exact .inl h0
      · have := Nat.div_pos (not_lt.mp h0) hpos
        exact .inr (by omega)

/-- When the filled buffer holds one byte only. -/
theorem copies_const_iff {str : CStr} (h : str.bytes ≠ []) (n : ℕ) (heap : Mem) :
    (∀ i < n, copies str (n / str.bytes.length) heap i = copies str (n / str.bytes.length) heap 0) ↔
      OneByte str n heap := by
  have hpos : 0 < str.bytes.length := List.length_pos_iff.mpr h
  by_cases hlt : n < str.bytes.length
  · rw [Nat.div_eq_of_lt hlt, copies_zero]
    constructor
    · exact fun hc => .inl ⟨hlt, hc⟩
    · rintro (⟨-, hc⟩ | ⟨hdvd, -⟩)
      · exact hc
      · have := Nat.eq_zero_of_dvd_of_lt hdvd hlt
        omega
  · have hk : 0 < n / str.bytes.length := Nat.div_pos (not_lt.mp hlt) hpos
    have hle := Nat.div_mul_le_self n str.bytes.length
    have hfirst : copies str (n / str.bytes.length) heap 0 ∈ str.bytes := copies_of_lt heap (Nat.mul_pos hk hpos)
    constructor
    · intro hc
      have hfull : n / str.bytes.length * str.bytes.length = n := by
        by_contra hne
        have h0 := hc (n / str.bytes.length * str.bytes.length) (by omega)
        rw [copies_end heap hk] at h0
        exact str.noNul (h0 ▸ hfirst)
      have hall {b : UInt8} (hb : b ∈ str.bytes) : b = copies str (n / str.bytes.length) heap 0 := by
        obtain ⟨i, hi, rfl⟩ := List.mem_iff_getElem.mp hb
        have hin : i < n / str.bytes.length * str.bytes.length := by
          have := Nat.le_mul_of_pos_left str.bytes.length hk
          omega
        rw [← hc i (by omega), copies, if_pos hin, Nat.mod_eq_of_lt hi, List.getD_eq_getElem _ _ hi]
      exact .inr ⟨⟨_, (Nat.mul_comm _ _).trans hfull |>.symm⟩, fun b hb b' hb' => (hall hb).trans (hall hb').symm⟩
    · rintro (⟨hlt', -⟩ | ⟨hdvd, hall⟩)
      · exact absurd hlt' hlt
      · intro i hi
        rw [← Nat.div_mul_cancel hdvd] at hi
        exact hall _ (copies_of_lt heap hi) _ hfirst

/-! ## Splitting the writes -/

/-- All lengths of the writes leave the same file. -/
def SplitFree (off : Int64) (cnt : UInt64) (str : CStr) (heap : Mem) : Prop :=
  ∀ (rs rs' : List Int64) (f : File),
    (∀ p ∈ ((doWrBytesStr off cnt str).run (some heap) rs f).2.calls, p.Wrote) →
    (∀ p ∈ ((doWrBytesStr off cnt str).run (some heap) rs' f).2.calls, p.Wrote) →
    ((doWrBytesStr off cnt str).run (some heap) rs f).1 = .ret 0 →
    ((doWrBytesStr off cnt str).run (some heap) rs' f).1 = .ret 0 →
    ((doWrBytesStr off cnt str).run (some heap) rs f).2.file = ((doWrBytesStr off cnt str).run (some heap) rs' f).2.file

section Tight

variable {e : Engine} {heap buf : Mem}

/-- Every splitting of the writes is that of a run. -/
theorem Engine.Tight.realize (h : e.Tight) (hfill : e.fill (bufLen e.dataLen) heap = some buf) {bs : List (ℕ × ℕ)}
    (hc : Chain e.stop.toNat e.req (unat e.start) bs e.stop.toNat) (f : File) :
    ∃ rs, (∀ p ∈ (e.run (some heap) rs f).2.calls, p.Wrote) ∧ (e.run (some heap) rs f).1 = .ret 0 ∧
      extents (e.run (some heap) rs f).2.calls = bs ∧ (e.run (some heap) rs f).2.file = f.writes buf bs := by
  have hlt := h.stop_lt
  have hmin : min e.stop.toNat (2 ^ 63) = e.stop.toNat := by omega
  obtain ⟨rs, hrun⟩ := e.realize heap hfill (by rw [hmin]; exact hc) le_rfl f
  obtain ⟨h0, hw, hext⟩ := hrun []
  have hw : ∀ p ∈ (e.run (some heap) (rs ++ []) f).2.calls, p.Wrote := fun p hp => (hw p hp).2
  exact ⟨_, hw, h0, hext, by rw [(h.done hfill hw h0).2.2, hext]⟩

/-- If all splittings leave the same file, the part of the buffer that is written holds one byte only: the first write may
be as long as the buffer, or no write longer than a byte. -/
theorem Engine.Tight.const_of_same (h : e.Tight)
    (hsame : ∀ bs bs', Chain e.stop.toNat e.req (unat e.start) bs e.stop.toNat →
      Chain e.stop.toNat e.req (unat e.start) bs' e.stop.toNat → File.empty.writes buf bs = File.empty.writes buf bs') :
    ∀ i < e.req (unat e.start), unat e.start < e.stop.toNat → buf i = buf 0 := by
  intro i hi hlt
  have hreq : ∀ v, unat e.start ≤ v → v < e.stop.toNat → 0 < e.req v := fun v h₁ h₂ => (h.req v h₁ h₂).1
  have hend := (h.req _ le_rfl hlt).2.1
  obtain ⟨bs, hbs, hmem⟩ := Chain.byBytes_mem e.stop.toNat e.req (show unat e.start ≤ unat e.start + i by omega)
    (by omega) hreq
  obtain ⟨cs, hcs⟩ := Chain.byBytes e.stop.toNat e.req _ _ hend le_rfl fun v h₁ h₂ => hreq v (by omega) h₂
  have hcs : Chain e.stop.toNat e.req (unat e.start) _ e.stop.toNat := .chunk hlt (hreq _ le_rfl hlt) le_rfl hcs
  have hbyte := congrArg (fun f => f.byte (unat e.start + i)) (hsame _ _ hcs hbs)
  rw [hcs.tiles.writes_byte List.mem_cons_self hi] at hbyte
  exact hbyte.trans (hbs.tiles.writes_byte hmem Nat.one_pos)

end Tight

variable {off : Int64} {cnt : UInt64}

/-- **When the string engine does not depend on how its writes are split**: the string is empty and nothing is written,
or the written part of the buffer holds one byte only. -/
theorem string_split_free_iff (hoff : 0 ≤ off) (hlt : off.toInt + cnt.toNat < 2 ^ 63) (str : CStr) (heap : Mem) :
    SplitFree off cnt str heap ↔ str.bytes = [] ∨ OneByte str (min cnt.toNat MAX_BUF_LEN.toNat) heap := by
  obtain ⟨hs, hdom⟩ := stop_toNat hoff hlt
  have hmax : MAX_BUF_LEN.toNat = 4194304 := rfl
  by_cases hstr : str.bytes = []
  · refine ⟨fun _ => .inl hstr, fun _ rs rs' f _ _ h0 => ?_⟩
    exact absurd h0 (Engine.run_of_hang _ (fun heap _ => fillStr_empty hstr _ heap) rs f)
  · have hbuf := toNat_bufLen cnt
    have hfill : (doWrBytesStr off cnt str).fill (bufLen cnt) heap = some _ :=
      fillStr_eq hstr (by omega) heap
    have htight : (doWrBytesStr off cnt str).Tight := bytes_tight hoff hlt rfl rfl rfl rfl
    rw [or_iff_right hstr, hmax, ← hbuf, ← copies_const_iff hstr]
    constructor
    · intro h i hi
      have hreq : (doWrBytesStr off cnt str).req (unat off) = (bufLen cnt).toNat := by
        rw [bytes_req hoff hlt rfl rfl (by omega)]
        omega
      refine htight.const_of_same (fun bs bs' hc hc' => ?_) i (hi.trans_eq hreq.symm) ?_
      · obtain ⟨rs, hw, h0, -, hf⟩ := htight.realize hfill hc File.empty
        obtain ⟨rs', hw', h0', -, hf'⟩ := htight.realize hfill hc' File.empty
        rw [← hf, ← hf', h rs rs' File.empty hw hw' h0 h0']
      · show unat off < (cnt + off.toUInt64).toNat
        omega
    · intro hconst rs rs' f hw hw' h0 h0'
      obtain ⟨ht, hb, hf⟩ := htight.done hfill hw h0
      obtain ⟨ht', hb', hf'⟩ := htight.done hfill hw' h0'
      rw [hf, hf', ht.writes_eq_fill hb hconst, ht'.writes_eq_fill hb' hconst]

theorem repeated_letter_split_free : SplitFree 5 3 letterA fun _ => 0 :=
  (string_split_free_iff (by decide) (by decide) _ _).mpr
    (.inr (.inr ⟨by decide, List.forall_mem_singleton.mpr (List.forall_mem_singleton.mpr rfl)⟩))

def lettersAB : CStr := ⟨[65, 66], by decide, by decide⟩

/-- `AB` in one write of two bytes; in two writes of one byte it is `AA`. -/
theorem short_write_restarts_the_string : ¬ ∀ (off : Int64) (cnt : UInt64) (str : CStr) (heap : Mem), 0 ≤ off →
    off.toInt + cnt.toNat < 2 ^ 63 → SplitFree off cnt str heap := by
  intro h
  have hfile := h 0 2 lettersAB (fun _ => 0) (by decide) (by decide) [2] [1, 1] File.empty (by decide) (by decide)
    (by decide) (by decide)
  have hbyte := congrArg (fun f => f.byte 1) hfile
  exact absurd hbyte (by decide)

end CppNotes.Iotool
