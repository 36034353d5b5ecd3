import CppNotes.Iotool.CheckArgs
import CppNotes.Iotool.Fill
import CppNotes.Iotool.Ranges

/-!
# The write engines under any schedule

The kernel may answer each `pwrite` with an error, or write any part of what was asked for that is not empty
(`Pwrite.FailedOrWrote`).  If no request reaches the end of the address space, every call moves the position on, and the loop
ends (`wrLoop_ends`).  For `_do_wr_bytes_char` what was written is then a first part of the range, and all of it if 0 is
returned.

The byte engines never ask for more than is left of the range.  A sector engine does: behind a short write near the end of
the range, and close to `2 ^ 64` its position can wrap around to 0, from where it starts again (`wrLoop_never_ends`).
-/

namespace CppNotes.Iotool

open CppNotes.Lib

/-! ## Loops that end -/

section Ends

variable {stop : UInt64} {oneWrLen : Int64 → Int64} {buf : Mem}

/-- **The loop ends** if no request from `lo` on goes past the last address: each answer moves the position on. -/
theorem wrLoop_ends {lo : ℕ}
    (hreq : ∀ w, lo ≤ unat w → w.toUInt64 < stop → unat w + unat (oneWrLen w) < 2 ^ 64) (rs : List Int64) (w : Int64)
    (s : Sys) (hlo : lo ≤ unat w) (hlen : stop.toNat - unat w ≤ rs.length)
    (hans : ∀ p ∈ (wrLoop stop oneWrLen buf rs w s).2.calls, p.FailedOrWrote) :
    (wrLoop stop oneWrLen buf rs w s).1 = .ret 0 ∨ (wrLoop stop oneWrLen buf rs w s).1 = .ret (-1) := by
  induction rs generalizing w s with
  | nil =>
    have hge : ¬ w.toUInt64 < stop := by
      rw [UInt64.lt_iff_toNat_lt, Nat.not_lt]
      exact Nat.sub_eq_zero_iff_le.mp (Nat.le_zero.mp hlen)
    exact .inl (if_neg hge)
  | cons r rs ih =>
    unfold wrLoop at hans ⊢
    split
    · rename_i hw
      split
      · exact .inr rfl
      · rename_i hr
        rw [if_pos hw, if_neg hr] at hans
        -- the call is on the trace, so its answer has written something
        have hcall : (⟨w, (oneWrLen w).toUInt64, r⟩ : Pwrite).FailedOrWrote := by
          obtain ⟨calls, hcalls, -⟩ := wrLoop_calls rs (w + r) _ rfl
          refine hans _ ?_
          rw [hcalls]
          simp [Sys.print, Sys.pwrite]
        have hpos : 0 < unat r := (hcall.resolve_left hr).unat_pos.1
        have hle : unat r ≤ unat (oneWrLen w) := (hcall.resolve_left hr).2
        have hnext : unat (w + r) = unat w + unat r := by
          rw [unat_add, Nat.mod_eq_of_lt]
          have := hreq w hlo hw
          omega
        rw [List.length_cons] at hlen
        exact ih _ _ (by omega) (by omega) hans
    · exact .inl rfl

end Ends

variable {e : Engine} {heap buf : Mem} {rs : List Int64} {f : File}

theorem Engine.ends (hfill : e.fill (bufLen e.dataLen) heap = some buf)
    (hreq : ∀ w, unat e.start ≤ unat w → unat w < e.stop.toNat →
      unat w + (e.oneWrLen (bufLen e.dataLen) w).toNat < 2 ^ 64)
    (hlen : e.stop.toNat - unat e.start ≤ rs.length) (hans : ∀ p ∈ (e.run (some heap) rs f).2.calls, p.FailedOrWrote) :
    (e.run (some heap) rs f).1 = .ret 0 ∨ (e.run (some heap) rs f).1 = .ret (-1) := by
  obtain ⟨r, rfl, hx, hc, -⟩ := e.run_of_fill hfill rs f
  rw [hx]
  rw [hc] at hans
  refine wrLoop_ends ?_ rs e.start _ le_rfl hlen hans
  intro w hlo hw
  rw [unat_toInt64]
  exact hreq w hlo (UInt64.lt_iff_toNat_lt.mp hw)

/-! ## The byte engine that writes one character -/

section Char

variable {off : Int64} {cnt : UInt64}

/-- A request of a byte engine ends in its range. -/
theorem bytes_in_range (hdata : e.dataLen = cnt) (hstop : e.stop = cnt + off.toUInt64)
    (hone : e.oneWrLen = bytesLen cnt off) (w : Int64) (hw : unat w < e.stop.toNat) :
    unat w + (e.oneWrLen (bufLen e.dataLen) w).toNat < 2 ^ 64 := by
  have hlt := e.stop.toNat_lt
  rw [hone, hdata, toNat_bytesLen off cnt _ (congrArg UInt64.toNat hstop).symm hw]
  omega

theorem bytesLen_le (cnt : UInt64) (off : Int64) (n : UInt64) (w : Int64) : bytesLen cnt off n w ≤ n := by
  unfold bytesLen
  split
  · exact UInt64.le_refl n
  · rename_i h
    exact UInt64.not_lt.mp h

/-- **A tight engine with one byte in its buffer** has set a first part of its range, and all of it if it returns 0. -/
theorem Engine.Tight.fills (h : e.Tight) (hfill : e.fill (bufLen e.dataLen) heap = some buf) {c : UInt8}
    (hbuf : ∀ i < (bufLen e.dataLen).toNat, buf i = c)
    (hans : ∀ p ∈ (e.run (some heap) rs f).2.calls, p.FailedOrWrote) :
    ∃ n, n ≤ e.stop.toNat - unat e.start ∧ (e.run (some heap) rs f).2.file = f.fill (unat e.start) n c ∧
      ((e.run (some heap) rs f).1 = .ret 0 → n = e.stop.toNat - unat e.start) := by
  obtain ⟨hi, hle, ht, hshort, hfile, hend⟩ := h.tiles hfill hans
  refine ⟨hi - unat e.start, by omega, by rw [hfile, ht.writes_eq_fill hshort hbuf], fun h0 => by rw [hend h0]⟩

/-- **`_do_wr_bytes_char` is exact under any schedule.**  With an answer for each byte of the range it returns; it has set
the range if it returns 0, and otherwise a first part of it. -/
theorem bytes_char_exact (hoff : 0 ≤ off) (hlt : off.toInt + cnt.toNat < 2 ^ 63) (c : UInt8) (mem : Option Mem)
    (rs : List Int64) (f : File) (hlen : cnt.toNat ≤ rs.length)
    (hans : ∀ p ∈ ((doWrBytesChar off cnt c).run mem rs f).2.calls, p.FailedOrWrote) :
    (((doWrBytesChar off cnt c).run mem rs f).1 = .ret 0 ∧
        ((doWrBytesChar off cnt c).run mem rs f).2.file = f.fill (unat off) cnt.toNat c ∨
      ((doWrBytesChar off cnt c).run mem rs f).1 = .ret (-1) ∧
        ∃ n ≤ cnt.toNat, ((doWrBytesChar off cnt c).run mem rs f).2.file = f.fill (unat off) n c) ∧
    ∀ p ∈ ((doWrBytesChar off cnt c).run mem rs f).2.calls, p.count.toNat ≤ min cnt.toNat MAX_BUF_LEN.toNat := by
  cases mem with
  | none => exact ⟨.inr ⟨rfl, 0, Nat.zero_le _, File.write_zero.symm⟩, by simp [Engine.run]⟩
  | some heap =>
    have htight : (doWrBytesChar off cnt c).Tight := bytes_tight hoff hlt rfl rfl rfl rfl
    have hstop : (doWrBytesChar off cnt c).stop.toNat = unat off + cnt.toNat := (stop_toNat hoff hlt).1
    have hrange : (doWrBytesChar off cnt c).stop.toNat - unat (doWrBytesChar off cnt c).start = cnt.toNat := by
      rw [hstop]
      exact Nat.add_sub_cancel_left _ _
    have hfill : (doWrBytesChar off cnt c).fill (bufLen cnt) heap = some (memset heap c (bufLen cnt)) := rfl
    obtain ⟨n, hn, hfile, hall⟩ := htight.fills hfill (memset_of_lt heap c (bufLen cnt)) hans
    rw [hrange] at hn hall
    refine ⟨?_, fun p hp => ?_⟩
    · rcases Engine.ends hfill (fun w _ => bytes_in_range rfl rfl rfl w) (by omega) hans with h0 | h1
      · exact .inl ⟨h0, by rw [hfile, hall h0]; rfl⟩
      · exact .inr ⟨h1, n, hn, hfile⟩
    · rw [((doWrBytesChar off cnt c).run_calls hfill rs f p hp).2]
      have := UInt64.le_iff_toNat_le.mp (bytesLen_le cnt off (bufLen cnt) p.offset)
      rwa [toNat_bufLen] at this

/-- Three bytes, of which the second call writes two. -/
theorem bytes_char_exact_three :
    ((doWrBytesChar 5 3 65).run (some fun _ => 0) [1, 2, 0] File.empty).1 = .ret 0 ∧
    ((doWrBytesChar 5 3 65).run (some fun _ => 0) [1, 2, 0] File.empty).2.file = File.empty.fill 5 3 65 := by
  have hans : ∀ p ∈ ((doWrBytesChar 5 3 65).run (some fun _ => 0) [1, 2, 0] File.empty).2.calls, p.FailedOrWrote := by
    decide
  have hret : ((doWrBytesChar 5 3 65).run (some fun _ => 0) [1, 2, 0] File.empty).1 = .ret 0 := by decide
  rcases (bytes_char_exact (by decide) (by decide) 65 (some fun _ => 0) [1, 2, 0] File.empty (by decide) hans).1 with
    h | h
  · exact h
  · rw [h.1] at hret
    exact absurd hret (by decide)

end Char

/-! ## Loops that never end -/

/-- The first `n` answers of a kernel. -/
def answers (ans : ℕ → Int64) (n : ℕ) : List Int64 := (List.range n).map ans

/-- Whatever the kernel answers, the engine returns. -/
def Engine.Ends (e : Engine) : Prop :=
  ∀ mem ans f, (∀ n, ∀ p ∈ (e.run mem (answers ans n) f).2.calls, p.FailedOrWrote) →
    ∃ n v, (e.run mem (answers ans n) f).1 = .ret v

theorem answers_succ (ans : ℕ → Int64) (n : ℕ) : answers ans (n + 1) = ans 0 :: answers (fun k => ans (k + 1)) n := by
  rw [answers, List.range_succ_eq_map, List.map_cons, List.map_map]
  rfl

/-- A kernel that answers by the position, `next w` at `w`, and so leads the loop round in `inv`. -/
theorem wrLoop_never_ends (stop : UInt64) (oneWrLen : Int64 → Int64) (buf : Mem) (next : Int64 → Int64)
    (inv : Int64 → Prop)
    (hinv : ∀ w, inv w → w.toUInt64 < stop ∧ (⟨w, (oneWrLen w).toUInt64, next w⟩ : Pwrite).Wrote ∧ inv (w + next w))
    (n : ℕ) (w : Int64) (hw : inv w) (s : Sys) (hs : ∀ p ∈ s.calls, p.FailedOrWrote) :
    (wrLoop stop oneWrLen buf (answers (fun k => next ((fun w => w + next w)^[k] w)) n) w s).1 = .pending ∧
    ∀ p ∈ (wrLoop stop oneWrLen buf (answers (fun k => next ((fun w => w + next w)^[k] w)) n) w s).2.calls,
      p.FailedOrWrote := by
  induction n generalizing w s with
  | zero => exact ⟨if_pos (hinv w hw).1, hs⟩
  | succ n ih =>
    obtain ⟨hlt, hwrote, hnext⟩ := hinv w hw
    rw [answers_succ]
    unfold wrLoop
    rw [if_pos hlt, Function.iterate_zero, id, if_neg hwrote.not_neg]
    refine ih (w + next w) hnext _ ?_
    intro p hp
    rcases List.mem_append.mp hp with hp | hp
    · exact hs p hp
    · rw [List.mem_singleton.mp hp]
      exact .inr hwrote

theorem Engine.not_ends (hfill : e.fill (bufLen e.dataLen) heap = some buf) (next : Int64 → Int64)
    (inv : Int64 → Prop) (h₀ : inv e.start)
    (hinv : ∀ w, inv w → unat w < e.stop.toNat ∧
      (⟨w, e.oneWrLen (bufLen e.dataLen) w, next w⟩ : Pwrite).Wrote ∧ inv (w + next w)) : ¬ e.Ends := by
  intro hends
  have hrun (n : ℕ) := wrLoop_never_ends e.stop (fun w => (e.oneWrLen (bufLen e.dataLen) w).toInt64) buf next inv
    (fun w hw => by
      rw [UInt64.toUInt64_toInt64, UInt64.lt_iff_toNat_lt]
      exact hinv w hw)
    n e.start h₀ ⟨File.empty, [], [], [e.hello (bufLen e.dataLen)]⟩ (by simp)
  obtain ⟨n, v, hret⟩ := hends (some heap) _ File.empty fun n => by
    obtain ⟨r, rfl, -, hc, -⟩ := e.run_of_fill hfill
      (answers (fun k => next ((fun w => w + next w)^[k] e.start)) n) File.empty
    rw [hc]
    exact (hrun n).2
  obtain ⟨r, rfl, hx, -⟩ := e.run_of_fill hfill
    (answers (fun k => next ((fun w => w + next w)^[k] e.start)) n) File.empty
  rw [hx, (hrun n).1] at hret
  exact absurd hret (by simp)

theorem Engine.not_ends_of_hang (heap : Mem) (hfill : e.fill (bufLen e.dataLen) heap = none) : ¬ e.Ends := by
  intro hends
  have hrun (rs : List Int64) : e.run (some heap) rs File.empty =
      (.hang, ⟨File.empty, [], [], [e.hello (bufLen e.dataLen)]⟩) := by
    simp [Engine.run, hfill]
  obtain ⟨n, v, hret⟩ := hends (some heap) (fun _ => 0) File.empty fun n => by simp [hrun]
  simp [hrun] at hret

/-- An engine whose fill loop ends and whose requests do not go past the last address. -/
theorem Engine.ends_of_reqs (hfill : ∀ heap, (e.fill (bufLen e.dataLen) heap).isSome = true)
    (hreq : ∀ w, unat e.start ≤ unat w → unat w < e.stop.toNat →
      unat w + (e.oneWrLen (bufLen e.dataLen) w).toNat < 2 ^ 64) : e.Ends := by
  intro mem ans f hans
  cases mem with
  | none => exact ⟨0, -1, rfl⟩
  | some heap =>
    obtain ⟨buf, hbuf⟩ := Option.isSome_iff_exists.mp (hfill heap)
    have hlen : e.stop.toNat - unat e.start ≤ (answers ans e.stop.toNat).length := by
      simp [answers]
    rcases Engine.ends hbuf hreq hlen (hans e.stop.toNat) with h | h
    · exact ⟨_, _, h⟩
    · exact ⟨_, _, h⟩

/-! ## When the engines end -/

/-- The position of a sector engine never wraps around: the range starts at 0; or its end wraps around, and the loop is
not entered; or a whole buffer fits behind it. -/
def SectsStop (off : Int64) (cnt : UInt64) : Prop :=
  let u : ℕ := (512 * off.toInt % 2 ^ 64).toNat
  let d : ℕ := 512 * cnt.toNat % 2 ^ 64
  u = 0 ∨ 2 ^ 64 ≤ u + d ∨ u + d + min d 4194304 ≤ 2 ^ 64

theorem bytes_str_ends_iff (off : Int64) (cnt : UInt64) (str : CStr) :
    (doWrBytesStr off cnt str).Ends ↔ str.bytes ≠ [] := by
  constructor
  · intro hends hstr
    exact Engine.not_ends_of_hang (fun _ => 0) (fillStr_empty hstr _ _) hends
  · intro hstr
    exact Engine.ends_of_reqs (fillStr_bufLen_isSome hstr _) fun w _ => bytes_in_range rfl rfl rfl w

section Sects

variable (off : Int64) (cnt : UInt64) {u d : ℕ} (hu : unat (off * SECTOR_SIZE.toInt64) = u)
  (hd : (SECTOR_SIZE * cnt).toNat = d)
include hu hd

theorem sects_stop (str : CStr) : (doWrSectsStr off cnt str).stop.toNat = (u + d) % 2 ^ 64 := by
  rw [← hu, ← hd, Nat.add_comm]
  exact UInt64.toNat_add _ _

theorem sects_str_ends {str : CStr} (hstr : str.bytes ≠ [])
    (h : u = 0 ∨ 2 ^ 64 ≤ u + d ∨ u + d + min d 4194304 ≤ 2 ^ 64) : (doWrSectsStr off cnt str).Ends := by
  have hd64 := (SECTOR_SIZE * cnt).toNat_lt
  refine Engine.ends_of_reqs (fillStr_bufLen_isSome hstr _) fun w hlo hw => ?_
  have hlo : u ≤ unat w := hu ▸ hlo
  rw [sects_stop off cnt hu hd] at hw
  have hlt : u + d < 2 ^ 64 := by omega
  rw [Nat.mod_eq_of_lt hlt] at hw
  have hlen := toNat_sectsLen off cnt (bufLen (SECTOR_SIZE * cnt)) hu hd (by rw [toNat_bufLen, hd]) hlt hw
  show unat w + (sectsLen (SECTOR_SIZE * cnt) off (bufLen (SECTOR_SIZE * cnt)) w).toNat < 2 ^ 64
  rw [hlen]
  split <;> omega

/-- The kernel lets the engine write one byte at a time; at the last position, where the engine asks for a whole buffer, it
writes exactly up to the last address. -/
theorem sects_str_never_ends {str : CStr} (hstr : str.bytes ≠ []) (hone : 1 < u) (hlt : u + d < 2 ^ 64)
    (hwrap : 2 ^ 64 < u + d + min d 4194304) : ¬ (doWrSectsStr off cnt str).Ends := by
  have hstop : (doWrSectsStr off cnt str).stop.toNat = u + d :=
    (sects_stop off cnt hu hd str).trans (Nat.mod_eq_of_lt hlt)
  obtain ⟨buf, hfill⟩ := Option.isSome_iff_exists.mp (fillStr_bufLen_isSome hstr (SECTOR_SIZE * cnt) fun _ => 0)
  -- one byte, or all that is left
  let next (w : Int64) : Int64 := if unat w + 1 < u + d then 1 else Int64.ofNat (2 ^ 64 - (u + d) + 1)
  have hnext (w : Int64) : unat (next w) = if unat w + 1 < u + d then 1 else 2 ^ 64 - (u + d) + 1 := by
    rw [apply_ite unat, unat_ofNat (by omega)]
    rfl
  refine Engine.not_ends hfill next (fun w => unat w < u + d) ?_ fun w hw => ⟨by rwa [hstop], ?_, ?_⟩
  · show unat (off * SECTOR_SIZE.toInt64) < u + d
    omega
  · have hlen := toNat_sectsLen off cnt (bufLen (SECTOR_SIZE * cnt)) hu hd (by rw [toNat_bufLen, hd]) hlt hw
    have hres : 0 < unat (next w) ∧ unat (next w) < 2 ^ 63 := by
      rw [hnext]
      split <;> omega
    refine Pwrite.wrote_of_unat hres.1 hres.2 (le_of_le_of_eq ?_ hlen.symm)
    show unat (next w) ≤ _
    rw [hnext]
    split <;> split <;> omega
  · show unat (w + next w) < u + d
    rw [unat_add, hnext]
    split <;> omega

end Sects

theorem sects_str_ends_iff (off : Int64) (cnt : UInt64) (str : CStr) :
    (doWrSectsStr off cnt str).Ends ↔ str.bytes ≠ [] ∧ SectsStop off cnt := by
  obtain ⟨hu', hd⟩ := sects_range off cnt
  have hu : unat (off * SECTOR_SIZE.toInt64) = (512 * off.toInt % 2 ^ 64).toNat := by omega
  constructor
  · intro hends
    have hstr : str.bytes ≠ [] := fun hstr => Engine.not_ends_of_hang (fun _ => 0) (fillStr_empty hstr _ _) hends
    refine ⟨hstr, ?_⟩
    by_contra hstop
    simp only [SectsStop, not_or] at hstop
    exact sects_str_never_ends off cnt hu hd.symm hstr (by omega) (by omega) (by omega) hends
  · rintro ⟨hstr, hstop⟩
    exact sects_str_ends off cnt hu hd.symm hstr hstop

theorem aio_fill_ends_iff (str : CStr) (cnt : UInt64) (heap : Mem) :
    (FillLoop.aio cnt).Ends str heap ↔ cnt.toNat + Nat.gcd str.bytes.length (2 ^ 64) < 2 ^ 64 := by
  rw [FillLoop.ends_iff_isSome]
  exact (FillLoop.fillStr_isSome_iff str cnt heap).trans (exists_lt_mul_mod_iff (by decide))

/-- A divisor of `2 ^ 32` other than it is at most half of it. -/
theorem gcd_le_half {n : ℕ} (h : ¬ 2 ^ 32 ∣ n) : Nat.gcd n (2 ^ 32) ≤ 2 ^ 31 := by
  obtain ⟨q, hq⟩ := Nat.gcd_dvd_right n (2 ^ 32)
  have hq0 : q ≠ 0 := by
    rintro rfl
    simp at hq
  have hq1 : q ≠ 1 := by
    rintro rfl
    rw [Nat.mul_one] at hq
    exact h (hq ▸ Nat.gcd_dvd_left n (2 ^ 32))
  have := Nat.mul_le_mul_left (Nat.gcd n (2 ^ 32)) (show 2 ≤ q by omega)
  omega

theorem writeIo_fill_ends_iff (str : CStr) (bs : UInt64) (heap : Mem) : (FillLoop.writeIo bs).Ends str heap ↔
    ¬ 2 ^ 32 ∣ str.bytes.length ∧ bs.toNat + Nat.gcd str.bytes.length (2 ^ 32) < 2 ^ 64 := by
  rw [FillLoop.ends_iff_isSome]
  refine (FillLoop.fillData_isSome_iff str bs heap).trans ?_
  constructor
  · rintro ⟨k, hk⟩
    have hne : ¬ 2 ^ 32 ∣ str.bytes.length := fun hdvd => by
      rw [Nat.mod_eq_zero_of_dvd (hdvd.mul_left k)] at hk
      exact absurd hk (Nat.not_lt_zero _)
    have hle := mul_mod_le_sub_gcd (show 0 < 2 ^ 32 by decide) str.bytes.length k
    have hhalf := gcd_le_half hne
    refine ⟨hne, ?_⟩
    unfold sizeView at hk
    split at hk <;> omega
  · rintro ⟨hne, hlt⟩
    have hhalf := gcd_le_half hne
    -- the largest position is negative as an `int`, and as a `size_t` it is the largest one
    obtain ⟨k, hk⟩ := exists_mul_mod_eq_sub_gcd str.bytes.length
      (show Nat.gcd str.bytes.length (2 ^ 32) < 2 ^ 32 by omega)
    refine ⟨k, ?_⟩
    rw [hk, sizeView, if_neg (by omega)]
    omega

/-- A buffer that is too long for the position cannot be allocated. -/
theorem aio_fill_endsAllocated_iff (str : CStr) (cnt : UInt64) :
    (FillLoop.aio cnt).EndsAllocated str ↔ str.bytes ≠ [] ∨ 2 ^ 63 ≤ cnt.toNat := by
  constructor
  · intro h
    by_contra! hcon
    have hends := h (some fun _ => 0) (fun hbig => absurd hcon.2 (Nat.not_lt.mpr hbig)) _ rfl
    rw [FillLoop.ends_iff_isSome, FillLoop.fill, fillStr_empty hcon.1] at hends
    simp at hends
  · intro h mem hmem heap hheap
    have hlt : cnt.toNat < 2 ^ 63 := by
      by_contra hbig
      rw [hmem (Nat.not_lt.mp hbig)] at hheap
      simp at hheap
    rw [FillLoop.ends_iff_isSome]
    exact fillStr_isSome (h.resolve_right (by omega)) hlt heap

theorem writeIo_fill_ends_iff_of_lt (str : CStr) {bs : UInt64} (hbs : bs.toNat < 2 ^ 63) (heap : Mem) :
    (FillLoop.writeIo bs).Ends str heap ↔ ¬ 2 ^ 32 ∣ str.bytes.length := by
  rw [writeIo_fill_ends_iff]
  refine and_iff_left_of_imp fun h => ?_
  have := gcd_le_half h
  omega

theorem toNat_le_of_le_max {bs : UInt64} (h : bs ≤ BLOCK_SIZE_MAX) : bs.toNat ≤ 64 * 1024 * 1024 := UInt64.le_iff_toNat_le.mp h

/-- **When the write engines end**, whatever the kernel answers.  The string is not empty, and no position wraps around:
neither that of a sector engine nor that of a fill loop.  The positions of the last two loops wrap around only in buffers
that are never allocated: behind `malloc`, or `CheckArgs`, the string alone decides. -/
theorem engines_end_iff (str : CStr) (off : Int64) (cnt : UInt64) :
    ((doWrBytesStr off cnt str).Ends ↔ str.bytes ≠ []) ∧
    ((doWrSectsStr off cnt str).Ends ↔ str.bytes ≠ [] ∧ SectsStop off cnt) ∧
    ((∀ heap, (FillLoop.aio cnt).Ends str heap) ↔ cnt.toNat + Nat.gcd str.bytes.length (2 ^ 64) < 2 ^ 64) ∧
    ((∀ heap, (FillLoop.writeIo cnt).Ends str heap) ↔
      ¬ 2 ^ 32 ∣ str.bytes.length ∧ cnt.toNat + Nat.gcd str.bytes.length (2 ^ 32) < 2 ^ 64) ∧
    ((FillLoop.aio cnt).EndsAllocated str ↔ str.bytes ≠ [] ∨ 2 ^ 63 ≤ cnt.toNat) ∧
    (cnt ≤ BLOCK_SIZE_MAX → ((∀ heap, (FillLoop.writeIo cnt).Ends str heap) ↔ ¬ 2 ^ 32 ∣ str.bytes.length)) := by
  refine ⟨bytes_str_ends_iff off cnt str, sects_str_ends_iff off cnt str, ?_, ?_, aio_fill_endsAllocated_iff str cnt, ?_⟩
  · simp only [aio_fill_ends_iff, forall_const]
  · simp only [writeIo_fill_ends_iff, forall_const]
  · intro hmax
    have hlt : cnt.toNat < 2 ^ 63 := (toNat_le_of_le_max hmax).trans_lt (by decide)
    simp only [writeIo_fill_ends_iff_of_lt str hlt, forall_const]

/-- With the empty string the fill loop never ends. -/
theorem empty_string_never_ends : ¬ ∀ (str : CStr) (off : Int64) (cnt : UInt64),
    (doWrBytesStr off cnt str).Ends ∧ (doWrSectsStr off cnt str).Ends ∧
    (∀ heap, (FillLoop.aio cnt).Ends str heap) ∧ ∀ heap, (FillLoop.writeIo cnt).Ends str heap := by
  intro hall
  exact (bytes_str_ends_iff 0 1 ⟨[], by decide, by decide⟩).mp (hall _ 0 1).1 rfl

end CppNotes.Iotool
