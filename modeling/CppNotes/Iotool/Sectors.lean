import CppNotes.Iotool.Calls

/-!
# Sector engines against byte engines

The sector engines compare `data_len - wr_offset` with the length of the buffer where the byte engines compare the
length that is left.  From a start other than 0 the difference wraps around once `wr_offset` is beyond `data_len`, and
the engine asks for a whole buffer whatever is left: after short writes it goes past the end of its range.

An engine is `Tight` if it always asks for something, never past the end and never for more than the buffer.  A tight
engine writes its range exactly, however the kernel splits the writes.

Where the difference does not wrap around, the engine may ask for all that is left although this is more than the buffer
holds (`sects_in_buffer_iff`).
-/

namespace CppNotes.Iotool

open CppNotes.Lib

/-! ## Tight engines -/

structure Engine.Tight (e : Engine) : Prop where
  stop_lt : e.stop.toNat < 2 ^ 63
  start_le : unat e.start ≤ e.stop.toNat
  req : ∀ w, unat e.start ≤ w → w < e.stop.toNat →
    0 < e.req w ∧ w + e.req w ≤ e.stop.toNat ∧ e.req w ≤ (bufLen e.dataLen).toNat

variable {e : Engine} {heap buf : Mem} {rs : List Int64} {f : File}

/-- The calls of an engine that stops below `2 ^ 63` are not at negative offsets. -/
theorem Engine.ok_of_failedOrWrote (hstop : e.stop.toNat < 2 ^ 63)
    (hfill : e.fill (bufLen e.dataLen) heap = some buf)
    (hans : ∀ p ∈ (e.run (some heap) rs f).2.calls, p.FailedOrWrote) :
    ∀ p ∈ (e.run (some heap) rs f).2.calls, p.Ok := by
  intro p hp
  have hlt := UInt64.lt_iff_toNat_lt.mp (e.run_calls hfill rs f p hp).1
  exact (hans p hp).imp_right fun hw => ⟨nonneg_iff_unat.mpr (hlt.trans hstop), hw⟩

theorem Engine.ok_of_wrote (hstop : e.stop.toNat < 2 ^ 63) (hfill : e.fill (bufLen e.dataLen) heap = some buf)
    (hw : ∀ p ∈ (e.run (some heap) rs f).2.calls, p.Wrote) : ∀ p ∈ (e.run (some heap) rs f).2.calls, p.Ok :=
  Engine.ok_of_failedOrWrote hstop hfill fun p hp => .inr (hw p hp)

theorem length_extents {calls : List Pwrite} (h : ∀ p ∈ calls, p.Wrote) : (extents calls).length = calls.length := by
  induction calls with
  | nil => rfl
  | cons p calls ih =>
    rw [extents_cons_wrote (h p List.mem_cons_self), List.length_cons, List.length_cons,
      ih fun q hq => h q (List.mem_cons_of_mem p hq)]

/-- **With enough answers an engine returns 0** if every call writes something. -/
theorem Engine.returns (hstop : e.stop.toNat < 2 ^ 63) (hfill : e.fill (bufLen e.dataLen) heap = some buf)
    (hw : ∀ p ∈ (e.run (some heap) rs f).2.calls, p.Wrote) (hlen : e.stop.toNat - unat e.start ≤ rs.length) :
    (e.run (some heap) rs f).1 = .ret 0 := by
  obtain ⟨hi, hchain, -, hexit⟩ := e.run_chain hfill rs f (Engine.ok_of_wrote hstop hfill hw)
  rcases hexit with ⟨h0, -⟩ | ⟨-, hall, hlt⟩ | ⟨-, p, hp, hneg⟩
  · exact h0
  · have := hchain.tiles.length_le
    rw [length_extents hw] at this
    omega
  · exact absurd hneg (hw p hp).not_neg

/-- An engine that returns 0 has come to the end of its range. -/
theorem Engine.returned (hstop : e.stop.toNat < 2 ^ 63) (hfill : e.fill (bufLen e.dataLen) heap = some buf)
    (hw : ∀ p ∈ (e.run (some heap) rs f).2.calls, p.Wrote) (h0 : (e.run (some heap) rs f).1 = .ret 0) :
    ∃ hi, e.stop.toNat ≤ hi ∧
      Chain (min e.stop.toNat (2 ^ 63)) e.req (unat e.start) (extents (e.run (some heap) rs f).2.calls) hi ∧
      (e.run (some heap) rs f).2.file = f.writes buf (extents (e.run (some heap) rs f).2.calls) := by
  obtain ⟨hi, hchain, hfile, hexit⟩ := e.run_chain hfill rs f (Engine.ok_of_wrote hstop hfill hw)
  refine ⟨hi, ?_, hchain, hfile⟩
  rcases hexit with h | h | h
  · exact h.2
  · simp [h.1] at h0
  · simp [h.1] at h0

/-- **A tight engine stays in its range**, whatever the answers, and has come to its end if it returns 0. -/
theorem Engine.Tight.tiles (h : e.Tight) (hfill : e.fill (bufLen e.dataLen) heap = some buf)
    (hans : ∀ p ∈ (e.run (some heap) rs f).2.calls, p.FailedOrWrote) :
    ∃ hi ≤ e.stop.toNat, Tiles (unat e.start) (extents (e.run (some heap) rs f).2.calls) hi ∧
      (∀ b ∈ extents (e.run (some heap) rs f).2.calls, b.2 ≤ (bufLen e.dataLen).toNat) ∧
      (e.run (some heap) rs f).2.file = f.writes buf (extents (e.run (some heap) rs f).2.calls) ∧
      ((e.run (some heap) rs f).1 = .ret 0 → hi = e.stop.toNat) := by
  obtain ⟨hi, hchain, hfile, hexit⟩ := e.run_chain hfill rs f (Engine.ok_of_failedOrWrote h.stop_lt hfill hans)
  have hle : hi ≤ e.stop.toNat := hchain.le_top h.start_le fun w hw hlt => (h.req w hw (by omega)).2.1
  refine ⟨hi, hle, hchain.tiles, hchain.length_le fun w hw hlt => (h.req w hw (by omega)).2.2, hfile, fun h0 => ?_⟩
  rcases hexit with ⟨-, hge⟩ | ⟨hx, -⟩ | ⟨hx, -⟩
  · omega
  · simp [hx] at h0
  · simp [hx] at h0

/-- A tight engine that returns 0 has written its range, whatever the lengths of the writes. -/
theorem Engine.Tight.done (h : e.Tight) (hfill : e.fill (bufLen e.dataLen) heap = some buf)
    (hw : ∀ p ∈ (e.run (some heap) rs f).2.calls, p.Wrote) (h0 : (e.run (some heap) rs f).1 = .ret 0) :
    Tiles (unat e.start) (extents (e.run (some heap) rs f).2.calls) e.stop.toNat ∧
    (∀ b ∈ extents (e.run (some heap) rs f).2.calls, b.2 ≤ (bufLen e.dataLen).toNat) ∧
    (e.run (some heap) rs f).2.file = f.writes buf (extents (e.run (some heap) rs f).2.calls) := by
  obtain ⟨hi, -, ht, hshort, hfile, hend⟩ := h.tiles hfill fun p hp => .inr (hw p hp)
  exact ⟨hend h0 ▸ ht, hshort, hfile⟩

theorem Engine.Tight.run (h : e.Tight) (hfill : e.fill (bufLen e.dataLen) heap = some buf)
    (hw : ∀ p ∈ (e.run (some heap) rs f).2.calls, p.Wrote) (hlen : e.stop.toNat - unat e.start ≤ rs.length) :
    (e.run (some heap) rs f).1 = .ret 0 ∧
    Tiles (unat e.start) (extents (e.run (some heap) rs f).2.calls) e.stop.toNat ∧
    (∀ b ∈ extents (e.run (some heap) rs f).2.calls, b.2 ≤ (bufLen e.dataLen).toNat) ∧
    (e.run (some heap) rs f).2.file = f.writes buf (extents (e.run (some heap) rs f).2.calls) := by
  have h0 := Engine.returns h.stop_lt hfill hw hlen
  exact ⟨h0, h.done hfill hw h0⟩

theorem Engine.Tight.exists_run (h : e.Tight) (heap : Mem) (hfill : e.fill (bufLen e.dataLen) heap = some buf)
    (f : File) : ∃ rs, ∀ more, ∀ p ∈ (e.run (some heap) (rs ++ more) f).2.calls, p.Wrote := by
  have hlt := h.stop_lt
  obtain ⟨bs, hchain⟩ := Chain.byBytes (min e.stop.toNat (2 ^ 63)) e.req _ _ h.start_le (by omega)
    fun w hw hlt => (h.req w hw hlt).1
  obtain ⟨rs, hrun⟩ := e.realize heap hfill hchain le_rfl f
  exact ⟨rs, fun more p hp => ((hrun more).2.1 p hp).2⟩

/-! ## The byte engines -/

section Bytes

variable {off : Int64} {cnt : UInt64} (hoff : 0 ≤ off) (hlt : off.toInt + cnt.toNat < 2 ^ 63)
include hoff hlt

/-- Where the range of a byte engine ends. -/
theorem stop_toNat : (cnt + off.toUInt64).toNat = unat off + cnt.toNat ∧ unat off + cnt.toNat < 2 ^ 63 := by
  have hint := toInt_eq_unat hoff
  have hu : off.toUInt64.toNat = unat off := rfl
  rw [UInt64.toNat_add, hu]
  omega

/-- A byte engine asks for what is left, as far as the buffer holds it. -/
theorem bytes_req (hdata : e.dataLen = cnt) (hone : e.oneWrLen = bytesLen cnt off) {w : ℕ}
    (hw : w < unat off + cnt.toNat) : e.req w = min (unat off + cnt.toNat - w) (bufLen cnt).toNat := by
  have hs := (stop_toNat hoff hlt).1
  have hn : (bufLen cnt).toNat ≤ 4194304 := by
    rw [toNat_bufLen]
    omega
  unfold Engine.req
  rw [hone, hdata]
  exact request_bytes _ _ _ hs hn hw

theorem bytes_tight (hdata : e.dataLen = cnt) (hstart : e.start = off) (hstop : e.stop = cnt + off.toUInt64)
    (hone : e.oneWrLen = bytesLen cnt off) : e.Tight := by
  obtain ⟨hs, hdom⟩ := stop_toNat hoff hlt
  refine ⟨by rw [hstop, hs]; exact hdom, by rw [hstart, hstop, hs]; omega, ?_⟩
  intro w hw hlt'
  rw [hstop, hs] at hlt'
  rw [hstart] at hw
  have hpos : 0 < (bufLen cnt).toNat := by
    rw [toNat_bufLen]
    omega
  rw [bytes_req hoff hlt hdata hone hlt', hdata, hstop, hs]
  omega

end Bytes

/-! ## The two kinds of engines -/

section Args

variable (off : Int64) (cnt : UInt64)

/-- The arguments of the byte engine for the same range. -/
def byteOff : Int64 := off * SECTOR_SIZE.toInt64
def byteCnt : UInt64 := SECTOR_SIZE * cnt

/-- Whatever the lengths of the writes, the sector engine leaves the file that the byte engine leaves and writes its
range, no more and no less. -/
def RefinesChar : Prop :=
  ∀ (c : UInt8) (heap heap' : Mem) (rs rs' : List Int64) (f : File),
    (∀ p ∈ ((doWrSectsChar off cnt c).run (some heap) rs f).2.calls, p.Wrote) → 512 * cnt.toNat ≤ rs.length →
    (∀ p ∈ ((doWrBytesChar (byteOff off) (byteCnt cnt) c).run (some heap') rs' f).2.calls, p.Wrote) →
    512 * cnt.toNat ≤ rs'.length →
    ((doWrSectsChar off cnt c).run (some heap) rs f).1 = .ret 0 ∧
    ((doWrBytesChar (byteOff off) (byteCnt cnt) c).run (some heap') rs' f).1 = .ret 0 ∧
    ((doWrSectsChar off cnt c).run (some heap) rs f).2.file =
      ((doWrBytesChar (byteOff off) (byteCnt cnt) c).run (some heap') rs' f).2.file ∧
    ∀ x, ((doWrSectsChar off cnt c).run (some heap) rs f).2.Written x ↔
      512 * off.toInt ≤ x ∧ x < 512 * (off.toInt + cnt.toNat)

/-- The same for the bytes that are written by the engines for strings. -/
def RefinesStr : Prop :=
  ∀ (str : CStr) (heap heap' : Mem) (rs rs' : List Int64) (f : File),
    (∀ p ∈ ((doWrSectsStr off cnt str).run (some heap) rs f).2.calls, p.Wrote) → 512 * cnt.toNat ≤ rs.length →
    (∀ p ∈ ((doWrBytesStr (byteOff off) (byteCnt cnt) str).run (some heap') rs' f).2.calls, p.Wrote) →
    512 * cnt.toNat ≤ rs'.length →
    ((doWrSectsStr off cnt str).run (some heap) rs f).1 =
      ((doWrBytesStr (byteOff off) (byteCnt cnt) str).run (some heap') rs' f).1 ∧
    ∀ x, ((doWrSectsStr off cnt str).run (some heap) rs f).2.Written x ↔
      ((doWrBytesStr (byteOff off) (byteCnt cnt) str).run (some heap') rs' f).2.Written x

end Args

section Domain

variable {off : Int64} {cnt : UInt64} (hoff : 0 ≤ off) (hlt : 512 * (off.toInt + cnt.toNat) < 2 ^ 63)
include hoff hlt

/-- In the domain of the comparison nothing overflows. -/
theorem args_toNat : off.toInt = unat off ∧ unat (byteOff off) = 512 * unat off ∧
    (byteCnt cnt).toNat = 512 * cnt.toNat ∧
    (byteCnt cnt + (byteOff off).toUInt64).toNat = 512 * unat off + 512 * cnt.toNat ∧
    512 * unat off + 512 * cnt.toNat < 2 ^ 63 := by
  have hint := toInt_eq_unat hoff
  have h512 : unat SECTOR_SIZE.toInt64 = 512 := rfl
  have h512' : SECTOR_SIZE.toNat = 512 := rfl
  have hu : unat (byteOff off) = 512 * unat off := by
    rw [byteOff, unat_mul, h512]
    omega
  have hd : (byteCnt cnt).toNat = 512 * cnt.toNat := by
    rw [byteCnt, UInt64.toNat_mul, h512']
    omega
  refine ⟨hint, hu, hd, ?_, by omega⟩
  have hu' : (byteOff off).toUInt64.toNat = 512 * unat off := hu
  rw [UInt64.toNat_add, hd, hu']
  omega

/-- The arguments of the byte engine are in its domain. -/
theorem byteArgs_dom : 0 ≤ byteOff off ∧ (byteOff off).toInt + (byteCnt cnt).toNat < 2 ^ 63 := by
  obtain ⟨-, hu, hd, -, hdom⟩ := args_toNat hoff hlt
  have hlt' : unat (byteOff off) < 2 ^ 63 := by omega
  refine ⟨nonneg_iff_unat.mpr hlt', ?_⟩
  rw [toInt_of_nonneg hlt', hu, hd]
  omega

theorem sects_req (hdata : e.dataLen = byteCnt cnt) (hone : e.oneWrLen = sectsLen (byteCnt cnt) off) {w : ℕ}
    (hw : w < 512 * unat off + 512 * cnt.toNat) : e.req w = sectsMost (512 * unat off) (512 * cnt.toNat) w := by
  obtain ⟨-, hu, hd, -, hdom⟩ := args_toNat hoff hlt
  unfold Engine.req
  rw [hone, hdata]
  exact request_sects off cnt _ hu hd (by rw [toNat_bufLen, hd]) (by omega) hw

/-- From the start of the file the two comparisons are the same. -/
theorem sects_tight (hdata : e.dataLen = byteCnt cnt) (hstart : e.start = byteOff off)
    (hstop : e.stop = byteCnt cnt + (byteOff off).toUInt64) (hone : e.oneWrLen = sectsLen (byteCnt cnt) off)
    (h0 : off = 0 ∨ cnt = 0) : e.Tight := by
  obtain ⟨-, hu, hd, hs, hdom⟩ := args_toNat hoff hlt
  refine ⟨by rw [hstop, hs]; exact hdom, by rw [hstart, hstop, hu, hs]; omega, ?_⟩
  intro w hw hlt'
  rw [hstart, hu] at hw
  rw [hstop, hs] at hlt'
  have hoff0 : unat off = 0 := by
    rcases h0 with rfl | rfl
    · rfl
    · have hz : (0 : UInt64).toNat = 0 := rfl
      omega
  rw [sects_req hoff hlt hdata hone hlt', hdata, hstop, hs, toNat_bufLen, hd, hoff0, sectsMost]
  split <;> omega

/-- Byte by byte up to the last one, for which a whole buffer is asked. -/
theorem sects_overshoot (hdata : e.dataLen = byteCnt cnt) (hstart : e.start = byteOff off)
    (hstop : e.stop = byteCnt cnt + (byteOff off).toUInt64) (hone : e.oneWrLen = sectsLen (byteCnt cnt) off)
    (hpos : 0 < unat off) (hcnt : 0 < cnt.toNat) :
    ∃ bs hi, Chain (min e.stop.toNat (2 ^ 63)) e.req (unat e.start) bs hi ∧
      512 * unat off + 512 * cnt.toNat < hi := by
  obtain ⟨-, hu, hd, hs, hdom⟩ := args_toNat hoff hlt
  have hreq {w : ℕ} (hw : w < 512 * unat off + 512 * cnt.toNat) := sects_req hoff hlt hdata hone hw
  rw [hstart, hstop, hu, hs]
  obtain ⟨bs, hchain⟩ := Chain.byBytes (min (512 * unat off + 512 * cnt.toNat) (2 ^ 63)) e.req
    (512 * unat off) (512 * unat off + 512 * cnt.toNat - 1) (by omega) (by omega) fun w hw hlt' => by
      rw [hreq (by omega)]
      exact sectsMost_pos (by omega) (by omega)
  have hlast : e.req (512 * unat off + 512 * cnt.toNat - 1) = min (512 * cnt.toNat) 4194304 := by
    rw [hreq (by omega), sectsMost]
    split <;> omega
  exact ⟨_, _, hchain.snoc (r := min (512 * cnt.toNat) 4194304) (by omega) (by omega) hlast.ge, by omega⟩

theorem refinesChar_of (h0 : off = 0 ∨ cnt = 0) : RefinesChar off cnt := by
  intro c heap heap' rs rs' f hw hlen hw' hlen'
  obtain ⟨hint, hu, hd, hs, hdom⟩ := args_toNat hoff hlt
  have hsects : (doWrSectsChar off cnt c).Tight := sects_tight hoff hlt rfl rfl rfl rfl h0
  have hb := byteArgs_dom hoff hlt
  have hbytes : (doWrBytesChar (byteOff off) (byteCnt cnt) c).Tight := bytes_tight hb.1 hb.2 rfl rfl rfl rfl
  have hdiff : (byteCnt cnt + (byteOff off).toUInt64).toNat - unat (byteOff off) = 512 * cnt.toNat := by
    rw [hs, hu]
    omega
  obtain ⟨hx, ht, hb, hf⟩ := hsects.run rfl hw (hdiff.trans_le hlen)
  obtain ⟨hx', ht', hb', hf'⟩ := hbytes.run rfl hw' (hdiff.trans_le hlen')
  refine ⟨hx, hx', ?_, ?_⟩
  · rw [hf, hf', ht.writes_eq_fill hb (memset_of_lt heap c _), ht'.writes_eq_fill hb' (memset_of_lt heap' c _)]
    rfl
  · intro x
    have ht : Tiles (unat (byteOff off)) _ (byteCnt cnt + (byteOff off).toUInt64).toNat := ht
    rw [written_iff (Engine.ok_of_wrote hsects.stop_lt rfl hw) ht, hu, hs, hint]
    omega

theorem refinesStr_of (h0 : off = 0 ∨ cnt = 0) : RefinesStr off cnt := by
  intro str heap heap' rs rs' f hw hlen hw' hlen'
  obtain ⟨hint, hu, hd, hs, hdom⟩ := args_toNat hoff hlt
  have hdiff : (byteCnt cnt + (byteOff off).toUInt64).toNat - unat (byteOff off) = 512 * cnt.toNat := by
    rw [hs, hu]
    omega
  have hsects : (doWrSectsStr off cnt str).Tight := sects_tight hoff hlt rfl rfl rfl rfl h0
  have hb := byteArgs_dom hoff hlt
  have hbytes : (doWrBytesStr (byteOff off) (byteCnt cnt) str).Tight := bytes_tight hb.1 hb.2 rfl rfl rfl rfl
  by_cases hstr : str.bytes = []
  · have hfill (n : UInt64) (buf : Mem) := fillStr_empty hstr n buf
    simp [Engine.run, doWrSectsStr, doWrBytesStr, hfill, Sys.Written]
  · obtain ⟨buf, hfill⟩ := Option.isSome_iff_exists.mp (fillStr_bufLen_isSome hstr (byteCnt cnt) heap)
    obtain ⟨buf', hfill'⟩ := Option.isSome_iff_exists.mp (fillStr_bufLen_isSome hstr (byteCnt cnt) heap')
    obtain ⟨hx, ht, -, -⟩ := hsects.run hfill hw (hdiff.trans_le hlen)
    obtain ⟨hx', ht', -, -⟩ := hbytes.run hfill' hw' (hdiff.trans_le hlen')
    refine ⟨hx.trans hx'.symm, fun x => ?_⟩
    rw [written_iff (Engine.ok_of_wrote hsects.stop_lt hfill hw) ht,
      written_iff (Engine.ok_of_wrote hbytes.stop_lt hfill' hw') ht']
    rfl

/-- **Where the sector engines refine the byte engines.**  Only from the start of the file, or if there is nothing to
write; in all other cases some lengths of writes take the sector engine past the end of its range. -/
theorem sects_refine_bytes_iff : RefinesChar off cnt ∧ RefinesStr off cnt ↔ off = 0 ∨ cnt = 0 := by
  constructor
  · rintro ⟨h, -⟩
    by_contra! hne
    obtain ⟨hint, hu, hd, hs, hdom⟩ := args_toNat hoff hlt
    obtain ⟨bs, hi, hchain, hover⟩ := sects_overshoot (e := doWrSectsChar off cnt 0) hoff hlt rfl rfl rfl rfl
      (unat_pos_of_ne hne.1) (toNat_pos_of_ne hne.2)
    have hstop : (doWrSectsChar off cnt 0).stop.toNat ≤ hi := hs.trans_le hover.le
    obtain ⟨rs, hrun⟩ := (doWrSectsChar off cnt 0).realize (fun _ => 0) rfl hchain hstop File.empty
    obtain ⟨-, hcalls, hext⟩ := hrun (List.replicate (512 * cnt.toNat) 0)
    have hb := byteArgs_dom hoff hlt
    have hbytes : (doWrBytesChar (byteOff off) (byteCnt cnt) 0).Tight := bytes_tight hb.1 hb.2 rfl rfl rfl rfl
    obtain ⟨rs', hrun'⟩ := hbytes.exists_run (fun _ => 0) rfl File.empty
    obtain ⟨-, -, -, hwritten⟩ := h 0 _ _ _ _ _ (fun p hp => (hcalls p hp).2) (by simp)
      (hrun' (List.replicate (512 * cnt.toNat) 0)) (by simp)
    have hx := hwritten ((512 * unat off + 512 * cnt.toNat : ℕ) : ℤ)
    rw [written_iff (fun p hp => .inr (hcalls p hp)) (by rw [hext]; exact hchain.tiles)] at hx
    have hstart : unat (doWrSectsChar off cnt 0).start = 512 * unat off := hu
    omega
  · intro h0
    exact ⟨refinesChar_of hoff hlt h0, refinesStr_of hoff hlt h0⟩

end Domain

theorem sects_refine_bytes_first_sector : RefinesChar 0 1 ∧ RefinesStr 0 1 :=
  (sects_refine_bytes_iff (by decide) (by decide)).mpr (.inl rfl)

/-- One sector from sector 2: after a write of 100 bytes, 512 bytes are asked for where 412 are left. -/
theorem short_write_passes_the_end : ¬ ∀ (off : Int64) (cnt : UInt64), 0 ≤ off →
    512 * (off.toInt + cnt.toNat) < 2 ^ 63 → RefinesChar off cnt ∧ RefinesStr off cnt := by
  intro h
  have hlen (rs : List Int64) : 512 * (1 : UInt64).toNat ≤ (rs ++ List.replicate 512 0).length := by
    rw [List.length_append, List.length_replicate]
    exact Nat.le_add_left _ _
  have hsects : (∀ p ∈ ((doWrSectsChar 2 1 65).run (some fun _ => 0) ([100, 512] ++ List.replicate 512 0)
        File.empty).2.calls, p.Wrote) ∧
      ((doWrSectsChar 2 1 65).run (some fun _ => 0) ([100, 512] ++ List.replicate 512 0) File.empty).2.file.size =
        1636 := by decide
  have hbytes : (∀ p ∈ ((doWrBytesChar (byteOff 2) (byteCnt 1) 65).run (some fun _ => 0)
        ([512] ++ List.replicate 512 0) File.empty).2.calls, p.Wrote) ∧
      ((doWrBytesChar (byteOff 2) (byteCnt 1) 65).run (some fun _ => 0) ([512] ++ List.replicate 512 0)
        File.empty).2.file.size = 1536 := by decide
  obtain ⟨-, -, hfile, -⟩ :=
    (h 2 1 (by decide) (by decide)).1 65 _ _ _ _ _ hsects.1 (hlen _) hbytes.1 (hlen _)
  have hsize := hsects.2
  rw [hfile, hbytes.2] at hsize
  exact absurd hsize (by decide)

/-! ## Requests against the buffer -/

/-- If every call writes something, every call asks for something that the buffer holds. -/
def Engine.InBuffer (e : Engine) : Prop :=
  ∀ (heap : Mem) (rs : List Int64) (f : File), (∀ p ∈ (e.run (some heap) rs f).2.calls, p.Wrote) →
    ∀ p ∈ (e.run (some heap) rs f).2.calls, 0 < p.count ∧ p.count ≤ bufLen e.dataLen

theorem mem_extents {calls : List Pwrite} {p : Pwrite} (hp : p ∈ calls) (hw : p.Wrote) :
    (unat p.offset, unat p.res) ∈ extents calls :=
  List.mem_filterMap.mpr ⟨p, hp, by simp [hw.not_neg]⟩

theorem exists_call_of_mem_extents {calls : List Pwrite} {b : ℕ × ℕ} (hb : b ∈ extents calls) :
    ∃ p ∈ calls, unat p.offset = b.1 := by
  obtain ⟨p, hp, heq⟩ := List.mem_filterMap.mp hb
  split at heq
  · simp at heq
  · exact ⟨p, hp, by rw [← Option.some.inj heq]⟩

/-- The length that a call asks for, as far as a result can tell. -/
theorem Engine.req_of_call (hfill : e.fill (bufLen e.dataLen) heap = some buf) {p : Pwrite}
    (hp : p ∈ (e.run (some heap) rs f).2.calls) : e.req (unat p.offset) = min p.count.toNat (2 ^ 63 - 1) := by
  rw [Engine.req, request, ofNat_unat, (e.run_calls hfill rs f p hp).2]
  rfl

section Domain

variable {off : Int64} {cnt : UInt64} (hoff : 0 ≤ off) (hlt : 512 * (off.toInt + cnt.toNat) < 2 ^ 63)
include hoff hlt

theorem sects_inBuffer_of (hdata : e.dataLen = byteCnt cnt) (hstart : e.start = byteOff off)
    (hstop : e.stop = byteCnt cnt + (byteOff off).toUInt64) (hone : e.oneWrLen = sectsLen (byteCnt cnt) off)
    (hcond : off = 0 ∨ cnt.toNat < off.toInt ∨ cnt ≤ 8192) : e.InBuffer := by
  intro heap rs f hw p hp
  obtain ⟨hint, hu, hd, hs, hdom⟩ := args_toNat hoff hlt
  have hstop' : e.stop.toNat < 2 ^ 63 := by rw [hstop, hs]; exact hdom
  cases hfill : e.fill (bufLen e.dataLen) heap with
  | none => simp [Engine.run, hfill] at hp
  | some buf =>
    obtain ⟨hi, hchain, -, -⟩ := e.run_chain hfill rs f (Engine.ok_of_wrote hstop' hfill hw)
    have hlo := (hchain.tiles.bounds.2 _ (mem_extents hp (hw p hp))).1
    have hhi : unat p.offset < e.stop.toNat := UInt64.lt_iff_toNat_lt.mp (e.run_calls hfill rs f p hp).1
    have hreq := Engine.req_of_call hfill hp
    simp only [hstart, hu] at hlo
    rw [hstop, hs] at hhi
    rw [sects_req hoff hlt hdata hone hhi, sectsMost] at hreq
    have hcond : unat off = 0 ∨ cnt.toNat < unat off ∨ cnt.toNat ≤ 8192 := by
      rcases hcond with rfl | h | h
      · exact .inl rfl
      · exact .inr (.inl (by omega))
      · exact .inr (.inr (UInt64.le_iff_toNat_le.mp h))
    rw [UInt64.lt_iff_toNat_lt, UInt64.le_iff_toNat_le, toNat_bufLen, hdata, hd]
    have hz : (0 : UInt64).toNat = 0 := rfl
    split at hreq <;> omega

/-- From a start inside the first `data_len` bytes, a call that finds at most a buffer left of `data_len` asks for all
of the range that is left. -/
theorem sects_not_inBuffer (hdata : e.dataLen = byteCnt cnt) (hstart : e.start = byteOff off)
    (hstop : e.stop = byteCnt cnt + (byteOff off).toUInt64) (hone : e.oneWrLen = sectsLen (byteCnt cnt) off)
    (heap : Mem) (hfill : e.fill (bufLen e.dataLen) heap = some buf) (hpos : 0 < unat off)
    (hle : unat off ≤ cnt.toNat) (hbig : 8192 < cnt.toNat) : ¬ e.InBuffer := by
  intro h
  obtain ⟨-, hu, hd, hs, hdom⟩ := args_toNat hoff hlt
  have hreq {w : ℕ} (hw : w < 512 * unat off + 512 * cnt.toNat) := sects_req hoff hlt hdata hone hw
  have hstop' : min e.stop.toNat (2 ^ 63) = e.stop.toNat := by rw [hstop, hs]; omega
  -- the position at which the comparison finds a whole buffer left, or the start if that is later
  obtain ⟨w, hwlo, hwhi, hw⟩ : ∃ w, 512 * unat off ≤ w ∧ w < 512 * unat off + 512 * cnt.toNat ∧
      4194304 < sectsMost (512 * unat off) (512 * cnt.toNat) w := by
    refine ⟨max (512 * unat off) (512 * cnt.toNat - 4194304), by omega, by omega, ?_⟩
    unfold sectsMost
    split <;> omega
  obtain ⟨bs, hchain, hmem⟩ := Chain.byBytes_mem (min e.stop.toNat (2 ^ 63)) e.req
    (show unat e.start ≤ w by rw [hstart, hu]; exact hwlo) (by rw [hstop', hstop, hs]; exact hwhi) fun v hv hlt' => by
      rw [hstop', hstop, hs] at hlt'
      rw [hreq hlt']
      exact sectsMost_pos (by omega) hlt'
  obtain ⟨rs, hrun⟩ := e.realize heap hfill hchain hstop'.ge File.empty
  obtain ⟨-, hcalls, hext⟩ := hrun []
  obtain ⟨p, hp, hpw⟩ := exists_call_of_mem_extents (hext ▸ hmem)
  have hcount := (h heap _ _ (fun p hp => (hcalls p hp).2) p hp).2
  have hask := Engine.req_of_call hfill hp
  rw [hpw, hreq hwhi] at hask
  rw [UInt64.le_iff_toNat_le, toNat_bufLen] at hcount
  omega

/-- **What the buffer of the sector engines is long enough for.**  Some call asks for more than the buffer holds exactly
if the range starts behind the first sector but not behind `sect_cnt` and is longer than a buffer. -/
theorem sects_in_buffer_iff :
    ((∀ c, (doWrSectsChar off cnt c).InBuffer) ∧ ∀ str, (doWrSectsStr off cnt str).InBuffer) ↔
      off = 0 ∨ cnt.toNat < off.toInt ∨ cnt ≤ 8192 := by
  constructor
  · rintro ⟨h, -⟩
    by_contra! hne
    obtain ⟨hint, -, -, -, -⟩ := args_toNat hoff hlt
    have hpos := unat_pos_of_ne hne.1
    have hbig : 8192 < cnt.toNat := UInt64.lt_iff_toNat_lt.mp (UInt64.not_le.mp hne.2.2)
    exact sects_not_inBuffer hoff hlt rfl rfl rfl rfl (fun _ => 0) rfl hpos (by omega) hbig (h 0)
  · intro hcond
    exact ⟨fun c => sects_inBuffer_of hoff hlt rfl rfl rfl rfl hcond,
      fun str => sects_inBuffer_of hoff hlt rfl rfl rfl rfl hcond⟩

end Domain

theorem sects_in_buffer_one_sector : (∀ c, (doWrSectsChar 2 1 c).InBuffer) ∧ ∀ str, (doWrSectsStr 2 1 str).InBuffer :=
  (sects_in_buffer_iff (by decide) (by decide)).mpr (.inr (.inr (by decide)))

/-- 8193 sectors from sector 1: the first call asks for all of them, a sector more than the buffer holds. -/
theorem request_past_the_buffer : ¬ ∀ (off : Int64) (cnt : UInt64), 0 ≤ off →
    512 * (off.toInt + cnt.toNat) < 2 ^ 63 →
      (∀ c, (doWrSectsChar off cnt c).InBuffer) ∧ ∀ str, (doWrSectsStr off cnt str).InBuffer := by
  intro h
  have hcalls : ((doWrSectsChar 1 8193 65).run (some fun _ => 0) [1] File.empty).2.calls = [⟨512, 4194816, 1⟩] := by
    decide
  have hcount := (h 1 8193 (by decide) (by decide)).1 65 (fun _ => 0) [1] File.empty (by rw [hcalls]; decide)
    ⟨512, 4194816, 1⟩ (by rw [hcalls]; simp)
  exact absurd hcount.2 (by decide)

end CppNotes.Iotool
