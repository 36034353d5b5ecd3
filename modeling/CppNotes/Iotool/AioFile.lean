import CppNotes.Iotool.Aio
import CppNotes.Iotool.Blocks

/-!
# The AIO engine against the synchronous one

For each pair `do_aio_wrv_bytes_str` fills a buffer as long as the range and writes it at once; `_do_wr_bytes_str` writes
the range from a buffer of at most `MAX_BUF_LEN` bytes, in which the string starts anew.  With full transfers both are a
single write of the range (`aioSrc`, `syncSrc`), and they write the same bytes if the range is not longer than the buffer
of the synchronous engine, if no copy of the string fits, or if copies fill both the buffer and the range (`InPhase`).
-/

namespace CppNotes.Iotool.Aio

open CppNotes.Lib

/-! ## What the two engines write -/

/-- The bytes that the AIO engine writes, where the untouched cells hold `c`. -/
def aioSrc (str : CStr) (cnt : ℕ) (c : UInt8) : Mem := copies str (cnt / str.bytes.length) fun _ => c

/-- The bytes that the synchronous engine writes. -/
def syncSrc (str : CStr) (cnt : ℕ) (c : UInt8) : Mem := fun i =>
  copies str (min cnt 4194304 / str.bytes.length) (fun _ => c) (i % min cnt 4194304)

/-- The range is not longer than the buffer, or the string does not fit into it, or copies of the string fill both. -/
def InPhase (str : CStr) (cnt : UInt64) : Prop :=
  cnt ≤ MAX_BUF_LEN ∨ cnt.toNat < str.bytes.length ∨
    str.bytes.length ∣ MAX_BUF_LEN.toNat ∧ str.bytes.length ∣ cnt.toNat

section Phase

variable {str : CStr} {cnt : ℕ} {c : UInt8}

theorem src_eq_of_le (h : cnt ≤ 4194304) {i : ℕ} (hi : i < cnt) : aioSrc str cnt c i = syncSrc str cnt c i := by
  unfold aioSrc syncSrc
  rw [Nat.min_eq_left h, Nat.mod_eq_of_lt hi]

theorem src_eq_of_lt (h : cnt < str.bytes.length) (i : ℕ) : aioSrc str cnt c i = syncSrc str cnt c i := by
  unfold aioSrc syncSrc
  rw [Nat.div_eq_of_lt h, Nat.div_eq_of_lt (by omega), copies_zero]

theorem src_eq_of_dvd (hbuf : str.bytes.length ∣ 4194304) (hcnt : str.bytes.length ∣ cnt) (h : 4194304 < cnt) {i : ℕ}
    (hi : i < cnt) : aioSrc str cnt c i = syncSrc str cnt c i := by
  have hmod := Nat.mod_lt i (show 0 < 4194304 by decide)
  unfold aioSrc syncSrc
  rw [Nat.min_eq_right h.le]
  unfold copies
  rw [Nat.div_mul_cancel hbuf, Nat.div_mul_cancel hcnt, if_pos hi, if_pos hmod, Nat.mod_mod_of_dvd _ hbuf]

/-- A copy is found where the other engine has written the NUL behind the last copy. -/
theorem src_ne {k k' i j : ℕ} (heap : Mem) (hk : 0 < k) (hi : i = k * str.bytes.length)
    (hj : j < k' * str.bytes.length) : copies str k heap i ≠ copies str k' heap j := by
  rw [hi, copies_end heap hk]
  intro h0
  exact str.noNul (h0 ▸ copies_of_lt heap hj)

/-- Untouched cells that hold 0 tell the two engines apart whenever they are out of phase. -/
theorem dvd_of_src_eq (hstr : str.bytes ≠ []) (hbig : 4194304 < cnt) (hfit : str.bytes.length ≤ cnt)
    (h : ∀ i < cnt, aioSrc str cnt 0 i = syncSrc str cnt 0 i) :
    str.bytes.length ∣ 4194304 ∧ str.bytes.length ∣ cnt := by
  have hpos : 0 < str.bytes.length := List.length_pos_iff.mpr hstr
  have hq : 0 < cnt / str.bytes.length := Nat.div_pos hfit hpos
  have hle := Nat.div_mul_le_self cnt str.bytes.length
  have hle' := Nat.div_mul_le_self 4194304 str.bytes.length
  have hmono := Nat.mul_le_mul_right str.bytes.length (Nat.div_le_div_right (c := str.bytes.length) hbig.le)
  unfold aioSrc syncSrc at h
  rw [Nat.min_eq_right hbig.le] at h
  have hfirst {k : ℕ} (hk : 0 < k) : copies str k (fun _ => 0) 0 ≠ 0 := fun h0 =>
    str.noNul (h0 ▸ copies_of_lt _ (Nat.mul_pos hk hpos))
  -- the string fits into the buffer of the synchronous engine, which writes copies of it too
  have hp : 0 < 4194304 / str.bytes.length := by
    by_contra h0
    have h0 : 4194304 / str.bytes.length = 0 := Nat.eq_zero_of_not_pos h0
    have heq := h 0 (by omega)
    rw [h0, copies_zero] at heq
    exact hfirst hq heq
  have hbuf : 4194304 / str.bytes.length * str.bytes.length = 4194304 := by
    by_contra hne
    have heq := h (4194304 / str.bytes.length * str.bytes.length) (by omega)
    rw [Nat.mod_eq_of_lt (by omega)] at heq
    rcases Nat.lt_or_eq_of_le hmono with hlt | hsame
    · exact src_ne _ hp rfl hlt heq.symm
    · -- no copy more fits into the range: behind the buffer one engine writes the untouched cell
      have heq := h 4194304 hbig
      rw [Nat.mod_self, copies, if_neg (by omega), if_neg (by omega)] at heq
      exact hfirst hp heq.symm
  refine ⟨⟨_, (Nat.mul_comm _ _).trans hbuf |>.symm⟩, ?_⟩
  have hcnt : cnt / str.bytes.length * str.bytes.length = cnt := by
    by_contra hne
    have hmod := Nat.mod_lt (cnt / str.bytes.length * str.bytes.length) (show 0 < 4194304 by decide)
    exact src_ne _ hq rfl (hmod.trans_eq hbuf.symm) (h _ (by omega))
  exact ⟨_, (Nat.mul_comm _ _).trans hcnt |>.symm⟩

theorem src_eq_iff {str : CStr} (hstr : str.bytes ≠ []) (cnt : UInt64) :
    (∀ c, ∀ i < cnt.toNat, aioSrc str cnt.toNat c i = syncSrc str cnt.toNat c i) ↔ InPhase str cnt := by
  have hmax : MAX_BUF_LEN.toNat = 4194304 := rfl
  unfold InPhase
  rw [UInt64.le_iff_toNat_le, hmax]
  constructor
  · intro h
    by_contra! hout
    obtain ⟨hbig, hfit, hdvd⟩ := hout
    obtain ⟨hbuf, hcnt⟩ := dvd_of_src_eq hstr hbig hfit (h 0)
    exact hdvd hbuf hcnt
  · rintro (hle | hlt | ⟨hbuf, hcnt⟩) c i hi
    · exact src_eq_of_le hle hi
    · exact src_eq_of_lt hlt i
    · rcases le_or_gt cnt.toNat 4194304 with hle | hbig
      · exact src_eq_of_le hle hi
      · exact src_eq_of_dvd hbuf hcnt hbig hi

end Phase

/-! ## The synchronous engine with full transfers -/

/-- `_do_wr_bytes_str` on a pair: all transfers are full and the untouched cells hold `c`. -/
def SyncRun (str : CStr) (c : UInt8) (p : Pair) (f f' : File) : Prop :=
  ∃ (heap : Mem) (rs : List Int64), Spare str (bufLen p.cnt).toNat c heap ∧
    (∀ q ∈ ((doWrBytesStr p.off p.cnt str).run (some heap) rs f).2.calls, q.Full) ∧
    ((doWrBytesStr p.off p.cnt str).run (some heap) rs f).1 = .ret 0 ∧
    ((doWrBytesStr p.off p.cnt str).run (some heap) rs f).2.file = f'

/-- The same on each pair in turn. -/
def SyncAll (str : CStr) (c : UInt8) : List Pair → File → File → Prop
  | [], f, f' => f' = f
  | p :: ps, f, f' => ∃ f₁, SyncRun str c p f f₁ ∧ SyncAll str c ps f₁ f'

def Pair.InRange (p : Pair) : Prop := 0 ≤ p.off ∧ p.off.toInt + p.cnt.toNat < 2 ^ 63

def Pair.syncBlock (str : CStr) (c : UInt8) (p : Pair) : Block := ⟨unat p.off, p.cnt.toNat, syncSrc str p.cnt.toNat c⟩

section Full

variable {e : Engine} {heap buf : Mem} {rs : List Int64} {f : File}

theorem wrLoop_of_le {stop : UInt64} {oneWrLen : Int64 → Int64} {w : Int64} (h : ¬ w.toUInt64 < stop)
    (rs : List Int64) (s : Sys) : wrLoop stop oneWrLen buf rs w s = (.ret 0, s) := by
  cases rs <;> simp [wrLoop, h]

/-- Where nothing is to be written, nothing is. -/
theorem run_of_le (hfill : e.fill (bufLen e.dataLen) heap = some buf) (h : ¬ e.start.toUInt64 < e.stop) :
    (e.run (some heap) rs f).2.file = f := by
  obtain ⟨r, hr, -, -, hf⟩ := e.run_of_fill hfill rs f
  rw [hf, ← hr, wrLoop_of_le h]

theorem wrote_of_full (hfill : e.fill (bufLen e.dataLen) heap = some buf) (hreq : ∀ w < e.stop.toNat, 0 < e.req w)
    {q : Pwrite} (hq : q ∈ (e.run (some heap) rs f).2.calls) (hfull : q.Full) :
    q.Wrote ∧ unat q.res = e.req (unat q.offset) := by
  have hlt : unat q.offset < e.stop.toNat := UInt64.lt_iff_toNat_lt.mp (e.run_calls hfill rs f q hq).1
  have hpos := hreq _ hlt
  have hcount := Engine.req_of_call hfill hq
  have hfull : q.res.toInt = q.count.toNat := hfull
  have hu := unat_of_toInt hfull
  refine ⟨⟨?_, hu.le⟩, ?_⟩
  · rw [Int64.le_iff_toInt_le, hfull, Int64.toInt_one]
    omega
  · rcases unat_cases q.res with hc | hc <;> omega

/-- **Full transfers are a single write** in which the buffer is repeated. -/
theorem file_of_full {n : ℕ} (hstop : e.stop.toNat < 2 ^ 63) (hle : unat e.start ≤ e.stop.toNat) (hn : 0 < n)
    (hreq : ∀ w < e.stop.toNat, e.req w = min (e.stop.toNat - w) n) (hfill : e.fill (bufLen e.dataLen) heap = some buf)
    (hfull : ∀ q ∈ (e.run (some heap) rs f).2.calls, q.Full) (h0 : (e.run (some heap) rs f).1 = .ret 0) :
    (e.run (some heap) rs f).2.file = f.write (unat e.start) (e.stop.toNat - unat e.start) fun i => buf (i % n) := by
  have hpos : ∀ w < e.stop.toNat, 0 < e.req w := fun w hw => by
    rw [hreq w hw]
    omega
  have hw {q : Pwrite} (hq : q ∈ (e.run (some heap) rs f).2.calls) := wrote_of_full hfill hpos hq (hfull q hq)
  obtain ⟨hi, hge, hchain, hf⟩ := Engine.returned hstop hfill (fun q hq => (hw hq).1) h0
  rw [Nat.min_eq_left hstop.le] at hchain
  rw [hf]
  refine hchain.writes_full hge hle (fun w _ hlt => hreq w hlt) fun b hb => ?_
  obtain ⟨q, hq, heq⟩ := List.mem_filterMap.mp hb
  rw [if_neg (hw hq).1.not_neg] at heq
  obtain rfl := Option.some.inj heq
  exact (hw hq).2

end Full

section Sync

variable {str : CStr} {c : UInt8} {p : Pair} {f f' : File} (hstr : str.bytes ≠ []) (hp : p.InRange)
include hstr hp

/-- The synchronous engine with full transfers is a single write. -/
theorem SyncRun.file_eq (h : SyncRun str c p f f') :
    f' = f.write (unat p.off) p.cnt.toNat (syncSrc str p.cnt.toNat c) := by
  obtain ⟨heap, rs, hspare, hfull, h0, rfl⟩ := h
  obtain ⟨hs, hdom⟩ := stop_toNat hp.1 hp.2
  have hbuf := toNat_bufLen p.cnt
  have hfill : (doWrBytesStr p.off p.cnt str).fill (bufLen p.cnt) heap = some _ := fillStr_eq hstr (by omega) heap
  have hstop : (doWrBytesStr p.off p.cnt str).stop.toNat = unat p.off + p.cnt.toNat := hs
  have hu : (doWrBytesStr p.off p.cnt str).start.toUInt64.toNat = unat p.off := rfl
  by_cases hcnt : p.cnt.toNat = 0
  · rw [run_of_le hfill (by rw [UInt64.lt_iff_toNat_lt, hstop, hu]; omega), hcnt, File.write_zero]
  · have hstart : unat (doWrBytesStr p.off p.cnt str).start = unat p.off := rfl
    have hreq : ∀ w < (doWrBytesStr p.off p.cnt str).stop.toNat, (doWrBytesStr p.off p.cnt str).req w =
        min ((doWrBytesStr p.off p.cnt str).stop.toNat - w) (bufLen p.cnt).toNat := fun w hw => by
      rw [hstop] at hw ⊢
      exact bytes_req hp.1 hp.2 rfl rfl hw
    rw [file_of_full (by omega) (by omega) (by omega) hreq hfill hfull h0, hstop, hstart, Nat.add_sub_cancel_left]
    refine File.write_congr fun i hi => ?_
    rw [hbuf] at hspare ⊢
    exact copies_of_spare (List.length_pos_iff.mpr hstr) hspare (Nat.mod_lt _ (by omega))

theorem exists_syncRun (c : UInt8) (f : File) : ∃ f', SyncRun str c p f f' := by
  have hbuf := toNat_bufLen p.cnt
  have hfill : (doWrBytesStr p.off p.cnt str).fill (bufLen p.cnt) (fun _ => c) = some _ :=
    fillStr_eq hstr (by omega) _
  have htight : (doWrBytesStr p.off p.cnt str).Tight := bytes_tight hp.1 hp.2 rfl rfl rfl rfl
  obtain ⟨bs, hchain, hfull⟩ := Chain.byFull _ _ _ htight.start_le fun w h₁ h₂ =>
    ⟨(htight.req w h₁ h₂).1, (htight.req w h₁ h₂).2.1⟩
  obtain ⟨rs, hw, h0, hext, -⟩ := htight.realize hfill hchain f
  refine ⟨_, _, rs, fun _ _ _ => rfl, fun q hq => ?_, h0, rfl⟩
  have hmem := mem_extents hq (hw q hq)
  rw [hext] at hmem
  have hres : unat q.res = (doWrBytesStr p.off p.cnt str).req (unat q.offset) := hfull _ hmem
  have hb := hchain.tiles.bounds.2 _ hmem
  have hle : _ ≤ (bufLen p.cnt).toNat := (htight.req (unat q.offset) hb.1 (by omega)).2.2
  have hcount := Engine.req_of_call hfill hq
  rw [Pwrite.Full, toInt_of_nonneg (hw q hq).unat_pos.2]
  omega

end Sync

section All

variable {str : CStr} {c : UInt8} {ps : List Pair} (hstr : str.bytes ≠ []) (hps : ∀ p ∈ ps, p.InRange)
include hstr hps

theorem SyncAll.file_eq {f f' : File} (h : SyncAll str c ps f f') : f' = f.writeAll (ps.map (Pair.syncBlock str c)) := by
  induction ps generalizing f with
  | nil => exact h
  | cons p ps ih =>
    obtain ⟨f₁, h₁, h₂⟩ := h
    obtain ⟨hp, hps⟩ := List.forall_mem_cons.mp hps
    rw [ih hps h₂, h₁.file_eq hstr hp]
    rfl

theorem exists_syncAll (c : UInt8) (f : File) : ∃ f', SyncAll str c ps f f' := by
  induction ps generalizing f with
  | nil => exact ⟨f, rfl⟩
  | cons p ps ih =>
    obtain ⟨hp, hps⟩ := List.forall_mem_cons.mp hps
    obtain ⟨f₁, h₁⟩ := exists_syncRun hstr hp c f
    obtain ⟨f', h₂⟩ := ih hps f₁
    exact ⟨f', f₁, h₁, h₂⟩

end All

/-! ## Runs of the AIO engine -/

section Runs

variable {job : Job} {H : Pair → Mem → Prop} {f : File} {s : St}

theorem exists_pair_of_mem (h : Inv job H f s) {q : Iocb} (hq : q ∈ s.iocbs) : ∃ p ∈ job.pairs, Fits job H q p := by
  obtain ⟨i, hi, rfl⟩ := List.mem_iff_getElem.mp hq
  have hlen := h.fits.length_eq
  have hfit := List.Forall₂.get h.fits hi (hlen ▸ hi)
  exact ⟨_, List.mem_of_mem_take (List.getElem_mem _), hfit⟩

/-- The next request can be prepared. -/
theorem exists_next (hH : ∀ p ∈ job.pairs, ∃ heap buf, H p heap ∧ fillStr job.str p.cnt heap = some buf)
    (h : Reach (step job) (Clean job H) (St.init job f) s) (hp : s.pc = .newIocb) (hlt : s.iocbs.length < job.iocbCnt) :
    ∃ p buf, Reach (step job) (Clean job H) (St.init job f) ({ s with pc := .newBuf }.prep job p buf) := by
  obtain ⟨p, hpair⟩ : ∃ p, job.pairs[s.iocbs.length]? = some p := ⟨_, List.getElem?_eq_getElem hlt⟩
  obtain ⟨heap, buf, hheap, hbuf⟩ := hH p (List.mem_of_getElem? hpair)
  have h₁ : Reach (step job) (Clean job H) (St.init job f) { s with pc := .newBuf } :=
    h.next (a := .prog 1) (by simp [Clean, hp]) (by simp [step, progStep, hp])
  refine ⟨p, buf, h₁.next (a := .mem (some heap)) ⟨heap, rfl, fun p' hp' => ?_⟩ ?_⟩
  · obtain rfl := Option.some.inj (hpair.symm.trans hp')
    exact hheap
  · simp only [step, bufStep, if_true, hpair, hbuf]

/-- One pair after the other, all requests can be prepared. -/
theorem exists_prepared (hH : ∀ p ∈ job.pairs, ∃ heap buf, H p heap ∧ fillStr job.str p.cnt heap = some buf) (m : ℕ)
    (h : Reach (step job) (Clean job H) (St.init job f) s) (hp : s.pc = .newIocb)
    (hm : s.iocbs.length + m + 1 = job.iocbCnt) :
    ∃ s', Reach (step job) (Clean job H) (St.init job f) s' ∧ s'.pc = .submit := by
  induction m generalizing s with
  | zero =>
    obtain ⟨p, buf, hr⟩ := exists_next hH h hp (by omega)
    exact ⟨_, hr, by simp [St.prep, show ¬ s.iocbs.length + 1 < job.iocbCnt by omega]⟩
  | succ m ih =>
    obtain ⟨p, buf, hr⟩ := exists_next hH h hp (by omega)
    refine ih hr ?_ ?_ <;> simp [St.prep, show s.iocbs.length + 1 < job.iocbCnt by omega]
    omega

/-- The requests in flight can be completed one after the other. -/
theorem exists_completed (hcnt : ∀ p ∈ job.pairs, p.cnt.toNat < 2 ^ 63) (m : ℕ)
    (h : Reach (step job) (Clean job H) (St.init job f) s) (hp : s.pc = .getevents) (hm : s.flight.length = m)
    (h0 : s.totalIoDone = 0) : ∃ s', Reach (step job) (Clean job H) (St.init job f) s' ∧ s'.pc = .getevents ∧
      s'.flight = [] ∧ s'.totalIoDone = 0 := by
  induction m generalizing s with
  | zero => exact ⟨s, h, hp, List.length_eq_zero_iff.mp hm, h0⟩
  | succ m ih =>
    have hI := reach_inv h
    obtain ⟨hlen, order, hw⟩ := hI.late (.inl hp)
    obtain ⟨q, rest, hflight⟩ := List.exists_cons_of_length_eq_add_one hm
    have hres : (Int64.ofNat q.1.nbytes.toNat).toInt = q.1.nbytes.toNat := by
      have hmem : q.1 ∈ s.iocbs := hw.perm.subset (by simp [hflight])
      obtain ⟨p, hpm, hfit⟩ := exists_pair_of_mem hI hmem
      have := hcnt p hpm
      rw [hfit.nbytes, toInt_of_nonneg (by rwa [unat_ofNat (by omega)]), unat_ofNat (by omega)]
    have hnext := h.next (a := .complete 0 (.ofNat q.1.nbytes.toNat))
      (by
        intro q' hq'
        obtain rfl : q = q' := by simpa [hflight] using hq'
        exact hres)
      (by simp only [step, hflight, List.getElem?_cons_zero]; rfl)
    exact ih hnext hp (by simpa [hflight] using hm) h0

/-- **Runs without failures exist.** -/
theorem exists_return_zero (hne : job.pairs ≠ [])
    (hH : ∀ p ∈ job.pairs, ∃ heap buf, H p heap ∧ fillStr job.str p.cnt heap = some buf)
    (hcnt : ∀ p ∈ job.pairs, p.cnt.toNat < 2 ^ 63) (f : File) :
    ∃ s, Reach (step job) (Clean job H) (St.init job f) s ∧ s.pc = .ret 0 := by
  have hpos : 0 < job.iocbCnt := List.length_pos_iff.mpr hne
  have h₀ : Reach (step job) (Clean job H) (St.init job f) { St.init job f with pc := .openFile } := by
    have hinit : St.init job f = { St.init job f with pc := .openFile } := by simp [St.init, hne]
    exact hinit ▸ .init
  have h₁ := h₀.next (a := .prog 3) (by simp [Clean]) rfl
  have h₂ := h₁.next (a := .prog 0) (by simp [Clean]) rfl
  have h₃ := h₂.next (a := .prog 1) (by simp [Clean]) rfl
  have h₄ := h₃.next (a := .prog 1) (by simp [Clean]) rfl
  obtain ⟨s₅, h₅, hp₅⟩ := exists_prepared hH (job.iocbCnt - 1) h₄ rfl (by simp [St.init]; omega)
  have hI₅ := reach_inv h₅
  obtain ⟨-, hcq, hdone, -⟩ := hI₅.early (by simp [hp₅, Pc.early])
  have h₆ := h₅.next (a := .prog job.iocbCnt) (by simp [Clean, hp₅])
    (by simp only [step, progStep, hp₅]; rw [if_neg (by omega), if_pos (by simp)])
  obtain ⟨s₇, h₇, hp₇, hf₇, hd₇⟩ := exists_completed hcnt _ h₆ rfl rfl hdone
  obtain ⟨hlen, order, hw⟩ := (reach_inv h₇).late (.inl hp₇)
  have hseen := hw.seen
  have hcount := hw.perm.length_eq
  simp only [hf₇, List.map_nil, List.append_nil] at hcount
  have h₈ := h₇.next (a := .prog s₇.cq.length) (by simp [Clean, hp₇])
    (by
      simp only [step, progStep, hp₇]
      rw [if_neg (by omega), Int.toNat_natCast, if_pos ⟨le_rfl, by omega⟩])
  refine ⟨_, h₈, ?_⟩
  simp only [St.reap]
  rw [if_pos (by omega)]

end Runs

/-! ## Agreement -/

def Pair.aioBlock (str : CStr) (c : UInt8) (p : Pair) : Block := ⟨unat p.off, p.cnt.toNat, aioSrc str p.cnt.toNat c⟩

/-- The ranges have no byte in common. -/
def Pair.Apart (p q : Pair) : Prop :=
  ∀ x, ¬ ((unat p.off ≤ x ∧ x < unat p.off + p.cnt.toNat) ∧ unat q.off ≤ x ∧ x < unat q.off + q.cnt.toNat)

/-- The condition on the runs that are compared: full transfers, and untouched cells that hold `c`. -/
abbrev FullRun (job : Job) (c : UInt8) : St → Act → Prop :=
  Clean job fun p heap => Spare job.str p.cnt.toNat c heap

/-- In whatever order its requests complete, the AIO engine leaves the file that the synchronous engine leaves on each
pair in turn. -/
def Agree (job : Job) : Prop :=
  ∀ (c : UInt8) (f f' : File) (s : St), Reach (step job) (FullRun job c) (St.init job f) s → s.pc = .ret 0 →
    SyncAll job.str c job.pairs f f' → s.sys.file = f'

section Agreement

variable {job : Job} {c : UInt8} {f : File} {s : St}

theorem pairs_of_fits {H : Pair → Mem → Prop} {iocbs : List Iocb} {ps : List Pair}
    (h : List.Forall₂ (Fits job H) iocbs ps) : iocbs.map (fun q => Pair.mk q.offset q.nbytes) = ps := by
  induction h with
  | nil => rfl
  | cons hfit _ ih => rw [List.map_cons, ih, hfit.offset, hfit.nbytes]

theorem same_of_fits (hstr : job.str.bytes ≠ []) {iocbs : List Iocb} {ps : List Pair} (hps : ∀ p ∈ ps, p.InRange)
    (h : List.Forall₂ (Fits job fun p heap => Spare job.str p.cnt.toNat c heap) iocbs ps) :
    List.Forall₂ Block.Same (iocbs.map Iocb.block) (ps.map (Pair.aioBlock job.str c)) := by
  induction h with
  | nil => exact .nil
  | @cons q p iocbs ps hfit _ ih =>
    obtain ⟨hp, hps⟩ := List.forall_mem_cons.mp hps
    refine .cons ⟨by rw [Iocb.block, hfit.offset]; rfl, by rw [Iocb.block, hfit.nbytes]; rfl, fun i hi => ?_⟩ (ih hps)
    obtain ⟨heap, hspare, hbuf⟩ := hfit.buf
    have hi : i < q.nbytes.toNat := hi
    rw [hfit.nbytes] at hi
    have hlt := (stop_toNat hp.1 hp.2).2
    rw [fillStr_eq hstr (by omega)] at hbuf
    have hq : q.buf = _ := (Option.some.inj hbuf).symm
    show q.buf i = aioSrc job.str p.cnt.toNat c i
    rw [hq]
    exact copies_of_spare (List.length_pos_iff.mpr hstr) hspare hi

/-- The file that the AIO engine leaves, whatever the order of the completions. -/
theorem aio_file (hstr : job.str.bytes ≠ []) (hps : ∀ p ∈ job.pairs, p.InRange)
    (hd : job.pairs.Pairwise Pair.Apart) (h : Reach (step job) (FullRun job c) (St.init job f) s) (hp : s.pc = .ret 0) :
    s.sys.file = f.writeAll (job.pairs.map (Pair.aioBlock job.str c)) := by
  obtain ⟨hfits, ⟨order, hperm, hfile⟩, -⟩ := return_zero h hp
  have hapart : (s.iocbs.map Iocb.block).Pairwise Block.Apart := by
    rw [← pairs_of_fits hfits, List.pairwise_map] at hd
    exact List.pairwise_map.mpr hd
  rw [hfile, ← File.writeAll_perm (hperm.symm.map Iocb.block) hapart]
  exact File.writeAll_same (same_of_fits hstr hps hfits)

/-- Ranges on which the engines agree are in phase with the string. -/
theorem inPhase_of_agree (hstr : job.str.bytes ≠ []) (hps : ∀ p ∈ job.pairs, p.InRange)
    (hd : job.pairs.Pairwise Pair.Apart) (h : Agree job) : ∀ p ∈ job.pairs, InPhase job.str p.cnt := by
  intro p hp
  refine (src_eq_iff hstr p.cnt).mp fun c i hi => ?_
  have hcnt : ∀ p ∈ job.pairs, p.cnt.toNat < 2 ^ 63 := fun p hp => by
    have := (stop_toNat (hps p hp).1 (hps p hp).2).2
    omega
  obtain ⟨s, hs, hret⟩ := exists_return_zero (H := fun p heap => Spare job.str p.cnt.toNat c heap)
    (List.ne_nil_of_mem hp) (fun p hp => ⟨fun _ => c, _, fun _ _ _ => rfl, fillStr_eq hstr (hcnt p hp) _⟩) hcnt
    File.empty
  obtain ⟨f', hf'⟩ := exists_syncAll hstr hps c File.empty
  have hbyte := congrArg (fun f => f.byte (unat p.off + i)) (h c _ _ s hs hret hf')
  simp only [aio_file hstr hps hd hs hret, hf'.file_eq hstr hps] at hbyte
  have haio : (job.pairs.map (Pair.aioBlock job.str c)).Pairwise Block.Apart := List.pairwise_map.mpr hd
  have hsync : (job.pairs.map (Pair.syncBlock job.str c)).Pairwise Block.Apart := List.pairwise_map.mpr hd
  calc aioSrc job.str p.cnt.toNat c i
      = (File.empty.writeAll (job.pairs.map (Pair.aioBlock job.str c))).byte (unat p.off + i) :=
        (File.writeAll_byte haio (List.mem_map_of_mem hp) hi).symm
    _ = (File.empty.writeAll (job.pairs.map (Pair.syncBlock job.str c))).byte (unat p.off + i) := hbyte
    _ = syncSrc job.str p.cnt.toNat c i := File.writeAll_byte hsync (List.mem_map_of_mem hp) hi

/-- **Where the AIO engine agrees with the synchronous one.**  For pairwise disjoint ranges they leave the same file in all
runs with full transfers exactly if the string is in phase with every range. -/
theorem aio_agrees_iff (hstr : job.str.bytes ≠ []) (hps : ∀ p ∈ job.pairs, p.InRange)
    (hd : job.pairs.Pairwise Pair.Apart) : Agree job ↔ ∀ p ∈ job.pairs, InPhase job.str p.cnt := by
  refine ⟨inPhase_of_agree hstr hps hd, fun h c f f' s hs hret hf' => ?_⟩
  rw [aio_file hstr hps hd hs hret, hf'.file_eq hstr hps]
  refine File.writeAll_same ?_
  rw [List.forall₂_map_left_iff, List.forall₂_map_right_iff, List.forall₂_same]
  exact fun p hp => ⟨rfl, rfl, fun i hi => (src_eq_iff hstr p.cnt).mpr (h p hp) c i hi⟩

end Agreement

theorem aio_agrees_on_two_pairs : Agree ⟨[⟨5, 3⟩, ⟨100, 4⟩], lettersAB⟩ := by
  refine (aio_agrees_iff (by decide) ?_ ?_).mpr ?_
  · simp [Pair.InRange]
  · simp only [List.pairwise_cons, List.mem_singleton, forall_eq]
    refine ⟨fun x hx => ?_, by simp⟩
    have h5 : unat 5 = 5 ∧ unat 100 = 100 ∧ (3 : UInt64).toNat = 3 := by decide
    simp only [h5] at hx
    omega
  · simp only [List.forall_mem_cons]
    exact ⟨.inl (by decide), .inl (by decide), by simp⟩

/-- A range of one byte more than `MAX_BUF_LEN`: behind the last copy of `AB` the AIO engine writes the NUL, the
synchronous one starts the string anew. -/
theorem aio_out_of_phase : ¬ ∀ job : Job, job.str.bytes ≠ [] → (∀ p ∈ job.pairs, p.InRange) →
    job.pairs.Pairwise Pair.Apart → Agree job := by
  intro h
  have hps : ∀ p ∈ [(⟨0, 4194305⟩ : Pair)], p.InRange := by
    simp only [List.mem_singleton, forall_eq]
    exact ⟨by decide, by decide⟩
  have hagree := h ⟨[⟨0, 4194305⟩], lettersAB⟩ (by decide) hps (by simp)
  rcases inPhase_of_agree (by decide) hps (by simp) hagree ⟨0, 4194305⟩ (by simp) with hle | hlt | ⟨-, hdvd⟩
  · exact absurd hle (by decide)
  · exact absurd hlt (by decide)
  · exact absurd hdvd (by decide)

end CppNotes.Iotool.Aio
