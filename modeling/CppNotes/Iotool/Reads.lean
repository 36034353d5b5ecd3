import Mathlib.Data.List.GetD
import CppNotes.Iotool.Blocks

/-!
# The read engines of `iotool` (`iotool_cpp/iotool.c`)

`_do_read_one_sect` and `_do_read_one_page` dump a buffer after one read, `_do_read_sects` prints each sector as a string,
and `ReadIO` dumps a block after each read if its input is `print`.  Each of them allocates its buffer anew.

A read that ends early leaves the rest of the buffer as it was.  `_do_read_sects` ends the string there, `ReadIO` clears
the buffer before, and the other two show whatever the memory held.

The position that `lseek` sets is where the `read` after it reads; both answers are in the list.
-/

namespace CppNotes.Iotool

open CppNotes.Lib

def PAGE_SIZE : Int64 := 4096

/-- `prt_sect_data(data, data_len, offset)` -/
def Sys.dump (s : Sys) (data : Mem) (dataLen offset : UInt32) : Sys :=
  s.print (.sectData ((List.range dataLen.toNat).map data) offset)

/-- What `%s` prints of a buffer that has a NUL among its first `n` bytes. -/
def cString (buf : Mem) (n : ℕ) : List UInt8 := ((List.range n).map buf).takeWhile (· ≠ 0)

/-- The loop of `_do_read_sects`. -/
def readSects (sectOff : Int64) (sectCnt : UInt64) (buf : Mem) (rs : List Int64) (i : UInt64) (s : Sys) : Exit × Sys :=
  if i < sectCnt then
    match rs with
    | [] => (.pending, s)
    | r :: rs =>
      let sect := sectOff.toUInt64 + i
      let (buf, s) := s.pread buf SECTOR_SIZE (sect * SECTOR_SIZE).toInt64 r
      if r < 0 then (.ret (-1), s.print .preadFailed)
      else
        let buf := Function.update buf (if r < SECTOR_SIZE.toInt64 then unat r else 80) 0
        readSects sectOff sectCnt buf rs (i + 1) (s.print (.sect sect.toInt64 (cString buf SECTOR_SIZE.toNat)))
  else (.ret 0, s)

/-- `_do_read_sects` -/
def doReadSects (sectOff : Int64) (sectCnt : UInt64) (mem : Option Mem) (rs : List Int64) (s : Sys) : Exit × Sys :=
  match mem with
  | none => (.ret (-1), s.print (.mallocFailed SECTOR_SIZE))
  | some buf => readSects sectOff sectCnt buf rs 0 s

/-- `_do_read_one_sect` -/
def doReadOneSect (sectOff : Int64) (mem : Option Mem) (rs : List Int64) (s : Sys) : Exit × Sys :=
  match mem, rs with
  | none, _ => (.ret (-1), s.print (.mallocFailed SECTOR_SIZE))
  | some _, [] => (.pending, s)
  | some buf, r :: _ =>
    let offset := sectOff * SECTOR_SIZE.toInt64
    let (buf, s) := s.pread buf SECTOR_SIZE offset r
    if r < 0 then (.ret (-1), s.print .preadFailed)
    else (.ret 0, s.dump buf SECTOR_SIZE.toUInt32 offset.toUInt64.toUInt32)

/-- The dump of a page, in eight parts. -/
def Sys.dumpPage (s : Sys) (buf : Mem) (offset : Int64) : Sys :=
  (List.range 8).foldl (fun s i =>
    (s.print (.printingSector i)).dump (fun j => buf (i * SECTOR_SIZE.toNat + j)) SECTOR_SIZE.toUInt32
      offset.toUInt64.toUInt32) s

/-- `_do_read_one_page` -/
def doReadOnePage (pageOff : Int64) (mem : Option Mem) (rs : List Int64) (s : Sys) : Exit × Sys :=
  let offset := pageOff * PAGE_SIZE
  match mem, rs with
  | none, _ => (.ret (-1), s.print (.mallocFailed PAGE_SIZE.toUInt64))
  | some _, [] => (.pending, s)
  | some buf, pos :: rs =>
    if pos < 0 then (.ret (-1), s.print (.lseekFailed offset))
    else
      match rs with
      | [] => (.pending, s)
      | r :: _ =>
        let (buf, s) := s.pread buf PAGE_SIZE.toUInt64 offset r
        if r < 0 then (.ret (-1), s.print .preadFailed) else (.ret 0, s.dumpPage buf offset)

/-! ## What a read leaves -/

/-- A `pread` that fails, or that gets what the file has there, up to what was asked for. -/
def Pread.Valid (p : Pread) : Prop :=
  p.res < 0 ∨ 0 ≤ p.offset ∧ p.res.toInt ≤ p.count.toNat ∧ p.data.length = p.res.toInt.toNat

instance (p : Pread) : Decidable p.Valid := inferInstanceAs (Decidable (_ ∨ _))

section Buffer

variable {s : Sys} {buf buf' : Mem} {count : UInt64} {offset r : Int64} {i n : ℕ}

/-- The bytes of the read. -/
def Sys.got (s : Sys) (offset r : Int64) : List UInt8 := s.file.read (unat offset) r.toInt.toNat

theorem pread_buf : (s.pread buf count offset r).1 i = (s.got offset r).getD i (buf i) := rfl

theorem pread_mem (buf : Mem) : ⟨offset, count, r, s.got offset r⟩ ∈ (s.pread buf count offset r).2.reads :=
  List.mem_append_right _ (List.mem_singleton_self _)

theorem pread_sys (buf' : Mem) : (s.pread buf count offset r).2 = (s.pread buf' count offset r).2 := rfl

theorem pread_agree (h : i < (s.got offset r).length ∨ buf i = buf' i) :
    (s.pread buf count offset r).1 i = (s.pread buf' count offset r).1 i := by
  rw [pread_buf, pread_buf]
  rcases h with h | h
  · rw [List.getD_eq_getElem _ _ h, List.getD_eq_getElem _ _ h]
  · rw [h]

theorem pread_of_le (h : (s.got offset r).length ≤ i) : (s.pread buf count offset r).1 i = buf i := by
  rw [pread_buf, List.getD_eq_default _ _ h]

theorem dump_congr {dataLen offset : UInt32} (h : ∀ i < dataLen.toNat, buf i = buf' i) :
    s.dump buf dataLen offset = s.dump buf' dataLen offset := by
  unfold Sys.dump
  congr 2
  exact List.map_congr_left fun i hi => h i (List.mem_range.mp hi)

/-- A dump shows all its bytes. -/
theorem dump_inj {dataLen offset : UInt32} (h : (s.dump buf dataLen offset).out = (s.dump buf' dataLen offset).out) :
    ∀ i < dataLen.toNat, buf i = buf' i := by
  intro i hi
  have hmap : (List.range dataLen.toNat).map buf = (List.range dataLen.toNat).map buf' := by
    simpa [Sys.dump, Sys.print] using h
  exact List.map_inj_left.mp hmap i (List.mem_range.mpr hi)

end Buffer

/-! ## Two runs of each engine -/

section Strings

variable {buf buf' : Mem} {k n : ℕ}

theorem cString_eq (hk : k < n) (h0 : buf k = 0) : cString buf n = ((List.range k).map buf).takeWhile (· ≠ 0) := by
  obtain ⟨m, rfl⟩ := Nat.exists_eq_add_of_lt hk
  rw [cString, Nat.add_assoc, List.range_add, List.range_succ_eq_map, List.map_append, List.takeWhile_append]
  split_ifs with hall
  · simp only [List.map_cons, Nat.add_zero, h0, ne_eq, not_true_eq_false, decide_false, Bool.false_eq_true,
      not_false_eq_true, List.takeWhile_cons_of_neg, List.append_nil]
    exact ((List.takeWhile_sublist _).eq_of_length hall).symm
  · rfl

theorem cString_congr (hk : k < n) (h0 : buf k = 0) (h0' : buf' k = 0) (h : ∀ i < k, buf i = buf' i) :
    cString buf n = cString buf' n := by
  rw [cString_eq hk h0, cString_eq hk h0']
  congr 1
  exact List.map_congr_left fun i hi => h i (List.mem_range.mp hi)

end Strings

section Sects

variable {sectOff : Int64} {sectCnt : UInt64}

/-- The buffer after a read: the string ends behind the bytes that were read, or at byte 80. -/
def sectBuf (s : Sys) (buf : Mem) (offset r : Int64) : Mem :=
  Function.update (s.pread buf SECTOR_SIZE offset r).1 (if r < SECTOR_SIZE.toInt64 then unat r else 80) 0

theorem readSects_cons {i : UInt64} (hi : i < sectCnt) {r : Int64} (hr : ¬ r < 0) {offset : Int64}
    (ho : offset = ((sectOff.toUInt64 + i) * SECTOR_SIZE).toInt64) (buf : Mem) (rs : List Int64) (s : Sys) :
    readSects sectOff sectCnt buf (r :: rs) i s =
      readSects sectOff sectCnt (sectBuf s buf offset r) rs (i + 1) ((s.pread buf SECTOR_SIZE offset r).2.print
        (.sect (sectOff.toUInt64 + i).toInt64 (cString (sectBuf s buf offset r) SECTOR_SIZE.toNat))) := by
  rw [readSects, if_pos hi, ho]
  exact if_neg hr

theorem readSects_reads (buf : Mem) (rs : List Int64) (i : UInt64) (s : Sys) :
    s.reads <+: (readSects sectOff sectCnt buf rs i s).2.reads := by
  induction rs generalizing buf i s with
  | nil =>
    rw [readSects]
    split_ifs <;> exact List.prefix_rfl
  | cons r rs ih =>
    by_cases hi : i < sectCnt
    · by_cases hr : r < 0
      · simp [readSects, hi, hr, Sys.pread, Sys.print]
      · rw [readSects_cons hi hr rfl]
        refine List.IsPrefix.trans ?_ (ih _ _ _)
        exact List.prefix_append _ _
    · simp [readSects, hi]

/-- A string that was read is the same whatever the buffer held: it ends within the bytes of the read. -/
theorem cString_sectBuf {s : Sys} {offset r : Int64} (hr : ¬ r < 0)
    (hv : Pread.Valid ⟨offset, SECTOR_SIZE, r, s.got offset r⟩) (buf buf' : Mem) :
    cString (sectBuf s buf offset r) SECTOR_SIZE.toNat = cString (sectBuf s buf' offset r) SECTOR_SIZE.toNat := by
  obtain ⟨-, hle, hlen⟩ := hv.resolve_left hr
  have hr' := toInt_eq_unat (Int64.not_lt.mp hr)
  have hend : (if r < SECTOR_SIZE.toInt64 then unat r else 80) ≤ (s.got offset r).length ∧
      (if r < SECTOR_SIZE.toInt64 then unat r else 80) < SECTOR_SIZE.toNat := by
    have h512 : SECTOR_SIZE.toInt64.toInt = 512 := rfl
    have h512' : SECTOR_SIZE.toNat = 512 := rfl
    simp only at hle hlen
    split_ifs with h
    · rw [Int64.lt_iff_toInt_lt] at h
      omega
    · rw [Int64.lt_iff_toInt_lt] at h
      omega
  refine cString_congr hend.2 (Function.update_self _ _ _) (Function.update_self _ _ _) fun i hi => ?_
  rw [sectBuf, sectBuf, Function.update_of_ne (by omega), Function.update_of_ne (by omega)]
  exact pread_agree (.inl (by omega))

/-- What `_do_read_sects` prints does not depend on what the buffer held. -/
theorem readSects_same (buf buf' : Mem) (rs : List Int64) (i : UInt64) (s : Sys)
    (hv : ∀ p ∈ (readSects sectOff sectCnt buf rs i s).2.reads, p.Valid) :
    readSects sectOff sectCnt buf rs i s = readSects sectOff sectCnt buf' rs i s := by
  induction rs generalizing buf buf' i s with
  | nil => simp [readSects]
  | cons r rs ih =>
    by_cases hi : i < sectCnt
    · by_cases hr : r < 0
      · simp [readSects, hi, hr, pread_sys buf']
      · rw [readSects_cons hi hr rfl] at hv ⊢
        rw [readSects_cons hi hr rfl]
        have hread := hv _ ((readSects_reads _ _ _ _).subset (pread_mem buf))
        simp only [cString_sectBuf hr hread buf buf', pread_sys buf'] at hv ⊢
        exact ih _ _ _ _ hv
    · simp [readSects, hi]

end Sects

section Dumps

variable {s : Sys} {offset r : Int64} {count : UInt64}

theorem foldl_print_out (l : List ℕ) (x y : ℕ → Line) (s : Sys) :
    (l.foldl (fun s i => (s.print (x i)).print (y i)) s).out = s.out ++ l.flatMap fun i => [x i, y i] := by
  induction l generalizing s with
  | nil => simp
  | cons i l ih =>
    rw [List.foldl_cons, ih]
    simp [Sys.print]

theorem dumpPage_reads (s : Sys) (buf : Mem) (offset : Int64) : (s.dumpPage buf offset).reads = s.reads :=
  List.foldlRecOn (List.range 8) _ (motive := fun s' : Sys => s'.reads = s.reads) rfl fun _ h _ _ => h

theorem flatMap_pair_inj {l : List ℕ} {x y y' : ℕ → Line} :
    (l.flatMap fun i => [x i, y i]) = (l.flatMap fun i => [x i, y' i]) ↔ ∀ i ∈ l, y i = y' i := by
  induction l with
  | nil => simp
  | cons i l ih => simp [ih]

/-- A dump of as much as was asked for is the same in all runs exactly if all of it was read. -/
theorem dump_same_iff (hr : ¬ r < 0) (hv : Pread.Valid ⟨offset, count, r, s.got offset r⟩) (hc : count.toNat < 2 ^ 63)
    {g : Mem → List Line} (hg : ∀ buf buf', g buf = g buf' ↔ ∀ i < count.toNat, buf i = buf' i) :
    (∀ buf buf', g (s.pread buf count offset r).1 = g (s.pread buf' count offset r).1) ↔ r = count.toInt64 := by
  obtain ⟨-, hle, hlen⟩ := hv.resolve_left hr
  have hr' := toInt_eq_unat (Int64.not_lt.mp hr)
  rw [← Int64.toInt_inj, toInt_toInt64 hc]
  simp only at hle hlen
  constructor
  · intro h
    by_contra hne
    have hbyte := (hg _ _).mp (h (fun _ => 0) fun _ => 1) (s.got offset r).length (by omega)
    rw [pread_of_le le_rfl, pread_of_le le_rfl] at hbyte
    exact absurd hbyte (by decide)
  · intro h buf buf'
    exact (hg _ _).mpr fun i hi => pread_agree (.inl (by omega))

theorem dump_out_iff {dataLen offset : UInt32} (buf buf' : Mem) :
    (s.dump buf dataLen offset).out = (s.dump buf' dataLen offset).out ↔ ∀ i < dataLen.toNat, buf i = buf' i :=
  ⟨dump_inj, fun h => by rw [dump_congr h]⟩

theorem dumpPage_out_iff (buf buf' : Mem) :
    (s.dumpPage buf offset).out = (s.dumpPage buf' offset).out ↔ ∀ i < 4096, buf i = buf' i := by
  have h512 : SECTOR_SIZE.toNat = 512 := rfl
  have h512' : SECTOR_SIZE.toUInt32.toNat = 512 := rfl
  simp only [Sys.dumpPage, Sys.dump, foldl_print_out, List.append_cancel_left_eq, flatMap_pair_inj, List.mem_range,
    Line.sectData.injEq, and_true, List.map_inj_left, h512, h512']
  refine ⟨fun h i hi => ?_, fun h i hi j hj => h _ (by omega)⟩
  have := h (i / 512) (by omega) (i % 512) (by omega)
  rwa [Nat.div_add_mod' i 512] at this

end Dumps

section BlockReads

variable {a : Args} {data data' : Mem}

theorem toNat_toUInt32_le (x : UInt64) : x.toUInt32.toNat ≤ x.toNat := by
  rw [UInt64.toNat_toUInt32]
  exact Nat.mod_le _ _

theorem prtSectData_congr (h : ∀ i < a.bs.toNat, data i = data' i) (s : Sys) (offset : UInt64) :
    s.prtSectData a data offset = s.prtSectData a data' offset := by
  unfold Sys.prtSectData
  congr 3
  exact List.map_congr_left fun i hi => h i ((List.mem_range.mp hi).trans_le (toNat_toUInt32_le _))

theorem memset_congr {i : ℕ} {n : UInt64} (h : data i = data' i) : memset data 0 n i = memset data' 0 n i := by
  simp [memset, h]

theorem readTail_same (h : ∀ i < a.bs.toNat, data i = data' i) (rs : List Int64) (i : Int32) (s : Sys) :
    readTail a data rs i s = readTail a data' rs i s := by
  cases rs with
  | nil => rfl
  | cons r rs =>
    have hbuf (j) (hj : j < a.bs.toNat) :
        (s.pread (memset data 0 (a.dataLen % a.bs)) (a.dataLen % a.bs) (a.dataLen / a.bs * a.bs).toInt64 r).1 j =
        (s.pread (memset data' 0 (a.dataLen % a.bs)) (a.dataLen % a.bs) (a.dataLen / a.bs * a.bs).toInt64 r).1 j :=
      pread_agree (.inr (memset_congr (h j hj)))
    simp only [readTail, prtSectData_congr hbuf]
    rfl

theorem readLoop_of_le {i : Int32} (hi : ¬ asSize i < a.dataLen / a.bs) (data : Mem) (rs : List Int64) (s : Sys) :
    readLoop a data rs i s = readTail a data rs i s := by
  rw [readLoop.eq_def, if_neg hi]

/-- Each turn clears the block, so that what it held only matters to the rest, and only if there was no turn. -/
theorem readLoop_same (rs : List Int64) (i : Int32) (s : Sys)
    (h : (∀ j < a.bs.toNat, data j = data' j) ∨ asSize i < a.dataLen / a.bs) :
    readLoop a data rs i s = readLoop a data' rs i s := by
  induction rs generalizing data data' i s with
  | nil =>
    by_cases hi : asSize i < a.dataLen / a.bs
    · rw [readLoop, if_pos hi, readLoop, if_pos hi]
    · rw [readLoop_of_le hi, readLoop_of_le hi, readTail_same (h.resolve_right hi)]
  | cons r rs ih =>
    by_cases hi : asSize i < a.dataLen / a.bs
    · have hbuf (j) (hj : j < a.bs.toNat) :
          (s.pread (memset data 0 a.bs) a.bs (a.bs * asSize i + a.start).toInt64 r).1 j =
          (s.pread (memset data' 0 a.bs) a.bs (a.bs * asSize i + a.start).toInt64 r).1 j :=
        pread_agree (.inr (by rw [memset_of_lt _ _ _ _ hj, memset_of_lt _ _ _ _ hj]))
      rw [readLoop, if_pos hi, readLoop, if_pos hi]
      simp only [prtSectData_congr hbuf]
      split_ifs
      · rfl
      · exact ih _ _ (.inl hbuf)
    · rw [readLoop_of_le hi, readLoop_of_le hi, readTail_same (h.resolve_right hi)]

theorem prtSectData_eq (hp : a.inp.isPrint = true) (data : Mem) (s : Sys) (offset : UInt64) :
    s.prtSectData a data offset = s.dump data a.bs.toUInt32 offset.toUInt32 := if_pos hp

theorem prtSectData_of_not (hp : ¬ a.inp.isPrint = true) (data : Mem) (s : Sys) (offset : UInt64) :
    s.prtSectData a data offset = s := if_neg hp

/-- The rest is dumped with all of the block, of which only as much as it has was cleared. -/
theorem readTail_same_iff {r : Int64} {rs : List Int64} {i : Int32} {s : Sys} (hend : a.dataLen % a.bs ≠ 0)
    (hlen : (s.got (a.dataLen / a.bs * a.bs).toInt64 r).length ≤ (a.dataLen % a.bs).toNat) :
    (∀ data data', (readTail a data (r :: rs) i s).2.out = (readTail a data' (r :: rs) i s).2.out) ↔
      ¬ (a.inp.isPrint = true ∧ (a.dataLen % a.bs).toNat < a.bs.toUInt32.toNat ∧ 0 ≤ r) := by
  simp only [readTail, ne_eq, hend, not_false_eq_true, if_true, ← Int64.not_lt]
  by_cases hr : r < 0
  · simp [hr, Sys.pread, Sys.print]
  by_cases hp : a.inp.isPrint = true
  swap
  · simp [hr, hp, prtSectData_of_not, Sys.pread, Sys.print]
  set rest := a.dataLen % a.bs
  simp only [hr, if_false, hp, prtSectData_eq, true_and, not_false_eq_true, and_true, Nat.not_lt]
  constructor
  · intro h
    by_contra hlt
    have hout := h (fun _ => 0) fun _ => 1
    simp only [Sys.print, List.append_cancel_right_eq] at hout
    have hbyte := dump_inj hout _ (Nat.not_le.mp hlt)
    rw [pread_of_le hlen, pread_of_le hlen] at hbyte
    simp [memset] at hbyte
  · intro hle data data'
    have hcleared (d : Mem) (j) (hj : j < a.bs.toUInt32.toNat) : memset d 0 rest j = 0 :=
      memset_of_lt _ _ _ _ (hj.trans_le hle)
    rw [dump_congr fun j hj => pread_agree (.inr ((hcleared data j hj).trans (hcleared data' j hj).symm))]
    rfl

end BlockReads

/-! ## What is shown -/

/-- The read engines, with their arguments. -/
inductive ReadCmd where
  | oneSect (sectOff : Int64)
  | onePage (pageOff : Int64)
  | sects (sectOff : Int64) (sectCnt : UInt64)
  | blocks (engine : CStr) (a : Args)

/-- A run with the buffer `heap`. -/
def ReadCmd.run (heap : Mem) (rs : List Int64) (f : File) : ReadCmd → Exit × Sys
  | oneSect sectOff => doReadOneSect sectOff (some heap) rs ⟨f, [], [], []⟩
  | onePage pageOff => doReadOnePage pageOff (some heap) rs ⟨f, [], [], []⟩
  | sects sectOff sectCnt => doReadSects sectOff sectCnt (some heap) rs ⟨f, [], [], []⟩
  | blocks engine a => readIo engine a none (some heap) rs f

/-- The reads fill all that is shown: the answer is an error or the whole sector or page; and `ReadIO` does not come to a
rest before it has read a whole block. -/
def ReadCmd.Filled (rs : List Int64) : ReadCmd → Prop
  | oneSect _ => ∀ r ∈ rs[0]?, r < 0 ∨ r = 512
  | onePage _ => ∀ pos ∈ rs[0]?, ∀ r ∈ rs[1]?, pos < 0 ∨ r < 0 ∨ r = 4096
  | sects _ _ => True
  | blocks _ a => ∀ r ∈ rs[0]?, r < 0 ∨ ¬ a.inp.isPrint = true ∨ a.bs * a.counts = 0 ∨
      a.bs.toUInt32.toNat ≤ (a.bs * a.counts).toNat

section Commands

variable {rs : List Int64} {s : Sys}

theorem doReadOneSect_ok {r : Int64} (hr : ¬ r < 0) (sectOff : Int64) (buf : Mem) (rs : List Int64) (s : Sys) :
    doReadOneSect sectOff (some buf) (r :: rs) s = (.ret 0, (s.pread buf SECTOR_SIZE (sectOff * 512) r).2.dump
      (s.pread buf SECTOR_SIZE (sectOff * 512) r).1 512 (sectOff * 512).toUInt64.toUInt32) :=
  if_neg hr

theorem doReadOnePage_ok {pos r : Int64} (hpos : ¬ pos < 0) (hr : ¬ r < 0) (pageOff : Int64) (buf : Mem)
    (rs : List Int64) (s : Sys) :
    doReadOnePage pageOff (some buf) (pos :: r :: rs) s = (.ret 0, (s.pread buf 4096 (pageOff * 4096) r).2.dumpPage
      (s.pread buf 4096 (pageOff * 4096) r).1 (pageOff * 4096)) :=
  (if_neg hpos).trans (if_neg hr)

theorem oneSect_same_iff {sectOff : Int64}
    (hv : ∀ heap, ∀ p ∈ (doReadOneSect sectOff (some heap) rs s).2.reads, p.Valid) :
    (∀ h₁ h₂, (doReadOneSect sectOff (some h₁) rs s).2.out = (doReadOneSect sectOff (some h₂) rs s).2.out) ↔
      ∀ r ∈ rs[0]?, r < 0 ∨ r = 512 := by
  match rs with
  | [] => simp [doReadOneSect]
  | r :: rs =>
    by_cases hr : r < 0
    · simp [doReadOneSect, hr, Sys.pread, Sys.print]
    simp only [doReadOneSect_ok hr] at hv ⊢
    set offset := sectOff * 512
    have hread : Pread.Valid ⟨offset, SECTOR_SIZE, r, s.got offset r⟩ :=
      hv (fun _ => 0) _ (pread_mem fun _ => 0)
    simp only [List.getElem?_cons_zero, Option.mem_some_iff, forall_eq', hr, false_or]
    exact dump_same_iff (g := fun buf => ((s.pread (fun _ => 0) SECTOR_SIZE offset r).2.dump buf 512
      offset.toUInt64.toUInt32).out) hr hread (by decide) dump_out_iff

theorem onePage_same_iff {pageOff : Int64}
    (hv : ∀ heap, ∀ p ∈ (doReadOnePage pageOff (some heap) rs s).2.reads, p.Valid) :
    (∀ h₁ h₂, (doReadOnePage pageOff (some h₁) rs s).2.out = (doReadOnePage pageOff (some h₂) rs s).2.out) ↔
      ∀ pos ∈ rs[0]?, ∀ r ∈ rs[1]?, pos < 0 ∨ r < 0 ∨ r = 4096 := by
  match rs with
  | [] => simp [doReadOnePage]
  | [pos] => simp [doReadOnePage]
  | pos :: r :: rs =>
    by_cases hpos : pos < 0
    · simp [doReadOnePage, hpos]
    by_cases hr : r < 0
    · simp [doReadOnePage, hpos, hr, Sys.pread, Sys.print]
    simp only [doReadOnePage_ok hpos hr] at hv ⊢
    set offset := pageOff * 4096
    have hread : Pread.Valid ⟨offset, 4096, r, s.got offset r⟩ :=
      hv (fun _ => 0) _ (by rw [dumpPage_reads]; exact pread_mem _)
    simp only [List.getElem?_cons_zero, List.getElem?_cons_succ, Option.mem_some_iff, forall_eq', hpos, hr,
      false_or]
    exact dump_same_iff (g := fun buf => ((s.pread (fun _ => 0) 4096 offset r).2.dumpPage buf offset).out) hr hread
      (by decide) dumpPage_out_iff

theorem got_length_le {offset r : Int64} {count : UInt64} (hv : Pread.Valid ⟨offset, count, r, s.got offset r⟩) :
    (s.got offset r).length ≤ count.toNat := by
  rcases hv with hr | ⟨-, hle, hlen⟩
  · have hneg : r.toInt < 0 := Int64.lt_iff_toInt_lt.mp hr
    simp [Sys.got, File.read, Int.toNat_of_nonpos hneg.le]
  · simp only at hle hlen
    omega

theorem readTail_read {a : Args} (hend : a.dataLen % a.bs ≠ 0) (data : Mem) (r : Int64) (i : Int32) :
    ⟨(a.dataLen / a.bs * a.bs).toInt64, a.dataLen % a.bs, r, s.got (a.dataLen / a.bs * a.bs).toInt64 r⟩ ∈
      (readTail a data (r :: rs) i s).2.reads := by
  simp only [readTail, hend, ne_eq, not_false_eq_true, if_true]
  split_ifs
  · exact pread_mem data
  · simp only [Sys.print, prtSectData_reads]
    exact pread_mem data

theorem blocks_same_iff {engine : CStr} {a : Args} {f : File}
    (hv : ∀ heap, ∀ p ∈ (readIo engine a none (some heap) rs f).2.reads, p.Valid) :
    (∀ h₁ h₂, (readIo engine a none (some h₁) rs f).2.out = (readIo engine a none (some h₂) rs f).2.out) ↔
      ∀ r ∈ rs[0]?, r < 0 ∨ ¬ a.inp.isPrint = true ∨ a.bs * a.counts = 0 ∨
        a.bs.toUInt32.toNat ≤ (a.bs * a.counts).toNat := by
  have hlen : a.bs * a.counts = a.dataLen := rfl
  by_cases hbs : a.bs = 0
  · simp [readIo, withBlock, hbs]
  obtain ⟨s, hrun⟩ : ∃ s : Sys, ∀ h, readIo engine a none (some h) rs f = readLoop a h rs 0 s :=
    ⟨_, fun h => if_neg hbs⟩
  simp only [hrun] at hv ⊢
  have hpos := toNat_pos_of_ne hbs
  have hturn : asSize 0 < a.dataLen / a.bs ↔ a.bs.toNat ≤ a.dataLen.toNat := by
    rw [UInt64.lt_iff_toNat_lt, UInt64.toNat_div, show (asSize 0).toNat = 0 from rfl, Nat.div_pos_iff]
    exact and_iff_right hpos
  by_cases hi : asSize 0 < a.dataLen / a.bs
  · refine iff_of_true (fun h₁ h₂ => by rw [readLoop_same rs 0 s (.inr hi)]) fun r _ => ?_
    exact .inr (.inr (.inr ((toNat_toUInt32_le _).trans (hturn.mp hi))))
  have hrest : a.dataLen % a.bs = a.dataLen := by
    rw [← UInt64.toNat_inj, UInt64.toNat_mod, Nat.mod_eq_of_lt (Nat.not_le.mp (mt hturn.mpr hi))]
  simp only [readLoop_of_le hi] at hv ⊢
  by_cases h0 : a.dataLen = 0
  · simp [readTail_whole (hrest.trans h0), hlen, h0]
  match rs with
  | [] => simp [readTail, hrest, h0]
  | r :: rs =>
    have hend : a.dataLen % a.bs ≠ 0 := by rwa [hrest]
    rw [readTail_same_iff hend (got_length_le (hv (fun _ => 0) _ (readTail_read hend _ _ _)))]
    simp only [hrest, hlen, h0, List.getElem?_cons_zero, Option.mem_some_iff, forall_eq', ← Int64.not_lt]
    rw [not_and_or, not_and_or, not_not, Nat.not_lt]
    tauto

end Commands

/-- **When the read engines show only file data.**  With the same answers, runs on two buffers print the same exactly if the
reads have filled what is shown; `_do_read_sects` always does. -/
theorem shown_same_iff (cmd : ReadCmd) {rs : List Int64} {f : File}
    (hv : ∀ heap, ∀ p ∈ (cmd.run heap rs f).2.reads, p.Valid) :
    (∀ h₁ h₂, (cmd.run h₁ rs f).2.out = (cmd.run h₂ rs f).2.out) ↔ cmd.Filled rs := by
  cases cmd with
  | oneSect sectOff => exact oneSect_same_iff hv
  | onePage pageOff => exact onePage_same_iff hv
  | sects sectOff sectCnt =>
    refine iff_of_true (fun h₁ h₂ => ?_) trivial
    exact congrArg (fun run => run.2.out) (readSects_same h₁ h₂ rs 0 _ (hv h₁))
  | blocks engine a => exact blocks_same_iff hv

/-- A sector that lies within the file. -/
theorem full_sector_same : ((ReadCmd.oneSect 0).run (fun _ => 0) [512] (File.empty.fill 0 512 65)).2.out =
    ((ReadCmd.oneSect 0).run (fun _ => 1) [512] (File.empty.fill 0 512 65)).2.out := by
  refine (shown_same_iff _ fun heap p hp => ?_).mpr (by simp [ReadCmd.Filled]) _ _
  have hreads : ((ReadCmd.oneSect 0).run heap [512] (File.empty.fill 0 512 65)).2.reads =
      [⟨0, 512, 512, (File.empty.fill 0 512 65).read 0 512⟩] := rfl
  rw [hreads, List.mem_singleton] at hp
  rw [hp]
  decide +kernel

/-- A sector of an empty file shows what the buffer held. -/
theorem empty_sector_shows_memory : ¬ ∀ (cmd : ReadCmd) (rs : List Int64) (f : File),
    (∀ heap, ∀ p ∈ (cmd.run heap rs f).2.reads, p.Valid) →
      ∀ h₁ h₂, (cmd.run h₁ rs f).2.out = (cmd.run h₂ rs f).2.out := by
  intro h
  have hv (heap) : ∀ p ∈ ((ReadCmd.oneSect 0).run heap [0] File.empty).2.reads, p.Valid := by
    have hreads : ((ReadCmd.oneSect 0).run heap [0] File.empty).2.reads = [⟨0, 512, 0, []⟩] := rfl
    rw [hreads]
    decide
  have hsame := oneSect_same_iff hv
  exact absurd (hsame.mp (h _ _ _ hv)) (by simp)

end CppNotes.Iotool
