import CppNotes.Iotool.Dump

/-!
# The headers of `R`

`ReadIO` passes the position of each block that it dumps, as 32 bits, so the headers are right below 4 GiB.  The rest
behind the whole blocks, which there only is if `bs * counts` overflows, is read from another position than the one that
is passed.
-/

namespace CppNotes.Iotool

open CppNotes.Lib

/-- The offset that `ReadIO` dumps block `i` with. -/
def Args.pos (a : Args) (i : Int32) : UInt64 := a.bs * asSize i + a.start

/-- The length of the rest behind the whole blocks. -/
def Args.rest (a : Args) : ℕ := (a.dataLen % a.bs).toNat

/-- Where the rest is read. -/
def Args.restPos (a : Args) : UInt64 := a.dataLen / a.bs * a.bs

section Positions

variable {a : DumpArgs}

theorem toNat_bs_mod (a : DumpArgs) : a.bs.toNat % 512 = 0 := by
  have h := congrArg UInt64.toNat a.aligned
  rwa [UInt64.toNat_mod] at h

theorem toNat_bs_le (a : DumpArgs) : a.bs.toNat ≤ 64 * 1024 * 1024 := UInt64.le_iff_toNat_le.mp a.bounded

theorem toNat_bs32 (a : DumpArgs) : a.bs.toUInt32.toNat = a.bs.toNat := by
  have := toNat_bs_le a
  rw [UInt64.toNat_toUInt32, Nat.mod_eq_of_lt (by omega)]

theorem start_mod (a : Args) : a.start.toNat % 512 = 0 := unat_mul_mod a.offset (by decide)

theorem pos_mod (a : DumpArgs) (i : Int32) : (a.pos i).toNat % 512 = 0 := by
  have hdvd : 512 ∣ a.bs.toNat * (asSize i).toNat := Dvd.dvd.mul_right (Nat.dvd_of_mod_eq_zero (toNat_bs_mod a)) _
  have hstart := start_mod a.toArgs
  rw [Args.pos, UInt64.toNat_add, UInt64.toNat_mul]
  omega

theorem toNat_restPos (a : DumpArgs) : a.restPos.toNat = a.bs.toNat * a.whole := by
  have hle : a.dataLen.toNat / a.bs.toNat * a.bs.toNat ≤ a.dataLen.toNat := Nat.div_mul_le_self _ _
  have hlt := a.dataLen.toNat_lt
  rw [Args.restPos, Args.whole, UInt64.toNat_mul, UInt64.toNat_div, Nat.mod_eq_of_lt (by omega), Nat.mul_comm]

/-- The position of block `n`, if it does not overflow. -/
theorem toNat_pos {n : ℕ} (hn : n < 2 ^ 31) (h : a.start.toNat + a.bs.toNat * n < 2 ^ 64) :
    (a.pos (Int32.ofNat n)).toNat = a.start.toNat + a.bs.toNat * n := by
  rw [Args.pos, UInt64.toNat_add, UInt64.toNat_mul, toNat_asSize hn, Nat.mod_eq_of_lt (by omega : _ * n < 2 ^ 64),
    Nat.add_comm, Nat.mod_eq_of_lt h]

end Positions

section Turns

variable {a : DumpArgs} {s : Sys} {i : Int32} {r : Int64} {data : Mem} {rs : List Int64}

/-- The buffer and the state after a turn of the loop. -/
def blockBuf (a : DumpArgs) (data : Mem) (i : Int32) (r : Int64) (s : Sys) : Mem :=
  (s.pread (memset data 0 a.bs) a.bs (a.pos i).toInt64 r).1

def blockTurn (a : DumpArgs) (data : Mem) (i : Int32) (r : Int64) (s : Sys) : Sys :=
  (s.pread (memset data 0 a.bs) a.bs (a.pos i).toInt64 r).2.dump (blockBuf a data i r s) a.bs.toUInt32
    (a.pos i).toUInt32

theorem readLoop_turn (hi : asSize i < a.dataLen / a.bs) (hr : ¬ r < 0) : readLoop a.toArgs data (r :: rs) i s =
    readLoop a.toArgs (blockBuf a data i r s) rs (i + 1) (blockTurn a data i r s) := by
  rw [readLoop, if_pos hi]
  simp only [hr, if_false, prtSectData_eq a.print]
  rfl

theorem readLoop_failed (hi : asSize i < a.dataLen / a.bs) (hr : r < 0) : readLoop a.toArgs data (r :: rs) i s =
    (.ret 1, (s.pread (memset data 0 a.bs) a.bs (a.pos i).toInt64 r).2.print (.ioFailed .read a.inp.bytes a.bs)) := by
  rw [readLoop, if_pos hi]
  exact if_pos hr

/-- What `R` dumps of a buffer. -/
def blockDump (a : DumpArgs) (i : Int32) (buf : Mem) : List (List UInt8 × UInt32) :=
  [((List.range a.bs.toUInt32.toNat).map buf, (a.pos i).toUInt32)]

theorem blockTurn_readsOnce (hr : ¬ r < 0) :
    ReadsOnce s (blockTurn a data i r s) a.bs (a.pos i).toInt64 (blockDump a i) :=
  .ok hr (memset data 0 a.bs) rfl (dump_dumps _ _ _ _)

theorem readTail_ok (hend : a.dataLen % a.bs ≠ 0) (hr : ¬ r < 0) : readTail a.toArgs data (r :: rs) i s =
    let next := s.pread (memset data 0 (a.dataLen % a.bs)) (a.dataLen % a.bs) a.restPos.toInt64 r
    (.ret 0, ((next.2.dump next.1 a.bs.toUInt32 (a.pos i).toUInt32).print .readEnd).print (.total a.dataLen a.bs)) := by
  simp only [readTail, ne_eq, hend, not_false_eq_true, if_true, hr, if_false, prtSectData_eq a.print]
  rfl

theorem readTail_readsOnce (data : Mem) (rs : List Int64) (i : Int32) (s : Sys) :
    ReadsOnce s (readTail a.toArgs data rs i s).2 (a.dataLen % a.bs) a.restPos.toInt64 (blockDump a i) := by
  by_cases hend : a.dataLen % a.bs = 0
  · rw [readTail_whole hend]
    exact .none rfl ((print_dumps _ rfl).trans (print_dumps _ rfl))
  match rs with
  | [] =>
    simp only [readTail, ne_eq, hend, not_false_eq_true, if_true]
    exact .none rfl rfl
  | r :: rs =>
    by_cases hr : r < 0
    · simp only [readTail, ne_eq, hend, not_false_eq_true, if_true, hr]
      exact .failed hr (memset data 0 (a.dataLen % a.bs)) rfl (print_dumps _ rfl)
    · rw [readTail_ok hend hr]
      refine .ok hr (memset data 0 (a.dataLen % a.bs)) rfl ?_
      rw [print_dumps _ rfl, print_dumps _ rfl]
      exact dump_dumps _ _ _ _

theorem readLoop_reads (data : Mem) (rs : List Int64) (i : Int32) (s : Sys) :
    s.reads <+: (readLoop a.toArgs data rs i s).2.reads := by
  induction rs generalizing data i s with
  | nil =>
    by_cases hi : asSize i < a.dataLen / a.bs
    · rw [readLoop, if_pos hi]
    · rw [readLoop_of_le hi]
      exact (readTail_readsOnce _ _ _ _).reads
  | cons r rs ih =>
    by_cases hi : asSize i < a.dataLen / a.bs
    · by_cases hr : r < 0
      · rw [readLoop_failed hi hr]
        exact List.prefix_append _ _
      · rw [readLoop_turn hi hr]
        exact (blockTurn_readsOnce hr).reads.trans (ih _ _ (blockTurn a data i r s))
    · rw [readLoop_of_le hi]
      exact (readTail_readsOnce _ _ _ _).reads

/-- Names, for a dump of `R`. -/
theorem names_block_iff {p : Pread} (hp : unat p.offset % 512 = 0) (hbs : a.bs ≠ 0) {d : List UInt8 × UInt32} {j : ℕ}
    {buf : Mem} (hd : (blockDump a i buf)[j]? = some d) :
    Names p j d ↔ (0 < p.data.length → (a.pos i).toNat % 2 ^ 32 = unat p.offset) := by
  obtain ⟨rfl, rfl⟩ : j = 0 ∧ _ = d := by
    cases j with
    | zero => exact ⟨rfl, Option.some.inj hd⟩
    | succ j => simp [blockDump] at hd
  have hpos := toNat_pos_of_ne hbs
  have hle := toNat_bs_le a
  have hmod := pos_mod a i
  rw [names_iff hp]
  · rw [List.length_map, List.length_range, toNat_bs32, Nat.zero_mul, Nat.add_zero, UInt64.toNat_toUInt32]
    exact forall_prop_of_true hpos
  · simp only [UInt64.toNat_toUInt32]
    omega
  · simp only [List.length_map, List.length_range, toNat_bs32]
    omega

theorem shows_block {count : UInt64} {offset r : Int64} {buf : Mem} {d : List UInt8 × UInt32} {j : ℕ}
    (hd : (blockDump a i (s.pread buf count offset r).1)[j]? = some d) :
    Shows ⟨offset, count, r, s.got offset r⟩ j d := by
  cases j with
  | zero =>
    rw [← Option.some.inj hd]
    exact shows_pread_zero _ _ _
  | succ j => simp [blockDump] at hd

end Turns

/-! ## Runs below 4 GiB -/

section Below

variable {a : DumpArgs}

theorem unat_restPos (a : DumpArgs) : unat a.restPos.toInt64 = a.bs.toNat * a.whole := by
  rw [unat_toInt64, toNat_restPos]

theorem restPos_mod (a : DumpArgs) : unat a.restPos.toInt64 % 512 = 0 := by
  rw [unat_restPos]
  exact Nat.mod_eq_zero_of_dvd (Dvd.dvd.mul_right (Nat.dvd_of_mod_eq_zero (toNat_bs_mod a)) _)

theorem unat_pos (a : DumpArgs) (i : Int32) : unat (a.pos i).toInt64 = (a.pos i).toNat := unat_toInt64 _

theorem readTail_grouped (hbs : a.bs ≠ 0) {n : ℕ}
    (h : a.rest = 0 ∨ (a.pos (Int32.ofNat n)).toNat % 2 ^ 32 = a.bs.toNat * a.whole) (data : Mem) (rs : List Int64)
    (s : Sys) (hg : s.Labelled 1)
    (hv : ∀ p ∈ (readTail a.toArgs data rs (Int32.ofNat n) s).2.reads, p.Valid) :
    (readTail a.toArgs data rs (Int32.ofNat n) s).2.Labelled 1 := by
  refine (readTail_readsOnce data rs _ s).grouped hg (fun _ => rfl) hv fun r buf hr hp j d hd => ?_
  refine ⟨shows_block hd, (names_block_iff (restPos_mod a) hbs hd).mpr fun hlen => ?_⟩
  rw [unat_restPos]
  refine h.resolve_left fun h0 => ?_
  have := got_length_le hp
  simp only [Args.rest] at h0
  simp only at hlen
  omega

theorem readLoop_grouped (hbs : a.bs ≠ 0) (hw : a.whole < 2 ^ 31)
    (hpos : ∀ n < a.whole, (a.pos (Int32.ofNat n)).toNat < 2 ^ 32)
    (htail : a.rest = 0 ∨ (a.pos (Int32.ofNat a.whole)).toNat % 2 ^ 32 = a.bs.toNat * a.whole) (data : Mem)
    (rs : List Int64) (n : ℕ) (hn : n ≤ a.whole) (s : Sys)
    (hg : s.Labelled 1)
    (hv : ∀ p ∈ (readLoop a.toArgs data rs (Int32.ofNat n) s).2.reads, p.Valid) :
    (readLoop a.toArgs data rs (Int32.ofNat n) s).2.Labelled 1 := by
  have hturn (n : ℕ) (hn : n ≤ a.whole) : asSize (Int32.ofNat n) < a.dataLen / a.bs ↔ n < a.whole := turn_iff (by omega)
  have hrest (rs : List Int64) (data : Mem) (n : ℕ) (hn : n ≤ a.whole) (hi : ¬ asSize (Int32.ofNat n) < a.dataLen / a.bs)
      (s : Sys) (hg : s.Labelled 1)
      (hv : ∀ p ∈ (readLoop a.toArgs data rs (Int32.ofNat n) s).2.reads, p.Valid) :
      (readLoop a.toArgs data rs (Int32.ofNat n) s).2.Labelled 1 := by
    rw [readLoop_of_le hi] at hv ⊢
    have heq : n = a.whole := Nat.le_antisymm hn (Nat.le_of_not_lt (mt (hturn n hn).mpr hi))
    exact readTail_grouped hbs (heq ▸ htail) data rs s hg hv
  induction rs generalizing data n s with
  | nil =>
    by_cases hi : asSize (Int32.ofNat n) < a.dataLen / a.bs
    · rw [readLoop, if_pos hi]
      exact hg
    · exact hrest _ _ _ hn hi _ hg hv
  | cons r rs ih =>
    by_cases hi : asSize (Int32.ofNat n) < a.dataLen / a.bs
    swap
    · exact hrest _ _ _ hn hi _ hg hv
    by_cases hr : r < 0
    · rw [readLoop_failed hi hr, Sys.Labelled, print_dumps _ rfl, print_okReads, pread_okReads_of_neg hr]
      exact hg
    · have hlt := (hturn n hn).mp hi
      rw [readLoop_turn hi hr, ofNat_add_one] at hv ⊢
      refine ih _ (n + 1) hlt _ ?_ hv
      refine (blockTurn_readsOnce hr).grouped hg (fun _ => rfl)
        (fun p hp => hv p ((readLoop_reads _ _ _ _).subset hp)) fun r buf _ _ j d hd => ?_
      refine ⟨shows_block hd, (names_block_iff (by rw [unat_pos, pos_mod]) hbs hd).mpr fun _ => ?_⟩
      simp only [unat_pos]
      exact Nat.mod_eq_of_lt (hpos n hlt)

end Below

/-! ## Runs that read all blocks -/

/-- A state of a run of `R` on a file that does not end. -/
structure Plain (s : Sys) : Prop where
  file : s.file = endless
  valid : ∀ p ∈ s.reads, p.Valid
  length_eq : s.dumps.length = 1 * s.okReads.length

section Full

variable {a : DumpArgs} {s : Sys} {i : Int32} {n : ℕ}

theorem toInt_bs (a : DumpArgs) : a.bs.toInt64.toInt = a.bs.toNat := by
  have := toNat_bs_le a
  exact toInt_toInt64 (by omega)

theorem bs_not_neg (a : DumpArgs) : ¬ a.bs.toInt64 < 0 := not_neg_of_toInt (toInt_bs a)

theorem Plain.read_valid (h : Plain s) {offset : UInt64} (hoff : offset.toNat < 2 ^ 63) {count : UInt64}
    (hc : count.toNat < 2 ^ 63) : Pread.Valid ⟨offset.toInt64, count, count.toInt64, s.got offset.toInt64 count.toInt64⟩ :=
  valid_endless h.file (by rwa [unat_toInt64]) (toInt_toInt64 hc) hc le_rfl

theorem Plain.turn (h : Plain s) (hpos : (a.pos i).toNat < 2 ^ 63) (data : Mem) :
    Plain (blockTurn a data i a.bs.toInt64 s) where
  file := h.file
  valid := by
    have hle := toNat_bs_le a
    exact List.forall_mem_append.mpr ⟨h.valid, List.forall_mem_singleton.mpr (h.read_valid hpos (by omega))⟩
  length_eq := by
    have hdumps : (blockTurn a data i a.bs.toInt64 s).dumps = _ := dump_dumps _ _ _ _
    have hok : (blockTurn a data i a.bs.toInt64 s).okReads = _ := pread_okReads (bs_not_neg a) (memset data 0 a.bs) a.bs
    have hlen := h.length_eq
    rw [hdumps, hok, List.length_append, List.length_append, pread_dumps, hlen, List.length_singleton,
      List.length_singleton]
    omega

theorem readLoop_full (k n : ℕ) (hk : n + k ≤ a.whole) (hlt : n + k < 2 ^ 31)
    (hpos : ∀ m < n + k, (a.pos (Int32.ofNat m)).toNat < 2 ^ 63) (data : Mem) (rs : List Int64) (h : Plain s) :
    ∃ data' s', Plain s' ∧
      readLoop a.toArgs data (List.replicate k a.bs.toInt64 ++ rs) (Int32.ofNat n) s =
        readLoop a.toArgs data' rs (Int32.ofNat (n + k)) s' := by
  induction k generalizing n data s with
  | zero => exact ⟨data, s, h, rfl⟩
  | succ k ih =>
    have hi : asSize (Int32.ofNat n) < a.dataLen / a.bs := (turn_iff (by omega)).mpr (by omega)
    obtain ⟨data', s', hs', heq⟩ := ih (n + 1) (by omega) (by omega) (fun m hm => hpos m (by omega))
      (blockBuf a data (Int32.ofNat n) a.bs.toInt64 s) (h.turn (hpos n (by omega)) data)
    refine ⟨data', s', hs', ?_⟩
    rw [List.replicate_succ, List.cons_append, readLoop_turn hi (bs_not_neg a), ofNat_add_one, heq, Nat.add_right_comm,
      Nat.add_assoc]

theorem readLoop_nil (data : Mem) (i : Int32) (s : Sys) : (readLoop a.toArgs data [] i s).2.reads = s.reads ∧
    (readLoop a.toArgs data [] i s).2.dumps = s.dumps := by
  by_cases hi : asSize i < a.dataLen / a.bs
  · rw [readLoop, if_pos hi]
    exact ⟨rfl, rfl⟩
  rw [readLoop_of_le hi, readTail]
  split_ifs
  · exact ⟨rfl, rfl⟩
  · exact ⟨rfl, (print_dumps _ rfl).trans (print_dumps _ rfl)⟩

/-- A run of `R` on a file that does not end. -/
theorem readIo_full (hbs : a.bs ≠ 0) {k : ℕ} (hk : k ≤ a.whole) (hlt : k < 2 ^ 31)
    (hpos : ∀ m < k, (a.pos (Int32.ofNat m)).toNat < 2 ^ 63) (engine : CStr) (rs : List Int64) :
    ∃ data s, Plain s ∧
      readIo engine a.toArgs none (some fun _ => 0) (List.replicate k a.bs.toInt64 ++ rs) endless =
        readLoop a.toArgs data rs (Int32.ofNat k) s := by
  obtain ⟨s₀, hs₀, hrun⟩ : ∃ s₀, Plain s₀ ∧ ∀ rs, readIo engine a.toArgs none (some fun _ => 0) rs endless =
      readLoop a.toArgs (fun _ => 0) rs (Int32.ofNat 0) s₀ :=
    ⟨_, ⟨rfl, by simp [Sys.print], rfl⟩, fun rs => if_neg hbs⟩
  obtain ⟨data, s, hs, heq⟩ := readLoop_full k 0 (by omega) (by omega) (fun m hm => hpos m (by omega)) (fun _ => 0) rs hs₀
  exact ⟨data, s, hs, by rw [hrun, heq, Nat.zero_add]⟩

/-- The position that the last read was dumped with is where it was read. -/
theorem Plain.pos_of_labelled (hs : Plain s) (hbs : a.bs ≠ 0) {s' : Sys} (hg : s'.Labelled 1) {count : UInt64}
    {offset r : Int64} (hr : ¬ r < 0) (buf : Mem) (hreads : s'.reads = (s.pread buf count offset r).2.reads)
    (hdumps : s'.dumps = s.dumps ++ blockDump a i (s.pread buf count offset r).1)
    (hmod : unat offset % 512 = 0) (hlen : 0 < (s.got offset r).length) : (a.pos i).toNat % 2 ^ 32 = unat offset := by
  have hok := (congrArg (List.filter _) hreads).trans (pread_okReads hr buf count)
  have hd : (blockDump a i (s.pread buf count offset r).1)[0]? = some _ := rfl
  exact (names_block_iff hmod hbs hd).mp (names_of_grouped hg hs.length_eq hok hdumps rfl hd) hlen

/-- If `R` names its sectors, the blocks that it can come to are below 4 GiB. -/
theorem pos_lt_of_names {engine : CStr} (h : (DumpCmd.blocks engine a).NamesSectors) (hbs : a.bs ≠ 0) {k : ℕ}
    (hk : k < a.whole) (hlt : k < 2 ^ 31) (hpos : ∀ m ≤ k, (a.pos (Int32.ofNat m)).toNat < 2 ^ 63) :
    (a.pos (Int32.ofNat k)).toNat < 2 ^ 32 := by
  have hi : asSize (Int32.ofNat k) < a.dataLen / a.bs := (turn_iff hlt).mpr hk
  obtain ⟨data, s, hs, hrun⟩ := readIo_full hbs hk.le hlt (fun m hm => hpos m hm.le) engine [a.bs.toInt64]
  rw [readLoop_turn hi (bs_not_neg a)] at hrun
  obtain ⟨hreads, hdumps⟩ := readLoop_nil (a := a) (blockBuf a data (Int32.ofNat k) a.bs.toInt64 s) (Int32.ofNat k + 1)
    (blockTurn a data (Int32.ofNat k) a.bs.toInt64 s)
  have hg := h _ ⟨none, some fun _ => 0, _, endless, rfl⟩ (by
    rw [hrun, hreads]
    exact (hs.turn (hpos k le_rfl) data).valid)
  rw [hrun] at hg
  have hle := toNat_bs_le a
  have hgot : (s.got (a.pos (Int32.ofNat k)).toInt64 a.bs.toInt64).length = a.bs.toNat :=
    got_endless hs.file (by rw [unat_pos]; exact hpos k le_rfl) (toInt_bs a) (by omega)
  have heq := hs.pos_of_labelled hbs hg (bs_not_neg a) (memset data 0 a.bs) hreads (hdumps.trans (dump_dumps _ _ _ _))
    (by rw [unat_pos, pos_mod]) (by rw [hgot]; exact toNat_pos_of_ne hbs)
  rw [unat_pos] at heq
  omega

/-- If `R` names its sectors, the rest is read where it is dumped. -/
theorem tail_of_names {engine : CStr} (h : (DumpCmd.blocks engine a).NamesSectors) (hbs : a.bs ≠ 0)
    (hlt : a.whole < 2 ^ 31) (hpos : ∀ m < a.whole, (a.pos (Int32.ofNat m)).toNat < 2 ^ 63) (hrest : a.rest ≠ 0)
    (hend : a.bs.toNat * a.whole < 2 ^ 63) :
    (a.pos (Int32.ofNat a.whole)).toNat % 2 ^ 32 = a.bs.toNat * a.whole := by
  have hi : ¬ asSize (Int32.ofNat a.whole) < a.dataLen / a.bs := mt (turn_iff hlt).mp (Nat.lt_irrefl _)
  have hle : a.rest < 2 ^ 63 := by
    have hmax := toNat_bs_le a
    have hmod : a.rest < a.bs.toNat := by
      rw [Args.rest, UInt64.toNat_mod]
      exact Nat.mod_lt _ (toNat_pos_of_ne hbs)
    omega
  have hres : (a.dataLen % a.bs).toInt64.toInt = a.rest := toInt_toInt64 hle
  obtain ⟨data, s, hs, hrun⟩ := readIo_full hbs le_rfl hlt hpos engine [(a.dataLen % a.bs).toInt64]
  rw [readLoop_of_le hi, readTail_ok (fun h0 => hrest (congrArg UInt64.toNat h0)) (not_neg_of_toInt hres)] at hrun
  have hg := h _ ⟨none, some fun _ => 0, _, endless, rfl⟩ (by
    rw [hrun]
    exact List.forall_mem_append.mpr ⟨hs.valid, List.forall_mem_singleton.mpr (hs.read_valid
      (by rwa [toNat_restPos]) hle)⟩)
  rw [hrun] at hg
  have hgot : (s.got a.restPos.toInt64 (a.dataLen % a.bs).toInt64).length = a.rest :=
    got_endless hs.file (by rwa [unat_restPos]) hres hle
  rw [← unat_restPos]
  exact hs.pos_of_labelled hbs hg (not_neg_of_toInt hres) (memset data 0 (a.dataLen % a.bs)) rfl
    ((print_dumps _ rfl).trans ((print_dumps _ rfl).trans (dump_dumps _ _ _ _))) (restPos_mod a) (by rw [hgot]; omega)

end Full

/-- The condition under which `R` names its sectors. -/
def DumpArgs.Near (a : DumpArgs) : Prop :=
  a.bs = 0 ∨ a.whole = 0 ∧ (a.rest = 0 ∨ a.start.toNat % 2 ^ 32 = 0) ∨
    0 < a.whole ∧ (2 ^ 63 ≤ a.start.toNat ∨ a.start.toNat + a.bs.toNat * (a.whole - 1) < 2 ^ 32 ∧
      (a.rest = 0 ∨ a.start.toNat = 0 ∧ a.bs.toNat * a.whole < 2 ^ 32))

section Near

variable {a : DumpArgs}

theorem le_toNat_bs (hbs : a.bs ≠ 0) : 512 ≤ a.bs.toNat := by
  have hmod := toNat_bs_mod a
  have hpos := toNat_pos_of_ne hbs
  omega

/-- Blocks below 4 GiB are so few that an `int` counts them. -/
theorem block_lt (hbs : a.bs ≠ 0) {n : ℕ} (h : a.start.toNat + a.bs.toNat * n < 2 ^ 32) : n < 2 ^ 23 := by
  have := Nat.mul_le_mul_right n (le_toNat_bs hbs)
  omega

/-- The first block that is not below 4 GiB would be read. -/
theorem below_of_names {engine : CStr} (h : (DumpCmd.blocks engine a).NamesSectors) (hbs : a.bs ≠ 0)
    (hu : a.start.toNat < 2 ^ 63) (k : ℕ) (hk : k < a.whole) : a.start.toNat + a.bs.toNat * k < 2 ^ 32 := by
  have hmax := toNat_bs_le a
  induction k using Nat.strong_induction_on with
  | _ k ih =>
    have hkpos : k < 2 ^ 31 ∧ a.start.toNat + a.bs.toNat * k < 2 ^ 63 := by
      cases k with
      | zero => exact ⟨by decide, hu⟩
      | succ k =>
        have hprev := ih k (by omega) (by omega)
        have hlt := block_lt hbs hprev
        rw [Nat.mul_succ]
        omega
    have hpos (m : ℕ) (hm : m ≤ k) : (a.pos (Int32.ofNat m)).toNat < 2 ^ 63 := by
      have := Nat.mul_le_mul_left a.bs.toNat hm
      rw [toNat_pos (by omega) (by omega)]
      omega
    have hlt := pos_lt_of_names h hbs hk hkpos.1 hpos
    rwa [toNat_pos hkpos.1 (by omega)] at hlt

theorem near_of_names {engine : CStr} (h : (DumpCmd.blocks engine a).NamesSectors) : a.Near := by
  by_cases hbs : a.bs = 0
  · exact .inl hbs
  have hmax := toNat_bs_le a
  have hstart := a.start.toNat_lt
  rcases Nat.eq_zero_or_pos a.whole with hw | hw
  · refine .inr (.inl ⟨hw, Classical.or_iff_not_imp_left.mpr fun hrest => ?_⟩)
    have htail := tail_of_names h hbs (by omega) (by omega) hrest (by rw [hw]; omega)
    rwa [hw, toNat_pos (by omega) (by omega), Nat.mul_zero, Nat.add_zero] at htail
  refine .inr (.inr ⟨hw, Classical.or_iff_not_imp_left.mpr fun hu => ?_⟩)
  have hbelow := below_of_names h hbs (Nat.not_le.mp hu)
  have hlast := hbelow (a.whole - 1) (by omega)
  refine ⟨hlast, Classical.or_iff_not_imp_left.mpr fun hrest => ?_⟩
  have hlt := block_lt hbs hlast
  have hend : a.bs.toNat * a.whole = a.bs.toNat * (a.whole - 1) + a.bs.toNat := by
    rw [← Nat.mul_succ, Nat.succ_eq_add_one, Nat.sub_add_cancel hw]
  have hpos (m : ℕ) (hm : m < a.whole) : (a.pos (Int32.ofNat m)).toNat < 2 ^ 63 := by
    have := hbelow m hm
    rw [toNat_pos (by omega) (by omega)]
    omega
  have htail := tail_of_names h hbs (by omega) hpos hrest (by omega)
  rw [toNat_pos (by omega) (by omega)] at htail
  omega

theorem pos_zero (a : DumpArgs) : (a.pos (Int32.ofNat 0)).toNat = a.start.toNat := by
  have := a.start.toNat_lt
  rw [toNat_pos (by decide) (by omega), Nat.mul_zero, Nat.add_zero]

theorem readLoop_labelled (hbs : a.bs ≠ 0) (h : a.Near) (heap : Mem) (rs : List Int64) (s : Sys) (hg : s.Labelled 1)
    (hv : ∀ p ∈ (readLoop a.toArgs heap rs (Int32.ofNat 0) s).2.reads, p.Valid) :
    (readLoop a.toArgs heap rs (Int32.ofNat 0) s).2.Labelled 1 := by
  rcases h with h | ⟨hw, htail⟩ | ⟨hw, hu | ⟨hlast, htail⟩⟩
  · exact absurd h hbs
  · refine readLoop_grouped hbs (by omega) (by omega) (htail.imp_right fun hstart => ?_) heap rs 0 (by omega) s hg hv
    rw [hw, pos_zero, hstart, Nat.mul_zero]
  · -- the first read fails
    have hi : asSize (Int32.ofNat 0) < a.dataLen / a.bs := (turn_iff (by decide)).mpr hw
    cases rs with
    | nil =>
      rw [readLoop, if_pos hi]
      exact hg
    | cons r rs =>
      by_cases hr : r < 0
      · rw [readLoop_failed hi hr, Sys.Labelled, print_dumps _ rfl, print_okReads, pread_okReads_of_neg hr]
        exact hg
      · rw [readLoop_turn hi hr] at hv
        have hread := hv _ ((readLoop_reads _ _ _ _).subset (pread_mem heap))
        have hpos := nonneg_iff_unat.mp (hread.resolve_left hr).1
        simp only [unat_pos, pos_zero] at hpos
        omega
  · have hlt := block_lt hbs hlast
    have hmax := toNat_bs_le a
    refine readLoop_grouped hbs (by omega) (fun n hn => ?_) (htail.imp_right fun hrest => ?_) heap rs 0 (by omega) s hg hv
    · have := Nat.mul_le_mul_left a.bs.toNat (Nat.le_sub_one_of_lt hn)
      rw [toNat_pos (by omega) (by omega)]
      omega
    · rw [toNat_pos (by omega) (by omega), hrest.1, Nat.zero_add, Nat.mod_eq_of_lt hrest.2]

theorem names_of_near (h : a.Near) (engine : CStr) : (DumpCmd.blocks engine a).NamesSectors := by
  rintro s ⟨errno, mem, rs, f, rfl⟩ hv
  match errno, mem with
  | some e, _ => exact .nil
  | none, none => exact .nil
  | none, some heap =>
    by_cases hbs : a.bs = 0
    · simp only [readIo, withBlock, hbs, if_true]
      exact .nil
    · simp only [readIo, withBlock, hbs, if_false] at hv ⊢
      exact readLoop_labelled hbs h heap rs _ .nil hv

end Near

/-! ## All commands -/

/-- The positions that the command dumps are named by 32 bits: for a sector, it is below 4 GiB or cannot be read; for pages,
none that the loop comes to can be read; for `R`, see `DumpArgs.Near`. -/
def DumpCmd.Near : DumpCmd → Prop
  | oneSect sectOff => unat (sectOff * 512) < 2 ^ 32 ∨ 2 ^ 63 ≤ unat (sectOff * 512)
  | onePage pageOff => 2 ^ 63 ≤ unat (pageOff * 4096)
  | pages pageOff pageCnt => ∀ n, Reached pageCnt n → 2 ^ 63 ≤ unat ((pageOff + (Int32.ofNat n).toInt64) * 4096)
  | blocks _ a => a.Near

/-- **Which commands name the sectors that they dump.** -/
theorem names_sectors_iff (cmd : DumpCmd) : cmd.NamesSectors ↔ cmd.Near := by
  cases cmd with
  | oneSect sectOff => exact oneSect_names_iff sectOff
  | onePage pageOff => exact onePage_names_iff pageOff
  | pages pageOff pageCnt => exact pages_names_iff pageOff pageCnt
  | blocks engine a => exact ⟨near_of_names, fun h => names_of_near h engine⟩

/-- `R` with blocks of 512 bytes names the first sector. -/
theorem first_block_named (engine devPath : CStr) : ∃ a : DumpArgs, a.bs = 512 ∧ a.offset = 0 ∧ a.counts = 1 ∧
    a.devPath = devPath ∧ (DumpCmd.blocks engine a).NamesSectors := by
  have hprint : (⟨[112, 114, 105, 110, 116], by decide, by decide⟩ : CStr).isPrint = true := by decide
  have haligned : (512 : UInt64) % 512 = 0 := by decide
  have hbounded : (512 : UInt64) ≤ BLOCK_SIZE_MAX := by decide
  refine ⟨⟨⟨512, 0, 1, devPath, _⟩, hprint, haligned, hbounded⟩, rfl, rfl, rfl, rfl, names_of_near ?_ engine⟩
  have hwhole : ((512 * 1 : UInt64) / 512).toNat = 1 := by decide
  have hrest : ((512 * 1 : UInt64) % 512).toNat = 0 := by decide
  have hstart : ((0 : Int64) * 512).toUInt64.toNat = 0 := by decide
  simp only [DumpArgs.Near, Args.whole, Args.rest, Args.dataLen, Args.start, hwhole, hrest, hstart]
  simp

/-- All eight dumps of page 0 say that they are of sector 0. -/
theorem page_parts_share_a_header : ¬ ∀ cmd : DumpCmd, cmd.NamesSectors := fun h =>
  absurd ((onePage_names_iff 0).mp (h _)) (by decide)

end CppNotes.Iotool
