import CppNotes.Iotool.BlockIo
import CppNotes.Iotool.Calls

/-!
# Where `W` and `R` put their blocks

`ReadIO` reads block `k` at `bs * k` behind the start.  `WriteIO` writes it at `bs * (0 + 1 + ... + k)` behind the
start (`writeLoop_run`), since the running offset is moved by the whole distance each time.  The two agree up to two
blocks and not beyond.
-/

namespace CppNotes.Iotool

open CppNotes.Lib

/-- All that was asked for was written. -/
def Pwrite.Full (p : Pwrite) : Prop := p.res.toInt = p.count.toNat

/-- All that was asked for was read. -/
def Pread.Full (p : Pread) : Prop := p.res.toInt = p.count.toNat ∧ p.data.length = p.count.toNat

instance (p : Pwrite) : Decidable p.Full := inferInstanceAs (Decidable (_ = _))

instance (p : Pread) : Decidable p.Full := inferInstanceAs (Decidable (_ ∧ _))

/-! ## The loops -/

theorem toNat_asSize {n : ℕ} (h : n < 2 ^ 31) : (asSize (Int32.ofNat n)).toNat = n := by
  have hint : (Int32.ofNat n).toInt64.toInt = n := by
    rw [Int32.toInt_toInt64, Int32.toInt_ofNat_of_lt h]
  exact unat_of_toInt hint

theorem asSize_ofNat {n : ℕ} (h : n < 2 ^ 31) : asSize (Int32.ofNat n) = UInt64.ofNat n := by
  rw [← UInt64.toNat_inj, toNat_asSize h, UInt64.toNat_ofNat', Nat.mod_eq_of_lt (by omega)]

variable {a : Args}

/-- The number of whole blocks. -/
def Args.whole (a : Args) : ℕ := (a.dataLen / a.bs).toNat

/-- Turn `n` is made if there is an `n`-th block. -/
theorem turn_iff {n : ℕ} (h : n < 2 ^ 31) : asSize (Int32.ofNat n) < a.dataLen / a.bs ↔ n < a.whole := by
  rw [UInt64.lt_iff_toNat_lt, toNat_asSize h, Args.whole]

/-- The counter is an `int`: it is negative from turn `2 ^ 31` on, and turn `2 ^ 32 - 1` is never made. -/
theorem toNat_asSize_of_le {n : ℕ} (hn : 2 ^ 31 ≤ n) (hlt : n < 2 ^ 32) :
    (asSize (Int32.ofNat n)).toNat = n + (2 ^ 64 - 2 ^ 32) := by
  have hint : (Int32.ofNat n).toInt64.toInt = (n : ℤ) - 2 ^ 32 := by
    rw [Int32.toInt_toInt64, Int32.toInt_ofNat', Int32.size, Int.bmod_def]
    split <;> omega
  have hcases := unat_cases (Int32.ofNat n).toInt64
  show unat (Int32.ofNat n).toInt64 = _
  omega

theorem turn_bound {n : ℕ} (hlt : n < 2 ^ 32) (hi : asSize (Int32.ofNat n) < a.dataLen / a.bs) :
    n + 1 < 2 ^ 32 ∧ n < a.whole ∧ (n < 2 ^ 31 ∨ n + 1 < a.whole) := by
  have hw : a.whole < 2 ^ 64 := (a.dataLen / a.bs).toNat_lt
  rw [UInt64.lt_iff_toNat_lt] at hi
  change _ < a.whole at hi
  rcases Nat.lt_or_ge n (2 ^ 31) with h | h
  · rw [toNat_asSize h] at hi
    omega
  · rw [toNat_asSize_of_le h hlt] at hi
    omega

theorem writeTail_whole (hend : a.dataLen % a.bs = 0) (data : Mem) (rs : List Int64) (offset : UInt64) (s : Sys) :
    writeTail a data rs offset s = (.ret 0, (s.print .done).print (.total a.dataLen a.bs)) := by
  unfold writeTail
  exact if_neg (not_not.mpr hend)

theorem readTail_whole (hend : a.dataLen % a.bs = 0) (data : Mem) (rs : List Int64) (i : Int32) (s : Sys) :
    readTail a data rs i s = (.ret 0, (s.print .readEnd).print (.total a.dataLen a.bs)) := by
  unfold readTail
  exact if_neg (not_not.mpr hend)

theorem prtSectData_reads (s : Sys) (data : Mem) (offset : UInt64) : (s.prtSectData a data offset).reads = s.reads := by
  unfold Sys.prtSectData
  split <;> rfl

theorem prtSectData_file (s : Sys) (data : Mem) (offset : UInt64) : (s.prtSectData a data offset).file = s.file := by
  unfold Sys.prtSectData
  split <;> rfl

/-- With enough answers a loop that is before turn `n` returns 0 after `len` calls, one for each block that is left. -/
def EndsAfter (a : Args) (rs : List Int64) (n : ℕ) (x : Exit) (len : ℕ) : Prop :=
  a.whole < 2 ^ 31 → n ≤ a.whole → a.whole ≤ n + rs.length → x = .ret 0 ∧ n + len = a.whole

theorem EndsAfter.cons {rs : List Int64} {n len : ℕ} {x : Exit} (hi : asSize (Int32.ofNat n) < a.dataLen / a.bs)
    (h : EndsAfter a rs (n + 1) x len) (r : Int64) : EndsAfter a (r :: rs) n x (len + 1) := by
  intro hlt hn hle
  have hn' : n < a.whole := (turn_iff (by omega)).mp hi
  rw [List.length_cons] at hle
  obtain ⟨h0, hlen⟩ := h hlt hn' (by omega)
  exact ⟨h0, by omega⟩

/-- A loop that waits for an answer has not had enough of them. -/
theorem EndsAfter.waiting {n : ℕ} (hi : asSize (Int32.ofNat n) < a.dataLen / a.bs) (x : Exit) :
    EndsAfter a [] n x 0 := by
  intro hlt hn hle
  have hn' : n < a.whole := (turn_iff (by omega)).mp hi
  exact absurd hle (Nat.not_le.mpr hn')

theorem EndsAfter.done {n : ℕ} (hi : ¬ asSize (Int32.ofNat n) < a.dataLen / a.bs) (rs : List Int64) :
    EndsAfter a rs n (.ret 0) 0 := by
  intro hlt hn _
  have hwhole : a.whole ≤ n := Nat.le_of_not_lt (mt (turn_iff (by omega)).mpr hi)
  exact ⟨rfl, Nat.le_antisymm hn hwhole⟩

/-- What the loop of `WriteIO` calls from turn `n` on, and how it ends if no call fails. -/
structure WriteRun (a : Args) (data : Mem) (rs : List Int64) (n : ℕ) (offset : UInt64) (s : Sys) (run : Exit × Sys)
    (calls : List Pwrite) : Prop where
  calls_eq : run.2.calls = s.calls ++ calls
  call : ∀ p ∈ calls, p.count = a.bs ∧ p.res ∈ rs
  place : ∀ k p, calls[k]? = some p → n + k < 2 ^ 31 →
    p.offset = (offset + a.bs * UInt64.ofNat (List.range' n (k + 1)).sum).toInt64
  file : (∀ p ∈ calls, ¬ p.res < 0) → run.2.file = s.file.writes data (extents calls)
  ends : (∀ p ∈ calls, ¬ p.res < 0) → EndsAfter a rs n run.1 calls.length

/-- What the loop of `ReadIO` calls from turn `n` on, and how it ends if no call fails. -/
structure ReadRun (a : Args) (rs : List Int64) (n : ℕ) (s : Sys) (run : Exit × Sys) (reads : List Pread) : Prop where
  reads_eq : run.2.reads = s.reads ++ reads
  call : ∀ p ∈ reads, p.count = a.bs ∧ p.data = s.file.read (unat p.offset) p.res.toInt.toNat
  place : ∀ k p, reads[k]? = some p → n + k < 2 ^ 31 → p.offset = (a.bs * UInt64.ofNat (n + k) + a.start).toInt64
  ends : (∀ p ∈ reads, ¬ p.res < 0) → EndsAfter a rs n run.1 reads.length

/-- The call of turn `n` in front: its distance is part of all later ones. -/
theorem writePlace_cons {n : ℕ} {offset : UInt64} {p : Pwrite} {calls : List Pwrite}
    (hp : p.offset = (offset + a.bs * asSize (Int32.ofNat n)).toInt64)
    (h : ∀ k q, calls[k]? = some q → n + 1 + k < 2 ^ 31 → q.offset = (offset + a.bs * asSize (Int32.ofNat n) +
      a.bs * UInt64.ofNat (List.range' (n + 1) (k + 1)).sum).toInt64) (k : ℕ) (q : Pwrite)
    (hq : (p :: calls)[k]? = some q) (hk : n + k < 2 ^ 31) :
    q.offset = (offset + a.bs * UInt64.ofNat (List.range' n (k + 1)).sum).toInt64 := by
  have hn := asSize_ofNat (n := n) (by omega)
  cases k with
  | zero =>
    obtain rfl := Option.some.inj hq
    rw [hp, hn, List.range'_one, List.sum_singleton]
  | succ k =>
    have hsum : (List.range' n (k + 1 + 1)).sum = n + (List.range' (n + 1) (k + 1)).sum := by
      rw [List.range'_succ, List.sum_cons]
    rw [h k q hq (by omega), hsum, hn, UInt64.ofNat_add, UInt64.mul_add, UInt64.add_assoc]

theorem readPlace_cons {n : ℕ} {p : Pread} {reads : List Pread}
    (hp : p.offset = (a.bs * asSize (Int32.ofNat n) + a.start).toInt64)
    (h : ∀ k q, reads[k]? = some q → n + 1 + k < 2 ^ 31 →
      q.offset = (a.bs * UInt64.ofNat (n + 1 + k) + a.start).toInt64) (k : ℕ) (q : Pread)
    (hq : (p :: reads)[k]? = some q) (hk : n + k < 2 ^ 31) :
    q.offset = (a.bs * UInt64.ofNat (n + k) + a.start).toInt64 := by
  cases k with
  | zero =>
    obtain rfl := Option.some.inj hq
    rw [hp, Nat.add_zero, asSize_ofNat (by omega)]
  | succ k => rw [h k q hq (by omega), Nat.add_right_comm, Nat.add_assoc]

/-- One turn more in front of a run. -/
theorem WriteRun.cons {data : Mem} {rs : List Int64} {n : ℕ} {offset : UInt64} {s s₁ : Sys} {run : Exit × Sys}
    {calls : List Pwrite} {r : Int64} (hi : asSize (Int32.ofNat n) < a.dataLen / a.bs) (hr : ¬ r < 0)
    (hcalls : s₁.calls = s.calls ++ [⟨(offset + a.bs * asSize (Int32.ofNat n)).toInt64, a.bs, r⟩])
    (hfile : s₁.file = s.file.write (unat (offset + a.bs * asSize (Int32.ofNat n)).toInt64) (unat r) data)
    (h : WriteRun a data rs (n + 1) (offset + a.bs * asSize (Int32.ofNat n)) s₁ run calls) :
    WriteRun a data (r :: rs) n offset s run
      (⟨(offset + a.bs * asSize (Int32.ofNat n)).toInt64, a.bs, r⟩ :: calls) where
  calls_eq := by rw [h.calls_eq, hcalls, List.append_assoc, List.singleton_append]
  call := by
    intro p hp
    rcases List.mem_cons.mp hp with rfl | hp
    · exact ⟨rfl, List.mem_cons_self⟩
    · exact ⟨(h.call p hp).1, List.mem_cons_of_mem _ (h.call p hp).2⟩
  place := writePlace_cons rfl h.place
  file := by
    intro hall
    rw [h.file fun p hp => hall p (List.mem_cons_of_mem _ hp), hfile,
      extents_cons_of_not_neg (p := ⟨(offset + a.bs * asSize (Int32.ofNat n)).toInt64, a.bs, r⟩) hr]
    rfl
  ends hall := (h.ends fun p hp => hall p (List.mem_cons_of_mem _ hp)).cons hi r

theorem ReadRun.cons {rs : List Int64} {n : ℕ} {s s₁ : Sys} {run : Exit × Sys} {reads : List Pread} {p : Pread}
    (hi : asSize (Int32.ofNat n) < a.dataLen / a.bs)
    (hp : p.offset = (a.bs * asSize (Int32.ofNat n) + a.start).toInt64 ∧ p.count = a.bs ∧
      p.data = s.file.read (unat p.offset) p.res.toInt.toNat)
    (hreads : s₁.reads = s.reads ++ [p]) (hfile : s₁.file = s.file) (h : ReadRun a rs (n + 1) s₁ run reads) :
    ReadRun a (p.res :: rs) n s run (p :: reads) where
  reads_eq := by rw [h.reads_eq, hreads, List.append_assoc, List.singleton_append]
  call := by
    intro q hq
    rcases List.mem_cons.mp hq with rfl | hq
    · exact hp.2
    · rw [← hfile]
      exact h.call q hq
  place := readPlace_cons hp.1 h.place
  ends hall := (h.ends fun q hq => hall q (List.mem_cons_of_mem _ hq)).cons hi p.res

theorem WriteRun.nil {data : Mem} {rs : List Int64} {n : ℕ} {offset : UInt64} {s : Sys} {run : Exit × Sys}
    (hcalls : run.2.calls = s.calls) (hfile : run.2.file = s.file) (hends : EndsAfter a rs n run.1 0) :
    WriteRun a data rs n offset s run [] where
  calls_eq := by rw [hcalls, List.append_nil]
  call := by simp
  place := by simp
  file _ := hfile
  ends _ := hends

theorem ReadRun.nil {rs : List Int64} {n : ℕ} {s : Sys} {run : Exit × Sys} (hreads : run.2.reads = s.reads)
    (hends : EndsAfter a rs n run.1 0) : ReadRun a rs n s run [] where
  reads_eq := by rw [hreads, List.append_nil]
  call := by simp
  place := by simp
  ends _ := hends

section Loops

variable (hend : a.dataLen % a.bs = 0)
include hend

/-- **A run of the loop of `WriteIO`.** -/
theorem writeLoop_run (data : Mem) (rs : List Int64) (n : ℕ) (offset : UInt64) (s : Sys) :
    ∃ calls, WriteRun a data rs n offset s (writeLoop a data rs (Int32.ofNat n) offset s) calls := by
  induction rs generalizing n offset s with
  | nil =>
    unfold writeLoop
    split
    · rename_i hi
      exact ⟨[], .nil rfl rfl (.waiting hi _)⟩
    · rename_i hi
      rw [writeTail_whole hend]
      exact ⟨[], .nil rfl rfl (.done hi _)⟩
  | cons r rs ih =>
    unfold writeLoop
    split
    · rename_i hi
      simp only [ofNat_add_one]
      split
      · rename_i hr
        exact ⟨[⟨(offset + a.bs * asSize (Int32.ofNat n)).toInt64, a.bs, r⟩], rfl, by simp,
          writePlace_cons rfl (by simp), by simp [hr], by simp [hr]⟩
      · rename_i hr
        obtain ⟨calls, hrun⟩ := ih (n + 1) (offset + a.bs * asSize (Int32.ofNat n))
          (((s.pwrite data a.bs (offset + a.bs * asSize (Int32.ofNat n)).toInt64 r).print
            (.block a.bs (offset + a.bs * asSize (Int32.ofNat n)))).print .dot)
        refine ⟨_, hrun.cons hi hr rfl ?_⟩
        exact pwrite_file_wrote (nonneg_iff_unat.mp (Int64.not_lt.mp hr)) s a.bs _
    · rename_i hi
      rw [writeTail_whole hend]
      exact ⟨[], .nil rfl rfl (.done hi _)⟩

/-- **A run of the loop of `ReadIO`.** -/
theorem readLoop_run (data : Mem) (rs : List Int64) (n : ℕ) (s : Sys) :
    ∃ reads, ReadRun a rs n s (readLoop a data rs (Int32.ofNat n) s) reads := by
  induction rs generalizing n data s with
  | nil =>
    unfold readLoop
    split
    · rename_i hi
      exact ⟨[], .nil rfl (.waiting hi _)⟩
    · rename_i hi
      rw [readTail_whole hend]
      exact ⟨[], .nil rfl (.done hi _)⟩
  | cons r rs ih =>
    unfold readLoop
    split
    · rename_i hi
      simp only [ofNat_add_one]
      split
      · rename_i hr
        exact ⟨[⟨(a.bs * asSize (Int32.ofNat n) + a.start).toInt64, a.bs, r, _⟩], rfl, by simp,
          readPlace_cons rfl (by simp), by simp [hr]⟩
      · set pos := a.bs * asSize (Int32.ofNat n) + a.start
        set next := s.pread (memset data 0 a.bs) a.bs pos.toInt64 r
        obtain ⟨reads, hrun⟩ := ih next.1 (n + 1) (next.2.prtSectData a next.1 pos)
        refine ⟨_, hrun.cons (p := ⟨pos.toInt64, a.bs, r, s.file.read (unat pos.toInt64) r.toInt.toNat⟩) hi
          ⟨rfl, rfl, rfl⟩ ?_ ?_⟩
        · rw [prtSectData_reads]
          rfl
        · rw [prtSectData_file]
          rfl
    · rename_i hi
      rw [readTail_whole hend]
      exact ⟨[], .nil rfl (.done hi _)⟩

end Loops

/-! ## The fill loop -/

/-- The value of an `int` with the bits of `x` after a conversion to `size_t`. -/
def sizeView (x : ℕ) : ℕ := if x < 2 ^ 31 then x else x + (2 ^ 64 - 2 ^ 32)

theorem toNat_asSize_eq (i : Int32) : (asSize i).toNat = sizeView i.toUInt32.toNat := by
  have hint : i.toInt64.toInt = i.toInt := i.toInt_toInt64
  have h := BitVec.toInt_eq_toNat_cond i.toUInt32.toBitVec
  rw [Int32.toBitVec_toUInt32, Int32.toInt_toBitVec, ← Int32.toBitVec_toUInt32, UInt32.toNat_toBitVec] at h
  have hlt := i.toUInt32.toNat_lt
  have hlt64 := unat_lt i.toInt64
  have hcases := unat_cases i.toInt64
  show unat i.toInt64 = _
  unfold sizeView
  split at h <;> split <;> omega

/-- The test of the fill loop. -/
def dataCond (inp : CStr) (bs : UInt64) (s : Int32 × Mem) : Bool :=
  decide (asSize (s.1 + inp.strlen.toUInt32.toInt32) ≤ bs)

/-- The body of the fill loop. -/
def dataBody (inp : CStr) (s : Int32 × Mem) : Int32 × Mem :=
  ((asSize s.1 + inp.strlen).toUInt32.toInt32, strcpy s.2 (asSize s.1).toNat inp)

theorem fillData_loop (inp : CStr) (bs : UInt64) (data : Mem) :
    fillData inp bs data = (loop (dataCond inp bs) (dataBody inp) (bs.toNat + 2) (0, data)).map Prod.snd := rfl

theorem data_rotates (inp : CStr) (bs : UInt64) : Rotates (dataCond inp bs) (dataBody inp) (fun s => s.1.toUInt32.toNat)
    inp.bytes.length (2 ^ 32) sizeView bs.toNat where
  test s := by
    have hsum : (s.1 + inp.strlen.toUInt32.toInt32).toUInt32.toNat =
        (s.1.toUInt32.toNat + inp.bytes.length) % 2 ^ 32 := by
      rw [Int32.toUInt32_add, UInt32.toNat_add, UInt32.toUInt32_toInt32, UInt64.toNat_toUInt32, toNat_strlen,
        Nat.add_mod_mod]
    rw [dataCond, decide_eq_true_iff, UInt64.le_iff_toNat_le, toNat_asSize_eq, hsum]
  move s := by
    have hview : sizeView s.1.toUInt32.toNat % 2 ^ 32 = s.1.toUInt32.toNat % 2 ^ 32 := by
      unfold sizeView
      split <;> omega
    rw [dataBody, UInt32.toUInt32_toInt32, UInt64.toNat_toUInt32, UInt64.toNat_add, toNat_strlen, toNat_asSize_eq,
      Nat.mod_mod_of_dvd _ (by decide), Nat.add_mod, hview, ← Nat.add_mod]

/-- A position that would overflow is larger than any buffer, so the loop stops before it. -/
theorem data_stride {inp : CStr} (hlen : inp.bytes.length < 2 ^ 31) {bs : UInt64} (hbs : bs.toNat < 2 ^ 63) :
    Stride (dataCond inp bs) (dataBody inp) (fun s => s.1.toUInt32.toNat) inp.bytes.length
      (min bs.toNat (2 ^ 31 - 1)) where
  test s hs := by
    rw [(data_rotates inp bs).test, Nat.mod_eq_of_lt (by omega), sizeView]
    split <;> omega
  move s hs _ := by
    rw [(data_rotates inp bs).move, Nat.mod_eq_of_lt (by omega)]

/-- The fill loop ends if the string is not empty. -/
theorem fillData_isSome {inp : CStr} (hne : inp.bytes ≠ []) (hlen : inp.bytes.length < 2 ^ 31) {bs : UInt64}
    (hbs : bs.toNat < 2 ^ 63) (data : Mem) : (fillData inp bs data).isSome = true := by
  obtain ⟨s, hs, -⟩ := (data_stride hlen hbs).ends (List.length_pos_iff.mpr hne) (0, data)
    (show min bs.toNat (2 ^ 31 - 1) < bs.toNat + 2 by omega) (fun _ _ => True) rfl trivial (fun _ _ _ _ _ => trivial)
  rw [fillData_loop, hs]
  rfl

/-! ## Whole runs -/

/-- The place of block `k`. -/
def blockPos (bs : UInt64) (offset : Int64) (k : ℕ) : ℤ := 512 * offset.toInt + bs.toNat * k

/-- If every `pwrite` writes all it is asked for, `WriteIO` returns 0, writes each block to its place and changes no
other byte. -/
def WritesInPlace (bs : UInt64) (offset : Int64) (counts : UInt64) : Prop :=
  ∀ (engine devPath inp : CStr) (heap data : Mem) (rs : List Int64) (f : File),
    fillData inp bs heap = some data → counts.toNat ≤ rs.length →
    let w := writeIo engine ⟨bs, offset, counts, devPath, inp⟩ none (some heap) rs f
    (∀ p ∈ w.2.calls, p.Full) →
      w.1 = .ret 0 ∧
      w.2.calls.map (fun p => p.offset.toInt) = (List.range counts.toNat).map (blockPos bs offset) ∧
      ∀ x : ℕ, x < blockPos bs offset 0 ∨ blockPos bs offset counts.toNat ≤ x → w.2.file.byte x = f.byte x

/-- After that `ReadIO` returns 0, reads each block from its place and gets what was written. -/
def ReadsBack (bs : UInt64) (offset : Int64) (counts : UInt64) : Prop :=
  ∀ (engine engine' devPath inp inp' : CStr) (heap heap' data : Mem) (rs rs' : List Int64) (f : File),
    fillData inp bs heap = some data → counts.toNat ≤ rs.length → counts.toNat ≤ rs'.length →
    let w := writeIo engine ⟨bs, offset, counts, devPath, inp⟩ none (some heap) rs f
    let r := readIo engine' ⟨bs, offset, counts, devPath, inp'⟩ none (some heap') rs' w.2.file
    (∀ p ∈ w.2.calls, p.Full) → (∀ p ∈ r.2.reads, p.Full) →
      r.1 = .ret 0 ∧
      r.2.reads.map (fun p => p.offset.toInt) = (List.range counts.toNat).map (blockPos bs offset) ∧
      ∀ p ∈ r.2.reads, p.data = (List.range bs.toNat).map data

theorem writeIo_run (engine : CStr) {heap data : Mem} (hbs : a.bs ≠ 0) (hend : a.dataLen % a.bs = 0)
    (hfill : fillData a.inp a.bs heap = some data) (rs : List Int64) (f : File) :
    ∃ s : Sys, s.file = f ∧ WriteRun a data rs 0 a.start s (writeIo engine a none (some heap) rs f)
      (writeIo engine a none (some heap) rs f).2.calls := by
  have heq : writeIo engine a none (some heap) rs f = writeLoop a data rs (Int32.ofNat 0) a.start
      ⟨f, [], [], [.args .write a.devPath.bytes a.bs a.offset a.counts a.inp.bytes, .opened .write engine.bytes]⟩ := by
    unfold writeIo withBlock
    simp only [hfill, if_neg hbs]
    rfl
  obtain ⟨calls, hrun⟩ := writeLoop_run hend data rs 0 a.start
    ⟨f, [], [], [.args .write a.devPath.bytes a.bs a.offset a.counts a.inp.bytes, .opened .write engine.bytes]⟩
  rw [← heq] at hrun
  have hcalls : (writeIo engine a none (some heap) rs f).2.calls = calls := hrun.calls_eq
  rw [hcalls]
  exact ⟨_, rfl, hrun⟩

theorem readIo_run (engine : CStr) (heap : Mem) (hbs : a.bs ≠ 0) (hend : a.dataLen % a.bs = 0) (rs : List Int64)
    (f : File) : ∃ s : Sys, s.file = f ∧ ReadRun a rs 0 s (readIo engine a none (some heap) rs f)
      (readIo engine a none (some heap) rs f).2.reads := by
  have heq : readIo engine a none (some heap) rs f = readLoop a heap rs (Int32.ofNat 0)
      ⟨f, [], [], [.args .read a.devPath.bytes a.bs a.offset a.counts a.inp.bytes, .opened .read engine.bytes]⟩ := by
    unfold readIo withBlock
    simp only [if_neg hbs]
    rfl
  obtain ⟨reads, hrun⟩ := readLoop_run hend heap rs 0
    ⟨f, [], [], [.args .read a.devPath.bytes a.bs a.offset a.counts a.inp.bytes, .opened .read engine.bytes]⟩
  rw [← heq] at hrun
  have hreads : (readIo engine a none (some heap) rs f).2.reads = reads := hrun.reads_eq
  rw [hreads]
  exact ⟨_, rfl, hrun⟩

/-- The calls of a run that were written in full, as blocks of the file. -/
theorem extents_of_places {calls : List Pwrite} {lo n m : ℕ} (hres : ∀ p ∈ calls, p.res.toInt = n)
    (hpos : calls.map (fun p => p.offset.toInt) = (List.range m).map fun k => ((lo + n * k : ℕ) : ℤ)) :
    extents calls = (List.range m).map fun k => (lo + n * k, n) := by
  have hcall : ∀ p ∈ calls, (if p.res < 0 then none else some (unat p.offset, unat p.res)) =
      some (p.offset.toInt.toNat, n) := by
    intro p hp
    have hmem : p.offset.toInt ∈ (List.range m).map fun k => ((lo + n * k : ℕ) : ℤ) :=
      hpos ▸ List.mem_map_of_mem hp
    obtain ⟨k, -, hk⟩ := List.mem_map.mp hmem
    rw [if_neg (not_neg_of_toInt (hres p hp)), unat_of_toInt hk.symm, unat_of_toInt (hres p hp), ← hk,
      Int.toNat_natCast]
  calc extents calls = calls.map fun p => (p.offset.toInt.toNat, n) := by
        rw [extents, List.filterMap_congr hcall, List.filterMap_eq_map']
    _ = (calls.map fun p => p.offset.toInt).map fun z => (z.toNat, n) := by
        rw [List.map_map]
        rfl
    _ = (List.range m).map fun k => (lo + n * k, n) := by
        rw [hpos, List.map_map]
        rfl

section Domain

variable (hbs : 0 < a.bs) (hoff : 0 ≤ a.offset) (hlt : 512 * a.offset.toInt + a.bs.toNat * a.counts.toNat < 2 ^ 63)
include hbs hoff hlt

/-- In the domain nothing overflows, and there is no rest behind the last whole block. -/
theorem Args.no_overflow : a.bs ≠ 0 ∧ 0 < a.bs.toNat ∧ a.offset.toInt = unat a.offset ∧
    a.start.toNat = 512 * unat a.offset ∧ a.whole = a.counts.toNat ∧ a.dataLen % a.bs = 0 := by
  have hpos : 0 < a.bs.toNat := UInt64.lt_iff_toNat_lt.mp hbs
  have hint := toInt_eq_unat hoff
  have hlen : a.dataLen.toNat = a.bs.toNat * a.counts.toNat := by
    rw [Args.dataLen, UInt64.toNat_mul]
    omega
  refine ⟨fun h0 => ?_, hpos, hint, ?_, ?_, ?_⟩
  · rw [h0] at hpos
    exact absurd hpos (by decide)
  · have h512 : unat (512 : Int64) = 512 := rfl
    show unat (a.offset * 512) = 512 * unat a.offset
    rw [unat_mul, h512]
    omega
  · rw [Args.whole, UInt64.toNat_div, hlen, Nat.mul_div_cancel_left _ hpos]
  · rw [← UInt64.toNat_inj, UInt64.toNat_mod, hlen, Nat.mul_mod_right]
    rfl

theorem Args.bs_lt (hcnt : 0 < a.counts.toNat) : a.bs.toNat < 2 ^ 63 := by
  have hint := (Args.no_overflow hbs hoff hlt).2.2.1
  have hle : a.bs.toNat ≤ a.bs.toNat * a.counts.toNat := Nat.le_mul_of_pos_right _ hcnt
  omega

theorem blockPos_eq (k : ℕ) : blockPos a.bs a.offset k = ((512 * unat a.offset + a.bs.toNat * k : ℕ) : ℤ) := by
  rw [blockPos, (Args.no_overflow hbs hoff hlt).2.2.1]
  push_cast
  rfl

/-- The offset of a call, as a number. -/
theorem toInt_place {m : ℕ} (hm : m ≤ a.counts.toNat) :
    (a.start + a.bs * UInt64.ofNat m).toInt64.toInt = blockPos a.bs a.offset m := by
  obtain ⟨-, hpos, hint, hstart, -, -⟩ := Args.no_overflow hbs hoff hlt
  have hmlt : m < 2 ^ 64 := hm.trans_lt a.counts.toNat_lt
  have hle : a.bs.toNat * m ≤ a.bs.toNat * a.counts.toNat := Nat.mul_le_mul_left _ hm
  have hu : unat (a.start + a.bs * UInt64.ofNat m).toInt64 = 512 * unat a.offset + a.bs.toNat * m := by
    rw [unat_toInt64, UInt64.toNat_add, UInt64.toNat_mul, UInt64.toNat_ofNat', hstart, Nat.mod_eq_of_lt hmlt]
    omega
  rw [toInt_of_nonneg (by omega), hu, blockPos_eq hbs hoff hlt]

/-- **Up to two blocks** the running offset is right. -/
theorem writeIo_blocks (hcnt : a.counts.toNat ≤ 2) {engine : CStr} {heap data : Mem} {rs : List Int64} {f : File}
    (hfill : fillData a.inp a.bs heap = some data) (hlen : a.counts.toNat ≤ rs.length)
    (hfull : ∀ p ∈ (writeIo engine a none (some heap) rs f).2.calls, p.Full) :
    (writeIo engine a none (some heap) rs f).1 = .ret 0 ∧
    (writeIo engine a none (some heap) rs f).2.calls.map (fun p => p.offset.toInt) =
      (List.range a.counts.toNat).map (blockPos a.bs a.offset) ∧
    (writeIo engine a none (some heap) rs f).2.file =
      f.writes data ((List.range a.counts.toNat).map fun k => (512 * unat a.offset + a.bs.toNat * k, a.bs.toNat)) := by
  obtain ⟨hne, hpos, hint, -, hwhole, hend⟩ := Args.no_overflow hbs hoff hlt
  obtain ⟨s, hs, hrun⟩ := writeIo_run engine hne hend hfill rs f
  have hres : ∀ p ∈ (writeIo engine a none (some heap) rs f).2.calls, p.res.toInt = a.bs.toNat := by
    intro p hp
    rw [hfull p hp, (hrun.call p hp).1]
  have hnonneg : ∀ p ∈ (writeIo engine a none (some heap) rs f).2.calls, ¬ p.res < 0 := fun p hp =>
    not_neg_of_toInt (hres p hp)
  obtain ⟨h0, hcount⟩ := hrun.ends hnonneg (by omega) (Nat.zero_le _) (by omega)
  have hplaces : (writeIo engine a none (some heap) rs f).2.calls.map (fun p => p.offset.toInt) =
      (List.range a.counts.toNat).map (blockPos a.bs a.offset) := by
    apply List.ext_getElem
    · rw [List.length_map, List.length_map, List.length_range]
      omega
    · intro k hk hk'
      rw [List.length_map, List.length_range] at hk'
      have hsum : (List.range' 0 (k + 1)).sum = k := by
        obtain rfl | rfl : k = 0 ∨ k = 1 := by omega
        · rfl
        · rfl
      have hplace := hrun.place k _ (List.getElem?_eq_getElem (by omega)) (by omega)
      rw [List.getElem_map, List.getElem_map, List.getElem_range, hplace, hsum, toInt_place hbs hoff hlt hk'.le]
  refine ⟨h0, hplaces, ?_⟩
  have hcast : blockPos a.bs a.offset = fun k => ((512 * unat a.offset + a.bs.toNat * k : ℕ) : ℤ) :=
    funext fun k => blockPos_eq hbs hoff hlt k
  rw [hrun.file hnonneg, hs, extents_of_places hres (hplaces.trans (by rw [hcast]))]

theorem readIo_blocks (hcnt : a.counts.toNat < 2 ^ 31) {engine : CStr} {heap : Mem} {rs : List Int64} {f : File}
    (hlen : a.counts.toNat ≤ rs.length) (hfull : ∀ p ∈ (readIo engine a none (some heap) rs f).2.reads, p.Full) :
    (readIo engine a none (some heap) rs f).1 = .ret 0 ∧
    (readIo engine a none (some heap) rs f).2.reads.map (fun p => p.offset.toInt) =
      (List.range a.counts.toNat).map (blockPos a.bs a.offset) ∧
    ∀ p ∈ (readIo engine a none (some heap) rs f).2.reads,
      p.data = (List.range a.bs.toNat).map fun i => f.byte (unat p.offset + i) := by
  obtain ⟨hne, hpos, hint, -, hwhole, hend⟩ := Args.no_overflow hbs hoff hlt
  obtain ⟨s, hs, hrun⟩ := readIo_run engine heap hne hend rs f
  have hres : ∀ p ∈ (readIo engine a none (some heap) rs f).2.reads, p.res.toInt = a.bs.toNat := by
    intro p hp
    rw [(hfull p hp).1, (hrun.call p hp).1]
  have hnonneg : ∀ p ∈ (readIo engine a none (some heap) rs f).2.reads, ¬ p.res < 0 := fun p hp =>
    not_neg_of_toInt (hres p hp)
  obtain ⟨h0, hcount⟩ := hrun.ends hnonneg (by omega) (Nat.zero_le _) (by omega)
  refine ⟨h0, ?_, ?_⟩
  · apply List.ext_getElem
    · rw [List.length_map, List.length_map, List.length_range]
      omega
    · intro k hk hk'
      rw [List.length_map, List.length_range] at hk'
      have hplace := hrun.place k _ (List.getElem?_eq_getElem (by omega)) (by omega)
      rw [List.getElem_map, List.getElem_map, List.getElem_range, hplace, Nat.zero_add, UInt64.add_comm,
        toInt_place hbs hoff hlt hk'.le]
  · intro p hp
    obtain ⟨hcount, hdata⟩ := hrun.call p hp
    have hlen := (hfull p hp).2
    rw [hres p hp, Int.toNat_natCast, hs, File.read] at hdata
    rw [hcount, hdata, List.length_map, List.length_range] at hlen
    rw [hdata, hlen]

theorem writesInPlace_of (hcnt : a.counts.toNat ≤ 2) : WritesInPlace a.bs a.offset a.counts := by
  intro engine devPath inp heap data rs f hfill hlen w hfull
  obtain ⟨-, hpos, hint, -, -, -⟩ := Args.no_overflow hbs hoff hlt
  obtain ⟨h0, hplaces, hfile⟩ := writeIo_blocks (a := ⟨a.bs, a.offset, a.counts, devPath, inp⟩) hbs hoff hlt hcnt hfill
    hlen hfull
  refine ⟨h0, hplaces, fun x hx => ?_⟩
  rw [hfile]
  refine File.writes_byte_of_not_mem fun b hb => ?_
  have hb := (Tiles.uniform (512 * unat a.offset) a.counts.toNat hpos).bounds.2 b hb
  simp only [blockPos] at hx
  push_cast at hx
  omega

theorem readsBack_of (hcnt : a.counts.toNat ≤ 2) : ReadsBack a.bs a.offset a.counts := by
  intro engine engine' devPath inp inp' heap heap' data rs rs' f hfill hlen hlen' w r hfull hfull'
  obtain ⟨-, hpos, -, -, -, -⟩ := Args.no_overflow hbs hoff hlt
  have hfile : w.2.file =
      f.writes data ((List.range a.counts.toNat).map fun k => (512 * unat a.offset + a.bs.toNat * k, a.bs.toNat)) :=
    (writeIo_blocks (a := ⟨a.bs, a.offset, a.counts, devPath, inp⟩) hbs hoff hlt hcnt hfill hlen hfull).2.2
  obtain ⟨h0, hplaces, hdata⟩ := readIo_blocks (a := ⟨a.bs, a.offset, a.counts, devPath, inp'⟩) hbs hoff hlt
    (hcnt.trans_lt (by decide)) hlen' hfull'
  refine ⟨h0, hplaces, fun p hp => ?_⟩
  have hmem : p.offset.toInt ∈ (List.range a.counts.toNat).map (blockPos a.bs a.offset) :=
    hplaces ▸ List.mem_map_of_mem hp
  obtain ⟨k, hk, hpk⟩ := List.mem_map.mp hmem
  rw [blockPos_eq hbs hoff hlt] at hpk
  have hp : p.data = (List.range a.bs.toNat).map fun i => w.2.file.byte (unat p.offset + i) := hdata p hp
  rw [hp, hfile, unat_of_toInt hpk.symm]
  refine List.map_congr_left fun i hi => ?_
  exact (Tiles.uniform (512 * unat a.offset) a.counts.toNat hpos).writes_byte
    (List.mem_map.mpr ⟨k, hk, rfl⟩) (List.mem_range.mp hi)

/-- The third block goes where the fourth one belongs. -/
theorem not_writesInPlace (hcnt : 3 ≤ a.counts.toNat) {heap data : Mem} (hfill : fillData a.inp a.bs heap = some data) :
    ¬ WritesInPlace a.bs a.offset a.counts := by
  intro h
  obtain ⟨hne, hpos, -, -, -, hend⟩ := Args.no_overflow hbs hoff hlt
  have hbs63 := Args.bs_lt hbs hoff hlt (by omega)
  -- every call asks for `bs` bytes, so with these answers each of them writes all it is asked for
  set rs := List.replicate a.counts.toNat a.bs.toInt64 with hrs
  obtain ⟨s, -, hrun⟩ := writeIo_run a.devPath hne hend hfill rs File.empty
  have hfull : ∀ p ∈ (writeIo a.devPath a none (some heap) rs File.empty).2.calls, p.Full := by
    intro p hp
    obtain ⟨hcount, hres⟩ := hrun.call p hp
    rw [Pwrite.Full, hcount, List.eq_of_mem_replicate hres, toInt_of_nonneg (by rwa [unat_toInt64]), unat_toInt64]
  obtain ⟨-, hplaces, -⟩ := h a.devPath a.devPath a.inp heap data rs File.empty hfill (by simp [hrs]) hfull
  have hthird := congrArg (fun l => l[2]?) hplaces
  simp only [List.getElem?_map, List.getElem?_range hcnt, Option.map_some] at hthird
  obtain ⟨p, hp, hpos2⟩ := Option.map_eq_some_iff.mp hthird
  have hpos3 := hrun.place 2 p hp (by decide)
  have hsum : (List.range' 0 3).sum = 3 := rfl
  rw [hpos3, hsum, toInt_place hbs hoff hlt hcnt, blockPos, blockPos] at hpos2
  omega

end Domain

/-- **Up to how many blocks `W` and `R` agree.**  `R` finds what `W` wrote, and `W` touches nothing else, for at most
two blocks; with three or more, the third block is written behind its place. -/
theorem blocks_agree_iff {bs : UInt64} {offset : Int64} {counts : UInt64} (hbs : 0 < bs) (hoff : 0 ≤ offset)
    (hlt : 512 * offset.toInt + bs.toNat * counts.toNat < 2 ^ 63) :
    WritesInPlace bs offset counts ∧ ReadsBack bs offset counts ↔ counts.toNat ≤ 2 := by
  constructor
  · rintro ⟨h, -⟩
    by_contra hcnt
    have hcnt : 3 ≤ counts.toNat := Nat.lt_of_not_le hcnt
    have hbs63 : bs.toNat < 2 ^ 63 :=
      Args.bs_lt (a := ⟨bs, offset, counts, letterA, letterA⟩) hbs hoff hlt (Nat.zero_lt_of_lt hcnt)
    obtain ⟨data, hfill⟩ := Option.isSome_iff_exists.mp
      (fillData_isSome (by decide : letterA.bytes ≠ []) (by decide) hbs63 fun _ => 0)
    exact not_writesInPlace (a := ⟨bs, offset, counts, letterA, letterA⟩) hbs hoff hlt hcnt hfill h
  · intro hcnt
    exact ⟨writesInPlace_of (a := ⟨bs, offset, counts, letterA, letterA⟩) hbs hoff hlt hcnt,
      readsBack_of (a := ⟨bs, offset, counts, letterA, letterA⟩) hbs hoff hlt hcnt⟩

theorem two_sectors_agree : WritesInPlace 512 3 2 ∧ ReadsBack 512 3 2 :=
  (blocks_agree_iff (by decide) (by decide) (by decide)).mpr (by decide)

/-- Three blocks of one byte: the third one is written at 3 instead of 2. -/
theorem third_block_misplaced : ¬ ∀ (bs : UInt64) (offset : Int64) (counts : UInt64), 0 < bs → 0 ≤ offset →
    512 * offset.toInt + bs.toNat * counts.toNat < 2 ^ 63 →
    WritesInPlace bs offset counts ∧ ReadsBack bs offset counts := by
  intro h
  have hcalls : (writeIo letterA ⟨1, 0, 3, letterA, letterA⟩ none (some fun _ => 0) [1, 1, 1] File.empty).2.calls =
      [⟨0, 1, 1⟩, ⟨1, 1, 1⟩, ⟨3, 1, 1⟩] := by decide
  obtain ⟨data, hfill⟩ : ∃ data, fillData letterA 1 (fun _ => 0) = some data :=
    Option.isSome_iff_exists.mp (by decide)
  obtain ⟨-, hplaces, -⟩ := (h 1 0 3 (by decide) (by decide) (by decide)).1 letterA letterA letterA _ data [1, 1, 1]
    File.empty hfill (by decide) (by rw [hcalls]; decide)
  rw [hcalls] at hplaces
  exact absurd hplaces (by decide)

end CppNotes.Iotool
