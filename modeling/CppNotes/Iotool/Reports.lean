import CppNotes.Lib.Cover
import CppNotes.Iotool.AioEnds
import CppNotes.Iotool.AioFile
import CppNotes.Iotool.Schedules

/-!
# What an exit code says

A command should return, and return 0 only if every byte was written (`Exit.Honest`).  `WriteIO` does not return if the
input is empty or the block size is 0; it takes a `pwrite` that writes less than the block for a success, and it writes its
blocks apart from each other from the third one on.  The AIO engine does not look at the results of its requests, and
returns 0 also when it has failed itself.
-/

namespace CppNotes.Iotool

open CppNotes.Lib

/-! ## The calls of `WriteIO` -/

/-- What the loop of `WriteIO` and the rest behind it call from turn `n` on. -/
structure Writes (a : Args) (n : ℕ) (offset : UInt64) (s : Sys) (run : Exit × Sys) (calls tail : List Pwrite) : Prop where
  calls_eq : run.2.calls = s.calls ++ (calls ++ tail)
  count : ∀ p ∈ calls, p.count = a.bs
  turn : ∀ k < calls.length, n + k < a.whole ∧ (n + k < 2 ^ 31 ∨ n + k + 1 < a.whole)
  place : ∀ k p, calls[k]? = some p → n + k < 2 ^ 31 →
    p.offset = (offset + a.bs * UInt64.ofNat (List.range' n (k + 1)).sum).toInt64
  tail_count : (tail.map fun p => p.count.toNat).sum ≤ (a.dataLen % a.bs).toNat
  tail_nil : a.dataLen % a.bs = 0 → tail = []
  ok : run.1 = .ret 0 → (∀ p ∈ calls ++ tail, ¬ p.res < 0) ∧ (a.whole < 2 ^ 31 → n ≤ a.whole → n + calls.length = a.whole)

section Loop

variable {a : Args} {n : ℕ} {offset : UInt64} {s : Sys} {data : Mem}

theorem writeTail_calls (a : Args) (data : Mem) (rs : List Int64) (offset : UInt64) (s : Sys) :
    ∃ tail, (writeTail a data rs offset s).2.calls = s.calls ++ tail ∧
      (tail.map fun p => p.count.toNat).sum ≤ (a.dataLen % a.bs).toNat ∧ (a.dataLen % a.bs = 0 → tail = []) ∧
      ((writeTail a data rs offset s).1 = .ret 0 → ∀ p ∈ tail, ¬ p.res < 0) := by
  by_cases hend : a.dataLen % a.bs = 0
  · rw [writeTail_whole hend]
    exact ⟨[], by simp [Sys.print], by simp, by simp, by simp⟩
  cases rs with
  | nil =>
    simp only [writeTail, ne_eq, hend, not_false_eq_true, if_true]
    exact ⟨[], by simp, by simp, by simp, by simp⟩
  | cons r rs =>
    refine ⟨[⟨offset.toInt64, a.dataLen % a.bs, r⟩], ?_, by simp, fun h => absurd h hend, ?_⟩
    · simp only [writeTail, ne_eq, hend, not_false_eq_true, if_true]
      split_ifs <;> rfl
    · simp only [writeTail, ne_eq, hend, not_false_eq_true, if_true]
      split_ifs with hr
      · simp
      · exact fun _ => List.forall_mem_singleton.mpr hr

/-- A run that does not return 0 and has made no call. -/
theorem Writes.stopped (offset : UInt64) {run : Exit × Sys} (hret : run.1 ≠ .ret 0) (hcalls : run.2.calls = s.calls) :
    Writes a n offset s run [] [] :=
  ⟨by simpa using hcalls, by simp, by simp, by simp, by simp, by simp, fun h => absurd h hret⟩

theorem Writes.of_tail (hi : ¬ asSize (Int32.ofNat n) < a.dataLen / a.bs) (rs : List Int64) :
    ∃ tail, Writes a n offset s (writeLoop a data rs (Int32.ofNat n) offset s) [] tail := by
  have hloop : writeLoop a data rs (Int32.ofNat n) offset s = writeTail a data rs offset s := by
    rw [writeLoop.eq_def, if_neg hi]
  obtain ⟨tail, hcalls, hsum, hnil, hok⟩ := writeTail_calls a data rs offset s
  rw [hloop]
  refine ⟨tail, hcalls, by simp, by simp, by simp, hsum, hnil, fun h => ⟨hok h, fun hw hn => ?_⟩⟩
  exact Nat.le_antisymm hn (Nat.le_of_not_lt (mt (turn_iff (hn.trans_lt hw)).mpr hi))

/-- One turn more in front of a run. -/
theorem Writes.cons {s₁ : Sys} {run : Exit × Sys} {calls tail : List Pwrite} {r : Int64} (hn : n < 2 ^ 32)
    (hi : asSize (Int32.ofNat n) < a.dataLen / a.bs) (hr : run.1 = .ret 0 → ¬ r < 0)
    (hcalls : s₁.calls = s.calls ++ [⟨(offset + a.bs * asSize (Int32.ofNat n)).toInt64, a.bs, r⟩])
    (h : Writes a (n + 1) (offset + a.bs * asSize (Int32.ofNat n)) s₁ run calls tail) :
    Writes a n offset s run (⟨(offset + a.bs * asSize (Int32.ofNat n)).toInt64, a.bs, r⟩ :: calls) tail where
  calls_eq := by rw [h.calls_eq, hcalls, List.append_assoc, List.singleton_append, List.cons_append]
  count := List.forall_mem_cons.mpr ⟨rfl, h.count⟩
  turn := by
    intro k hk
    cases k with
    | zero => exact (turn_bound hn hi).2
    | succ k =>
      have hturn := h.turn k (by simpa using hk)
      omega
  place := writePlace_cons rfl h.place
  tail_count := h.tail_count
  tail_nil := h.tail_nil
  ok := by
    intro hret
    obtain ⟨hres, hlen⟩ := h.ok hret
    refine ⟨List.forall_mem_cons.mpr ⟨hr hret, hres⟩, fun hw hle => ?_⟩
    have := hlen hw (turn_bound hn hi).2.1
    rw [List.length_cons]
    omega

theorem writeLoop_writes (a : Args) (data : Mem) (rs : List Int64) (n : ℕ) (hn : n < 2 ^ 32) (offset : UInt64) (s : Sys) :
    ∃ calls tail, Writes a n offset s (writeLoop a data rs (Int32.ofNat n) offset s) calls tail := by
  induction rs generalizing n offset s with
  | nil =>
    by_cases hi : asSize (Int32.ofNat n) < a.dataLen / a.bs
    · rw [writeLoop, if_pos hi]
      exact ⟨[], [], .stopped offset (by simp) rfl⟩
    · exact ⟨[], Writes.of_tail hi []⟩
  | cons r rs ih =>
    by_cases hi : asSize (Int32.ofNat n) < a.dataLen / a.bs
    · rw [writeLoop, if_pos hi]
      simp only [ofNat_add_one]
      split_ifs with hr
      · have hstop (run : Exit × Sys) (hret : run.1 = .ret 1) (hcalls : run.2.calls = _) :=
          Writes.stopped (a := a) (n := n + 1) (offset + a.bs * asSize (Int32.ofNat n))
            (s := s.pwrite data a.bs (offset + a.bs * asSize (Int32.ofNat n)).toInt64 r) (by simp [hret]) hcalls
        exact ⟨_, [], .cons hn hi (by simp) rfl (hstop _ rfl rfl)⟩
      · obtain ⟨calls, tail, hrun⟩ := ih (n + 1) (turn_bound hn hi).1 (offset + a.bs * asSize (Int32.ofNat n)) _
        exact ⟨_, tail, .cons hn hi (fun _ => hr) rfl hrun⟩
    · exact ⟨[], Writes.of_tail hi (r :: rs)⟩

/-- How the loop ends: a `pwrite` that fails is the only reason to return 1. -/
theorem writeLoop_exit (a : Args) (data : Mem) (rs : List Int64) (i : Int32) (offset : UInt64) (s : Sys) :
    (writeLoop a data rs i offset s).1 = .ret 0 ∨ (writeLoop a data rs i offset s).1 = .pending ∨
      (writeLoop a data rs i offset s).1 = .ret 1 ∧ ∃ p ∈ (writeLoop a data rs i offset s).2.calls, p.res < 0 := by
  fun_induction writeLoop a data rs i offset s with
  | case1 => simp
  | case2 _ _ _ _ _ _ _ _ hr => exact .inr (.inr ⟨rfl, _, List.mem_append_right _ List.mem_cons_self, hr⟩)
  | case3 => assumption
  | case4 =>
    fun_cases writeTail with
    | case1 => simp
    | case3 | case4 => exact .inl rfl
    | case2 _ _ _ _ _ hr => exact .inr (.inr ⟨rfl, _, List.mem_append_right _ List.mem_cons_self, hr⟩)

/-- The counter never gets to `2 ^ 32 - 1`, so that many answers are enough, with one for the rest. -/
theorem writeLoop_ne_pending (a : Args) (data : Mem) {rs : List Int64} {n : ℕ} (hn : n < 2 ^ 32)
    (hlen : 2 ^ 32 ≤ n + rs.length) (offset : UInt64) (s : Sys) :
    (writeLoop a data rs (Int32.ofNat n) offset s).1 ≠ .pending := by
  induction rs generalizing n offset s with
  | nil =>
    rw [List.length_nil] at hlen
    omega
  | cons r rs ih =>
    rw [List.length_cons] at hlen
    by_cases hi : asSize (Int32.ofNat n) < a.dataLen / a.bs
    · rw [writeLoop, if_pos hi]
      simp only [ofNat_add_one]
      split_ifs with hr
      · simp
      · exact ih (turn_bound hn hi).1 (by omega) _ _
    · rw [writeLoop, if_neg hi, writeTail]
      split_ifs <;> simp

/-- A run of `WriteIO` that returns 0 has come through its loop. -/
theorem writeIo_writes {engine : CStr} {errno : Option ℕ} {mem : Option Mem} {rs : List Int64} {f : File}
    (h : (writeIo engine a errno mem rs f).1 = .ret 0) : a.bs ≠ 0 ∧
      ∃ s calls tail, s.calls = [] ∧ Writes a 0 a.start s (writeIo engine a errno mem rs f) calls tail := by
  match errno, mem with
  | some e, _ => simp [writeIo, withBlock] at h
  | none, none => simp [writeIo, withBlock] at h
  | none, some heap =>
    simp only [writeIo, withBlock] at h ⊢
    cases hfill : fillData a.inp a.bs heap with
    | none => simp [hfill] at h
    | some data =>
      simp only [hfill] at h ⊢
      split_ifs at h ⊢ with hbs
      obtain ⟨calls, tail, hrun⟩ := writeLoop_writes a data rs 0 (by decide) a.start _
      exact ⟨hbs, _, calls, tail, rfl, hrun⟩

theorem not_neg_of_writeIo {engine : CStr} {errno : Option ℕ} {mem : Option Mem} {rs : List Int64} {f : File}
    (h : (writeIo engine a errno mem rs f).1 = .ret 0) : ∀ p ∈ (writeIo engine a errno mem rs f).2.calls, ¬ p.res < 0 := by
  obtain ⟨-, s, calls, tail, hs, hW⟩ := writeIo_writes h
  rw [hW.calls_eq, hs, List.nil_append]
  exact (hW.ok h).1

end Loop

/-! ## Lengths -/

section Lengths

variable {l : List Pwrite}

/-- The bytes that the calls have written. -/
def written (l : List Pwrite) : ℕ := (l.map fun p => p.res.toInt.toNat).sum

/-- The bytes that the calls were to write. -/
def asked (l : List Pwrite) : ℕ := (l.map fun p => p.count.toNat).sum

theorem asked_append (l l' : List Pwrite) : asked (l ++ l') = asked l + asked l' := by simp [asked]

theorem asked_const {n : UInt64} (h : ∀ p ∈ l, p.count = n) : asked l = l.length * n.toNat := by
  induction l with
  | nil => simp [asked]
  | cons p l ih =>
    rw [List.forall_mem_cons] at h
    rw [asked, List.map_cons, List.sum_cons, ← asked, ih h.2, h.1, List.length_cons, Nat.add_one_mul, Nat.add_comm]

theorem le_written {lo : ℤ} {n : ℕ} (h : AllWritten l lo n) : n ≤ written l := by
  have hmap : written l = ((l.map fun p => (p.offset.toInt, p.res.toInt.toNat)).map Prod.snd).sum := by
    rw [List.map_map]
    rfl
  rw [hmap]
  refine le_sum_of_cover lo fun x hlo hhi => ?_
  obtain ⟨p, hp, h₁, h₂⟩ := h x hlo hhi
  exact ⟨_, List.mem_map_of_mem hp, h₁, by simp only; omega⟩

theorem written_le (hans : ∀ p ∈ l, p.Answered) (hres : ∀ p ∈ l, ¬ p.res < 0) : written l ≤ asked l := by
  induction l with
  | nil => exact le_rfl
  | cons p l ih =>
    rw [List.forall_mem_cons] at hans hres
    have hl := ih hans.2 hres.2
    have hp := hans.1.resolve_left hres.1
    simp only [asked, written, List.map_cons, List.sum_cons] at hl ⊢
    omega

/-- If as much was written as was asked for, every call was full. -/
theorem full_of_asked_le (hans : ∀ p ∈ l, p.Answered) (hres : ∀ p ∈ l, ¬ p.res < 0) (h : asked l ≤ written l) :
    ∀ p ∈ l, p.Full := by
  induction l with
  | nil => simp
  | cons p l ih =>
    rw [List.forall_mem_cons] at hans hres ⊢
    have hl := written_le hans.2 hres.2
    have hp := hans.1.resolve_left hres.1
    have hpos := toInt_eq_unat (Int64.not_lt.mp hres.1)
    simp only [asked, written, List.map_cons, List.sum_cons] at h hl
    refine ⟨?_, ih hans.2 hres.2 (by simp only [asked, written]; omega)⟩
    rw [Pwrite.Full]
    omega

end Lengths

/-! ## What `WriteIO` has written -/

/-- Where the requested range starts. -/
def Args.origin (a : Args) : ℤ := 512 * a.offset.toInt

/-- The length of the requested range. -/
def Args.requested (a : Args) : ℕ := a.bs.toNat * a.counts.toNat

section Covered

variable {a : Args} {s : Sys} {run : Exit × Sys} {calls tail : List Pwrite}

theorem toNat_dataLen (a : Args) : a.dataLen.toNat = a.requested % 2 ^ 64 := UInt64.toNat_mul _ _

theorem dataLen_eq (a : Args) : a.whole * a.bs.toNat + (a.dataLen % a.bs).toNat = a.dataLen.toNat := by
  rw [Args.whole, UInt64.toNat_div, UInt64.toNat_mod, Nat.mul_comm]
  exact Nat.div_add_mod _ _

/-- Without an overflow there are as many whole blocks as were asked for. -/
theorem whole_eq (hbs : a.bs ≠ 0) (h : a.requested < 2 ^ 64) : a.whole = a.counts.toNat ∧ (a.dataLen % a.bs).toNat = 0 := by
  obtain ⟨hdiv, hmod⟩ := (dataLen_div_iff hbs).mpr h
  exact ⟨congrArg UInt64.toNat hdiv, congrArg UInt64.toNat hmod⟩

/-- A range is covered only if nothing overflows and every call is full: there is just enough to write. -/
theorem Writes.exact (hW : Writes a 0 a.start s run calls tail) (hbs : a.bs ≠ 0)
    (hans : ∀ p ∈ calls ++ tail, p.Answered) (hres : ∀ p ∈ calls ++ tail, ¬ p.res < 0)
    (h : AllWritten (calls ++ tail) a.origin a.requested) :
    a.whole = a.counts.toNat ∧ calls.length = a.counts.toNat ∧ tail = [] ∧ ∀ p ∈ calls, p.Full := by
  have hcover := le_written h
  have hle := written_le hans hres
  have hturn : calls.length ≤ a.whole := by
    rcases Nat.eq_zero_or_pos calls.length with h0 | hpos
    · omega
    · have := (hW.turn (calls.length - 1) (by omega)).1
      omega
  have hmul := Nat.mul_le_mul_right a.bs.toNat hturn
  have htail : asked tail ≤ _ := hW.tail_count
  have hasked : asked (calls ++ tail) = calls.length * a.bs.toNat + asked tail := by
    rw [asked_append, asked_const hW.count]
  have hdata := dataLen_eq a
  have hlen := toNat_dataLen a
  have hlt : a.requested < 2 ^ 64 := by omega
  obtain ⟨hwhole, hrest⟩ := whole_eq hbs hlt
  have hfull := full_of_asked_le hans hres (by omega)
  refine ⟨hwhole, ?_, hW.tail_nil (UInt64.toNat_inj.mp hrest), fun p hp => hfull p (List.mem_append_left _ hp)⟩
  rw [← hwhole]
  refine Nat.le_antisymm hturn (Nat.le_of_mul_le_mul_right ?_ (toNat_pos_of_ne hbs))
  omega

/-- The place of block `k`, up to a multiple of `2 ^ 64`: the distances add up. -/
theorem Writes.place_emod (hW : Writes a 0 a.start s run calls tail) {k : ℕ} {p : Pwrite} (hp : calls[k]? = some p)
    (hk : k < 2 ^ 31) : p.offset.toInt % 2 ^ 64 = (a.origin + (a.bs.toNat * (k * (k + 1) / 2) : ℕ)) % 2 ^ 64 := by
  have hsum : (List.range' 0 (k + 1)).sum = k * (k + 1) / 2 := by
    simp [List.sum_range', Nat.mul_comm]
  have hplace := hW.place k p hp (by omega)
  rw [hsum] at hplace
  generalize k * (k + 1) / 2 = t at hplace
  have hunat : unat p.offset = (a.start.toNat + a.bs.toNat * t) % 2 ^ 64 := by
    rw [hplace, unat_toInt64, UInt64.toNat_add, UInt64.toNat_mul, UInt64.toNat_ofNat']
    simp [Nat.add_mod, Nat.mul_mod]
  have hstart : (a.start.toNat : ℤ) = 512 * a.offset.toInt % 2 ^ 64 := by
    have h512 : unat 512 = 512 := rfl
    have hmul : a.start.toNat = unat a.offset * 512 % 2 ^ 64 := h512 ▸ unat_mul a.offset 512
    have := toInt_emod a.offset
    omega
  rw [toInt_emod, hunat, Args.origin]
  push_cast
  rw [hstart]
  omega

/-- Up to the second block the sum of the distances is the distance. -/
theorem Writes.place_small (hW : Writes a 0 a.start s run calls tail) {k : ℕ} {p : Pwrite} (hp : calls[k]? = some p)
    (hk : k < 2) : p.offset.toInt % 2 ^ 64 = (a.origin + (a.bs.toNat * k : ℕ)) % 2 ^ 64 := by
  have hsum : k * (k + 1) / 2 = k := by
    obtain rfl | rfl : k = 0 ∨ k = 1 := by omega
    · rfl
    · rfl
  rw [hW.place_emod hp (by omega), hsum]

/-- A block that lies behind the range, if the place has not wrapped around. -/
theorem exists_outside {c : ℕ} (h3 : 3 ≤ c) (hc : c ≤ 2 ^ 31) {b : ℕ} (hb : b ≤ 64 * 1024 * 1024) :
    ∃ k < c, k < 2 ^ 31 ∧ c ≤ k * (k + 1) / 2 ∧ b * (k * (k + 1) / 2) + b < 2 ^ 64 := by
  have hsmall {k : ℕ} (hk : k ≤ 2 ^ 17) : b * (k * (k + 1) / 2) + b < 2 ^ 64 := by
    have hk' : k * (k + 1) / 2 ≤ 2 ^ 17 * (2 ^ 17 + 1) / 2 := Nat.div_le_div_right (Nat.mul_le_mul hk (by omega))
    have := Nat.mul_le_mul hb hk'
    omega
  rcases Nat.lt_or_ge (c - 1) (2 ^ 17) with h | h
  · refine ⟨c - 1, by omega, by omega, ?_, hsmall (by omega)⟩
    rw [Nat.le_div_iff_mul_le (by decide), Nat.sub_add_cancel (by omega), Nat.mul_comm]
    exact Nat.mul_le_mul_right c (by omega)
  · exact ⟨2 ^ 17, by omega, by omega, by omega, hsmall le_rfl⟩

section Accepted

variable (hbs : a.bs ≠ 0) (hmax : a.bs ≤ BLOCK_SIZE_MAX)

include hbs hmax

theorem Writes.counts_le (hW : Writes a 0 a.start s run calls []) (hans : ∀ p ∈ calls, p.Answered)
    (hres : ∀ p ∈ calls, ¬ p.res < 0) (hwhole : a.whole = a.counts.toNat) (hlen : calls.length = a.counts.toNat)
    (h : AllWritten calls a.origin a.requested) : a.counts.toNat ≤ 2 := by
  by_contra hcon
  have hb : a.bs.toNat ≤ 64 * 1024 * 1024 := toNat_le_of_le_max hmax
  have hpos := toNat_pos_of_ne hbs
  have hlast := hW.turn (a.counts.toNat - 1) (by omega)
  obtain ⟨k, hk, hk31, hout, hsmall⟩ := exists_outside (by omega : 3 ≤ a.counts.toNat) (by omega) hb
  obtain ⟨p, hp⟩ : ∃ p, calls[k]? = some p := ⟨_, List.getElem?_eq_getElem (by omega)⟩
  have hplace := hW.place_emod hp hk31
  -- without block `k` the range is covered all the same, and there is too little to cover it
  have hcover : AllWritten (calls.eraseIdx k) a.origin a.requested := by
    intro x hlo hhi
    obtain ⟨q, hq, h₁, h₂⟩ := h x hlo hhi
    refine ⟨q, List.mem_eraseIdx_iff_getElem?.mpr ?_, h₁, h₂⟩
    obtain ⟨m, hm⟩ := List.mem_iff_getElem?.mp hq
    refine ⟨m, ?_, hm⟩
    rintro rfl
    obtain rfl := Option.some.inj (hm.symm.trans hp)
    have hqres := (hans q hq).resolve_left (hres q hq)
    rw [hW.count q hq] at hqres
    have hX := Nat.mul_le_mul_left a.bs.toNat hout
    rw [Args.requested] at hhi
    omega
  have hle := le_written hcover
  have hsub : calls.eraseIdx k ⊆ calls := (List.eraseIdx_sublist _ _).subset
  have hasked := written_le (fun p hp => hans p (hsub hp)) fun p hp => hres p (hsub hp)
  rw [asked_const fun p hp => hW.count p (hsub hp), List.length_eraseIdx_of_lt (by omega), hlen,
    Nat.sub_one_mul] at hasked
  have hmul := Nat.mul_le_mul_right a.bs.toNat (by omega : 1 ≤ a.counts.toNat)
  rw [Args.requested, Nat.mul_comm] at hle
  omega

/-- With at most two blocks each has to start at its place. -/
theorem Writes.starts (hW : Writes a 0 a.start s run calls []) (hfull : ∀ p ∈ calls, p.Full)
    (hlen : calls.length = a.counts.toNat) (hcounts : a.counts.toNat ≤ 2)
    (h : AllWritten calls a.origin a.requested) {m : ℕ} (hm : m < a.counts.toNat) :
    ∃ p : Pwrite, p.offset.toInt = a.origin + (a.bs.toNat * m : ℕ) := by
  have hb : a.bs.toNat ≤ 64 * 1024 * 1024 := toNat_le_of_le_max hmax
  have hpos := toNat_pos_of_ne hbs
  have hlt : a.bs.toNat * m < a.bs.toNat * a.counts.toNat := Nat.mul_lt_mul_of_pos_left hm hpos
  obtain ⟨p, hp, h₁, h₂⟩ := h (a.origin + (a.bs.toNat * m : ℕ)) (by omega) (by rw [Args.requested]; omega)
  refine ⟨p, ?_⟩
  obtain ⟨k, hk⟩ := List.mem_iff_getElem?.mp hp
  have hklt := (List.getElem?_eq_some_iff.mp hk).1
  have hplace := hW.place_small hk (by omega)
  have hres : p.res.toInt = a.bs.toNat := by rw [hfull p hp, hW.count p hp]
  -- a block that starts elsewhere starts a whole block away
  have hmul (i : ℕ) (hi : i < 2) : i = 0 ∧ a.bs.toNat * i = 0 ∨ i = 1 ∧ a.bs.toNat * i = a.bs.toNat := by
    obtain rfl | rfl : i = 0 ∨ i = 1 := by omega
    · exact .inl ⟨rfl, Nat.mul_zero _⟩
    · exact .inr ⟨rfl, Nat.mul_one _⟩
  have hk' := hmul k (by omega)
  have hm' := hmul m (by omega)
  omega

theorem Writes.allWritten (hW : Writes a 0 a.start s run calls tail) (hret : run.1 = .ret 0)
    (hcounts : a.counts.toNat ≤ 2) (hfull : ∀ p ∈ calls ++ tail, p.Full) (hlo : -2 ^ 63 ≤ a.origin)
    (hhi : a.origin + (a.bs.toNat * (a.counts.toNat - 1) : ℕ) < 2 ^ 63) :
    AllWritten (calls ++ tail) a.origin a.requested := by
  have hb : a.bs.toNat ≤ 64 * 1024 * 1024 := toNat_le_of_le_max hmax
  have hpos := toNat_pos_of_ne hbs
  obtain ⟨hwhole, -⟩ := whole_eq hbs ((Nat.mul_le_mul hb hcounts).trans_lt (by decide))
  have hlen := (hW.ok hret).2 (by omega) (Nat.zero_le _)
  intro x h₁ h₂
  have hblock (m : ℕ) (hm : m < a.counts.toNat) (hx₁ : a.origin + (a.bs.toNat * m : ℕ) ≤ x)
      (hx₂ : x < a.origin + (a.bs.toNat * m : ℕ) + a.bs.toNat) :
      ∃ p ∈ calls ++ tail, p.offset.toInt ≤ x ∧ x < p.offset.toInt + p.res.toInt := by
    obtain ⟨p, hp⟩ : ∃ p, calls[m]? = some p := ⟨_, List.getElem?_eq_getElem (by omega)⟩
    have hmem := List.mem_append_left tail (List.mem_of_getElem? hp)
    have hplace := hW.place_small hp (by omega)
    have hres : p.res.toInt = a.bs.toNat := by rw [hfull p hmem, hW.count p (List.mem_of_getElem? hp)]
    have hmul := Nat.mul_le_mul_left a.bs.toNat (Nat.le_sub_one_of_lt hm)
    have hrange := unat_cases p.offset
    have hword := unat_lt p.offset
    exact ⟨p, hmem, by omega, by omega⟩
  rw [Args.requested] at h₂
  rcases lt_or_ge x (a.origin + a.bs.toNat) with hx | hx
  · have hzero : 0 < a.counts.toNat := Nat.pos_of_ne_zero fun h0 => by
      rw [h0, Nat.mul_zero] at h₂
      omega
    exact hblock 0 hzero (by simpa using h₁) (by simpa using hx)
  · have hone : 1 < a.counts.toNat := by
      by_contra hle
      have := Nat.mul_le_mul_left a.bs.toNat (Nat.not_lt.mp hle)
      omega
    have htwo : a.counts.toNat = 2 := by omega
    rw [htwo] at h₂
    exact hblock 1 hone (by rw [Nat.mul_one]; exact hx) (by rw [Nat.mul_one]; omega)

end Accepted

end Covered

/-- The blocks of `WriteIO` are in place and written: there are none, or at most two, without an overflow, and every call
was full. -/
def Args.InPlace (a : Args) (calls : List Pwrite) : Prop :=
  a.counts.toNat = 0 ∨ a.counts.toNat ≤ 2 ∧ (∀ p ∈ calls, p.Full) ∧ -2 ^ 63 ≤ a.origin ∧
    a.origin + (a.bs.toNat * (a.counts.toNat - 1) : ℕ) < 2 ^ 63

theorem writeIo_allWritten_iff {a : Args} (hmax : a.bs ≤ BLOCK_SIZE_MAX) {engine : CStr} {errno : Option ℕ}
    {mem : Option Mem} {rs : List Int64} {f : File} (hret : (writeIo engine a errno mem rs f).1 = .ret 0)
    (hans : ∀ p ∈ (writeIo engine a errno mem rs f).2.calls, p.Answered) :
    AllWritten (writeIo engine a errno mem rs f).2.calls a.origin a.requested ↔
      a.InPlace (writeIo engine a errno mem rs f).2.calls := by
  obtain ⟨hbs, s, calls, tail, hs, hW⟩ := writeIo_writes hret
  have hcalls := hW.calls_eq
  rw [hs, List.nil_append] at hcalls
  rw [hcalls] at hans ⊢
  constructor
  · intro h
    obtain ⟨hwhole, hlen, rfl, hfull⟩ := hW.exact hbs hans (hW.ok hret).1 h
    simp only [List.append_nil] at hans h ⊢
    have hcounts := hW.counts_le hbs hmax hans (by simpa using (hW.ok hret).1) hwhole hlen h
    refine Classical.or_iff_not_imp_left.mpr fun h0 => ⟨hcounts, hfull, ?_, ?_⟩
    · obtain ⟨p, hp⟩ := hW.starts hbs hmax hfull hlen hcounts h (Nat.pos_of_ne_zero h0)
      have := unat_cases p.offset
      rw [Nat.mul_zero] at hp
      omega
    · obtain ⟨p, hp⟩ := hW.starts hbs hmax hfull hlen hcounts h (Nat.sub_lt (Nat.pos_of_ne_zero h0) one_pos)
      have := unat_cases p.offset
      have := unat_lt p.offset
      omega
  · rintro (h0 | ⟨hcounts, hfull, hlo, hhi⟩)
    · intro x h₁ h₂
      rw [Args.requested, h0, Nat.mul_zero] at h₂
      omega
    · exact hW.allWritten hbs hmax hret hcounts hfull hlo hhi

/-- When the exit code of `WriteIO` is right: the file or the block could not be had; or the function gets through its fill
loop and its division, and a `pwrite` has failed or the blocks are in place. -/
def Args.Truthful (a : Args) (openErrno : Option ℕ) (mem : Option Mem) (calls : List Pwrite) : Prop :=
  openErrno ≠ none ∨ mem = none ∨
    ¬ 2 ^ 32 ∣ a.inp.bytes.length ∧ a.bs ≠ 0 ∧ ((∃ p ∈ calls, p.res < 0) ∨ a.InPlace calls)

theorem Args.truthful_some {a : Args} {heap : Mem} {calls : List Pwrite} : a.Truthful none (some heap) calls ↔
    ¬ 2 ^ 32 ∣ a.inp.bytes.length ∧ a.bs ≠ 0 ∧ ((∃ p ∈ calls, p.res < 0) ∨ a.InPlace calls) := by
  simp only [Args.Truthful, ne_eq, not_true_eq_false, reduceCtorEq, false_or]

theorem Exit.honest_ret {v : ℤ} {done : Prop} : (Exit.ret v).Honest done ↔ (v = 0 → done) := by
  simp [Exit.Honest]

theorem fillData_isSome_iff_of_le {a : Args} (hmax : a.bs ≤ BLOCK_SIZE_MAX) (heap : Mem) :
    (fillData a.inp a.bs heap).isSome = true ↔ ¬ 2 ^ 32 ∣ a.inp.bytes.length := by
  rw [← writeIo_fill_ends_iff_of_lt a.inp ((toNat_le_of_le_max hmax).trans_lt (by decide)) heap, FillLoop.ends_iff_isSome]
  rfl

section Exits

variable {a : Args} {engine : CStr} {openErrno : Option ℕ} {mem : Option Mem} {rs : List Int64} {f : File}

theorem writeIo_ne_pending (hlen : 2 ^ 32 ≤ rs.length) : (writeIo engine a openErrno mem rs f).1 ≠ .pending := by
  unfold writeIo
  fun_cases withBlock
  case case3 heap =>
    split
    · simp
    · split_ifs
      · simp
      · exact writeLoop_ne_pending a _ (n := 0) (by decide) (by omega) _ _
  all_goals simp

/-- Behind the fill loop and the division the exit code is 1 if a call fails. -/
theorem writeIo_exit {heap data : Mem} (hfill : fillData a.inp a.bs heap = some data) (hbs : a.bs ≠ 0)
    (hend : (writeIo engine a none (some heap) rs f).1 ≠ .pending) :
    (writeIo engine a none (some heap) rs f).1 = .ret 0 ∨ (writeIo engine a none (some heap) rs f).1 = .ret 1 ∧
      ∃ p ∈ (writeIo engine a none (some heap) rs f).2.calls, p.res < 0 := by
  simp only [writeIo, withBlock, hfill, if_neg hbs] at hend ⊢
  exact (writeLoop_exit a data rs 0 a.start _).imp_right (·.resolve_left hend)

theorem writeIo_honest_iff (hmax : a.bs ≤ BLOCK_SIZE_MAX) (hend : (writeIo engine a openErrno mem rs f).1 ≠ .pending)
    (hans : ∀ p ∈ (writeIo engine a openErrno mem rs f).2.calls, p.Answered) :
    (writeIo engine a openErrno mem rs f).1.Honest (AllWritten (writeIo engine a openErrno mem rs f).2.calls a.origin
      a.requested) ↔ a.Truthful openErrno mem (writeIo engine a openErrno mem rs f).2.calls := by
  cases openErrno with
  | some e => simp [writeIo, withBlock, Exit.honest_ret, Args.Truthful]
  | none =>
    cases mem with
    | none => simp [writeIo, withBlock, Exit.honest_ret, Args.Truthful]
    | some heap =>
      have hfill := fillData_isSome_iff_of_le hmax heap
      rw [Args.truthful_some, ← hfill]
      cases hdata : fillData a.inp a.bs heap with
      | none =>
        have hhang : (writeIo engine a none (some heap) rs f).1 = .hang := by simp [writeIo, withBlock, hdata]
        simp [hhang, Exit.Honest]
      | some data =>
        by_cases hbs : a.bs = 0
        · have hfpe : (writeIo engine a none (some heap) rs f).1 = .sigfpe := by
            simp only [writeIo, withBlock, hdata, if_pos hbs]
          simp [hfpe, Exit.Honest, hbs]
        · rw [Option.isSome_some, and_iff_right rfl, and_iff_right hbs]
          rcases writeIo_exit hdata hbs hend with h0 | ⟨h1, hneg⟩
          · have hnone : ¬ ∃ p ∈ (writeIo engine a none (some heap) rs f).2.calls, p.res < 0 := by
              rintro ⟨p, hp, hneg⟩
              exact not_neg_of_writeIo h0 p hp hneg
            rw [or_iff_right hnone, h0, Exit.honest_ret, ← writeIo_allWritten_iff hmax h0 hans]
            exact ⟨fun h => h rfl, fun h _ => h⟩
          · rw [h1, Exit.honest_ret]
            exact iff_of_true (by simp) (.inl hneg)

end Exits

/-! ## What the AIO engine has written -/

theorem aio_allWritten {job : Aio.Job} {H : Aio.Pair → Mem → Prop} {f : File} {s : Aio.St}
    (h : Reach (Aio.step job) (Aio.Clean job H) (Aio.St.init job f) s) (hret : s.pc = .ret 0) :
    ∀ p ∈ job.pairs, AllWritten s.sys.calls p.off.toInt p.cnt.toNat := by
  obtain ⟨hfits, -, hcalls⟩ := Aio.return_zero h hret
  rw [← Aio.pairs_of_fits hfits, List.forall_mem_map]
  intro q hq x h₁ h₂
  obtain ⟨p, hp, hoff, hres⟩ := hcalls q hq
  exact ⟨p, hp, by rw [hoff]; exact h₁, by rw [hoff, hres]; exact h₂⟩

/-- The command line `iotool b W A -bs 1 0 1 A`. -/
theorem oneByte_accepted : checkArgs 0 [[], [98], [87], [65], [45, 98, 115], [49], [48], [49], [65]] =
    .ok ⟨1, 0, 1, strncpy [65] 64, strncpy [65] 64⟩ := by decide

end CppNotes.Iotool
