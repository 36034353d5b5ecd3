import CppNotes.Iotool.AioEnds
import CppNotes.Iotool.Main
import CppNotes.Iotool.Sectors
import CppNotes.Iotool.Schedules

/-!
# What commands leave alone

A session is a sequence of runs of the program on the same files.  `Call.Aims` says from the command line which bytes of the
file that it opens a run may change: the range of a byte engine; the range of a sector engine and a buffer behind it, because
the sector engines can pass the end of their range; the pairs of the asynchronous engine; the blocks of `WriteIO`, where its
running offset puts them; and nothing for the commands that read.  `session_keeps_byte`: no run changes any other byte,
whatever the system answers, as long as `pwrite` fails or writes something of what it was asked for.

So what one command has written is what another one reads after any number of commands in between that do not aim at it
(`sector_read_back`).
-/

namespace CppNotes.Iotool

open CppNotes.Lib

/-- A run of the program. -/
structure Call where
  k : Answers
  argv : List CStr

def Call.step (c : Call) (fs : Fs) : Option Fs := (main fs c.k c.argv).map (·.2)

/-- The writes of a run. -/
def Outcome.calls : Outcome → List Pwrite
  | ran _ s => s.calls
  | aio s => s.sys.calls
  | _ => []

/-- The system has answered the writes of the run as it does. -/
def Call.Answered (c : Call) (fs : Fs) : Prop := ∀ r, main fs c.k c.argv = some r → ∀ p ∈ r.1.calls, p.Ok

/-- The running offset of `WriteIO` before turn `n`. -/
def Args.place (a : Args) : ℕ → UInt64
  | 0 => a.start
  | n + 1 => a.place n + a.bs * asSize (Int32.ofNat n)

/-- The byte is in the block of turn `n` of `WriteIO`. -/
def Args.InBlock (a : Args) (x n : ℕ) : Prop := (a.place (n + 1)).toNat ≤ x ∧ x < (a.place (n + 1)).toNat + a.bs.toNat

/-- What a write command aims at: with the numbers `off` and `cnt`. -/
def AimsBytes (off : Int64) (cnt : UInt64) (x : ℕ) : Prop := unat off ≤ x ∧ x < unat off + cnt.toNat

def AimsSects (off : Int64) (cnt : UInt64) (x : ℕ) : Prop :=
  unat (off * SECTOR_SIZE.toInt64) ≤ x ∧
    x < unat (off * SECTOR_SIZE.toInt64) + (SECTOR_SIZE * cnt).toNat + (bufLen (SECTOR_SIZE * cnt)).toNat

/-- The byte is in one of the blocks; a rest without a whole block in front is in the first one. -/
def Args.Aims (a : Args) (x : ℕ) : Prop := ∃ n < max 1 a.whole, a.InBlock x n

/-- The numbers on the command line of a write command meet the condition. -/
def Call.Numbers (c : Call) (P : Int64 → UInt64 → Prop) : Prop :=
  ∃ a₄ a₅ off cnt, c.argv[4]? = some a₄ ∧ c.argv[5]? = some a₅ ∧ wrNumbers a₄ a₅ = .ok (off, cnt) ∧ P off cnt

/-- The bytes of its file that a command may change. -/
def Cmd.Aims (c : Call) (x : ℕ) : Cmd → Prop
  | wrBytesStr | wrBytesChar => c.Numbers fun off cnt => AimsBytes off cnt x
  | wrSectsChar | wrSectsStr => c.Numbers fun off cnt => AimsSects off cnt x
  | aioWrvBytesStr => ∃ p ∈ readPairs c.k.errno (c.argv.drop 4).dropLast, AimsBytes p.off p.cnt x
  | writeIo => ∃ raw a, checkArgs 0 (c.argv.map (·.bytes)) = .ok raw ∧ raw.ReadAs a ∧ a.Aims x
  | readOneSect | readBytes | readOnePage | readPages | readSects | readIo => False

/-- A run may change byte `x` of the file `i`. -/
def Call.Aims (c : Call) (i x : ℕ) : Prop :=
  c.k.ino = i ∧ ∃ name cmd, c.argv[2]? = some name ∧ findEngine name.bytes = some cmd ∧ cmd.Aims c x

/-- Byte `x` of the file; a file that does not exist is as good as empty. -/
def Fs.byte (fs : Fs) (i x : ℕ) : UInt8 := ((fs i).getD .empty).byte x

/-! ## The engines -/

/-- Byte `x` is as in `f`, if the system has answered as it does. -/
def Sys.Keeps (x : ℕ) (f : File) (s : Sys) : Prop := (∀ p ∈ s.calls, p.Ok) → s.file.byte x = f.byte x

variable {x : ℕ} {f : File} {s : Sys}

theorem Sys.Keeps.pwrite (h : s.Keeps x f) (buf : Mem) (count : UInt64) (offset r : Int64)
    (hx : ¬ (unat offset ≤ x ∧ x < unat offset + count.toNat)) : (s.pwrite buf count offset r).Keeps x f := by
  intro hok
  have hs := h fun p hp => hok p (List.mem_append_left _ hp)
  rcases hok ⟨offset, count, r⟩ (List.mem_append_right _ (List.mem_singleton_self _)) with hr | ⟨-, hw⟩
  · rw [pwrite_file_failed hr]
    exact hs
  · have hle : unat r ≤ count.toNat := hw.2
    have hout : ¬ (unat offset ≤ x ∧ x < unat offset + unat r) := by omega
    rw [pwrite_file_wrote hw.unat_pos.2, File.write_byte_of_not_mem hout]
    exact hs

/-- An engine keeps what is in front of its start and what none of its calls can get to. -/
theorem Engine.keeps (e : Engine) (mem : Option Mem) (rs : List Int64) (top : ℕ) (hlo : unat e.start ≤ top)
    (hreq : ∀ w, unat e.start ≤ w → w < e.stop.toNat → w < 2 ^ 63 → w + e.req w ≤ top) (hx : x < unat e.start ∨ top ≤ x) :
    (e.run mem rs f).2.Keeps x f := by
  intro hok
  cases mem with
  | none => rfl
  | some heap =>
    cases hfill : e.fill (bufLen e.dataLen) heap with
    | none => simp [Engine.run, hfill]
    | some buf =>
      obtain ⟨hi, hc, hfile, -⟩ := e.run_chain hfill rs f hok
      have htop : hi ≤ top := hc.le_top hlo fun w h₁ h₂ => hreq w h₁ (by omega) (by omega)
      rw [hfile, File.writes_byte_of_not_mem]
      intro b hb hin
      have := hc.tiles.bounds.2 b hb
      omega

theorem req_le (e : Engine) {w : ℕ} : e.req w ≤ (e.oneWrLen (bufLen e.dataLen) (Int64.ofNat w)).toNat := by
  rw [Engine.req, request, unat_toInt64]
  exact min_le_left _ _

/-- What is left of a range whose end does not wrap around. -/
theorem toNat_left {d : UInt64} {u : Int64} {w : ℕ} (hw : w < (d + u.toUInt64).toNat) :
    (d + u.toUInt64 - (Int64.ofNat w).toUInt64).toNat = (d + u.toUInt64).toNat - w := by
  have hlt := (d + u.toUInt64).toNat_lt
  have hw' : (Int64.ofNat w).toUInt64.toNat = w := unat_ofNat (by omega)
  rw [UInt64.toNat_sub_of_le _ _ (by rw [UInt64.le_iff_toNat_le, hw']; omega), hw']

theorem toNat_stop_le (d : UInt64) (u : Int64) : (d + u.toUInt64).toNat ≤ unat u + d.toNat := by
  rw [UInt64.toNat_add, Nat.add_comm]
  exact Nat.mod_le _ _

theorem keeps_bytes (e : Engine) {off : Int64} {cnt : UInt64} (hstart : e.start = off) (hstop : e.stop = cnt + off.toUInt64)
    (hone : e.oneWrLen = bytesLen cnt off) (mem : Option Mem) (rs : List Int64) (hx : ¬ AimsBytes off cnt x) :
    (e.run mem rs f).2.Keeps x f := by
  refine e.keeps mem rs (unat off + cnt.toNat) (by rw [hstart]; omega) ?_ ?_
  · intro w _ hw _
    rw [hstop] at hw
    have hstop' := toNat_stop_le cnt off
    have hlen : (bytesLen cnt off (bufLen e.dataLen) (Int64.ofNat w)).toNat ≤ (cnt + off.toUInt64).toNat - w := by
      rw [← toNat_left hw, bytesLen]
      split
      · rename_i hgt
        exact (UInt64.lt_iff_toNat_lt.mp hgt).le
      · exact le_rfl
    have := req_le e (w := w)
    rw [hone] at this
    omega
  · unfold AimsBytes at hx
    rw [hstart]
    omega

theorem keeps_sects (e : Engine) {off : Int64} {cnt : UInt64} (hdata : e.dataLen = SECTOR_SIZE * cnt)
    (hstart : e.start = off * SECTOR_SIZE.toInt64)
    (hstop : e.stop = SECTOR_SIZE * cnt + (off * SECTOR_SIZE.toInt64).toUInt64)
    (hone : e.oneWrLen = sectsLen (SECTOR_SIZE * cnt) off) (mem : Option Mem) (rs : List Int64)
    (hx : ¬ AimsSects off cnt x) : (e.run mem rs f).2.Keeps x f := by
  refine e.keeps mem rs (unat (off * SECTOR_SIZE.toInt64) + (SECTOR_SIZE * cnt).toNat +
    (bufLen (SECTOR_SIZE * cnt)).toNat) (by rw [hstart]; omega) ?_ ?_
  · intro w _ hw _
    rw [hstop] at hw
    have hstop' := toNat_stop_le (SECTOR_SIZE * cnt) (off * SECTOR_SIZE.toInt64)
    have hlen : (sectsLen (SECTOR_SIZE * cnt) off (bufLen e.dataLen) (Int64.ofNat w)).toNat ≤
        max (bufLen (SECTOR_SIZE * cnt)).toNat ((SECTOR_SIZE * cnt + (off * SECTOR_SIZE.toInt64).toUInt64).toNat - w) := by
      rw [← toNat_left hw, sectsLen, hdata]
      split
      · exact le_max_left _ _
      · exact le_max_right _ _
    have := req_le e (w := w)
    rw [hone] at this
    omega
  · unfold AimsSects at hx
    rw [hstart]
    omega

/-! ## `WriteIO` -/

section Blocks

variable {a : Args}

theorem writeTail_keeps {n : ℕ} (hx : ¬ a.InBlock x (n - 1)) (data : Mem) (rs : List Int64) (h : s.Keeps x f)
    (hbs : a.bs ≠ 0) : (writeTail a data rs (a.place n) s).2.Keeps x f := by
  -- the first turn does not move the offset
  have hplace : a.place (n - 1 + 1) = a.place n := by
    cases n with
    | zero =>
      show a.start + a.bs * 0 = a.start
      simp
    | succ n => rfl
  rw [Args.InBlock, hplace] at hx
  have hlt : (a.dataLen % a.bs).toNat < a.bs.toNat := by
    rw [UInt64.toNat_mod]
    exact Nat.mod_lt _ (toNat_pos_of_ne hbs)
  unfold writeTail
  dsimp only
  split
  · cases rs with
    | nil => exact h
    | cons r rs =>
      have hp := h.pwrite data (a.dataLen % a.bs) (a.place n).toInt64 r (by rw [unat_toInt64]; omega)
      dsimp only
      split
      · exact hp
      · exact hp
  · exact h

theorem writeLoop_keeps (hx : ∀ n < max 1 a.whole, ¬ a.InBlock x n) (hbs : a.bs ≠ 0) (data : Mem) (rs : List Int64) (n : ℕ)
    (hn : n < 2 ^ 32) (hle : n ≤ a.whole) (h : s.Keeps x f) :
    (writeLoop a data rs (Int32.ofNat n) (a.place n) s).2.Keeps x f := by
  induction rs generalizing n s with
  | nil =>
    unfold writeLoop
    split
    · exact h
    · exact writeTail_keeps (hx _ (by omega)) data [] h hbs
  | cons r rs ih =>
    unfold writeLoop
    split
    · rename_i hi
      obtain ⟨hn', hlt, -⟩ := turn_bound hn hi
      have hp := h.pwrite data a.bs (a.place (n + 1)).toInt64 r (by rw [unat_toInt64]; exact hx n (by omega))
      dsimp only
      split
      · exact hp
      · rw [ofNat_add_one]
        exact ih (n + 1) hn' hlt hp
    · exact writeTail_keeps (hx _ (by omega)) data (r :: rs) h hbs

theorem writeIo_keeps (engine : CStr) (hx : ¬ a.Aims x) (errno : Option ℕ) (mem : Option Mem) (rs : List Int64) :
    (writeIo engine a errno mem rs f).2.Keeps x f := by
  unfold writeIo withBlock
  cases errno with
  | some e => exact fun _ => rfl
  | none =>
    cases mem with
    | none => exact fun _ => rfl
    | some heap =>
      dsimp only
      split
      · exact fun _ => rfl
      · split
        · exact fun _ => rfl
        · rename_i data _ hbs
          exact writeLoop_keeps (fun n hn hin => hx ⟨n, hn, hin⟩) hbs data rs 0 (by decide) (Nat.zero_le _) fun _ => rfl

end Blocks

/-! ## The asynchronous engine -/

section Aio

open Aio

variable {job : Job}

theorem keeps_move {s s' : Aio.St} {a : Act} (hx : ∀ p ∈ job.pairs, ¬ AimsBytes p.off p.cnt x) (hl : Ledger job s)
    (h : s.sys.Keeps x f) (hm : Moves job s a s') : s'.sys.Keeps x f := by
  cases hm with
  | next | fail | noBuf | hang | submit | reap => exact h
  | prep =>
    unfold St.prep
    dsimp only
    split <;> exact h
  | complete hq => exact h.pwrite _ _ _ _ (hx _ (hl.flight _ (List.mem_of_getElem? hq)))

/-- A pair that cannot be read aims at nothing. -/
theorem aims_aioJob {iocbCnt : ℕ} {pairs : List Pair} {str : CStr} (hx : ∀ p ∈ pairs, ¬ AimsBytes p.off p.cnt x) :
    ∀ p ∈ (aioJob iocbCnt pairs str).pairs, ¬ AimsBytes p.off p.cnt x := by
  intro p hp
  rcases List.mem_append.mp hp with hp | hp
  · exact hx p hp
  · rw [List.eq_of_mem_replicate hp]
    rintro ⟨hlo, hhi⟩
    exact absurd (hlo.trans_lt hhi) (by decide)

/-- **The asynchronous engine changes no byte outside its pairs**, in whatever order its requests complete. -/
theorem aioRan_keeps {iocbCnt : ℕ} {pairs : List Pair} {str : CStr} {k : Answers} {o : Outcome} {f' : File}
    (hcnt : 0 < iocbCnt) (hx : ∀ p ∈ pairs, ¬ AimsBytes p.off p.cnt x) (h : aioRan iocbCnt pairs str k f = some (o, f'))
    (hok : ∀ p ∈ o.calls, p.Ok) : f'.byte x = f.byte x := by
  obtain ⟨s, hs, heq⟩ := Option.map_eq_some_iff.mp h
  obtain ⟨rfl, rfl⟩ := Prod.mk.inj heq
  have hne : (aioJob iocbCnt pairs str).pairs ≠ [] := by
    rw [← List.length_pos_iff]
    simp only [aioJob, List.length_append, List.length_replicate]
    omega
  have hpc : (St.init (aioJob iocbCnt pairs str) f).pc = .openFile := if_neg hne
  have hl₀ := (ledger_init (aioJob iocbCnt pairs str) f).next (r := 0) (p := .setup) (hpc ▸ .opened le_rfl)
  obtain ⟨hl, hkeeps⟩ := (Reach.init.runs hs).invariant (fun s => Ledger (aioJob iocbCnt pairs str) s ∧ s.sys.Keeps x f)
    ⟨hl₀, fun _ => rfl⟩ fun _ _ _ _ hI _ hstep =>
      ⟨hI.1.move (moves_of_step hstep), keeps_move (aims_aioJob hx) hI.1 hI.2 (moves_of_step hstep)⟩
  refine hkeeps fun p hp => ?_
  split at hok
  · -- nothing was submitted when the engine aborts
    rename_i hat
    have hpc : s.pc = .newIocb := by simp_all [St.atPair]
    rw [(hl.unsent (by rw [hpc]; rfl)).2.2.2] at hp
    exact absurd hp List.not_mem_nil
  · exact hok p hp

end Aio

/-! ## Reading -/

theorem readSects_file (sectOff : Int64) (sectCnt : UInt64) (buf : Mem) (rs : List Int64) (i : UInt64) (s : Sys) :
    (readSects sectOff sectCnt buf rs i s).2.file = s.file := by
  induction rs generalizing buf i s with
  | nil =>
    unfold readSects
    split <;> rfl
  | cons r rs ih =>
    unfold readSects
    split
    · dsimp only
      split
      · rfl
      · rw [ih]
        rfl
    · rfl

theorem dumpPage_file (s : Sys) (buf : Mem) (offset : Int64) : (s.dumpPage buf offset).file = s.file :=
  List.foldlRecOn (List.range 8) _ (motive := fun s' : Sys => s'.file = s.file) rfl fun _ h _ _ => h

theorem doReadOnePage_file (pageOff : Int64) (mem : Option Mem) (rs : List Int64) (s : Sys) :
    (doReadOnePage pageOff mem rs s).2.file = s.file := by
  cases mem with
  | none => rfl
  | some buf =>
    cases rs with
    | nil => rfl
    | cons pos rs =>
      unfold doReadOnePage
      dsimp only
      split
      · rfl
      · cases rs with
        | nil => rfl
        | cons r rs =>
          dsimp only
          split
          · rfl
          · exact dumpPage_file _ _ _

theorem doReadPages_file (pageOff pageCnt : Int64) (answers : List (Option Mem × Int64 × Int64)) (i : Int32) (s : Sys) :
    (doReadPages pageOff pageCnt i s answers).file = s.file := by
  induction answers generalizing i s with
  | nil => rfl
  | cons q answers ih =>
    unfold doReadPages
    split
    · exact (ih _ _).trans (doReadOnePage_file _ _ _ _)
    · rfl

theorem readLoop_file (a : Args) (data : Mem) (rs : List Int64) (i : Int32) (s : Sys) :
    (readLoop a data rs i s).2.file = s.file := by
  have htail : ∀ data rs i s, (readTail a data rs i s).2.file = s.file := by
    intro data rs i s
    unfold readTail
    dsimp only
    split
    · cases rs with
      | nil => rfl
      | cons r rs =>
        dsimp only
        split
        · rfl
        · exact prtSectData_file _ _ _
    · rfl
  induction rs generalizing data i s with
  | nil =>
    unfold readLoop
    split
    · rfl
    · exact htail _ _ _ _
  | cons r rs ih =>
    unfold readLoop
    split
    · dsimp only
      split
      · rfl
      · rw [ih, prtSectData_file]
        rfl
    · exact htail _ _ _ _

theorem readIo_file (engine : CStr) (a : Args) (errno : Option ℕ) (mem : Option Mem) (rs : List Int64) (f : File) :
    (readIo engine a errno mem rs f).2.file = f := by
  unfold readIo withBlock
  cases errno with
  | some e => rfl
  | none =>
    cases mem with
    | none => rfl
    | some heap =>
      dsimp only
      split
      · rfl
      · rw [readLoop_file]
        rfl

/-! ## Commands -/

section Commands

variable {fs fs' : Fs} {k : Answers} {o : Outcome} {q : ℕ}

/-- Only the file that is opened changes, and of it only what the body changes. -/
theorem withFile_keeps {cmdOpt path : CStr} {body : File → Option (Outcome × File)}
    (h : withFile fs k cmdOpt path body = some (o, fs'))
    (hbody : k.ino = q → ∀ f f', body f = some (o, f') → f'.byte x = f.byte x) : fs'.byte q x = fs.byte q x := by
  unfold withFile at h
  dsimp only at h
  split at h
  · obtain ⟨-, rfl⟩ := Prod.mk.inj (Option.some.inj h)
    rfl
  · obtain ⟨⟨o', f'⟩, hf', heq⟩ := Option.map_eq_some_iff.mp h
    obtain ⟨rfl, rfl⟩ := Prod.mk.inj heq
    by_cases hq : k.ino = q
    · subst hq
      simpa [Fs.byte] using hbody rfl _ _ hf'
    · simp [Fs.byte, Function.update_of_ne (Ne.symm hq)]

theorem engineRan_keeps {r : Exit × Sys} {f' : File} (h : engineRan r = some (o, f')) (hr : r.2.Keeps x f)
    (hok : ∀ p ∈ o.calls, p.Ok) : f'.byte x = f.byte x := by
  obtain ⟨rfl, rfl⟩ := Prod.mk.inj (Option.some.inj h)
  exact hr hok

theorem keeps_of_file {s : Sys} (h : s.file = f) : s.Keeps x f := fun _ => by rw [h]

/-- A write command: the numbers and the path are those of its command line. -/
theorem doWr_keeps {engine : Int64 → UInt64 → CStr → Engine} {P : Int64 → UInt64 → Prop} {c : Call}
    (hengine : ∀ off cnt str f, ¬ P off cnt → ((engine off cnt str).run c.k.mem c.k.rs f).2.Keeps x f)
    (h : doWr engine fs c.k c.argv = some (o, fs')) (hok : ∀ p ∈ o.calls, p.Ok)
    (haims : c.k.ino = q → ¬ c.Numbers P) : fs'.byte q x = fs.byte q x := by
  unfold doWr at h
  split at h
  · rename_i a₀ cmdOpt a₂ path a₄ a₅ str rest hargv
    split at h
    · obtain ⟨-, rfl⟩ := Prod.mk.inj (Option.some.inj h)
      rfl
    · rename_i off cnt hnum
      refine withFile_keeps h fun hq f f' hf => engineRan_keeps hf (hengine off cnt str f ?_) hok
      intro hP
      refine haims hq ⟨a₄, a₅, off, cnt, ?_, ?_, hnum, hP⟩
      · rw [hargv]
        rfl
      · rw [hargv]
        rfl
  · obtain ⟨-, rfl⟩ := Prod.mk.inj (Option.some.inj h)
    rfl

theorem doRead_keeps {engine : Int64 → UInt64 → Sys → Exit × Sys} (hengine : ∀ off cnt s, (engine off cnt s).2.file = s.file)
    {argv : List CStr} (h : doRead engine fs k argv = some (o, fs')) (hok : ∀ p ∈ o.calls, p.Ok) :
    fs'.byte q x = fs.byte q x := by
  unfold doRead at h
  split at h
  · split at h
    · obtain ⟨-, rfl⟩ := Prod.mk.inj (Option.some.inj h)
      rfl
    · exact withFile_keeps h fun _ f f' hf => engineRan_keeps hf (keeps_of_file (hengine _ _ _)) hok
  · obtain ⟨-, rfl⟩ := Prod.mk.inj (Option.some.inj h)
    rfl

theorem doReadOne_keeps {engine : Int64 → Sys → Exit × Sys} (hengine : ∀ off s, (engine off s).2.file = s.file)
    {argv : List CStr} (h : doReadOne engine fs k argv = some (o, fs')) (hok : ∀ p ∈ o.calls, p.Ok) :
    fs'.byte q x = fs.byte q x := by
  unfold doReadOne at h
  split at h
  · split at h
    · obtain ⟨-, rfl⟩ := Prod.mk.inj (Option.some.inj h)
      rfl
    · exact withFile_keeps h fun _ f f' hf => engineRan_keeps hf (keeps_of_file (hengine _ _)) hok
  · obtain ⟨-, rfl⟩ := Prod.mk.inj (Option.some.inj h)
    rfl

theorem cmdReadPages_keeps {argv : List CStr} (h : cmdReadPages fs k argv = some (o, fs')) (hok : ∀ p ∈ o.calls, p.Ok) :
    fs'.byte q x = fs.byte q x := by
  unfold cmdReadPages at h
  split at h
  · split at h
    · obtain ⟨-, rfl⟩ := Prod.mk.inj (Option.some.inj h)
      rfl
    · split at h
      · obtain ⟨-, rfl⟩ := Prod.mk.inj (Option.some.inj h)
        rfl
      · exact withFile_keeps h fun _ f f' hf => engineRan_keeps hf (keeps_of_file (doReadPages_file _ _ _ _ _)) hok
  · obtain ⟨-, rfl⟩ := Prod.mk.inj (Option.some.inj h)
    rfl

theorem cmdAio_keeps {c : Call} (h : cmdAioWrvBytesStr fs c.k c.argv = some (o, fs')) (hok : ∀ p ∈ o.calls, p.Ok)
    (haims : c.k.ino = q → ¬ Cmd.aioWrvBytesStr.Aims c x) : fs'.byte q x = fs.byte q x := by
  unfold cmdAioWrvBytesStr at h
  split at h
  · rename_i a₀ cmdOpt a₂ path a₄ a₅ a₆ args hargv
    split at h
    · obtain ⟨-, rfl⟩ := Prod.mk.inj (Option.some.inj h)
      rfl
    · refine withFile_keeps h fun hq f f' hf => aioRan_keeps ?_ (fun p hp hin => haims hq ⟨p, ?_, hin⟩) hf hok
      · rw [hargv]
        simp only [List.length_cons]
        omega
      · rw [hargv]
        exact hp
  · obtain ⟨-, rfl⟩ := Prod.mk.inj (Option.some.inj h)
    rfl

theorem doBlocks_keeps {io : CStr → Args → Option ℕ → Option Mem → List Int64 → File → Exit × Sys} {P : Args → Prop} {c : Call}
    (hio : ∀ engine a mem rs f, ¬ P a → (io engine a none mem rs f).2.Keeps x f) (h : doBlocks io fs c.k c.argv = some (o, fs'))
    (hok : ∀ p ∈ o.calls, p.Ok)
    (haims : c.k.ino = q → ∀ raw a, checkArgs 0 (c.argv.map (·.bytes)) = .ok raw → raw.ReadAs a → ¬ P a) :
    fs'.byte q x = fs.byte q x := by
  unfold doBlocks at h
  split at h
  · split at h
    · obtain ⟨-, rfl⟩ := Prod.mk.inj (Option.some.inj h)
      rfl
    · obtain ⟨-, rfl⟩ := Prod.mk.inj (Option.some.inj h)
      rfl
    · rename_i raw hraw
      split at h
      · simp at h
      · rename_i a ha
        split at h
        · obtain ⟨-, rfl⟩ := Prod.mk.inj (Option.some.inj h)
          rfl
        · refine withFile_keeps h fun hq f f' hf => engineRan_keeps hf (hio _ a _ _ f ?_) hok
          exact haims hq raw a hraw (RawArgs.readAs_of_args ha)
  · obtain ⟨-, rfl⟩ := Prod.mk.inj (Option.some.inj h)
    rfl

/-- **A command changes no byte that it does not aim at.** -/
theorem Cmd.run_keeps {c : Call} {cmd : Cmd} (h : cmd.run fs c.k c.argv = some (o, fs')) (hok : ∀ p ∈ o.calls, p.Ok)
    (haims : c.k.ino = q → ¬ cmd.Aims c x) : fs'.byte q x = fs.byte q x := by
  cases cmd with
  | wrBytesStr => exact doWr_keeps (fun off cnt str f => keeps_bytes (doWrBytesStr off cnt str) rfl rfl rfl _ _) h hok haims
  | wrBytesChar =>
    exact doWr_keeps (fun off cnt str f => keeps_bytes (doWrBytesChar off cnt str.first) rfl rfl rfl _ _) h hok haims
  | wrSectsChar =>
    exact doWr_keeps (fun off cnt str f => keeps_sects (doWrSectsChar off cnt str.first) rfl rfl rfl rfl _ _) h hok haims
  | wrSectsStr => exact doWr_keeps (fun off cnt str f => keeps_sects (doWrSectsStr off cnt str) rfl rfl rfl rfl _ _) h hok haims
  | aioWrvBytesStr => exact cmdAio_keeps h hok haims
  | writeIo =>
    refine doBlocks_keeps (fun engine a mem rs f ha => writeIo_keeps engine ha none mem rs) h hok ?_
    intro hq raw a hraw ha hin
    exact haims hq ⟨raw, a, hraw, ha, hin⟩
  | readIo =>
    exact doBlocks_keeps (P := fun _ => False) (fun engine a mem rs f _ => keeps_of_file (readIo_file _ _ _ _ _ _)) h hok
      (by simp)
  | readPages => exact cmdReadPages_keeps h hok
  | readSects =>
    refine doRead_keeps (fun off cnt s => ?_) h hok
    unfold doReadSects
    split
    · rfl
    · exact readSects_file _ _ _ _ _ _
  | readBytes =>
    rw [Cmd.run, cmdReadBytes] at h
    refine doRead_keeps (fun off cnt s => ?_) h hok
    unfold doReadBytes
    dsimp only
    split
    · rfl
    · rfl
    · split
      · rfl
      · rfl
  | readOneSect =>
    refine doReadOne_keeps (fun off s => ?_) h hok
    unfold doReadOneSect
    split
    · rfl
    · rfl
    · dsimp only
      split
      · rfl
      · rfl
  | readOnePage => exact doReadOne_keeps (fun off s => doReadOnePage_file _ _ _ _) h hok

end Commands

/-- A step of a session. -/
theorem step_keeps_byte {fs fs' : Fs} {c : Call} {i : ℕ} (h : c.step fs = some fs') (hok : c.Answered fs)
    (haims : ¬ c.Aims i x) : fs'.byte i x = fs.byte i x := by
  obtain ⟨⟨o, fs''⟩, hmain, rfl⟩ := Option.map_eq_some_iff.mp h
  have hok := hok _ hmain
  unfold main at hmain
  split at hmain
  · rename_i a₀ a₁ name rest hargv
    split at hmain
    · obtain ⟨-, rfl⟩ := Prod.mk.inj (Option.some.inj hmain)
      rfl
    · rename_i cmd hcmd
      refine Cmd.run_keeps hmain hok fun hq hin => haims ⟨hq, name, cmd, ?_, hcmd, hin⟩
      rw [hargv]
      rfl
  · obtain ⟨-, rfl⟩ := Prod.mk.inj (Option.some.inj hmain)
    rfl

/-- **A session changes no byte that none of its commands aims at.** -/
theorem session_keeps_byte {fs fs' : Fs} {i : ℕ}
    (h : Reach (fun fs (c : Call) => c.step fs) (fun fs c => c.Answered fs ∧ ¬ c.Aims i x) fs fs') :
    fs'.byte i x = fs.byte i x :=
  h.invariant (fun fs' => fs'.byte i x = fs.byte i x) rfl fun _ _ _ _ hI hok hs =>
    (step_keeps_byte hs hok.1 hok.2).trans hI

/-- `iotool b wrbyteschar f 512 2 A`, where `f` is file 5 -/
theorem byte_in_front_kept : ∃ (c : Call) (fs fs' : Fs), c.step fs = some fs' ∧ (fs' 5).map File.size = some 514 ∧
    fs'.byte 5 0 = fs.byte 5 0 := by
  let c : Call := ⟨⟨3, 5, 0, some fun _ => 0, [2], [], [], [], 0⟩,
    [letterA, ⟨[98], by decide, by decide⟩,
      ⟨[119, 114, 98, 121, 116, 101, 115, 99, 104, 97, 114], by decide, by decide⟩,
      ⟨[102], by decide, by decide⟩, ⟨[53, 49, 50], by decide, by decide⟩, ⟨[50], by decide, by decide⟩, letterA]⟩
  let fs : Fs := fun _ => none
  obtain ⟨⟨o, fs'⟩, hmain, htest⟩ := Option.map_eq_some_iff.mp
    (show (main fs c.k c.argv).map (fun r => decide ((∀ p ∈ r.1.calls, p.Ok) ∧ (r.2 5).map File.size = some 514)) = some true
      by decide)
  obtain ⟨hok, hsize⟩ := of_decide_eq_true htest
  have hstep : c.step fs = some fs' := by rw [Call.step, hmain]; rfl
  refine ⟨c, fs, fs', hstep, hsize, session_keeps_byte (.next .init ⟨?_, ?_⟩ hstep)⟩
  · intro r hr
    rw [hmain] at hr
    exact Option.some.inj hr ▸ hok
  · rintro ⟨-, name, cmd, hname, hcmd, hin⟩
    obtain rfl := Option.some.inj hname
    obtain rfl := Option.some.inj ((show findEngine _ = some Cmd.wrBytesChar by decide).symm.trans hcmd)
    obtain ⟨a₄, a₅, off, cnt, h₄, h₅, hnum, haim⟩ := hin
    obtain rfl := Option.some.inj h₄
    obtain rfl := Option.some.inj h₅
    obtain ⟨rfl, rfl⟩ := Prod.mk.inj (Except.ok.inj ((show wrNumbers _ _ = .ok (512, 2) by decide).symm.trans hnum))
    exact absurd haim.1 (by decide)

/-! ## Reading what was written -/

/-- The state in which an engine has returned 0. -/
def Outcome.done : Outcome → Option Sys
  | ran e s => if e = .ret 0 then some s else none
  | _ => none

/-- The command line is that of `wrbyteschar`, and `open` finds the file `i`. -/
def Call.WritesChar (w : Call) (i : ℕ) (off : Int64) (cnt : UInt64) (c : UInt8) : Prop :=
  w.k.ino = i ∧ ∃ a₀ cmdOpt name p a₄ a₅ str more, w.argv = a₀ :: cmdOpt :: name :: p :: a₄ :: a₅ :: str :: more ∧
    findEngine name.bytes = some .wrBytesChar ∧ wrNumbers a₄ a₅ = .ok (off, cnt) ∧ str.first = c

/-- The command line is that of `rdonesect`, and `open` finds the file `i`. -/
def Call.ReadsSect (r : Call) (i : ℕ) (sect : Int64) : Prop :=
  r.k.ino = i ∧ ∃ b₀ cmdOpt name p b₄ more e, r.argv = b₀ :: cmdOpt :: name :: p :: b₄ :: more ∧
    findEngine name.bytes = some .readOneSect ∧ mystrtoll 0 b₄.bytes = .ok (sect, e)

section ReadBack

variable {fs fs' : Fs} {k : Answers} {o : Outcome} {s : Sys}

/-- A run whose engine has returned has opened its file. -/
theorem withFile_done {cmdOpt path : CStr} {run : File → Exit × Sys}
    (h : withFile fs k cmdOpt path (fun f => engineRan (run f)) = some (o, fs')) (hd : o.done = some s) :
    (run ((fs k.ino).getD .empty)).1 = .ret 0 ∧ (run ((fs k.ino).getD .empty)).2 = s ∧
      o.calls = s.calls ∧ ∀ x, fs'.byte k.ino x = s.file.byte x := by
  unfold withFile at h
  dsimp only at h
  split at h
  · obtain ⟨rfl, -⟩ := Prod.mk.inj (Option.some.inj h)
    simp [Outcome.done] at hd
  · obtain ⟨rfl, rfl⟩ := Prod.mk.inj (Option.some.inj h)
    obtain ⟨h0, hs⟩ := Option.ite_none_right_eq_some.mp hd
    obtain rfl := Option.some.inj hs
    exact ⟨h0, rfl, rfl, fun x => by simp [Fs.byte]⟩

theorem written_char {w : Call} {i : ℕ} {off : Int64} {cnt : UInt64} {c : UInt8} (hw : w.WritesChar i off cnt c)
    (h : main fs w.k w.argv = some (o, fs')) (hd : o.done = some s) (hans : w.Answered fs) (hoff : 0 ≤ off)
    (hlt : off.toInt + cnt.toNat < 2 ^ 63) {x : ℕ} (hlo : unat off ≤ x) (hhi : x < unat off + cnt.toNat) :
    fs'.byte i x = c := by
  have hok := hans _ h
  obtain ⟨rfl, a₀, cmdOpt, name, p, a₄, a₅, str, more, hargv, hname, hnum, rfl⟩ := hw
  rw [hargv] at h
  simp only [main, hname, Cmd.run, cmdWrBytesChar, doWr, hnum] at h
  obtain ⟨h0, hs, hcalls, hbyte⟩ := withFile_done h hd
  rw [hbyte]
  cases hm : w.k.mem with
  | none => simp [hm, Engine.run] at h0
  | some heap =>
    rw [hm] at h0 hs
    have htight := bytes_tight (e := doWrBytesChar off cnt str.first) hoff hlt rfl rfl rfl rfl
    have hans' : ∀ q ∈ ((doWrBytesChar off cnt str.first).run (some heap) w.k.rs ((fs w.k.ino).getD .empty)).2.calls,
        q.FailedOrWrote := by
      intro q hq
      rw [hs, ← hcalls] at hq
      exact (hok q hq).imp id And.right
    have hbuf : ∀ i < (bufLen cnt).toNat, memset heap str.first (bufLen cnt) i = str.first := fun i hi => if_pos hi
    obtain ⟨n, -, hfile, hn⟩ := htight.fills rfl hbuf hans'
    have hstop : (cnt + off.toUInt64).toNat = unat off + cnt.toNat := (stop_toNat hoff hlt).1
    have hn : n = cnt.toNat := by
      rw [hn h0]
      show (cnt + off.toUInt64).toNat - unat off = _
      omega
    rw [← hs, hfile, hn]
    exact File.write_byte_of_mem hlo hhi

theorem read_getD {f : File} {off n i : ℕ} {b : UInt8} (hi : i < (f.read off n).length) :
    (f.read off n).getD i b = f.byte (off + i) := by
  rw [List.getD_eq_getElem _ _ hi]
  simp [File.read]

theorem map_range_const {n : ℕ} {g : ℕ → UInt8} {c : UInt8} (h : ∀ i < n, g i = c) :
    (List.range n).map g = List.replicate n c := by
  have := List.map_eq_replicate_iff.mpr fun i hi => h i (List.mem_range.mp hi)
  rwa [List.length_range] at this

/-- A full read of a sector that holds one byte only. -/
theorem read_sect {r : Call} {i : ℕ} {sect : Int64} (hr : r.ReadsSect i sect)
    (h : main fs r.k r.argv = some (o, fs')) (hd : o.done = some s) (hfull : ∀ p ∈ s.reads, p.Full) {c : UInt8}
    (hc : ∀ n < 512, fs.byte i (unat (sect * SECTOR_SIZE.toInt64) + n) = c) :
    s.out = [.sectData (List.replicate 512 c) (sect * SECTOR_SIZE.toInt64).toUInt64.toUInt32] := by
  obtain ⟨rfl, b₀, cmdOpt, name, p, b₄, more, e, hargv, hname, hnum⟩ := hr
  rw [hargv] at h
  simp only [main, hname, Cmd.run, cmdReadOneSect, doReadOne, hnum] at h
  obtain ⟨h0, hs, -, -⟩ := withFile_done h hd
  cases hm : r.k.mem with
  | none => simp [hm, doReadOneSect] at h0
  | some buf =>
    cases hrs : r.k.rs with
    | nil => simp [hm, hrs, doReadOneSect] at h0
    | cons res rs =>
      rw [hm, hrs] at h0 hs
      simp only [doReadOneSect] at h0 hs
      split at h0
      · simp at h0
      · rename_i hres
        rw [if_neg hres] at hs
        subst hs
        obtain ⟨-, hlen⟩ := hfull _ (pread_mem buf)
        have h512 : SECTOR_SIZE.toUInt32.toNat = 512 ∧ SECTOR_SIZE.toNat = 512 := ⟨rfl, rfl⟩
        rw [Sys.dump, Sys.print, h512.1, map_range_const fun i hi => ?_]
        · rfl
        · rw [pread_buf, Sys.got, read_getD (by rw [h512.2] at hlen; exact hi.trans_eq hlen.symm)]
          exact hc i hi

/-- **What `wrbyteschar` has written `rdonesect` shows**, after any commands in between that do not aim at the sector. -/
theorem sector_read_back {fs₁ fs₂ fs₃ : Fs} {w r : Call} {o' : Outcome} {s' : Sys} {i : ℕ} {off sect : Int64}
    {cnt : UInt64} {c : UInt8} (hw : w.WritesChar i off cnt c) (hmain : main fs w.k w.argv = some (o, fs₁))
    (hdone : o.done = some s) (hans : w.Answered fs) (hoff : 0 ≤ off) (hlt : off.toInt + cnt.toNat < 2 ^ 63)
    (hlo : off.toInt ≤ 512 * sect.toInt) (hhi : 512 * sect.toInt + 512 ≤ off.toInt + cnt.toNat)
    (hses : Reach (fun fs (c : Call) => c.step fs) (fun fs c => c.Answered fs ∧
      ∀ x : ℕ, 512 * sect.toInt ≤ x → x < 512 * sect.toInt + 512 → ¬ c.Aims i x) fs₁ fs₂)
    (hr : r.ReadsSect i sect) (hmain' : main fs₂ r.k r.argv = some (o', fs₃)) (hdone' : o'.done = some s')
    (hfull : ∀ p ∈ s'.reads, p.Full) :
    s'.out = [.sectData (List.replicate 512 c) (sect * SECTOR_SIZE.toInt64).toUInt64.toUInt32] := by
  have hoff' : off.toInt = unat off := toInt_eq_unat hoff
  have hpos : (unat (sect * SECTOR_SIZE.toInt64) : ℤ) = 512 * sect.toInt := by
    have h512 : unat SECTOR_SIZE.toInt64 = 512 := rfl
    have hcases := unat_cases sect
    rw [unat_mul, h512]
    omega
  have hkeep : ∀ x : ℕ, 512 * sect.toInt ≤ x → x < 512 * sect.toInt + 512 → fs₂.byte i x = c := by
    refine hses.invariant (fun fs₂ => ∀ x : ℕ, 512 * sect.toInt ≤ x → x < 512 * sect.toInt + 512 → fs₂.byte i x = c) ?_ ?_
    · intro x h₁ h₂
      exact written_char hw hmain hdone hans hoff hlt (by omega) (by omega)
    · intro fs fs' d _ hI hd hs x h₁ h₂
      exact (step_keeps_byte hs hd.1 (hd.2 x h₁ h₂)).trans (hI x h₁ h₂)
  exact read_sect hr hmain' hdone' hfull fun i hi => hkeep _ (by omega) (by omega)

/-- `iotool b wrbyteschar f 0 512 A` and `iotool b rdonesect f 0`, where `f` is file 5 -/
theorem letter_read_back : ∃ (w r : Call) (fs fs₁ fs₂ : Fs) (o o' : Outcome) (s : Sys), main fs w.k w.argv = some (o, fs₁) ∧
    main fs₁ r.k r.argv = some (o', fs₂) ∧ o'.done = some s ∧ s.out = [.sectData (List.replicate 512 65) 0] := by
  let k : Answers := ⟨3, 5, 0, some fun _ => 0, [512], [], [], [], 0⟩
  let w : Call := ⟨k, [letterA, ⟨[98], by decide, by decide⟩,
    ⟨[119, 114, 98, 121, 116, 101, 115, 99, 104, 97, 114], by decide, by decide⟩,
    ⟨[102], by decide, by decide⟩, ⟨[48], by decide, by decide⟩, ⟨[53, 49, 50], by decide, by decide⟩, letterA]⟩
  let r : Call := ⟨k, [letterA, ⟨[98], by decide, by decide⟩,
    ⟨[114, 100, 111, 110, 101, 115, 101, 99, 116], by decide, by decide⟩, ⟨[102], by decide, by decide⟩,
    ⟨[48], by decide, by decide⟩]⟩
  let fs : Fs := fun _ => none
  obtain ⟨⟨o, fs₁⟩, hmain, htest⟩ := Option.map_eq_some_iff.mp
    (show (main fs w.k w.argv).map (fun q => decide ((∀ p ∈ q.1.calls, p.Ok) ∧ q.1.done.isSome = true ∧
      (((main q.2 r.k r.argv).bind fun q' => q'.1.done).map fun s => decide (∀ p ∈ s.reads, p.Full)) = some true)) = some true
      by decide +kernel)
  obtain ⟨hok, hdone, hread⟩ := of_decide_eq_true htest
  obtain ⟨s, hs⟩ := Option.isSome_iff_exists.mp hdone
  obtain ⟨s', hs', hfull⟩ := Option.map_eq_some_iff.mp hread
  obtain ⟨⟨o', fs₃⟩, hmain', hdone'⟩ := Option.bind_eq_some_iff.mp hs'
  have hw : w.WritesChar 5 0 512 65 := ⟨rfl, _, _, _, _, _, _, _, _, rfl, by decide, by decide, rfl⟩
  have hr : r.ReadsSect 5 0 := ⟨rfl, _, _, _, _, _, _, 0, rfl, by decide, by decide⟩
  have hans : w.Answered fs := by
    intro q hq
    rw [hmain] at hq
    exact Option.some.inj hq ▸ hok
  exact ⟨w, r, fs, fs₁, fs₃, o, o', s', hmain, hmain', hdone', sector_read_back hw hmain hs hans (by decide) (by decide)
    (by decide) (by decide) .init hr hmain' hdone' (of_decide_eq_true hfull)⟩

end ReadBack

end CppNotes.Iotool
