import CppNotes.Iotool.AioWait
import CppNotes.Iotool.Blocks

/-!
# How a run of `do_aio_wrv_bytes_str` ends

Behind `do_open` the engine returns 0 on every way out, whatever has failed and whatever the events say.  So its exit code
says something only about `do_open`, and a return of 0 is right exactly when the requests have written everything.

A run is over when the engine has returned, when it is in a fill loop that does not end, or when it waits for an event and
nothing is in flight.  Only a kernel that keeps answering `io_getevents` with no events can put that off for ever
(`aio_ends`).
-/

namespace CppNotes.Iotool.Aio

open CppNotes.Lib

/-- The exit of the process, if the run goes no further. -/
def Pc.exit : Pc → Exit
  | .ret v => .ret v
  | .hang => .hang
  | _ => .pending

def St.Over (s : St) : Prop :=
  match s.pc with
  | .ret _ | .hang => True
  | .getevents => s.flight = [] ∧ s.cq = []
  | _ => False

/-- Every step but an `io_getevents` that finds no event. -/
def Busy (s : St) : Act → Prop
  | .prog r => s.pc = .getevents → r ≠ 0
  | _ => True

instance (s : St) : (a : Act) → Decidable (Busy s a)
  | .prog r => inferInstanceAs (Decidable (s.pc = .getevents → r ≠ 0))
  | .mem _ | .complete _ _ => isTrue trivial

/-- Every byte of every range was written. -/
def Job.Done (job : Job) (calls : List Pwrite) : Prop := ∀ p ∈ job.pairs, AllWritten calls p.off.toInt p.cnt.toNat

/-- The request for the pair was written in full. -/
def Pair.Served (p : Pair) (calls : List Pwrite) : Prop := ∃ c ∈ calls, c.offset = p.off ∧ c.count = p.cnt ∧ c.Full

/-- One range ends in front of the other. -/
def Pair.Beside (p q : Pair) : Prop :=
  p.off.toInt + p.cnt.toNat ≤ q.off.toInt ∨ q.off.toInt + q.cnt.toNat ≤ p.off.toInt

variable {job : Job} {f : File} {s s' : St} {a : Act}

/-! ## What any run keeps -/

def Iocb.pair (q : Iocb) : Pair := ⟨q.offset, q.nbytes⟩

def pairOf (c : Pwrite) : Pair := ⟨c.offset, c.count⟩

/-- The places at which nothing was submitted. -/
def Pc.unsent : Pc → Bool
  | .getevents | .ret 0 => false
  | _ => true

/-- The places at which a request is still to be prepared. -/
def Pc.preparing : Pc → Bool
  | .openFile | .setup | .newArray | .newEvents | .newIocb | .newBuf => true
  | _ => false

/-- Requests are for pairs; what has completed is counted once; and the wait is for something. -/
structure Ledger (job : Job) (s : St) : Prop where
  iocbs : ∀ q ∈ s.iocbs, q.pair ∈ job.pairs
  flight : ∀ q ∈ s.flight, q.1.pair ∈ job.pairs
  calls : ∀ c ∈ s.sys.calls, pairOf c ∈ job.pairs
  unsent : s.pc.unsent = true → s.flight = [] ∧ s.cq = [] ∧ s.totalIoDone = 0 ∧ s.sys.calls = []
  room : s.pc.preparing = true → s.iocbs.length < job.iocbCnt
  seen : s.totalIoDone + s.cq.length = s.sys.calls.length
  waits : s.pc = .getevents → s.totalIoDone < job.iocbCnt
  exit : ∀ v, s.pc = .ret v → v = 0 ∨ v = -1
  asked : s.pc ≠ .ret (-1) → job.pairs ≠ []

theorem ledger_init (job : Job) (f : File) : Ledger job (St.init job f) := by
  by_cases hne : job.pairs = []
  · constructor <;> simp [St.init, hne, Pc.preparing]
  · constructor <;> simp [St.init, hne, Job.iocbCnt, List.length_pos_iff]

/-- A step to another place, before the submission. -/
theorem Ledger.goto (h : Ledger job s) (hu : s.pc.unsent = true) {p : Pc} (hp : p.unsent = true)
    (hroom : p.preparing = true → s.pc.preparing = true) (hexit : ∀ v, p = .ret v → v = -1)
    (hasked : s.pc ≠ .ret (-1)) : Ledger job { s with pc := p } where
  iocbs := h.iocbs
  flight := h.flight
  calls := h.calls
  unsent _ := h.unsent hu
  room hr := h.room (hroom hr)
  seen := h.seen
  waits hw := by
    have hw : p = .getevents := hw
    simp [hw, Pc.unsent] at hp
  exit v hv := .inr (hexit v hv)
  asked _ := h.asked hasked

theorem Ledger.fail (h : Ledger job s) (hasked : s.pc ≠ .ret (-1)) (l : Line) : Ledger job (s.fail l) where
  iocbs := h.iocbs
  flight := h.flight
  calls := h.calls
  unsent := by simp [St.fail, Pc.unsent]
  room := by simp [St.fail, Pc.preparing]
  seen := h.seen
  waits := by simp [St.fail]
  exit v hv := .inl (by simpa [St.fail] using hv.symm)
  asked _ := h.asked hasked

theorem Ledger.next (h : Ledger job s) {r : ℤ} {p : Pc} (hn : Next s.pc r p) : Ledger job { s with pc := p } := by
  have hgoto := h.goto (p := p)
  generalize s.pc = pc at hn hgoto
  cases hn with
  | notOpened | opened | setup | newArray | newEvents | newIocb =>
    exact hgoto rfl rfl (by simp [Pc.preparing]) (by simp) (by simp)

theorem Ledger.prep (h : Ledger job s) (hp : s.pc = .newBuf) {p : Pair} (buf : Mem)
    (hpair : job.pairs[s.iocbs.length]? = some p) : Ledger job (s.prep job p buf) := by
  have hu := h.unsent (by simp [hp, Pc.unsent])
  have hiocbs : ∀ q ∈ s.iocbs ++ [(⟨p.off, p.cnt, buf⟩ : Iocb)], q.pair ∈ job.pairs := by
    intro q hq
    rcases List.mem_append.mp hq with hq | hq
    · exact h.iocbs q hq
    · rw [List.mem_singleton.mp hq]
      exact List.mem_of_getElem? hpair
  have hne := h.asked (by simp [hp])
  unfold St.prep
  dsimp only
  split
  · rename_i hlt
    exact ⟨hiocbs, h.flight, h.calls, fun _ => hu, fun _ => hlt, h.seen, by simp, by simp, fun _ => hne⟩
  · exact ⟨hiocbs, h.flight, h.calls, fun _ => hu, by simp [Pc.preparing], h.seen, by simp, by simp, fun _ => hne⟩

theorem Ledger.submit (h : Ledger job s) (hp : s.pc = .submit) (n : ℕ) : Ledger job (s.submit n) := by
  obtain ⟨-, -, hdone, -⟩ := h.unsent (by simp [hp, Pc.unsent])
  have hne := h.asked (by simp [hp])
  refine ⟨h.iocbs, fun q hq => h.iocbs q.1 ?_, h.calls, by simp [St.submit, Pc.unsent], by simp [St.submit, Pc.preparing],
    h.seen, ?_,
    by simp [St.submit], fun _ => hne⟩
  · exact List.mem_of_mem_take (List.fst_mem_of_mem_zipIdx hq)
  · intro _
    show s.totalIoDone < _
    rw [hdone]
    exact List.length_pos_iff.mpr hne

theorem reap_pc (job : Job) (s : St) (n : ℕ) :
    (s.reap job n).pc = .ret 0 ∨ (s.reap job n).pc = .getevents ∧ s.totalIoDone + n < job.iocbCnt := by
  simp only [St.reap]
  split
  · exact .inl rfl
  · exact .inr ⟨rfl, by omega⟩

theorem Ledger.reap (h : Ledger job s) (hp : s.pc = .getevents) {n : ℕ} (hn : n ≤ s.cq.length) :
    Ledger job (s.reap job n) := by
  have hseen := h.seen
  have hne := h.asked (by simp [hp])
  have hpc := reap_pc job s n
  refine ⟨h.iocbs, h.flight, h.calls, ?_, ?_, ?_, ?_, ?_, fun _ => hne⟩
  · rcases hpc with hpc | ⟨hpc, -⟩ <;> simp [hpc, Pc.unsent]
  · rcases hpc with hpc | ⟨hpc, -⟩ <;> simp [hpc, Pc.preparing]
  · simp only [St.reap, List.length_drop]
    show s.totalIoDone + n + _ = s.sys.calls.length
    omega
  · intro hg
    rcases hpc with hpc | ⟨-, hlt⟩
    · simp [hpc] at hg
    · exact hlt
  · intro v hv
    rcases hpc with hpc | ⟨hpc, -⟩
    · rw [hpc] at hv
      exact .inl (Pc.ret.inj hv).symm
    · simp [hpc] at hv

theorem Ledger.complete (h : Ledger job s) {k : ℕ} {q : Iocb × ℕ} (hq : s.flight[k]? = some q) (res : Int64) :
    Ledger job (s.complete k q res) := by
  have hseen := h.seen
  refine ⟨h.iocbs, fun q' hq' => h.flight q' (List.mem_of_mem_eraseIdx hq'), ?_, fun hu => ?_, h.room, ?_, h.waits, h.exit,
    h.asked⟩
  · intro c hc
    rcases List.mem_append.mp hc with hc | hc
    · exact h.calls c hc
    · rw [List.mem_singleton.mp hc]
      exact h.flight q (List.mem_of_getElem? hq)
  · simp [(h.unsent hu).1] at hq
  · simp only [St.complete, Sys.pwrite, List.length_append, List.length_singleton]
    omega

theorem not_ret_of_fails {p : Pc} {r : ℤ} {l : Line} (hf : Fails p r l) (v : ℤ) : p ≠ .ret v := by
  cases hf <;> simp

theorem Ledger.move (h : Ledger job s) (hm : Moves job s a s') : Ledger job s' := by
  cases hm with
  | next hn => exact h.next hn
  | fail hf => exact h.fail (not_ret_of_fails hf _) _
  | noBuf hp => exact h.fail (by simp [hp]) _
  | hang hp => exact h.goto (by simp [hp, Pc.unsent]) rfl (by simp [Pc.preparing]) (by simp) (by simp [hp])
  | prep hp hpair => exact h.prep hp _ hpair
  | submit hp => exact h.submit hp _
  | reap hp hn => exact h.reap hp hn
  | complete hq => exact h.complete hq _

theorem Ledger.reach {ok : St → Act → Prop} {s₀ : St} (h₀ : Ledger job s₀) (h : Reach (step job) ok s₀ s) : Ledger job s :=
  h.invariant (Ledger job) h₀ fun _ _ _ _ hI _ hs => hI.move (moves_of_step hs)

/-! ## Runs end -/

/-- How many steps are left at most. -/
def St.left (job : Job) (s : St) : ℕ :=
  let n := job.iocbCnt
  2 * s.flight.length + s.cq.length +
    match s.pc with
    | .openFile => 4 * n + 6
    | .setup => 4 * n + 5
    | .newArray => 4 * n + 4
    | .newEvents => 4 * n + 3
    | .newIocb => 2 * n + 2 + 2 * (n - s.iocbs.length)
    | .newBuf => 2 * n + 1 + 2 * (n - s.iocbs.length)
    | .submit => 2 * n + 2
    | .getevents => 1
    | .hang | .ret _ => 0

theorem left_init_le (job : Job) (f : File) : (St.init job f).left job ≤ 4 * job.iocbCnt + 6 := by
  by_cases hne : job.pairs = []
  · simp [St.left, St.init, hne]
  · simp [St.left, St.init, hne]

theorem left_next {r : ℤ} {p : Pc} (hn : Next s.pc r p) : { s with pc := p }.left job < s.left job := by
  simp only [St.left]
  generalize s.pc = pc at hn
  cases hn <;> dsimp only <;> omega

theorem left_fail {r : ℤ} {l : Line} (hf : Fails s.pc r l) : (s.fail l).left job < s.left job := by
  simp only [St.left, St.fail]
  generalize s.pc = pc at hf
  cases hf <;> dsimp only <;> omega

theorem left_lt (hb : Busy s a) (hm : Moves job s a s') : s'.left job < s.left job := by
  cases hm with
  | next hn => exact left_next hn
  | fail hf => exact left_fail hf
  | noBuf hp | hang hp =>
    simp only [St.left, St.fail, hp]
    omega
  | prep hp hpair =>
    have hlt : s.iocbs.length < job.iocbCnt := (List.getElem?_eq_some_iff.mp hpair).1
    simp only [St.left, hp, St.prep]
    split
    · simp only [List.length_append, List.length_singleton]
      omega
    · dsimp only
      omega
  | @submit n hp hn =>
    have hlen : (s.submit n).flight.length ≤ job.iocbCnt := by
      simp only [St.submit, List.length_zipIdx, List.length_take]
      omega
    simp only [St.left, hp]
    show 2 * (s.submit n).flight.length + s.cq.length + 1 < _
    omega
  | @reap n hp hn =>
    have hpos : n ≠ 0 := fun h0 => hb hp (by rw [h0]; rfl)
    have hcq : (s.reap job n).cq.length = s.cq.length - n := List.length_drop
    have hflight : (s.reap job n).flight = s.flight := rfl
    rcases reap_pc job s n with hpc | ⟨hpc, -⟩
    · simp only [St.left, hp, hpc, hcq, hflight]
      omega
    · simp only [St.left, hp, hpc, hcq, hflight]
      omega
  | complete hq =>
    have hlt := (List.getElem?_eq_some_iff.mp hq).1
    simp only [St.left, St.complete, List.length_eraseIdx_of_lt hlt, List.length_append, List.length_singleton]
    omega

theorem exists_busy (h : Ledger job s) (hover : ¬ s.Over) : ∃ a, Busy s a ∧ step job s a ≠ none := by
  cases hp : s.pc with
  | openFile | setup | newArray | newEvents | newIocb | submit =>
    exact ⟨.prog 0, by simp [Busy, hp], by simp [step, progStep, hp]⟩
  | newBuf =>
    obtain ⟨p, hpair⟩ : ∃ p, job.pairs[s.iocbs.length]? = some p :=
      ⟨_, List.getElem?_eq_getElem (h.room (by simp [hp, Pc.preparing]))⟩
    exact ⟨.mem none, trivial, by simp [step, bufStep, hp, hpair]⟩
  | getevents => exact ⟨.prog (-1), by simp [Busy], by simp [step, progStep, hp]⟩
  | hang | ret v => simp [St.Over, hp] at hover

/-- **Every run ends**, unless `io_getevents` keeps answering with no events. -/
theorem aio_ends {as : List Act} (h : runs (step job) Busy (St.init job f) as = some s) :
    as.length ≤ 4 * job.iocbCnt + 6 ∧ (¬ s.Over → ∃ a, Busy s a ∧ step job s a ≠ none) := by
  have hlen := length_add_le_of_runs (St.left job) (fun _ _ _ _ hb hs => left_lt hb (moves_of_step hs)) Reach.init h
  have hle := left_init_le job f
  exact ⟨by omega, exists_busy ((ledger_init job f).reach (Reach.init.runs h))⟩

/-! ## What an exit code is worth -/

/-- The exit code in any state. -/
theorem Ledger.honest_iff (h : Ledger job s) (done : Prop) :
    s.pc.exit.Honest done ↔ s.pc = .ret (-1) ∨ s.pc = .ret 0 ∧ done := by
  constructor
  · rintro ⟨v, hv, hdone⟩
    have hpc : s.pc = .ret v := by
      cases hp : s.pc <;> simp [hp, Pc.exit] at hv
      rw [hv]
    rcases h.exit v hpc with rfl | rfl
    · exact .inr ⟨hpc, hdone rfl⟩
    · exact .inl hpc
  · rintro (hpc | ⟨hpc, hdone⟩)
    · exact ⟨-1, by rw [hpc]; rfl, by simp⟩
    · exact ⟨0, by rw [hpc]; rfl, fun _ => hdone⟩

section Apart

variable (hapart : job.pairs.Pairwise Pair.Beside)
include hapart

/-- Ranges that have a byte in common are the same. -/
theorem eq_of_common {p q : Pair} (hp : p ∈ job.pairs) (hq : q ∈ job.pairs) {x : ℤ} (h₁ : p.off.toInt ≤ x)
    (h₂ : x < p.off.toInt + p.cnt.toNat) (h₃ : q.off.toInt ≤ x) (h₄ : x < q.off.toInt + q.cnt.toNat) : p = q := by
  have hsymm : Std.Symm Pair.Beside := ⟨fun _ _ h => h.symm⟩
  by_contra hne
  rcases hapart.forall hp hq hne with hb | hb <;> omega

/-- A range is written by its own request only, so that has written all of it. -/
theorem Ledger.served (h : Ledger job s) (hans : ∀ c ∈ s.sys.calls, c.Answered) {p : Pair} (hp : p ∈ job.pairs)
    (hne : p.cnt ≠ 0) (hw : AllWritten s.sys.calls p.off.toInt p.cnt.toNat) : p.Served s.sys.calls := by
  have hpos := toNat_pos_of_ne hne
  obtain ⟨c, hc, hlo, hhi⟩ := hw (p.off.toInt + p.cnt.toNat - 1) (by omega) (by omega)
  have hres : c.res.toInt ≤ c.count.toNat := by
    refine (hans c hc).resolve_left fun hneg => ?_
    have := Int64.lt_iff_toInt_lt.mp hneg
    rw [Int64.toInt_zero] at this
    omega
  have hin : p.off.toInt + p.cnt.toNat - 1 < c.offset.toInt + c.count.toNat := by omega
  obtain rfl : p = pairOf c := eq_of_common hapart hp (h.calls c hc) (by omega) (by omega) hlo hin
  refine ⟨c, hc, rfl, rfl, ?_⟩
  have hhi : c.offset.toInt + c.count.toNat - 1 < c.offset.toInt + c.res.toInt := hhi
  rw [Pwrite.Full]
  omega

/-- Requests that were all written in full have all come back, and the engine has seen that. -/
theorem Ledger.ret_of_served (h : Ledger job s) (hover : s.Over) (hcnt : ∀ p ∈ job.pairs, p.cnt ≠ 0)
    (hserved : ∀ p ∈ job.pairs, p.Served s.sys.calls) : s.pc = .ret (-1) ∨ s.pc = .ret 0 := by
  by_contra! hpc
  have hne := h.asked hpc.1
  obtain ⟨p, hp⟩ := List.exists_mem_of_ne_nil _ hne
  obtain ⟨c, hc, -⟩ := hserved p hp
  have hsent : s.pc.unsent = false := by
    by_contra hu
    rw [(h.unsent (by simpa using hu)).2.2.2] at hc
    exact absurd hc List.not_mem_nil
  cases hg : s.pc with
  | ret v =>
    rcases h.exit v hg with rfl | rfl
    · exact hpc.2 hg
    · exact hpc.1 hg
  | getevents =>
    simp only [St.Over, hg] at hover
    have hnd : job.pairs.Nodup := by
      refine hapart.imp_of_mem ?_
      rintro p q hp - hb rfl
      have := toNat_pos_of_ne (hcnt p hp)
      rcases hb with hb | hb <;> omega
    have hsub : job.pairs ⊆ s.sys.calls.map pairOf := by
      intro p hp
      obtain ⟨c, hc, hoff, hcount, -⟩ := hserved p hp
      exact List.mem_map.mpr ⟨c, hc, by rw [pairOf, hoff, hcount]⟩
    have hle := (hnd.subperm hsub).length_le
    have hseen := h.seen
    have hwait := h.waits hg
    rw [hover.2, List.length_nil] at hseen
    rw [List.length_map] at hle
    unfold Job.iocbCnt at hwait
    omega
  | _ => simp [hg, Pc.unsent] at hsent

/-- **What the exit code of the AIO engine is worth.**  For ranges that are not empty and have no byte in common, a run that is
over has told the truth exactly if the file was not opened or every request was written in full. -/
theorem Ledger.honest_iff_served (h : Ledger job s) (hover : s.Over) (hans : ∀ c ∈ s.sys.calls, c.Answered)
    (hcnt : ∀ p ∈ job.pairs, p.cnt ≠ 0) :
    s.pc.exit.Honest (job.Done s.sys.calls) ↔ s.pc = .ret (-1) ∨ ∀ p ∈ job.pairs, p.Served s.sys.calls := by
  rw [h.honest_iff]
  constructor
  · rintro (hpc | ⟨-, hdone⟩)
    · exact .inl hpc
    · exact .inr fun p hp => h.served hapart hans hp (hcnt p hp) (hdone p hp)
  · rintro (hpc | hserved)
    · exact .inl hpc
    · refine (h.ret_of_served hapart hover hcnt hserved).imp_right fun hpc => ⟨hpc, fun p hp x hlo hhi => ?_⟩
      obtain ⟨c, hc, hoff, hcount, hfull⟩ := hserved p hp
      rw [Pwrite.Full] at hfull
      exact ⟨c, hc, by rw [hoff]; exact hlo, by rw [hoff, hfull, hcount]; exact hhi⟩

end Apart

end CppNotes.Iotool.Aio
