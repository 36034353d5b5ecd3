import CppNotes.Iotool.Aio

/-!
# The completion loop of `do_aio_wrv_bytes_str`

Behind `io_submit` the engine calls `io_getevents` until `total_io_done` has come up to `iocb_cnt`.  It counts right, but
against the number of requests that it has prepared: `io_submit` may have accepted fewer, and then no more events come
while the loop still waits for some.
-/

namespace CppNotes.Iotool.Aio

open CppNotes.Lib

def isEvent : Line → Bool
  | .event _ _ => true
  | _ => false

/-- The completions that the engine was given: it prints a line for each. -/
def St.delivered (s : St) : ℕ := s.sys.out.countP isEvent

/-- `io_submit` accepts `n` requests. -/
def Accepts (n : ℕ) (s : St) : Act → Prop
  | .prog r => s.pc = .submit → r = n
  | _ => True

/-- From a state in which `io_submit` is called and accepts `n` requests: the engine counts what it is given, and once that
is all there is, the exit test is true. -/
def Exits (job : Job) (n : ℕ) (s₀ : St) : Prop :=
  ∀ s, Reach (step job) (Accepts n) s₀ s → s.pc ≠ .submit →
    s.totalIoDone = s.delivered ∧ (s.delivered = n → job.iocbCnt ≤ s.totalIoDone)

/-! ## What is counted -/

structure Tally (job : Job) (s : St) : Prop where
  seen : s.totalIoDone = s.delivered
  early : s.pc.early = true → s.flight = [] ∧ s.cq = [] ∧ s.totalIoDone = 0
  ready : s.pc = .submit → s.iocbs.length = job.iocbCnt

variable {job : Job} {f : File} {s s' : St} {a : Act} {n : ℕ}

theorem tally_init (job : Job) (f : File) : Tally job (St.init job f) :=
  ⟨rfl, fun _ => ⟨rfl, rfl, rfl⟩, fun h => by simp only [St.init] at h; split at h <;> simp at h⟩

theorem delivered_printAll (s : Sys) (ls : List Line) :
    (s.printAll ls).out.countP isEvent = s.out.countP isEvent + ls.countP isEvent :=
  List.countP_append

/-- A step that only moves on. -/
theorem Tally.goto (h : Tally job s) {p : Pc} (hp : p.early = true → s.pc.early = true) (hs : p ≠ .submit) :
    Tally job { s with pc := p } :=
  ⟨h.seen, fun he => h.early (hp he), fun he => absurd he hs⟩

theorem Tally.fail (h : Tally job s) {l : Line} (hl : isEvent l = false) : Tally job (s.fail l) := by
  refine ⟨?_, by simp [St.fail, Pc.early], by simp [St.fail]⟩
  rw [St.delivered, St.fail, Sys.print, List.countP_append, List.countP_singleton, hl]
  exact h.seen

theorem Tally.prep (h : Tally job s) (hp : s.pc = .newBuf) {p : Pair} (buf : Mem)
    (hpair : job.pairs[s.iocbs.length]? = some p) : Tally job (s.prep job p buf) := by
  have hearly := h.early (by simp [hp, Pc.early])
  have hlt : s.iocbs.length < job.iocbCnt := (List.getElem?_eq_some_iff.mp hpair).1
  unfold St.prep
  simp only
  split
  · exact ⟨h.seen, fun _ => hearly, by simp⟩
  · rename_i hge
    refine ⟨?_, fun _ => hearly, fun _ => ?_⟩
    · have hplan : (([.plan job.iocbCnt job.str.bytes] ++ (s.iocbs ++ [(⟨p.off, p.cnt, buf⟩ : Iocb)]).zipIdx.map
          (fun q => Line.iocb q.2 q.1.offset q.1.nbytes) ++ [.ready] : List Line)).countP isEvent = 0 := by
        simp [List.countP_append, List.countP_map, List.countP_eq_zero, isEvent]
      rw [St.delivered, delivered_printAll, hplan]
      exact h.seen
    · simp only [List.length_append, List.length_singleton] at hge ⊢
      omega

theorem Tally.reap (h : Tally job s) (hn : n ≤ s.cq.length) : Tally job (s.reap job n) := by
  have hlines : ((if n = 0 then [.noneDone]
      else .someDone n job.iocbCnt :: (s.cq.take n).map fun ev => .event ev.obj ev.res : List Line)).countP
        isEvent = n := by
    split
    · rename_i h0
      rw [h0]
      rfl
    · rw [List.countP_cons_of_neg (by simp [isEvent]), List.countP_map, List.countP_eq_length.mpr (by simp [isEvent]),
        List.length_take, Nat.min_eq_left hn]
  refine ⟨?_, fun he => ?_, fun he => ?_⟩
  · have hseen := h.seen
    simp only [St.delivered, St.reap, delivered_printAll] at hseen ⊢
    rw [hseen]
    split
    · rw [List.countP_append, hlines]
      rfl
    · rw [hlines]
  · simp only [St.reap] at he
    split at he <;> simp [Pc.early] at he
  · simp only [St.reap] at he
    split at he <;> simp at he

theorem Tally.next (h : Tally job s) {r : ℤ} {p : Pc} (hn : Next s.pc r p) : Tally job { s with pc := p } := by
  have hgoto (hp : p.early = true → s.pc.early = true) (hs : p ≠ .submit) := h.goto hp hs
  generalize s.pc = pc at hn hgoto
  cases hn with
  | notOpened | opened | setup | newArray | newEvents | newIocb => exact hgoto (by simp [Pc.early]) (by simp)

theorem isEvent_of_fails {p : Pc} {r : ℤ} {l : Line} (hf : Fails p r l) : isEvent l = false := by
  cases hf <;> rfl

theorem Tally.move (h : Tally job s) (hm : Moves job s a s') : Tally job s' := by
  cases hm with
  | next hn => exact h.next hn
  | fail hf => exact h.fail (isEvent_of_fails hf)
  | noBuf => exact h.fail rfl
  | hang => exact h.goto (by simp [Pc.early]) (by simp)
  | prep hp hpair => exact h.prep hp _ hpair
  | submit => exact ⟨h.seen, by simp [St.submit, Pc.early], by simp [St.submit]⟩
  | reap _ hn => exact h.reap hn
  | complete hq =>
    -- before the submission nothing is in flight
    refine ⟨h.seen, fun he => ?_, h.ready⟩
    simp [(h.early he).1] at hq

theorem Tally.reach {ok : St → Act → Prop} {s₀ : St} (h₀ : Tally job s₀) (h : Reach (Aio.step job) ok s₀ s) :
    Tally job s :=
  h.invariant (Tally job) h₀ fun _ _ _ _ hI _ hs => hI.move (moves_of_step hs)

/-! ## When the loop is left -/

/-- All requests in flight complete, and the engine has not looked yet. -/
theorem exists_drained (m : ℕ) {s₀ : St} (h : Reach (step job) (Accepts n) s₀ s) (hp : s.pc = .getevents)
    (hm : s.flight.length = m) : ∃ s', Reach (step job) (Accepts n) s₀ s' ∧ s'.pc = .getevents ∧
      s'.cq.length = s.cq.length + m ∧ s'.totalIoDone = s.totalIoDone := by
  induction m generalizing s with
  | zero => exact ⟨s, h, hp, rfl, rfl⟩
  | succ m ih =>
    obtain ⟨q, rest, hflight⟩ := List.exists_cons_of_length_eq_add_one hm
    have hnext := h.next (show Accepts n s (.complete 0 0) from trivial)
      (by simp only [step, hflight, List.getElem?_cons_zero]; rfl)
    obtain ⟨s', hs', hp', hcq, hdone⟩ := ih hnext hp (by simpa [hflight] using hm)
    refine ⟨s', hs', hp', ?_, hdone⟩
    rw [hcq, List.length_append, List.length_singleton, Nat.add_right_comm, Nat.add_assoc]

/-- If some request was not accepted, the loop waits for it when all others are done. -/
theorem iocbCnt_le_of_exits {s₀ : St} (h₀ : Tally job s₀) (hp : s₀.pc = .submit) (hn : n ≤ job.iocbCnt)
    (h : Exits job n s₀) : job.iocbCnt ≤ n := by
  by_contra hlt
  obtain ⟨-, hcq, hdone⟩ := h₀.early (by simp [hp, Pc.early])
  have hlen := h₀.ready hp
  have h₁ : Reach (step job) (Accepts n) s₀ { s₀ with pc := .getevents, flight := (s₀.iocbs.take n).zipIdx } :=
    .next .init (a := .prog n) (fun _ => rfl) (by
      simp only [step, progStep, hp]
      rw [if_neg (by omega), Int.toNat_natCast, if_pos hn])
  obtain ⟨s₂, h₂, hp₂, hcq₂, hdone₂⟩ := exists_drained n h₁ rfl (by simp; omega)
  simp only [hcq, hdone, List.length_nil, Nat.zero_add] at hcq₂ hdone₂
  have h₃ : Reach (step job) (Accepts n) s₀ (s₂.reap job n) :=
    h₂.next (a := .prog n) (by simp [Accepts, hp₂]) (by
      simp only [step, progStep, hp₂]
      rw [if_neg (by omega), Int.toNat_natCast, if_pos ⟨hcq₂.ge, hn⟩])
  have htotal : (s₂.reap job n).totalIoDone = n := by simp [St.reap, hdone₂]
  have hpc : (s₂.reap job n).pc ≠ .submit := by
    simp only [St.reap]
    split <;> simp
  obtain ⟨hseen, hexit⟩ := h _ h₃ hpc
  rw [htotal] at hseen hexit
  exact hlt (hexit hseen.symm)

theorem exits_of_all {s₀ : St} (h₀ : Tally job s₀) : Exits job job.iocbCnt s₀ := fun _ h _ =>
  have hseen := (h₀.reach h).seen
  ⟨hseen, fun hall => (hseen.trans hall).ge⟩

/-- **When the completion loop is left**: if `io_submit` has accepted all requests. -/
theorem aio_exits_iff {s₀ : St} (h : Reach (step job) Any (St.init job f) s₀) (hp : s₀.pc = .submit)
    (hn : n ≤ job.iocbCnt) : Exits job n s₀ ↔ n = job.iocbCnt := by
  have h₀ := (tally_init job f).reach h
  constructor
  · exact fun he => Nat.le_antisymm hn (iocbCnt_le_of_exits h₀ hp hn he)
  · rintro rfl
    exact exits_of_all h₀

/-- Two requests of one byte each. -/
def twoRequests : Job := ⟨[⟨0, 1⟩, ⟨1, 1⟩], letterA⟩

theorem exists_twoRequests_submit : ∃ s₀, Reach (step twoRequests) Any (St.init twoRequests File.empty) s₀ ∧
    s₀.pc = .submit := by
  obtain ⟨s₀, h, hp⟩ := reach_of_runs (step twoRequests) Any (St.init twoRequests File.empty)
    [.prog 3, .prog 0, .prog 1, .prog 1, .prog 1, .mem (some fun _ => 0), .prog 1, .mem (some fun _ => 0)]
    (fun s => s.pc = .submit) (by decide)
  exact ⟨s₀, h, of_decide_eq_true hp⟩

theorem accepted_requests_exit : ∃ s₀, s₀.pc = .submit ∧ Exits twoRequests 2 s₀ := by
  obtain ⟨s₀, h, hp⟩ := exists_twoRequests_submit
  exact ⟨s₀, hp, (aio_exits_iff h hp (by decide)).mpr rfl⟩

/-- `io_submit` accepts one of two requests: after its completion nothing is in flight, and the loop waits for another. -/
theorem unaccepted_request_waits : ¬ ∀ (job : Job) (f : File) (s₀ : St) (n : ℕ),
    Reach (step job) Any (St.init job f) s₀ → s₀.pc = .submit → n ≤ job.iocbCnt → Exits job n s₀ := by
  intro h
  obtain ⟨s₀, hs₀, hp⟩ := exists_twoRequests_submit
  have hle := iocbCnt_le_of_exits ((tally_init _ _).reach hs₀) hp (by decide) (h _ _ s₀ 1 hs₀ hp (by decide))
  exact absurd hle (by decide)

end CppNotes.Iotool.Aio
