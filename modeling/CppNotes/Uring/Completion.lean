import CppNotes.Uring.Outstanding

/-!
# `copy_file` comes to its end

If the library and the kernel do all that they are asked for (`Clean`: every call succeeds, every submission takes what is
queued, every request completes in full), then `copy_file` returns 0, after a number of steps that is linear in the number of
blocks.

* Nothing is queued again, so the submission queue is empty whenever completions are reaped, and no completion stalls the
  copy (`Clear`): there is something to wait for in every `io_uring_wait_cqe`.
* Each block takes two completions, one for its read and one for its write.  Between two completions `copy_file` goes round its
  outer loop at most once, so `St.fuel` goes down with every step: the completions to come are worth ten steps each, a block
  that is to be queued two more, a request that is to be completed one, and the place in the loop what is left of the round.
-/

namespace CppNotes.Uring

open CppNotes.Lib

variable {N : ℕ} {e : Env} {s s' : St} {a : Act}

/-- Every request completes in full, and every call succeeds. -/
def Succeeds (s : St) : Act → Prop
  | .kernel j res => s.flight[j]?.map (fun q => ((s.at q.id).iovLen : ℤ)) = some res
  | .prog r => 0 ≤ r

def Clean (s : St) (a : Act) : Prop := SubmitsAll s a ∧ Succeeds s a

instance (s : St) : (a : Act) → Decidable (Succeeds s a)
  | .kernel _ _ => inferInstanceAs (Decidable (_ = _))
  | .prog _ => inferInstanceAs (Decidable (_ ≤ _))

instance (s : St) (a : Act) : Decidable (Clean s a) := inferInstanceAs (Decidable (_ ∧ _))

theorem Clean.prompt (h : Clean s a) : Prompt s a := by
  refine ⟨?_, h.1⟩
  cases a with
  | kernel => trivial
  | prog r => exact fun _ => h.2

/-! ## Nothing goes wrong -/

structure Clear (s : St) : Prop where
  full : ∀ c ∈ s.cq, c.res = (s.at c.id).iovLen
  /-- Outside the loop that queues reads, everything has been submitted. -/
  drained : s.pc ≠ .readLoop → s.pc ≠ .submit → s.sq = []
  added : s.hadReads = s.reads → s.pc = .readLoop ∨ s.pc = .submit → s.sq = []
  fresh : s.pc = .inner → s.gotComp = false → s.writeLeft ≠ 0
  reaping : s.pc = .reap → s.cq ≠ []
  good : ∀ v, s.pc = .ret v → v = 0
  supplied : Supplied s

theorem clear_init (N : ℕ) : Clear (St.init N) where
  full := by simp [St.init]
  drained _ _ := rfl
  added _ _ := rfl
  fresh := by simp [St.init]
  reaping := by simp [St.init]
  good := by simp [St.init]
  supplied := by
    by_cases hN : N = 0
    · exact .inl hN
    · exact .inr (.inr ⟨hN, Nat.two_pos⟩)

theorem transfer_iovLen (s : St) (e : Env) (q : Sqe) (n k : ℕ) :
    ((s.transfer e q n).at k).iovLen = (s.at k).iovLen := by
  unfold St.transfer
  split
  · rw [at_set s _ rfl]
    split_ifs with hk
    · rw [hk.1]
    · rfl
  · rfl

/-- The completion that is reaped is the only one of its `io_data`. -/
theorem Clear.full_set (h : Clear s) (hb : Book N s) {c : Cqe} {cq : List Cqe} (hc : s.cq = c :: cq) {d : IoData}
    (hpool : s'.pool = s.pool.set c.id d) (hcq : s'.cq = cq) : ∀ c' ∈ s'.cq, c'.res = (s'.at c'.id).iovLen := by
  intro c' hmem
  rw [hcq] at hmem
  have hne : c.id ≠ c'.id := by
    intro heq
    have hn := hb.nodup
    rw [St.ids, hc, List.map_cons, List.nodup_middle, List.nodup_cons] at hn
    exact hn.1 (List.mem_append_right _ (heq ▸ List.mem_map_of_mem hmem))
  rw [at_set s s' hpool, if_neg fun hk => hne hk.1]
  exact h.full c' (by simp [hc, hmem])

/-- The last outstanding completion is not the end of a write: something is still to be read, and it is not queued. -/
theorem Clear.not_stalls (h : Clear s) (hb : Book N s) (ho : Owing N s) : ¬ Stalls s := by
  rintro ⟨hp, hf, hlen, c, hmem, ⟨hres | ⟨-, hne⟩, -⟩ | ⟨-, hw, hin⟩⟩
  · have := h.full c hmem
    rw [hres] at this
    simp only [EAGAIN] at this
    omega
  · exact hne (h.full c hmem)
  · obtain ⟨cq, hc⟩ : ∃ cq, s.cq = c :: cq := by
      obtain ⟨c', hc'⟩ := List.length_eq_one_iff.mp hlen
      obtain rfl : c = c' := by simpa [hc'] using hmem
      exact ⟨[], hc'⟩
    obtain ⟨hid, hl⟩ := hb.head hc
    have hpos := hb.writes_pos hid hl hw
    have hids := hb.length_ids
    rw [h.drained (by simp [hp]) (by simp [hp]), hf, hlen] at hids
    have hreads : s.reads = 0 := by
      simp only [List.length_nil] at hids
      omega
    have hnone : (s.pool.map IoData.toRead).sum = 0 := by
      rw [hb.reads, List.countP_eq_zero] at hreads
      refine List.sum_eq_zero fun n hn => ?_
      obtain ⟨d, hd, rfl⟩ := List.mem_map.mp hn
      exact if_neg (hreads d hd)
    have hleft := hb.left
    exact ho.busy hp rfl (by omega)

/-- Only the place in the program changes, and not to the loop that reaps completions. -/
theorem Clear.control (h : Clear s) {p : Pc} {n : ℕ} {g : Bool}
    (hsup : Supplied { s with pc := p, hadReads := n, gotComp := g })
    (hdrained : p ≠ .readLoop → p ≠ .submit → s.sq = []) (hadded : n = s.reads → p = .readLoop ∨ p = .submit → s.sq = [])
    (hfresh : p = .inner → g = false → s.writeLeft ≠ 0) (hreap : p = .reap → s.cq ≠ []) (hgood : ∀ v, p = .ret v → v = 0) :
    Clear { s with pc := p, hadReads := n, gotComp := g } :=
  ⟨h.full, hdrained, hadded, hfresh, hreap, hgood, hsup⟩

theorem Clear.move (h : Clear s) (hb : Book N s) (ho : Owing N s) (hok : Clean s a) (hm : Move e s a s') : Clear s' := by
  have hsup := h.supplied.step hb ho hok.prompt (h.not_stalls hb ho) hm
  cases hm with
  | enter r hp =>
    have hsq := h.drained (by simp [hp]) (by simp [hp])
    exact h.control hsup (fun _ _ => hsq) (fun _ _ => hsq) (by simp) (by simp) (by simp)
  | finish r hp =>
    have hsq := h.drained (by simp [hp]) (by simp [hp])
    exact h.control hsup (fun _ _ => hsq) (fun _ _ => hsq) (by simp) (by simp) (by simp)
  | readStop r hp =>
    exact h.control hsup (by simp) (fun hr _ => h.added hr (.inl hp)) (by simp) (by simp) (by simp)
  | queueRead r hp =>
    have hgrow := ho.grow (.inl hp)
    refine ⟨fun c hmem => ?_, fun hr => absurd hp hr, fun hr => ?_, by simp [St.withRead, hp], by simp [St.withRead, hp],
      by simp [St.withRead, hp], hsup⟩
    · have hid : c.id < s.pool.length := ((hb.owned c.id).mp (List.mem_append_right _ (List.mem_map_of_mem hmem))).1
      rw [at_append s (s.withRead e) rfl hid]
      exact h.full c hmem
    · simp only [St.withRead] at hr
      omega
  | submitFail r _ _ hr => exact absurd hok.2 (by simpa [Succeeds] using hr)
  | submit r hp =>
    have hsq : (s.submit r).sq = [] := by simp [St.submit, hok.1.1 hp]
    exact ⟨h.full, fun _ _ => hsq, by simp, fun _ _ => ho.busy hp rfl, by simp, by simp, hsup⟩
  | noSubmit r hp heq =>
    have hsq := h.added heq (.inr hp)
    exact h.control hsup (fun _ _ => hsq) (fun _ _ => hsq) (fun _ _ => ho.busy hp rfl) (by simp) (by simp)
  | leave r hp =>
    have hsq := h.drained (by simp [hp]) (by simp [hp])
    exact h.control hsup (fun _ _ => hsq) (fun _ _ => hsq) (by simp) (by simp) (by simp)
  | toWait r hp =>
    have hsq := h.drained (by simp [hp]) (by simp [hp])
    exact h.control hsup (fun _ _ => hsq) (fun _ _ => hsq) (by simp) (by simp) (by simp)
  | peek r hp _ _ hne =>
    have hsq := h.drained (by simp [hp]) (by simp [hp])
    exact h.control hsup (fun _ _ => hsq) (fun _ _ => hsq) (by simp) (fun _ => hne) (by simp)
  | peekFail r _ _ hr => exact absurd hok.2 (by simpa [Succeeds] using hr)
  | waited r hp hne =>
    have hsq := h.drained (by simp [hp]) (by simp [hp])
    exact h.control hsup (fun _ _ => hsq) (fun _ _ => hsq) (by simp) (fun _ => hne) (by simp)
  | waitFail r _ hr => exact absurd hok.2 (by simpa [Succeeds] using hr)
  | @again r c cq _ hc hres =>
    have := h.full c (by simp [hc])
    rw [hres, EAGAIN] at this
    omega
  | @failed r c cq _ hc hres =>
    have := h.full c (by simp [hc])
    omega
  | @short r c cq _ hc _ hne => exact absurd (h.full c (by simp [hc])) hne
  | @readDone r c cq hp hc _ hr hroom =>
    obtain ⟨hid, -⟩ := hb.head hc
    have hsq := h.drained (by simp [hp]) (by simp [hp])
    have hgot := ho.got hp
    refine ⟨h.full_set hb hc rfl rfl, fun _ _ => ?_, by simp [St.withWrite], fun _ hg => ?_, by simp [St.withWrite],
      by simp [St.withWrite], hsup⟩
    · have hr : r = s.sq.length + 1 := hok.1.2 hp
      simp [St.withWrite, St.submit, St.push, St.toWrite, hr]
    · have hg : s.gotComp = false := hg
      simp [hgot] at hg
  | @writeDone r c cq hp hc =>
    have hsq := h.drained (by simp [hp]) (by simp [hp])
    have hgot := ho.got hp
    refine ⟨h.full_set hb hc rfl rfl, fun _ _ => hsq, by simp [St.writeDone], fun _ hg => ?_, by simp [St.writeDone],
      by simp [St.writeDone], hsup⟩
    have hg : s.gotComp = false := hg
    simp [hgot] at hg
  | overflow r _ hc hfull =>
    have := hb.free_entry hc
    omega
  | @complete j res q hq hle =>
    have hres : res = (s.at q.id).iovLen := by
      have := hok.2
      rw [Succeeds, hq, Option.map_some, Option.some.injEq] at this
      exact this.symm
    have hlen (k : ℕ) := transfer_iovLen s e q res.toNat k
    obtain ⟨pool, out, ht⟩ := transfer_frame s e q res.toNat
    rw [ht] at hlen hsup ⊢
    refine ⟨fun c hmem => ?_, h.drained, h.added, h.fresh, fun _ => by simp, h.good, hsup⟩
    rcases List.mem_append.mp hmem with hmem | hmem
    · exact (h.full c hmem).trans (congrArg Int.ofNat (hlen c.id).symm)
    · obtain rfl := List.mem_singleton.mp hmem
      exact hres.trans (congrArg Int.ofNat (hlen q.id).symm)

theorem reach_clear (h : Reach (step e) Clean (St.init N) s) : Clear s :=
  h.invariant Clear (clear_init N) fun _ _ _ hr hc hok hs =>
    hc.move (reach_book hr.any).1 (reach_owing hr.any) hok (step_move hs)

/-! ## The steps that are left -/

/-- The blocks that have not been queued for reading. -/
def St.blocks (s : St) : ℕ := (s.insize + BS - 1) / BS

/-- What is left of a round of the outer loop, up to the next completion. -/
def St.phase (s : St) : ℕ :=
  match s.pc with
  | .inner => if s.gotComp then 7 else 3
  | .outer => 6
  | .readLoop => 5
  | .submit => 4
  | .wait => 2
  | .reap => 1
  | .ret _ | .abort => 0

def St.fuel (s : St) : ℕ :=
  10 * (2 * s.blocks + 2 * s.reads + s.writes) + 2 * s.blocks + (s.sq.length + s.flight.length) + s.phase

theorem blocks_withRead (hin : s.insize ≠ 0) : (s.withRead e).blocks + 1 = s.blocks := by
  simp only [St.blocks, St.withRead, St.thisSize]
  by_cases hlt : BS < s.insize
  · rw [if_pos hlt]
    simp only [BS] at hlt ⊢
    omega
  · rw [if_neg hlt]
    simp only [BS] at hlt ⊢
    omega

theorem Book.reads_pos (h : Book N s) {id : ℕ} (hid : id < s.pool.length) (hl : (s.at id).live = true)
    (hr : (s.at id).read = true) : 0 < s.reads := by
  rw [h.reads, List.countP_pos_iff]
  exact ⟨s.at id, at_mem hid, by simp [IoData.reading, hl, hr]⟩

theorem Clear.fuel_lt (h : Clear s) (hb : Book N s) (ho : Owing N s) (hok : Clean s a) (hm : Move e s a s') :
    s'.fuel < s.fuel := by
  cases hm with
  | enter r hp => simp [St.fuel, St.phase, St.blocks, hp]
  | finish r hp => simp [St.fuel, St.phase, St.blocks, hp]
  | readStop r hp => simp [St.fuel, St.phase, St.blocks, hp]
  | queueRead r hp hin =>
    have hblocks := blocks_withRead (e := e) hin
    simp only [St.fuel, St.phase, St.withRead, hp, List.length_append, List.length_singleton] at hblocks ⊢
    omega
  | submitFail r _ _ hr => exact absurd hok.2 (by simpa [Succeeds] using hr)
  | submit r hp =>
    have hr := hok.1.1 hp
    simp [St.fuel, St.phase, St.blocks, St.submit, hp, hr]
    omega
  | noSubmit r hp => simp [St.fuel, St.phase, St.blocks, hp]
  | leave r hp hc =>
    have hg : s.gotComp = true := by
      rcases hc with hl | ⟨hg, -⟩
      · by_contra hg
        exact h.fresh hp (by simpa using hg) hl
      · exact hg
    simp [St.fuel, St.phase, St.blocks, hp, hg]
  | toWait r hp _ hg => simp [St.fuel, St.phase, St.blocks, hp, hg]
  | peek r hp _ hg => simp [St.fuel, St.phase, St.blocks, hp, hg]
  | peekFail r _ _ hr => exact absurd hok.2 (by simpa [Succeeds] using hr)
  | waited r hp => simp [St.fuel, St.phase, St.blocks, hp]
  | waitFail r _ hr => exact absurd hok.2 (by simpa [Succeeds] using hr)
  | @again r c cq _ hc hres =>
    have := h.full c (by simp [hc])
    rw [hres, EAGAIN] at this
    omega
  | @failed r c cq _ hc hres =>
    have := h.full c (by simp [hc])
    omega
  | @short r c cq _ hc _ hne => exact absurd (h.full c (by simp [hc])) hne
  | @readDone r c cq hp hc _ hr =>
    obtain ⟨hid, hl⟩ := hb.head hc
    have hpos := hb.reads_pos hid hl hr
    have hrlen : r = s.sq.length + 1 := hok.1.2 hp
    simp [St.fuel, St.phase, St.blocks, St.withWrite, St.submit, St.push, St.toWrite, hp, hrlen, ho.got hp]
    omega
  | @writeDone r c cq hp hc _ hw =>
    obtain ⟨hid, hl⟩ := hb.head hc
    have hpos := hb.writes_pos hid hl hw
    simp [St.fuel, St.phase, St.blocks, St.writeDone, hp, ho.got hp]
    omega
  | overflow r _ hc hfull =>
    have := hb.free_entry hc
    omega
  | @complete j res q hq =>
    obtain ⟨hj, -⟩ := List.getElem?_eq_some_iff.mp hq
    obtain ⟨pool, out, ht⟩ := transfer_frame s e q res.toNat
    rw [ht]
    simp [St.fuel, St.phase, St.blocks, List.length_eraseIdx, hj]
    omega

/-- The program can go on unless it waits or has returned, and the kernel as long as something is in flight. -/
theorem Clear.stuck (h : Clear s) (hab : s.pc ≠ .abort) (hno : ∀ a, Clean s a → step e s a = none) :
    s.pc = .ret 0 ∧ s.flight = [] := by
  have hprog (r : ℤ) (hr : 0 ≤ r) (h₁ : s.pc = .submit → r = s.sq.length) (h₂ : s.pc = .reap → r = s.sq.length + 1) :
      progStep e s r = none := hno (.prog r) ⟨⟨h₁, h₂⟩, hr⟩
  have hf : s.flight = [] := by
    cases hf : s.flight with
    | nil => rfl
    | cons q qs =>
      have hk := hno (.kernel 0 (s.at q.id).iovLen) ⟨trivial, by simp [Succeeds, hf]⟩
      simp [step, kernelStep, hf] at hk
  refine ⟨?_, hf⟩
  cases hp : s.pc with
  | outer => simpa [progStep, hp] using hprog 0 le_rfl
  | readLoop => simpa [progStep, hp] using hprog 0 le_rfl
  | submit => simpa [progStep, hp] using hprog s.sq.length (by simp)
  | inner => simpa [progStep, hp] using hprog 0 le_rfl
  | wait =>
    have hfed := h.supplied
    simp only [Supplied, hp, St.Fed, hf, ne_eq, not_true_eq_false, false_or] at hfed
    simpa [progStep, hp, hfed] using hprog 0 le_rfl
  | reap =>
    obtain ⟨c, cq, hc⟩ := List.exists_cons_of_ne_nil (h.reaping hp)
    simpa [progStep, hp, St.reap, hc] using hprog (s.sq.length + 1) (by omega)
  | ret v => rw [h.good v hp]
  | abort => exact absurd hp hab

/-- **`copy_file` completes.**  If every call succeeds and every request completes in full, a run of `copy_file` and the kernel
takes at most `22` steps for each block of the input, and `6` more; and where it can go no further, `copy_file` has returned 0,
nothing is queued or in flight, and what has completed has completed in full. -/
theorem clean_copy_completes (e : Env) (N : ℕ) {as : List Act} {s : St} (h : runs (step e) Clean (St.init N) as = some s) :
    as.length ≤ 22 * ((N + BS - 1) / BS) + 6 ∧
    ((∀ a, Clean s a → step e s a = none) →
      s.pc = .ret 0 ∧ s.sq = [] ∧ s.flight = [] ∧ ∀ c ∈ s.cq, c.res = (s.at c.id).iovLen) := by
  have hr : Reach (step e) Clean (St.init N) s := Reach.init.runs h
  refine ⟨?_, fun hno => ?_⟩
  · have hle := length_add_le_of_runs St.fuel (fun s s' a hs hok hst =>
      (reach_clear hs).fuel_lt (reach_book hs.any).1 (reach_owing hs.any) hok (step_move hst)) .init h
    have hinit : (St.init N).fuel = 22 * ((N + BS - 1) / BS) + 6 := by
      simp only [St.fuel, St.phase, St.blocks, St.init, List.length_nil]
      omega
    omega
  · have hc := reach_clear hr
    obtain ⟨hp, hf⟩ := hc.stuck (reach_book hr.any).2 hno
    exact ⟨hp, hc.drained (by simp [hp]) (by simp [hp]), hf, hc.full⟩

/-- A file of one byte: `copy_file` returns, the write completes after that, and nothing is left to do. -/
theorem one_byte_completes : ∃ s, runs (step (sevens 1)) Clean (St.init 1) (copyOneByte ++ [.kernel 0 1]) = some s ∧
    (copyOneByte ++ [Act.kernel 0 1]).length ≤ 22 * ((1 + BS - 1) / BS) + 6 ∧ ∀ c ∈ s.cq, c.res = (s.at c.id).iovLen := by
  have htest : (runs (step (sevens 1)) Clean (St.init 1) (copyOneByte ++ [.kernel 0 1])).map
      (fun s => decide (s.pc = .ret 0) && s.flight.isEmpty) = some true := by decide
  obtain ⟨s, hs, hend⟩ := Option.map_eq_some_iff.mp htest
  simp only [Bool.and_eq_true, decide_eq_true_eq, List.isEmpty_iff] at hend
  obtain ⟨hle, hstop⟩ := clean_copy_completes (sevens 1) 1 hs
  refine ⟨s, hs, hle, (hstop fun a _ => ?_).2.2.2⟩
  cases a with
  | kernel j res => simp [step, kernelStep, hend.2]
  | prog r => simp [step, progStep, hend.1]

end CppNotes.Uring
