import CppNotes.Uring.Bookkeeping

/-!
# What is outstanding when `copy_file` returns and when it waits

`write_left` counts the bytes whose write has not been queued, so the loop ends when the last write is queued: at
least one request is then outstanding (`Owing`), and `copy_file` returns 0 all the same.

A request that is queued again is submitted only with a later submission, which a complete read or a new read makes.
`Stalls` are the completions after which there is neither; a run without them never waits for a completion that cannot
come (`Fed`).
-/

namespace CppNotes.Uring

open CppNotes.Lib

variable {N : ℕ} {e : Env} {s s' : St} {a : Act}

/-! ## Returning 0 -/

/-- What a return of 0 stands for: all of the input has been read and its write requests have completed in full
(only then is an `io_data` freed), and nothing is queued, in flight or unseen. -/
def Settled (N : ℕ) (s : St) : Prop :=
  s.offset = N ∧ (∀ d ∈ s.pool, d.live = false) ∧ s.reads = 0 ∧ s.writes = 0 ∧ s.sq = [] ∧ s.flight = [] ∧ s.cq = []

/-- Where `copy_file` can be once the last write is queued. -/
def Pc.winding : Pc → Bool
  | .inner | .outer | .ret 0 => true
  | _ => false

structure Owing (N : ℕ) (s : St) : Prop where
  late : s.writeLeft = 0 → (N = 0 ∨ 0 < s.writes) ∧ s.pc.winding = true
  owes : s.pc = .ret 0 → N = 0 ∨ 0 < s.reads + s.writes
  grow : s.pc = .readLoop ∨ s.pc = .submit → s.hadReads ≤ s.reads
  got : s.pc = .reap → s.gotComp = true

theorem owing_init (N : ℕ) : Owing N (St.init N) :=
  ⟨fun h => ⟨.inl h, rfl⟩, by simp [St.init], by simp [St.init], by simp [St.init]⟩

/-- In the middle of its loops `copy_file` still has something to queue for writing. -/
theorem Owing.busy (h : Owing N s) {p : Pc} (hp : s.pc = p) (hw : p.winding = false) : s.writeLeft ≠ 0 := by
  intro hl
  have := (h.late hl).2
  rw [hp, hw] at this
  exact absurd this Bool.false_ne_true

/-- The step goes on with the loops: nothing is to be shown about a return. -/
theorem Owing.continue (hl : s'.writeLeft ≠ 0) (hp : s'.pc ≠ .ret 0)
    (hgrow : s'.pc = .readLoop ∨ s'.pc = .submit → s'.hadReads ≤ s'.reads)
    (hgot : s'.pc = .reap → s'.gotComp = true) : Owing N s' :=
  ⟨fun h => absurd h hl, fun h => absurd h hp, hgrow, hgot⟩

/-- The step leads into the loop that reaps completions, or the copy fails. -/
theorem Owing.reaping (hl : s'.writeLeft ≠ 0) (hp : s'.pc = .inner ∨ s'.pc = .wait ∨ s'.pc = .ret 1) : Owing N s' := by
  refine .continue hl ?_ ?_ ?_
  · rcases hp with hp | hp | hp <;> simp [hp]
  · rcases hp with hp | hp | hp <;> simp [hp]
  · rcases hp with hp | hp | hp <;> simp [hp]

theorem Owing.step (h : Owing N s) (hb : Book N s) (hm : Move e s a s') : Owing N s' := by
  have hin : s.writeLeft = 0 → s.insize = 0 := by
    have := hb.left
    omega
  cases hm with
  | enter r hp hc =>
    have hl : s.writeLeft ≠ 0 := by omega
    exact .continue hl (by simp) (fun _ => le_rfl) (by simp)
  | finish r hp _ hl =>
    have hw := (h.late hl).1
    exact ⟨fun _ => ⟨hw, rfl⟩, fun _ => hw.imp_right (Nat.add_pos_right _), by simp, by simp⟩
  | readStop r hp => exact .continue (h.busy hp rfl) (by simp) (fun _ => h.grow (.inl hp)) (by simp)
  | queueRead r hp =>
    refine .continue (h.busy hp rfl) ?_ (fun _ => Nat.le_succ_of_le (h.grow (.inl hp))) ?_
    · simp [St.withRead, hp]
    · simp [St.withRead, hp]
  | submitFail r hp hne =>
    have hr := h.grow (.inr hp)
    have hpos : 0 < s.reads := by omega
    exact ⟨fun hl => absurd hl (h.busy hp rfl), fun _ => .inr (Nat.add_pos_left hpos _), by simp, by simp⟩
  | submit r hp => exact .reaping (h.busy hp rfl) (.inl rfl)
  | noSubmit r hp => exact .reaping (h.busy hp rfl) (.inl rfl)
  | leave r hp => exact ⟨fun hl => ⟨(h.late hl).1, rfl⟩, by simp, by simp, by simp⟩
  | toWait r hp hl => exact .reaping hl (.inr (.inl rfl))
  | peek r hp hl hg => exact .continue hl (by simp) (by simp) fun _ => hg
  | peekFail r hp hl => exact .reaping hl (.inr (.inr rfl))
  | waited r hp => exact .continue (h.busy hp rfl) (by simp) (by simp) fun _ => rfl
  | waitFail r hp => exact .reaping (h.busy hp rfl) (.inr (.inr rfl))
  | again r hp => exact .reaping (h.busy hp rfl) (.inl rfl)
  | failed r hp => exact .reaping (h.busy hp rfl) (.inr (.inr rfl))
  | short r hp => exact .reaping (h.busy hp rfl) (.inl rfl)
  | readDone r hp hc =>
    refine ⟨fun _ => ⟨.inr (Nat.succ_pos _), rfl⟩, ?_, ?_, ?_⟩
    · simp [St.withWrite]
    · simp [St.withWrite]
    · simp [St.withWrite]
  | writeDone r hp => exact .reaping (h.busy hp rfl) (.inl rfl)
  | overflow r _ hc hfull =>
    have := hb.free_entry hc
    omega
  | @complete _ res q =>
    obtain ⟨pool, out, ht⟩ := transfer_frame s e q res.toNat
    rw [ht]
    exact ⟨h.late, h.owes, h.grow, h.got⟩

theorem reach_owing (h : Reach (step e) Any (St.init N) s) : Owing N s :=
  h.invariant (Owing N) (owing_init N) fun _ _ _ hr ho _ hstep => ho.step (reach_book hr).1 (step_move hstep)

/-- **What a return of 0 says.**  All requests are settled only if there was nothing to copy: with a non-empty input
`copy_file` returns 0 in the middle of its last write, or with reads that it could not submit. -/
theorem return_zero_settled_iff (h : Reach (step e) Any (St.init N) s) (hp : s.pc = .ret 0) :
    Settled N s ↔ N = 0 := by
  obtain ⟨hb, -⟩ := reach_book h
  constructor
  · rintro ⟨-, -, hr, hw, -⟩
    have := (reach_owing h).owes hp
    omega
  · rintro rfl
    have hsize := hb.size
    have hoffset : s.offset = 0 := by omega
    have hpool : s.pool = [] := by
      rw [List.eq_nil_iff_forall_not_mem]
      intro d hd
      have := hb.tiles.bounds.2 _ (List.mem_map_of_mem hd)
      omega
    have hr : s.reads = 0 := by rw [hb.reads, hpool]; rfl
    have hw : s.writes = 0 := by rw [hb.writes, hpool]; rfl
    have hids := hb.length_ids
    refine ⟨hoffset, by simp [hpool], hr, hw, ?_, ?_, ?_⟩
    · exact List.eq_nil_of_length_eq_zero (by omega)
    · exact List.eq_nil_of_length_eq_zero (by omega)
    · exact List.eq_nil_of_length_eq_zero (by omega)

theorem return_zero_empty_file : ∃ s, Reach (step (sevens 0)) Any (St.init 0) s ∧ s.pc = .ret 0 ∧ Settled 0 s := by
  obtain ⟨s, hs, hp⟩ := reach_of_runs (step (sevens 0)) Any (St.init 0) [.prog 0] (fun s => decide (s.pc = .ret 0))
    (by decide)
  have hp := of_decide_eq_true hp
  exact ⟨s, hs, hp, (return_zero_settled_iff hs hp).mpr rfl⟩

/-- The read of a file of one byte completes, its write is queued and submitted, and `copy_file` returns. -/
def copyOneByte : List Act :=
  [.prog 0, .prog 0, .prog 0, .prog 1, .prog 0, .kernel 0 1, .prog 0, .prog 1, .prog 0, .prog 0]

theorem return_zero_unsettled :
    ¬ ∀ (e : Env) (N : ℕ) (s : St), Reach (step e) Any (St.init N) s → s.pc = .ret 0 → Settled N s := by
  intro h
  obtain ⟨s, hs, hp⟩ := reach_of_runs (step (sevens 1)) Any (St.init 1) copyOneByte
    (fun s => decide (s.pc = .ret 0 ∧ s.writes = 1)) (by decide)
  obtain ⟨hpc, hw⟩ := of_decide_eq_true hp
  obtain ⟨-, -, -, hw0, -⟩ := h _ _ s hs hpc
  omega

/-! ## Waiting -/

/-- `io_uring_submit` submits every queued entry; that of `queue_write` has its own entry to submit too. -/
def SubmitsAll (s : St) : Act → Prop
  | .kernel _ _ => True
  | .prog r => (s.pc = .submit → r = s.sq.length) ∧ (s.pc = .reap → r = s.sq.length + 1)

/-- `malloc` succeeds. -/
def Allocates (s : St) : Act → Prop
  | .kernel _ _ => True
  | .prog r => s.pc = .readLoop → 0 ≤ r

def Prompt (s : St) (a : Act) : Prop := Allocates s a ∧ SubmitsAll s a

instance (s : St) : (a : Act) → Decidable (SubmitsAll s a)
  | .kernel _ _ => inferInstanceAs (Decidable True)
  | .prog _ => inferInstanceAs (Decidable (_ ∧ _))

instance (s : St) : (a : Act) → Decidable (Allocates s a)
  | .kernel _ _ => inferInstanceAs (Decidable True)
  | .prog _ => inferInstanceAs (Decidable (_ → _))

instance (s : St) (a : Act) : Decidable (Prompt s a) := inferInstanceAs (Decidable (_ ∧ _))

/-- A new read can be queued. -/
def St.CanRead (s : St) : Prop := s.insize ≠ 0 ∧ s.reads + s.writes < QD

/-- Some request was submitted and has not been reaped. -/
def St.Fed (s : St) : Prop := s.flight ≠ [] ∨ s.cq ≠ []

/-- The last outstanding completion is about to be reaped, and it leads to no further submission: it is short or
`-EAGAIN` and no new read can be queued, or it is the end of a write and all of the input has been read. -/
def Stalls (s : St) : Prop :=
  s.pc = .reap ∧ s.flight = [] ∧ s.cq.length = 1 ∧ ∃ c ∈ s.cq,
    (c.res = -EAGAIN ∨ 0 ≤ c.res ∧ c.res ≠ (s.at c.id).iovLen) ∧ ¬ s.CanRead ∨
      c.res = (s.at c.id).iovLen ∧ (s.at c.id).read = false ∧ s.insize = 0

instance (s : St) : Decidable s.CanRead := inferInstanceAs (Decidable (_ ∧ _))

instance (s : St) : Decidable (Stalls s) := inferInstanceAs (Decidable (_ ∧ _ ∧ _ ∧ ∃ c ∈ s.cq, _))

/-- Where the next completion to wait for will come from. -/
def Supplied (s : St) : Prop :=
  match s.pc with
  | .outer => s.writeLeft = 0 ∨ s.Fed ∨ s.CanRead
  | .readLoop => (s.Fed ∨ s.CanRead ∨ s.hadReads < s.reads) ∧ (s.hadReads < s.reads → s.sq ≠ [])
  | .submit => (s.Fed ∨ s.hadReads < s.reads) ∧ (s.hadReads < s.reads → s.sq ≠ [])
  | .inner => s.writeLeft = 0 ∨ s.Fed ∨ s.gotComp = true ∧ s.CanRead
  | .wait => s.Fed
  | .reap | .ret _ | .abort => True

/-- The kernel supplies a completion. -/
theorem Supplied.of_fed (h : Supplied s) (hf : s'.Fed) (hpc : s'.pc = s.pc) (hsq : s'.sq = s.sq)
    (hg : s'.gotComp = s.gotComp) (hhad : s'.hadReads = s.hadReads) (hreads : s'.reads = s.reads) : Supplied s' := by
  unfold Supplied at h ⊢
  rw [hpc, hsq, hg, hhad, hreads]
  cases hp : s.pc with
  | outer => exact .inr (.inl hf)
  | readLoop => exact ⟨.inl hf, by simpa [hp] using And.right (hp ▸ h)⟩
  | submit => exact ⟨.inl hf, by simpa [hp] using And.right (hp ▸ h)⟩
  | inner => exact .inr (.inl hf)
  | wait => exact hf
  | reap => trivial
  | ret => trivial
  | abort => trivial

/-- A request that is queued again leaves something to wait for. -/
theorem fed_of_requeue {c : Cqe} {cq : List Cqe} (hp : s.pc = .reap) (hc : s.cq = c :: cq)
    (hres : c.res = -EAGAIN ∨ 0 ≤ c.res ∧ c.res ≠ (s.at c.id).iovLen) (hs : ¬ Stalls s) :
    (s.flight ≠ [] ∨ cq ≠ []) ∨ s.CanRead := by
  by_contra! hcon
  obtain ⟨⟨hf, rfl⟩, hr⟩ := hcon
  exact hs ⟨hp, hf, by simp [hc], c, by simp [hc], .inl ⟨hres, hr⟩⟩

theorem Supplied.step (h : Supplied s) (hb : Book N s) (ho : Owing N s) (hprompt : Prompt s a) (hs : ¬ Stalls s)
    (hm : Move e s a s') : Supplied s' := by
  cases hm with
  | enter r hp hc =>
    have hleft := hb.left
    simp only [Supplied, hp] at h
    refine ⟨?_, fun hlt => absurd hlt (lt_irrefl _)⟩
    rcases h with hl | hf | hr
    · omega
    · exact .inl hf
    · exact .inr (.inl hr)
  | finish => trivial
  | readStop r hp hc =>
    have hlen := hb.length_ids
    have hr := hprompt.1 hp
    simp only [Supplied, hp] at h
    refine ⟨?_, h.2⟩
    rcases h.1 with hf | ⟨hin, hroom⟩ | hlt
    · exact .inl hf
    · omega
    · exact .inr hlt
  | queueRead r hp =>
    have hg := ho.grow (.inl hp)
    have hpc : (s.withRead e).pc = .readLoop := hp
    simp only [Supplied, hpc]
    exact ⟨.inr (.inr (Nat.lt_succ_of_le hg)), fun _ => by simp [St.withRead]⟩
  | submitFail => trivial
  | submit r hp hne =>
    have hg := ho.grow (.inr hp)
    have hr := hprompt.2.1 hp
    simp only [Supplied, hp] at h
    have hsq := h.2 (by omega)
    refine .inr (.inl (.inl ?_))
    simp [St.submit, hr, hsq]
  | noSubmit r hp heq =>
    simp only [Supplied, hp] at h
    rcases h.1 with hf | hlt
    · exact .inr (.inl hf)
    · omega
  | leave r hp =>
    simp only [Supplied, hp] at h
    rcases h with hl | hf | hr
    · exact .inl hl
    · exact .inr (.inl hf)
    · exact .inr (.inr hr.2)
  | toWait r hp hl hg =>
    simp only [Supplied, hp] at h
    rcases h with h0 | hf | ⟨hg', -⟩
    · exact absurd h0 hl
    · exact hf
    · simp [hg] at hg'
  | peek => trivial
  | peekFail => trivial
  | waited => trivial
  | waitFail => trivial
  | again r hp hc hres =>
    rcases fed_of_requeue hp hc (.inl hres) hs with hf | hr
    · exact .inr (.inl hf)
    · exact .inr (.inr ⟨ho.got hp, hr⟩)
  | failed => trivial
  | short r hp hc h0 hne =>
    rcases fed_of_requeue hp hc (.inr ⟨h0, hne⟩) hs with hf | hr
    · exact .inr (.inl hf)
    · exact .inr (.inr ⟨ho.got hp, hr⟩)
  | @readDone r c cq hp hc =>
    have hr := hprompt.2.2 hp
    refine .inr (.inl (.inl ?_))
    simp [St.withWrite, St.submit, St.push, St.toWrite, hr]
  | @writeDone r c cq hp hc hfull hw =>
    have hpos := hb.writes_pos (hb.head hc).1 (hb.head hc).2 hw
    by_cases hlast : s.flight = [] ∧ cq = []
    · have hin : s.insize ≠ 0 := fun hin =>
        hs ⟨hp, hlast.1, by simp [hc, hlast.2], c, by simp [hc], .inr ⟨hfull, hw, hin⟩⟩
      have hroom := hb.room
      exact .inr (.inr ⟨ho.got hp, hin, by show s.reads + (s.writes - 1) < QD; omega⟩)
    · exact .inr (.inl (not_and_or.mp hlast))
  | overflow r _ hc hfull =>
    have := hb.free_entry hc
    omega
  | @complete _ res q =>
    obtain ⟨pool, out, ht⟩ := transfer_frame s e q res.toNat
    rw [ht]
    exact h.of_fed (.inr (by simp)) rfl rfl rfl rfl rfl

/-- `malloc` and `io_uring_submit` do what they should, and no completion stalls the copy. -/
def Flows (s : St) (a : Act) : Prop := Prompt s a ∧ ¬ Stalls s

instance (s : St) (a : Act) : Decidable (Flows s a) := inferInstanceAs (Decidable (_ ∧ _))

theorem reach_supplied (h : Reach (step e) Flows (St.init N) s) : Supplied s := by
  refine h.invariant Supplied ?_ ?_
  · by_cases hN : N = 0
    · exact .inl hN
    · exact .inr (.inr ⟨hN, Nat.two_pos⟩)
  · intro s s' a hr hs hok hstep
    exact hs.step (reach_book hr.any).1 (reach_owing hr.any) hok.1 hok.2 (step_move hstep)

/-- **No wait in vain.**  If no completion stalls the copy, then some request is with the kernel or its completion is
unseen whenever `copy_file` waits. -/
theorem wait_has_request (h : Reach (step e) Flows (St.init N) s) (hp : s.pc = .wait) : s.flight ≠ [] ∨ s.cq ≠ [] := by
  have hs := reach_supplied h
  simp only [Supplied, hp] at hs
  exact hs

theorem wait_has_request_one_byte : ∃ s, Reach (step (sevens 1)) Flows (St.init 1) s ∧ s.pc = .wait ∧
    (s.flight ≠ [] ∨ s.cq ≠ []) := by
  obtain ⟨s, hs, hp⟩ := reach_of_runs (step (sevens 1)) Flows (St.init 1) [.prog 0, .prog 0, .prog 0, .prog 1, .prog 0]
    (fun s => decide (s.pc = .wait)) (by decide)
  have hp := of_decide_eq_true hp
  exact ⟨s, hs, hp, wait_has_request hs hp⟩

/-- The only read completes with `-EAGAIN`; it is queued again, and no submission follows. -/
def tryAgain : List Act :=
  [.prog 0, .prog 0, .prog 0, .prog 1, .prog 0, .kernel 0 (-EAGAIN), .prog 0, .prog 1, .prog 0, .prog 0, .prog 0, .prog 1,
    .prog 0]

theorem requeued_read_waits_in_vain : ¬ ∀ (e : Env) (N : ℕ) (s : St), Reach (step e) Prompt (St.init N) s →
    s.pc = .wait → s.flight ≠ [] ∨ s.cq ≠ [] := by
  intro h
  obtain ⟨s, hs, hp⟩ := reach_of_runs (step (sevens 1)) Prompt (St.init 1) tryAgain
    (fun s => decide (s.pc = .wait) && s.flight.isEmpty && s.cq.isEmpty) (by decide)
  simp only [Bool.and_eq_true, decide_eq_true_eq, List.isEmpty_iff] at hp
  obtain ⟨⟨hpc, hf⟩, hc⟩ := hp
  rcases h _ _ s hs hpc with hne | hne
  · exact hne hf
  · exact hne hc

/-! ## Stalled copies -/

/-- With nothing submitted, nothing to reap and no read to queue, `copy_file` goes round its outer loop and waits. -/
theorem dry_copy_waits {s₀ : St} (h : Reach (step e) Prompt s₀ s) (hp : s.pc = .inner) (hl : s.writeLeft ≠ 0)
    (hg : s.gotComp = true) (hf : s.flight = []) (hc : s.cq = []) (hr : ¬ s.CanRead) :
    ∃ s', Reach (step e) Prompt s₀ s' ∧ s'.pc = .wait ∧ s'.flight = [] ∧ s'.cq = [] := by
  have h₁ : Reach (step e) Prompt s₀ { s with pc := .outer } :=
    h.next (a := .prog 0) (by simp [Prompt, Allocates, SubmitsAll, hp]) (by simp [step, progStep, hp, hl, hg, hc])
  have h₂ : Reach (step e) Prompt s₀ { s with pc := .readLoop, hadReads := s.reads } :=
    h₁.next (a := .prog 0) (by simp [Prompt, Allocates, SubmitsAll]) (by simp [step, progStep, hl])
  have h₃ : Reach (step e) Prompt s₀ { s with pc := .submit, hadReads := s.reads } := by
    refine h₂.next (a := .prog 0) (by simp [Prompt, Allocates, SubmitsAll]) ?_
    by_cases hin : s.insize = 0
    · simp [step, progStep, St.readTurn, hin]
    · have hfull : QD ≤ s.reads + s.writes := by
        by_contra hlt
        exact hr ⟨hin, by omega⟩
      simp [step, progStep, St.readTurn, hin, hfull]
  have h₄ : Reach (step e) Prompt s₀ { s with pc := .inner, hadReads := s.reads, gotComp := false } :=
    h₃.next (a := .prog s.sq.length) (by simp [Prompt, Allocates, SubmitsAll]) (by simp [step, progStep])
  have h₅ : Reach (step e) Prompt s₀ { s with pc := .wait, hadReads := s.reads, gotComp := false } :=
    h₄.next (a := .prog 0) (by simp [Prompt, Allocates, SubmitsAll]) (by simp [step, progStep, hl])
  exact ⟨_, h₅, rfl, hf, hc⟩

/-- **Every stall leads to a wait in vain**, if the next `io_uring_peek_cqe` does not fail. -/
theorem stalled_copy_waits (h : Reach (step e) Prompt (St.init N) s) (hs : Stalls s) :
    ∃ s', Reach (step e) Prompt (St.init N) s' ∧ s'.pc = .wait ∧ s'.flight = [] ∧ s'.cq = [] := by
  have hb := (reach_book h.any).1
  have ho := reach_owing h.any
  obtain ⟨hp, hf, hlen, c, hmem, hstall⟩ := hs
  obtain ⟨c', hc⟩ := List.length_eq_one_iff.mp hlen
  obtain rfl : c = c' := by simpa [hc] using hmem
  have hroom := hb.free_entry hc
  have hreap {s' : St} (hs' : s.reap (s.sq.length + 1) = some s') : Reach (step e) Prompt (St.init N) s' :=
    h.next (a := .prog (s.sq.length + 1)) (by simp [Prompt, Allocates, SubmitsAll, hp]) (by simpa [step, progStep, hp] using hs')
  have hl := ho.busy hp rfl
  have hg := ho.got hp
  rcases hstall with ⟨hres | ⟨h0, hne⟩, hr⟩ | ⟨hfull, hw, hin⟩
  · refine dry_copy_waits (s := { { s with cq := [] }.push c.id with pc := .inner }) (hreap ?_) rfl hl hg hf rfl hr
    simp only [St.reap, hc]
    rw [if_pos (by rw [hres]; decide), if_pos hres, requeue_of_room _ _ (by exact hroom)]
  · refine dry_copy_waits (s := { ({ s with cq := [] }.advance c.id c.res.toNat).push c.id with pc := .inner })
      (hreap ?_) rfl hl hg hf rfl hr
    simp only [St.reap, hc]
    rw [if_neg (by omega), if_pos hne, requeue_of_room _ _ (by exact hroom)]
  · refine dry_copy_waits (s := { s with cq := [] }.writeDone c.id) (hreap ?_) rfl hl hg hf rfl fun hr => hr.1 hin
    simp only [St.reap, hc]
    rw [if_neg (by omega), if_neg (by simpa using hfull), if_neg (by simp [hw])]

end CppNotes.Uring
