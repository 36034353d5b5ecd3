import CppNotes.Uring.Defs

/-!
# What a step of `copy_file` or of the kernel can do

`Move e s a s'` lists the steps by what they do, with their guards.  `step_move` is the only place that looks into
`progStep` and `kernelStep`; the invariants of the copy are proved by cases on `Move`.
-/

namespace CppNotes.Uring

open CppNotes.Lib

/-- The length of the next block. -/
def St.thisSize (s : St) : ℕ := if BS < s.insize then BS else s.insize

/-- The state after a read of the next block was queued. -/
def St.withRead (s : St) (e : Env) : St :=
  { s with
    pool := s.pool ++ [⟨true, s.offset, s.offset, s.thisSize, 0, s.thisSize, e.junk, true⟩]
    sq := s.sq ++ [⟨s.pool.length, true, s.offset⟩]
    insize := s.insize - s.thisSize
    offset := s.offset + s.thisSize
    reads := s.reads + 1 }

/-- The state after a request was put into the submission queue. -/
def St.push (s : St) (id : ℕ) : St := { s with sq := s.sq ++ [⟨id, (s.at id).read, (s.at id).offset⟩] }

/-- The state after the `io_data` was turned from reading to writing. -/
def St.toWrite (s : St) (id : ℕ) : St :=
  { s with
    pool := s.pool.set id { s.at id with
      read := false, offset := (s.at id).firstOffset, iovBase := 0, iovLen := (s.at id).firstLen }
    writeQueued := s.writeQueued ++ [id] }

/-- The state after a complete read: its write is queued and submitted. -/
def St.withWrite (s : St) (id : ℕ) (r : ℤ) : St :=
  let t := ((s.toWrite id).push id).submit r
  { t with pc := .inner, writeLeft := t.writeLeft - (t.at id).firstLen, reads := t.reads - 1, writes := t.writes + 1 }

inductive Move (e : Env) (s : St) : Act → St → Prop
  | enter (r : ℤ) : s.pc = .outer → s.insize ≠ 0 ∨ s.writeLeft ≠ 0 →
      Move e s (.prog r) { s with pc := .readLoop, hadReads := s.reads }
  | finish (r : ℤ) : s.pc = .outer → s.insize = 0 → s.writeLeft = 0 → Move e s (.prog r) { s with pc := .ret 0 }
  | readStop (r : ℤ) : s.pc = .readLoop → s.insize = 0 ∨ QD ≤ s.reads + s.writes ∨ r < 0 ∨ QD ≤ s.sq.length →
      Move e s (.prog r) { s with pc := .submit }
  | queueRead (r : ℤ) : s.pc = .readLoop → s.insize ≠ 0 → s.reads + s.writes < QD → 0 ≤ r → s.sq.length < QD →
      Move e s (.prog r) (s.withRead e)
  | submitFail (r : ℤ) : s.pc = .submit → s.hadReads ≠ s.reads → r < 0 → Move e s (.prog r) { s with pc := .ret 0 }
  | submit (r : ℤ) : s.pc = .submit → s.hadReads ≠ s.reads → 0 ≤ r →
      Move e s (.prog r) { s.submit r with pc := .inner, gotComp := false }
  | noSubmit (r : ℤ) : s.pc = .submit → s.hadReads = s.reads →
      Move e s (.prog r) { s with pc := .inner, gotComp := false }
  | leave (r : ℤ) : s.pc = .inner → s.writeLeft = 0 ∨ s.gotComp = true ∧ s.cq = [] →
      Move e s (.prog r) { s with pc := .outer }
  | toWait (r : ℤ) : s.pc = .inner → s.writeLeft ≠ 0 → s.gotComp = false → Move e s (.prog r) { s with pc := .wait }
  | peek (r : ℤ) : s.pc = .inner → s.writeLeft ≠ 0 → s.gotComp = true → s.cq ≠ [] →
      Move e s (.prog r) { s with pc := .reap }
  | peekFail (r : ℤ) : s.pc = .inner → s.writeLeft ≠ 0 → r < 0 → Move e s (.prog r) { s with pc := .ret 1 }
  | waited (r : ℤ) : s.pc = .wait → s.cq ≠ [] → Move e s (.prog r) { s with pc := .reap, gotComp := true }
  | waitFail (r : ℤ) : s.pc = .wait → r < 0 → Move e s (.prog r) { s with pc := .ret 1, gotComp := true }
  | again (r : ℤ) {c : Cqe} {cq : List Cqe} : s.pc = .reap → s.cq = c :: cq → c.res = -EAGAIN → s.sq.length < QD →
      Move e s (.prog r) { { s with cq := cq }.push c.id with pc := .inner }
  | failed (r : ℤ) {c : Cqe} {cq : List Cqe} : s.pc = .reap → s.cq = c :: cq → c.res < 0 → c.res ≠ -EAGAIN →
      Move e s (.prog r) { s with pc := .ret 1 }
  | short (r : ℤ) {c : Cqe} {cq : List Cqe} : s.pc = .reap → s.cq = c :: cq → 0 ≤ c.res →
      c.res ≠ (s.at c.id).iovLen → s.sq.length < QD →
      Move e s (.prog r) { ({ s with cq := cq }.advance c.id c.res.toNat).push c.id with pc := .inner }
  | readDone (r : ℤ) {c : Cqe} {cq : List Cqe} : s.pc = .reap → s.cq = c :: cq → c.res = (s.at c.id).iovLen →
      (s.at c.id).read = true → s.sq.length < QD → Move e s (.prog r) ({ s with cq := cq }.withWrite c.id r)
  | writeDone (r : ℤ) {c : Cqe} {cq : List Cqe} : s.pc = .reap → s.cq = c :: cq → c.res = (s.at c.id).iovLen →
      (s.at c.id).read = false → Move e s (.prog r) ({ s with cq := cq }.writeDone c.id)
  | overflow (r : ℤ) {c : Cqe} {cq : List Cqe} {s' : St} : s.pc = .reap → s.cq = c :: cq → QD ≤ s.sq.length →
      Move e s (.prog r) s'
  | complete {j : ℕ} {res : ℤ} {q : Sqe} : s.flight[j]? = some q → res ≤ (s.at q.id).iovLen →
      Move e s (.kernel j res) { s.transfer e q res.toNat with
        flight := s.flight.eraseIdx j, cq := s.cq ++ [⟨q.id, res⟩] }

/-! ## The reaped completion -/

theorem queuePrepped_of_room (s : St) (id : ℕ) (h : s.sq.length < QD) : s.queuePrepped id = some (s.push id) :=
  if_pos h

theorem requeue_of_room (s : St) (id : ℕ) (h : s.sq.length < QD) :
    s.requeue id = { s.push id with pc := .inner } := by
  unfold St.requeue
  rw [queuePrepped_of_room s id h]

theorem readDone_of_room (s : St) (id : ℕ) (r : ℤ) (h : s.sq.length < QD) : s.readDone id r = s.withWrite id r := by
  have hw : s.queueWrite id r = some (((s.toWrite id).push id).submit r) := by
    have hq : (s.toWrite id).queuePrepped id = some ((s.toWrite id).push id) := queuePrepped_of_room _ id h
    unfold St.queueWrite
    exact congrArg (Option.map fun s => s.submit r) hq
  unfold St.readDone
  rw [hw]
  rfl

theorem reap_move {e : Env} {s s' : St} {r : ℤ} (hp : s.pc = .reap) (h : s.reap r = some s') :
    Move e s (.prog r) s' := by
  unfold St.reap at h
  split at h
  · simp at h
  · rename_i c cq hc
    by_cases hroom : s.sq.length < QD
    · simp only [Option.some.injEq] at h
      subst h
      split
      · rename_i hneg
        split
        · rename_i ha
          rw [requeue_of_room _ _ (by exact hroom)]
          exact .again r hp hc ha hroom
        · rename_i ha
          exact .failed r hp hc hneg ha
      · rename_i hneg
        split
        · rename_i hs
          rw [requeue_of_room _ _ (by exact hroom)]
          exact .short r hp hc (by omega) hs hroom
        · rename_i hs
          have hfull : c.res = (s.at c.id).iovLen := by simpa using hs
          split
          · rename_i hr
            rw [readDone_of_room _ _ _ (by exact hroom)]
            exact .readDone r hp hc hfull hr hroom
          · rename_i hr
            exact .writeDone r hp hc hfull (by simpa using hr)
    · exact .overflow r hp hc (by omega)

theorem readTurn_move {e : Env} {s : St} {r : ℤ} (hp : s.pc = .readLoop) : Move e s (.prog r) (s.readTurn e r) := by
  unfold St.readTurn
  split
  · rename_i h
    exact .readStop r hp (Or.inl h)
  · rename_i hin
    split
    · rename_i h
      exact .readStop r hp (Or.inr (Or.inl h))
    · rename_i hroom
      by_cases hr : r < 0
      · simp only [St.queueRead, if_pos hr]
        exact .readStop r hp (Or.inr (Or.inr (Or.inl hr)))
      · by_cases hsq : s.sq.length < QD
        · simp only [St.queueRead, if_neg hr, if_pos hsq]
          exact .queueRead r hp hin (by omega) (by omega) hsq
        · simp only [St.queueRead, if_neg hr, if_neg hsq]
          exact .readStop r hp (Or.inr (Or.inr (Or.inr (by omega))))

theorem progStep_move {e : Env} {s s' : St} {r : ℤ} (h : progStep e s r = some s') : Move e s (.prog r) s' := by
  cases hp : s.pc with
  | outer =>
    simp only [progStep, hp, Option.some.injEq] at h
    subst h
    split
    · rename_i hc
      exact .enter r hp hc
    · rename_i hc
      exact .finish r hp (by omega) (by omega)
  | readLoop =>
    simp only [progStep, hp, Option.some.injEq] at h
    subst h
    exact readTurn_move hp
  | submit =>
    simp only [progStep, hp, Option.some.injEq] at h
    subst h
    split
    · rename_i hne
      split
      · rename_i hr
        exact .submitFail r hp hne hr
      · rename_i hr
        exact .submit r hp hne (by omega)
    · rename_i heq
      exact .noSubmit r hp (by simpa using heq)
  | inner =>
    simp only [progStep, hp, Option.some.injEq] at h
    subst h
    split
    · rename_i hw
      exact .leave r hp (Or.inl hw)
    · rename_i hw
      split
      · rename_i hg
        exact .toWait r hp hw hg
      · rename_i hg
        split
        · rename_i hr
          exact .peekFail r hp hw hr
        · split
          · rename_i hc
            exact .leave r hp (Or.inr ⟨by simpa using hg, by simpa using hc⟩)
          · rename_i hc
            exact .peek r hp hw (by simpa using hg) (by simpa using hc)
  | wait =>
    simp only [progStep, hp] at h
    split at h
    · rename_i hr
      obtain rfl := Option.some.inj h
      exact .waitFail r hp hr
    · split at h
      · simp at h
      · rename_i hc
        obtain rfl := Option.some.inj h
        exact .waited r hp (by simpa using hc)
  | reap => exact reap_move hp (by simpa [progStep, hp] using h)
  | ret v => simp [progStep, hp] at h
  | abort => simp [progStep, hp] at h

/-- A transfer changes a buffer or the output file and nothing else. -/
theorem transfer_frame (s : St) (e : Env) (q : Sqe) (n : ℕ) :
    ∃ pool out, s.transfer e q n = { s with pool := pool, out := out } := by
  unfold St.transfer
  split
  · exact ⟨_, s.out, rfl⟩
  · exact ⟨s.pool, _, rfl⟩

theorem step_move {e : Env} {s s' : St} {a : Act} (h : step e s a = some s') : Move e s a s' := by
  cases a with
  | prog r => exact progStep_move h
  | kernel j res =>
    simp only [step, kernelStep] at h
    split at h
    · simp at h
    · rename_i q hq
      split at h
      · rename_i hle
        obtain rfl := Option.some.inj h
        have hm := Move.complete (e := e) hq hle
        obtain ⟨pool, out, ht⟩ := transfer_frame s e q res.toNat
        rw [ht] at hm ⊢
        exact hm
      · simp at h

end CppNotes.Uring
