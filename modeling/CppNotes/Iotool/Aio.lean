import CppNotes.Iotool.Pattern
import CppNotes.Lib.Run
import CppNotes.Lib.Writes

/-!
# `do_aio_wrv_bytes_str` (`iotool_cpp/iotool.c`)

The engine prepares one write request for each pair of an offset and a size, each with a buffer of its own that is filled
with the string, submits all of them, and waits until as many events have come as there are requests.

The engine and the kernel take turns.  `prog r` is the next step of the engine with the answer `r` of its call (of an
allocation only whether it is `NULL`), `mem m` the allocation of a buffer; `complete k res` completes one of the requests
in flight, in any order and with any result.  Every failure behind `do_open` goes to `err_out`, where 0 is returned.

The pairs are the numbers that the arguments stand for (an argument that is no number aborts the process), and their
arguments come in twos.
-/

namespace CppNotes.Iotool.Aio

open CppNotes.Lib

structure Pair where
  off : Int64
  cnt : UInt64
  deriving DecidableEq

structure Job where
  pairs : List Pair
  str : CStr

def Job.iocbCnt (job : Job) : ℕ := job.pairs.length

/-- A request as `io_prep_pwrite` leaves it. -/
structure Iocb where
  offset : Int64
  nbytes : UInt64
  buf : Mem

/-- `obj` is the place of the request in `p_iocb_array`. -/
structure Event where
  obj : ℕ
  res : Int64

/-- Where the engine is: at the call it makes next, in a fill loop that does not end, or at its end. -/
inductive Pc where
  | openFile | setup | newArray | newEvents
  | newIocb | newBuf
  | submit | getevents
  | hang
  | ret (v : ℤ)
  deriving DecidableEq

/-- `iocbs` is `p_iocb_array` as far as it is filled; `flight` are the requests that the kernel has accepted and not
completed, and `cq` the completions that the engine has not seen. -/
structure St where
  pc : Pc
  iocbs : List Iocb
  flight : List (Iocb × ℕ)
  cq : List Event
  totalIoDone : ℕ
  sys : Sys

/-- `argc < 7` if there is no pair. -/
def St.init (job : Job) (f : File) : St where
  pc := if job.pairs = [] then .ret (-1) else .openFile
  iocbs := []
  flight := []
  cq := []
  totalIoDone := 0
  sys := ⟨f, [], [], []⟩

inductive Act where
  | prog (r : ℤ)
  | mem (m : Option Mem)
  | complete (k : ℕ) (res : Int64)

/-- `goto err_out` -/
def St.fail (s : St) (l : Line) : St := { s with pc := .ret 0, sys := s.sys.print l }

/-- The request for the next pair, with its filled buffer. -/
def St.prep (s : St) (job : Job) (p : Pair) (buf : Mem) : St :=
  let iocbs := s.iocbs ++ [⟨p.off, p.cnt, buf⟩]
  if iocbs.length < job.iocbCnt then { s with pc := .newIocb, iocbs := iocbs }
  else
    { s with
      pc := .submit
      iocbs := iocbs
      sys := s.sys.printAll ([.plan job.iocbCnt job.str.bytes] ++
        iocbs.zipIdx.map (fun q => .iocb q.2 q.1.offset q.1.nbytes) ++ [.ready]) }

def bufStep (job : Job) (s : St) (m : Option Mem) : Option St :=
  if s.pc = .newBuf then
    match job.pairs[s.iocbs.length]?, m with
    | none, _ => none
    | some p, none => some (s.fail (.bufFailed p.cnt))
    | some p, some heap =>
      match fillStr job.str p.cnt heap with
      | none => some { s with pc := .hang }
      | some buf => some (s.prep job p buf)
  else none

/-- `n` events are seen; the exit test follows. -/
def St.reap (s : St) (job : Job) (n : ℕ) : St :=
  let done := s.totalIoDone + n
  let lines := if n = 0 then [.noneDone]
    else .someDone n job.iocbCnt :: (s.cq.take n).map fun ev => .event ev.obj ev.res
  { s with
    cq := s.cq.drop n
    totalIoDone := done
    pc := if job.iocbCnt ≤ done then .ret 0 else .getevents
    sys := s.sys.printAll (if job.iocbCnt ≤ done then lines ++ [.allDone] else lines) }

def progStep (job : Job) (s : St) (r : ℤ) : Option St :=
  match s.pc with
  | .openFile => some { s with pc := if r < 0 then .ret (-1) else .setup }
  | .setup => some (if r ≠ 0 then s.fail .setupFailed else { s with pc := .newArray })
  | .newArray => some (if r = 0 then s.fail .arrayFailed else { s with pc := .newEvents })
  | .newEvents => some (if r = 0 then s.fail .eventsFailed else { s with pc := .newIocb })
  | .newIocb => some (if r = 0 then s.fail .iocbFailed else { s with pc := .newBuf })
  | .submit =>
    if r < 0 then some (s.fail (.submitFailed r))
    else if r.toNat ≤ job.iocbCnt then some { s with pc := .getevents, flight := (s.iocbs.take r.toNat).zipIdx }
    else none
  | .getevents =>
    if r < 0 then some (s.fail .geteventsFailed)
    else if r.toNat ≤ s.cq.length ∧ r.toNat ≤ job.iocbCnt then some (s.reap job r.toNat)
    else none
  | .newBuf | .hang | .ret _ => none

def step (job : Job) (s : St) : Act → Option St
  | .prog r => progStep job s r
  | .mem m => bufStep job s m
  | .complete k res =>
    match s.flight[k]? with
    | none => none
    | some q =>
      some { s with
        flight := s.flight.eraseIdx k
        cq := s.cq ++ [⟨q.2, res⟩]
        sys := s.sys.pwrite q.1.buf q.1.nbytes q.1.offset res }

/-! ## What a step does -/

/-- A call of the engine that lets it go on, or a `do_open` that fails. -/
inductive Next : Pc → ℤ → Pc → Prop
  | notOpened {r : ℤ} (hr : r < 0) : Next .openFile r (.ret (-1))
  | opened {r : ℤ} (hr : 0 ≤ r) : Next .openFile r .setup
  | setup : Next .setup 0 .newArray
  | newArray {r : ℤ} (hr : r ≠ 0) : Next .newArray r .newEvents
  | newEvents {r : ℤ} (hr : r ≠ 0) : Next .newEvents r .newIocb
  | newIocb {r : ℤ} (hr : r ≠ 0) : Next .newIocb r .newBuf

/-- A call that fails, with what is printed then. -/
inductive Fails : Pc → ℤ → Line → Prop
  | setup {r : ℤ} (hr : r ≠ 0) : Fails .setup r .setupFailed
  | newArray : Fails .newArray 0 .arrayFailed
  | newEvents : Fails .newEvents 0 .eventsFailed
  | newIocb : Fails .newIocb 0 .iocbFailed
  | submit {r : ℤ} (hr : r < 0) : Fails .submit r (.submitFailed r)
  | getevents {r : ℤ} (hr : r < 0) : Fails .getevents r .geteventsFailed

/-- `n` requests are accepted. -/
def St.submit (s : St) (n : ℕ) : St := { s with pc := .getevents, flight := (s.iocbs.take n).zipIdx }

/-- The request at `k` completes. -/
def St.complete (s : St) (k : ℕ) (q : Iocb × ℕ) (res : Int64) : St :=
  { s with
    flight := s.flight.eraseIdx k
    cq := s.cq ++ [⟨q.2, res⟩]
    sys := s.sys.pwrite q.1.buf q.1.nbytes q.1.offset res }

/-- The step, case by case. -/
inductive Moves (job : Job) (s : St) : Act → St → Prop
  | next {r : ℤ} {p : Pc} (h : Next s.pc r p) : Moves job s (.prog r) { s with pc := p }
  | fail {r : ℤ} {l : Line} (h : Fails s.pc r l) : Moves job s (.prog r) (s.fail l)
  | noBuf {p : Pair} (hp : s.pc = .newBuf) (hpair : job.pairs[s.iocbs.length]? = some p) :
    Moves job s (.mem none) (s.fail (.bufFailed p.cnt))
  | hang {p : Pair} {heap : Mem} (hp : s.pc = .newBuf) (hpair : job.pairs[s.iocbs.length]? = some p)
    (hbuf : fillStr job.str p.cnt heap = none) : Moves job s (.mem (some heap)) { s with pc := .hang }
  | prep {p : Pair} {heap buf : Mem} (hp : s.pc = .newBuf) (hpair : job.pairs[s.iocbs.length]? = some p)
    (hbuf : fillStr job.str p.cnt heap = some buf) : Moves job s (.mem (some heap)) (s.prep job p buf)
  | submit {n : ℕ} (hp : s.pc = .submit) (hn : n ≤ job.iocbCnt) : Moves job s (.prog n) (s.submit n)
  | reap {n : ℕ} (hp : s.pc = .getevents) (hn : n ≤ s.cq.length) (hcnt : n ≤ job.iocbCnt) :
    Moves job s (.prog n) (s.reap job n)
  | complete {k : ℕ} {q : Iocb × ℕ} {res : Int64} (hq : s.flight[k]? = some q) :
    Moves job s (.complete k res) (s.complete k q res)

section Moves

variable {job : Job} {s s' : St}

theorem moves_of_prog {r : ℤ} (hs : progStep job s r = some s') : Moves job s (.prog r) s' := by
  obtain ⟨pc, iocbs, flight, cq, done, sys⟩ := s
  unfold progStep at hs
  cases pc with
  | openFile =>
    obtain rfl := Option.some.inj hs
    by_cases hr : r < 0
    · simp only [if_pos hr]
      exact .next (.notOpened hr)
    · simp only [if_neg hr]
      exact .next (.opened (Int.not_lt.mp hr))
  | setup =>
    obtain rfl := Option.some.inj hs
    by_cases hr : r = 0
    · subst hr
      exact .next .setup
    · rw [if_pos hr]
      exact .fail (.setup hr)
  | newArray =>
    obtain rfl := Option.some.inj hs
    by_cases hr : r = 0
    · subst hr
      exact .fail .newArray
    · rw [if_neg hr]
      exact .next (.newArray hr)
  | newEvents =>
    obtain rfl := Option.some.inj hs
    by_cases hr : r = 0
    · subst hr
      exact .fail .newEvents
    · rw [if_neg hr]
      exact .next (.newEvents hr)
  | newIocb =>
    obtain rfl := Option.some.inj hs
    by_cases hr : r = 0
    · subst hr
      exact .fail .newIocb
    · rw [if_neg hr]
      exact .next (.newIocb hr)
  | submit =>
    dsimp only at hs
    split_ifs at hs with hr hn
    · obtain rfl := Option.some.inj hs
      exact .fail (.submit hr)
    · obtain rfl := Option.some.inj hs
      obtain ⟨n, rfl⟩ := Int.eq_ofNat_of_zero_le (Int.not_lt.mp hr)
      exact .submit rfl hn
  | getevents =>
    dsimp only at hs
    split_ifs at hs with hr hn
    · obtain rfl := Option.some.inj hs
      exact .fail (.getevents hr)
    · obtain rfl := Option.some.inj hs
      obtain ⟨n, rfl⟩ := Int.eq_ofNat_of_zero_le (Int.not_lt.mp hr)
      exact .reap rfl hn.1 hn.2
  | newBuf | hang | ret v => simp at hs

theorem moves_of_mem {m : Option Mem} (hs : bufStep job s m = some s') : Moves job s (.mem m) s' := by
  obtain ⟨hp, hs⟩ := Option.ite_none_right_eq_some.mp hs
  cases hpair : job.pairs[s.iocbs.length]? with
  | none => simp [hpair] at hs
  | some p =>
    rw [hpair] at hs
    cases m with
    | none =>
      obtain rfl := Option.some.inj hs
      exact .noBuf hp hpair
    | some heap =>
      cases hbuf : fillStr job.str p.cnt heap with
      | none =>
        simp only [hbuf] at hs
        obtain rfl := Option.some.inj hs
        exact .hang hp hpair hbuf
      | some buf =>
        simp only [hbuf] at hs
        obtain rfl := Option.some.inj hs
        exact .prep hp hpair hbuf

theorem moves_of_step {a : Act} (hs : step job s a = some s') : Moves job s a s' := by
  cases a with
  | prog r => exact moves_of_prog hs
  | mem m => exact moves_of_mem hs
  | complete k res =>
    cases hq : s.flight[k]? with
    | none => simp [step, hq] at hs
    | some q =>
      rw [step, hq] at hs
      obtain rfl := Option.some.inj hs
      exact .complete hq

end Moves

/-! ## Runs in which nothing fails -/

/-- No call fails, every request is accepted and written in full, and every buffer comes from memory that meets `H`. -/
def Clean (job : Job) (H : Pair → Mem → Prop) (s : St) : Act → Prop
  | .prog r =>
    match s.pc with
    | .setup => r = 0
    | .newArray | .newEvents | .newIocb => r ≠ 0
    | .submit => r = job.iocbCnt
    | .getevents => 0 ≤ r
    | _ => True
  | .mem m => ∃ heap, m = some heap ∧ ∀ p, job.pairs[s.iocbs.length]? = some p → H p heap
  | .complete k res => ∀ q, s.flight[k]? = some q → res.toInt = q.1.nbytes.toNat

/-- The request is the one for the pair. -/
structure Fits (job : Job) (H : Pair → Mem → Prop) (q : Iocb) (p : Pair) : Prop where
  offset : q.offset = p.off
  nbytes : q.nbytes = p.cnt
  buf : ∃ heap, H p heap ∧ fillStr job.str p.cnt heap = some q.buf

def Iocb.block (q : Iocb) : Block := ⟨unat q.offset, q.nbytes.toNat, q.buf⟩

/-- The places before the submission. -/
def Pc.early : Pc → Bool
  | .openFile | .setup | .newArray | .newEvents | .newIocb | .newBuf | .submit => true
  | _ => false

/-- The requests behind the submission: those of `order` are written, in this order, the others are in flight. -/
structure Written (f : File) (s : St) (order : List Iocb) : Prop where
  perm : (order ++ s.flight.map Prod.fst).Perm s.iocbs
  file : s.sys.file = f.writeAll (order.map Iocb.block)
  calls : ∀ q ∈ order, ∃ p ∈ s.sys.calls, p.offset = q.offset ∧ p.res.toInt = q.nbytes.toNat
  seen : s.totalIoDone + s.cq.length = order.length

structure Inv (job : Job) (H : Pair → Mem → Prop) (f : File) (s : St) : Prop where
  fits : List.Forall₂ (Fits job H) s.iocbs (job.pairs.take s.iocbs.length)
  early : s.pc.early = true → s.flight = [] ∧ s.cq = [] ∧ s.totalIoDone = 0 ∧ s.sys.file = f
  ready : s.pc = .submit → s.iocbs.length = job.iocbCnt
  late : s.pc = .getevents ∨ s.pc = .ret 0 → s.iocbs.length = job.iocbCnt ∧ ∃ order, Written f s order
  exit : s.pc = .ret 0 → job.iocbCnt ≤ s.totalIoDone

variable {job : Job} {H : Pair → Mem → Prop} {f : File} {s s' : St} {a : Act}

theorem inv_init (job : Job) (H : Pair → Mem → Prop) (f : File) : Inv job H f (St.init job f) := by
  unfold St.init
  split <;> constructor <;> simp [Pc.early]

/-- A step that only moves on, to a place before the submission. -/
theorem Inv.goto (h : Inv job H f s) (hp : s.pc.early = true) {p : Pc} (he : p.early = true) (hs : p ≠ .submit) :
    Inv job H f { s with pc := p } :=
  ⟨h.fits, fun _ => h.early hp, fun hsub => absurd hsub hs,
    fun hl => by rcases hl with hl | hl <;> simp [show p = _ from hl, Pc.early] at he,
    fun hx => by simp [show p = _ from hx, Pc.early] at he⟩

/-- A step to a place where nothing is claimed. -/
theorem Inv.stop (h : Inv job H f s) {p : Pc} (hp : p = .hang ∨ p = .ret (-1)) : Inv job H f { s with pc := p } := by
  refine ⟨h.fits, ?_, ?_, ?_, ?_⟩ <;> rcases hp with rfl | rfl <;> simp [Pc.early]

theorem Inv.prep (h : Inv job H f s) (hp : s.pc = .newBuf) {p : Pair} {buf heap : Mem}
    (hpair : job.pairs[s.iocbs.length]? = some p) (hH : H p heap) (hbuf : fillStr job.str p.cnt heap = some buf) :
    Inv job H f (s.prep job p buf) := by
  have hearly := h.early (by simp [hp, Pc.early])
  have hlt : s.iocbs.length < job.iocbCnt := (List.getElem?_eq_some_iff.mp hpair).1
  have hfits : List.Forall₂ (Fits job H) (s.iocbs ++ [⟨p.off, p.cnt, buf⟩])
      (job.pairs.take (s.iocbs ++ [(⟨p.off, p.cnt, buf⟩ : Iocb)]).length) := by
    rw [List.length_append, List.length_singleton, List.take_add_one, hpair]
    exact List.rel_append h.fits (.cons ⟨rfl, rfl, heap, hH, hbuf⟩ .nil)
  unfold St.prep
  simp only
  split
  · exact ⟨hfits, fun _ => hearly, by simp, by simp, by simp⟩
  · rename_i hge
    refine ⟨hfits, fun _ => hearly, fun _ => ?_, by simp, by simp⟩
    simp only [List.length_append, List.length_singleton] at hge ⊢
    omega

theorem Inv.reap (h : Inv job H f s) (hp : s.pc = .getevents) {n : ℕ} (hn : n ≤ s.cq.length) :
    Inv job H f (s.reap job n) := by
  obtain ⟨hlen, order, hw⟩ := h.late (.inl hp)
  have hseen := hw.seen
  have hpc : (s.reap job n).pc.early = false ∧ (s.reap job n).pc ≠ .submit := by
    unfold St.reap
    simp only
    split <;> simp [Pc.early]
  refine ⟨h.fits, fun he => by simp [hpc.1] at he, fun hs => absurd hs hpc.2, fun _ => ⟨hlen, order, ?_⟩, fun hx => ?_⟩
  · refine ⟨hw.perm, hw.file, hw.calls, ?_⟩
    simp only [St.reap, List.length_drop]
    omega
  · by_contra hlt
    have hlt : ¬ job.iocbCnt ≤ s.totalIoDone + n := hlt
    simp [St.reap, hlt] at hx

theorem Inv.submit (h : Inv job H f s) (hp : s.pc = .submit) :
    Inv job H f (s.submit job.iocbCnt) := by
  obtain ⟨-, hcq, hdone, hfile⟩ := h.early (by simp [hp, Pc.early])
  have hlen := h.ready hp
  refine ⟨h.fits, by simp [St.submit, Pc.early], by simp [St.submit], fun _ => ⟨hlen, [], ?_⟩, by simp [St.submit]⟩
  refine ⟨?_, hfile, by simp, by simp [St.submit, hcq, hdone]⟩
  simp [St.submit, ← hlen, List.zipIdx_map_fst]

theorem Inv.complete (h : Inv job H f s) {k : ℕ} {q : Iocb × ℕ} {res : Int64} (hq : s.flight[k]? = some q)
    (hres : res.toInt = q.1.nbytes.toNat) :
    Inv job H f (s.complete k q res) := by
  obtain ⟨hk, rfl⟩ := List.getElem?_eq_some_iff.mp hq
  refine ⟨h.fits, fun he => ?_, h.ready, fun hl => ?_, h.exit⟩
  · simp [(h.early he).1] at hk
  · obtain ⟨hlen, order, hw⟩ := h.late hl
    refine ⟨hlen, order ++ [s.flight[k].1], ?_, ?_, ?_, ?_⟩
    · have hperm := (List.getElem_cons_eraseIdx_perm hk).map Prod.fst
      rw [List.append_assoc]
      exact (hperm.append_left order).trans hw.perm
    · have hfile := hw.file
      simp only [St.complete, Sys.pwrite, hfile, List.map_append, List.map_singleton, File.writeAll_append]
      rw [hres, Int.toNat_natCast]
      rfl
    · intro p hp
      rcases List.mem_append.mp hp with hp | hp
      · obtain ⟨c, hc, hcp⟩ := hw.calls p hp
        exact ⟨c, List.mem_append_left _ hc, hcp⟩
      · obtain rfl := List.mem_singleton.mp hp
        exact ⟨_, List.mem_append_right _ List.mem_cons_self, rfl, hres⟩
    · have hseen := hw.seen
      simp only [St.complete, List.length_append, List.length_singleton]
      omega

theorem Inv.next (h : Inv job H f s) {r : ℤ} {p : Pc} (hn : Next s.pc r p) : Inv job H f { s with pc := p } := by
  have hgoto (hp : s.pc.early = true) (he : p.early = true) (hs : p ≠ .submit) := h.goto hp he hs
  generalize hpc : s.pc = pc at hn hgoto
  cases hn with
  | notOpened => exact h.stop (.inr rfl)
  | opened | setup | newArray | newEvents | newIocb => exact hgoto rfl rfl (by simp)

/-- A clean run does not fail. -/
theorem not_clean_of_fails {r : ℤ} {l : Line} (hf : Fails s.pc r l) (hok : Clean job H s (.prog r)) : False := by
  simp only [Clean] at hok
  generalize s.pc = pc at hf hok
  cases hf with
  | setup hr => exact hr hok
  | newArray | newEvents | newIocb => exact hok rfl
  | submit hr =>
    have hok : r = (job.iocbCnt : ℤ) := hok
    omega
  | getevents hr =>
    have hok : 0 ≤ r := hok
    omega

theorem Inv.move (h : Inv job H f s) (hok : Clean job H s a) (hm : Moves job s a s') : Inv job H f s' := by
  cases hm with
  | next hn => exact h.next hn
  | fail hf => exact (not_clean_of_fails hf hok).elim
  | noBuf =>
    obtain ⟨heap, heq, -⟩ := hok
    simp at heq
  | hang => exact h.stop (.inl rfl)
  | prep hp hpair hbuf =>
    obtain ⟨heap, heq, hH⟩ := hok
    obtain rfl := Option.some.inj heq
    exact h.prep hp hpair (hH _ hpair) hbuf
  | submit hp =>
    simp only [Clean, hp] at hok
    obtain rfl := Int.ofNat.inj hok
    exact h.submit hp
  | reap hp hn => exact h.reap hp hn
  | complete hq => exact h.complete hq (hok _ hq)

theorem reach_inv (h : Reach (step job) (Clean job H) (St.init job f) s) : Inv job H f s :=
  h.invariant (Inv job H f) (inv_init job H f) fun _ _ _ _ hI hok hs => hI.move hok (moves_of_step hs)

/-- **A return of 0 without failures.**  Every pair has had its request, with a buffer filled from memory that meets `H`;
the file is what the requests leave in some order, and each of them was written in full. -/
theorem return_zero (h : Reach (step job) (Clean job H) (St.init job f) s) (hp : s.pc = .ret 0) :
    List.Forall₂ (Fits job H) s.iocbs job.pairs ∧
    (∃ order : List Iocb, order.Perm s.iocbs ∧ s.sys.file = f.writeAll (order.map Iocb.block)) ∧
    ∀ q ∈ s.iocbs, ∃ p ∈ s.sys.calls, p.offset = q.offset ∧ p.res.toInt = q.nbytes.toNat := by
  have hI := reach_inv h
  obtain ⟨hlen, order, hw⟩ := hI.late (.inr hp)
  have hfits := hI.fits
  rw [hlen, Job.iocbCnt, List.take_length] at hfits
  have hexit := hI.exit hp
  have hseen := hw.seen
  have hcount := hw.perm.length_eq
  rw [List.length_append, List.length_map] at hcount
  have hnone : s.flight = [] := List.length_eq_zero_iff.mp (by omega)
  have hperm : order.Perm s.iocbs := by simpa [hnone] using hw.perm
  exact ⟨hfits, ⟨order, hperm, hw.file⟩, fun q hq => hw.calls q (hperm.mem_iff.mpr hq)⟩

end CppNotes.Iotool.Aio
