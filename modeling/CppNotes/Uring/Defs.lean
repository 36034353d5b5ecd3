import CppNotes.Lib.Run
import CppNotes.Lib.ByteFile

/-!
# `copy_file` over an io_uring (`io_uring/iouringcp.c`)

`copy_file` keeps up to `QD` blocks of the input in flight.  Each block has an `io_data` that is first read and
then written; a completion that is short or `-EAGAIN` is queued again.

The state `St` holds the program (`pc` and the locals of `copy_file`), the `io_data` ever allocated (`pool`; a
pointer to one is its index, and `live` is cleared by `free`) and the ring:

* `sq` — the entries prepared by `io_uring_get_sqe` and not yet submitted; the ring has room for `QD` of them;
* `flight` — the requests submitted and not yet completed;
* `cq` — the completions not yet seen.

`step` runs either the kernel or the program.  A kernel step completes any request in flight with any result up
to the length of its iovec and moves that many bytes between the file and the start of the iovec.  A program step
runs from one `pc` to the next; its label is what the library or `malloc` answers there: negative for a failure,
and for `io_uring_submit` the number of entries taken from `sq`.  `wait` blocks while `cq` is empty.

All counters stay between `0` and the size of the input (`Book` in `Uring.Bookkeeping`), so they are natural
numbers: no subtraction of the source goes below zero and nothing overflows.
-/

namespace CppNotes.Uring

open CppNotes.Lib

def QD : ℕ := 2
def BS : ℕ := 16 * 1024
def EAGAIN : ℤ := 11

/-- `struct io_data` and the buffer behind it; `iovBase` is an index into the buffer. -/
structure IoData where
  read : Bool
  firstOffset : ℕ
  offset : ℕ
  firstLen : ℕ
  iovBase : ℕ
  iovLen : ℕ
  buf : ℕ → UInt8
  live : Bool

/-- A submission: `readv` or `writev` of the iovec of an `io_data` at a file offset. -/
structure Sqe where
  id : ℕ
  read : Bool
  offset : ℕ

structure Cqe where
  id : ℕ
  res : ℤ

/-- Where `copy_file` is: at the head of its outer loop, of the loop that queues reads, at the submission that
follows it, at the head of the loop that reaps completions, in `io_uring_wait_cqe`, at a completion it has got;
or it has returned, or the assertion of `queue_prepped` has failed. -/
inductive Pc where
  | outer | readLoop | submit | inner | wait | reap
  | ret (v : ℕ)
  | abort
  deriving DecidableEq

structure St where
  pc : Pc
  insize : ℕ
  writeLeft : ℕ
  offset : ℕ
  reads : ℕ
  writes : ℕ
  hadReads : ℕ
  gotComp : Bool
  pool : List IoData
  sq : List Sqe
  flight : List Sqe
  cq : List Cqe
  out : File
  /-- the `io_data` passed to `queue_write`, in order -/
  writeQueued : List ℕ

/-- The input file, and what `malloc` leaves in a fresh buffer. -/
structure Env where
  inp : File
  junk : ℕ → UInt8

/-- What the kernel or the environment does next. -/
inductive Act where
  | kernel (j : ℕ) (res : ℤ)
  | prog (r : ℤ)
  deriving DecidableEq

/-- `copy_file(ring, insize)` on an empty ring and an output file that was just truncated. -/
def St.init (N : ℕ) : St :=
  { pc := .outer, insize := N, writeLeft := N, offset := 0, reads := 0, writes := 0, hadReads := 0,
    gotComp := false, pool := [], sq := [], flight := [], cq := [], out := File.empty, writeQueued := [] }

/-! ## The queue functions -/

def IoData.null : IoData := ⟨false, 0, 0, 0, 0, 0, fun _ => 0, false⟩

/-- The `io_data` that a pointer points to. -/
def St.at (s : St) (id : ℕ) : IoData := s.pool.getD id .null

/-- `io_uring_submit`: the kernel takes `r` entries of the queue, or fails and takes none. -/
def St.submit (s : St) (r : ℤ) : St :=
  { s with flight := s.flight ++ s.sq.take r.toNat, sq := s.sq.drop r.toNat }

/-- `queue_prepped`; `none` when `io_uring_get_sqe` finds the ring full and the assertion fails. -/
def St.queuePrepped (s : St) (id : ℕ) : Option St :=
  if s.sq.length < QD then
    some { s with sq := s.sq ++ [⟨id, (s.at id).read, (s.at id).offset⟩] }
  else none

/-- `queue_read`; `none` when it returns 1: `malloc` failed (`r < 0`) or the ring is full. -/
def St.queueRead (s : St) (e : Env) (size offset : ℕ) (r : ℤ) : Option St :=
  if r < 0 then none
  else if s.sq.length < QD then
    some { s with
      pool := s.pool ++ [⟨true, offset, offset, size, 0, size, e.junk, true⟩]
      sq := s.sq ++ [⟨s.pool.length, true, offset⟩] }
  else none

/-- `queue_write`; `r` is the answer of its `io_uring_submit`, which it ignores. -/
def St.queueWrite (s : St) (id : ℕ) (r : ℤ) : Option St :=
  let d := s.at id
  let d := { d with read := false, offset := d.firstOffset, iovBase := 0, iovLen := d.firstLen }
  let s := { s with pool := s.pool.set id d, writeQueued := s.writeQueued ++ [id] }
  (s.queuePrepped id).map fun s => s.submit r

/-! ## The program -/

/-- One turn of the loop that queues reads. -/
def St.readTurn (s : St) (e : Env) (r : ℤ) : St :=
  if s.insize = 0 then { s with pc := .submit }
  else if QD ≤ s.reads + s.writes then { s with pc := .submit }
  else
    let thisSize := if BS < s.insize then BS else s.insize
    match s.queueRead e thisSize s.offset r with
    | none => { s with pc := .submit }
    | some s => { s with insize := s.insize - thisSize, offset := s.offset + thisSize, reads := s.reads + 1 }

/-- Queue a request again and go on reaping. -/
def St.requeue (s : St) (id : ℕ) : St :=
  match s.queuePrepped id with
  | none => { s with pc := .abort }
  | some s => { s with pc := .inner }

/-- A short transfer: the iovec is moved behind what was transferred. -/
def St.advance (s : St) (id n : ℕ) : St :=
  let d := s.at id
  { s with pool := s.pool.set id { d with iovBase := d.iovBase + n, iovLen := d.iovLen - n } }

/-- A read is complete: queue the corresponding write. -/
def St.readDone (s : St) (id : ℕ) (r : ℤ) : St :=
  match s.queueWrite id r with
  | none => { s with pc := .abort }
  | some s =>
    { s with pc := .inner, writeLeft := s.writeLeft - (s.at id).firstLen, reads := s.reads - 1, writes := s.writes + 1 }

/-- A write is complete: free its `io_data`. -/
def St.writeDone (s : St) (id : ℕ) : St :=
  { s with pc := .inner, pool := s.pool.set id { s.at id with live := false }, writes := s.writes - 1 }

/-- What is done with the completion at the head of the completion queue; `r` answers the submission that a
complete read makes. -/
def St.reap (s : St) (r : ℤ) : Option St :=
  match s.cq with
  | [] => none
  | c :: cq =>
    let d := s.at c.id
    let seen := { s with cq := cq }
    some (
      if c.res < 0 then
        if c.res = -EAGAIN then seen.requeue c.id else { s with pc := .ret 1 }
      else if c.res ≠ d.iovLen then (seen.advance c.id c.res.toNat).requeue c.id
      else if d.read then seen.readDone c.id r
      else seen.writeDone c.id)

/-- One step of the program. -/
def progStep (e : Env) (s : St) (r : ℤ) : Option St :=
  match s.pc with
  | .outer =>
    some (if s.insize ≠ 0 ∨ s.writeLeft ≠ 0 then { s with pc := .readLoop, hadReads := s.reads }
      else { s with pc := .ret 0 })
  | .readLoop => some (s.readTurn e r)
  | .submit =>
    some (
      if s.hadReads ≠ s.reads then
        if r < 0 then { s with pc := .ret 0 } else { s.submit r with pc := .inner, gotComp := false }
      else { s with pc := .inner, gotComp := false })
  | .inner =>
    some (
      if s.writeLeft = 0 then { s with pc := .outer }
      else if s.gotComp = false then { s with pc := .wait }
      else if r < 0 then { s with pc := .ret 1 }
      else if s.cq.isEmpty then { s with pc := .outer }
      else { s with pc := .reap })
  | .wait =>
    if r < 0 then some { s with pc := .ret 1, gotComp := true }
    else if s.cq.isEmpty then none
    else some { s with pc := .reap, gotComp := true }
  | .reap => s.reap r
  | .ret _ => none
  | .abort => none

/-! ## The kernel -/

/-- `n` bytes are moved between the file and the start of the iovec. -/
def St.transfer (s : St) (e : Env) (q : Sqe) (n : ℕ) : St :=
  let d := s.at q.id
  if q.read then
    { s with pool := s.pool.set q.id { d with
        buf := fun i => if d.iovBase ≤ i ∧ i < d.iovBase + n then e.inp.byte (q.offset + (i - d.iovBase)) else d.buf i } }
  else { s with out := s.out.write q.offset n fun i => d.buf (d.iovBase + i) }

/-- The kernel completes the `j`-th request in flight. -/
def kernelStep (e : Env) (s : St) (j : ℕ) (res : ℤ) : Option St :=
  match s.flight[j]? with
  | none => none
  | some q =>
    if res ≤ (s.at q.id).iovLen then
      let s := s.transfer e q res.toNat
      some { s with flight := s.flight.eraseIdx j, cq := s.cq ++ [⟨q.id, res⟩] }
    else none

def step (e : Env) (s : St) : Act → Option St
  | .kernel j res => kernelStep e s j res
  | .prog r => progStep e s r

end CppNotes.Uring
