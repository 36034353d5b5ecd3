import CppNotes.Lib.Run
import CppNotes.Lib.Window

/-!
# A client that never blocks (`unpv13e/nonblock/strclinonb.c`)

`str_cli` copies its standard input to a socket and the socket to its standard output.  All three are nonblocking, and there is
a buffer for each direction: `to` and `fr`, each with a pointer where the next bytes go in and one where the next bytes come
out.  One turn of the loop calls `select` and then does the two reads and the two writes, each if `select` found it possible or
if there is something new to be written.

A step is a turn of the loop.  Its label is what the system answers: the sets that `select` leaves, and the results of the
reads and writes.  An answer that the system cannot give (more bytes than there is room for, a descriptor that was not asked
for) is no step.  What was read and written is kept in the state, the operations on the socket in their order.
-/

namespace CppNotes.Net

open CppNotes.Lib

def MAXLINE : ℕ := 4096

/-- The sets of descriptors for `select`: those to be read and those to be written. -/
structure Sets where
  stdin : Bool
  sockRead : Bool
  sockWrite : Bool
  stdout : Bool
  deriving DecidableEq

/-- What `read` answers: nothing there, an error, or bytes; no bytes at the end of the file. -/
inductive Rd where
  | wouldBlock
  | error
  | data (bs : List UInt8)

/-- What `write` answers: no room there, an error, or how many bytes it has taken. -/
inductive Wr where
  | wouldBlock
  | error
  | wrote (n : ℕ)

structure Ans where
  ready : Sets
  stdin : Rd
  sock : Rd
  stdout : Wr
  sockWrite : Wr

/-- What is done to the socket. -/
inductive SockOp where
  | send (bs : List UInt8)
  | shutdown
  deriving DecidableEq

/-- Whether the loop goes on, `str_cli` has returned, or the process has ended with a message. -/
inductive Status where
  | running
  | returned
  | readStdinError | readSockError | writeStdoutError | writeSockError
  | serverTerminated
  deriving DecidableEq

structure St where
  toBuf : Window UInt8 MAXLINE
  frBuf : Window UInt8 MAXLINE
  stdineof : Bool
  status : Status
  typed : List UInt8
  received : List UInt8
  shown : List UInt8
  sock : List SockOp

def St.init (to₀ fr₀ : ℕ → UInt8) : St := ⟨.start to₀, .start fr₀, false, .running, [], [], [], []⟩

/-- The sets that `select` is called with. -/
def St.asked (s : St) : Sets where
  stdin := decide (s.stdineof = false ∧ s.toBuf.iptr < MAXLINE)
  sockRead := decide (s.frBuf.iptr < MAXLINE)
  sockWrite := decide (s.toBuf.optr ≠ s.toBuf.iptr)
  stdout := decide (s.frBuf.optr ≠ s.frBuf.iptr)

/-- `select` leaves what it was asked for. -/
def Sets.le (a b : Sets) : Bool :=
  (!a.stdin || b.stdin) && (!a.sockRead || b.sockRead) && (!a.sockWrite || b.sockWrite) && (!a.stdout || b.stdout)

def St.shutdown (s : St) : St := { s with sock := s.sock ++ [.shutdown] }

/-- The first part of a turn: standard input.  With what was read the socket is tried at once. -/
def St.readStdin (s : St) (w : Sets) : Rd → Option (St × Sets)
  | .wouldBlock => some (s, w)
  | .error => some ({ s with status := .readStdinError }, w)
  | .data [] =>
    let s := { s with stdineof := true }
    some (if s.toBuf.optr = s.toBuf.iptr then s.shutdown else s, w)
  | .data (b :: bs) =>
    if h : (b :: bs).length ≤ s.toBuf.room then
      some ({ s with toBuf := s.toBuf.put (b :: bs) h, typed := s.typed ++ b :: bs }, { w with sockWrite := true })
    else none

/-- The second part: the socket.  The end of the file is the end of `str_cli`. -/
def St.readSock (s : St) (w : Sets) : Rd → Option (St × Sets)
  | .wouldBlock => some (s, w)
  | .error => some ({ s with status := .readSockError }, w)
  | .data [] => some ({ s with status := if s.stdineof then .returned else .serverTerminated }, w)
  | .data (b :: bs) =>
    if h : (b :: bs).length ≤ s.frBuf.room then
      some ({ s with frBuf := s.frBuf.put (b :: bs) h, received := s.received ++ b :: bs }, { w with stdout := true })
    else none

/-- The third part: standard output. -/
def St.writeStdout (s : St) : Wr → Option St
  | .wouldBlock => some s
  | .error => some { s with status := .writeStdoutError }
  | .wrote n =>
    if h : n ≤ s.frBuf.iptr - s.frBuf.optr then
      some { s with frBuf := (s.frBuf.take n h).rewind, shown := s.shown ++ s.frBuf.content.take n }
    else none

/-- The last part: what is to be sent, and the end of it if that was all. -/
def St.writeSock (s : St) : Wr → Option St
  | .wouldBlock => some s
  | .error => some { s with status := .writeSockError }
  | .wrote n =>
    if h : n ≤ s.toBuf.iptr - s.toBuf.optr then
      let s' := { s with toBuf := (s.toBuf.take n h).rewind, sock := s.sock ++ [.send (s.toBuf.content.take n)] }
      some (if (s.toBuf.take n h).optr = (s.toBuf.take n h).iptr ∧ s.stdineof = true then s'.shutdown else s')
    else none

/-- A part of a turn: done if the loop still goes on and the condition holds. -/
def St.part {α : Type} (s : St) (c : Prop) [Decidable c] (skip : α) (body : Option α) : Option α :=
  if s.status = .running ∧ c then body else some skip

/-- A turn of the loop. -/
def step (s : St) (a : Ans) : Option St :=
  if s.status = .running ∧ a.ready.le s.asked = true then do
    let (s, w) ← s.part (a.ready.stdin = true) (s, a.ready) (s.readStdin a.ready a.stdin)
    let (s, w) ← s.part (w.sockRead = true) (s, w) (s.readSock w a.sock)
    let s ← s.part (w.stdout = true ∧ 0 < s.frBuf.iptr - s.frBuf.optr) s (s.writeStdout a.stdout)
    s.part (w.sockWrite = true ∧ 0 < s.toBuf.iptr - s.toBuf.optr) s (s.writeSock a.sockWrite)
  else none

/-! ## What a turn keeps -/

/-- The bytes that were sent. -/
def SockOp.bytes : SockOp → List UInt8
  | send bs => bs
  | shutdown => []

def St.sent (s : St) : List UInt8 := s.sock.flatMap SockOp.bytes

/-- The loop is past the end of the input and has sent everything. -/
def St.finished (s : St) : Prop := s.stdineof = true ∧ s.toBuf.content = []

instance (s : St) : Decidable s.finished := inferInstanceAs (Decidable (_ ∧ _))

/-- What holds between the parts of a turn: nothing is lost or reordered on the two ways, the socket is shut down when all is
sent and not before, an empty buffer is at its start, and the ends of the two inputs were read into a buffer with room. -/
structure Inv (s : St) : Prop where
  toSock : s.typed = s.sent ++ s.toBuf.content
  toStdout : s.received = s.shown ++ s.frBuf.content
  ops : ∃ sends : List (List UInt8), s.sock = sends.map SockOp.send ++ if s.finished then [.shutdown] else []
  toStart : s.toBuf.content = [] → s.toBuf.iptr = 0
  frStart : s.frBuf.content = [] → s.frBuf.iptr = 0
  eofRoom : s.stdineof = true → s.toBuf.iptr < MAXLINE
  retRoom : s.status = .returned → s.stdineof = true ∧ s.frBuf.iptr < MAXLINE

theorem inv_init (to₀ fr₀ : ℕ → UInt8) : Inv (St.init to₀ fr₀) where
  toSock := rfl
  toStdout := rfl
  ops := ⟨[], by simp [St.init, St.finished]⟩
  toStart _ := rfl
  frStart _ := rfl
  eofRoom h := Bool.noConfusion h
  retRoom h := Status.noConfusion h

variable {s s' : St} {w w' : Sets}

theorem Inv.failed (h : Inv s) {x : Status} (hx : x ≠ .returned) : Inv { s with status := x } :=
  { h with retRoom := fun hr => absurd hr hx }

/-- Before the end of the input nothing is shut down. -/
theorem Inv.ops_of_not (h : Inv s) (hf : ¬ s.finished) : ∃ sends : List (List UInt8), s.sock = sends.map SockOp.send := by
  obtain ⟨sends, hs⟩ := h.ops
  rw [if_neg hf, List.append_nil] at hs
  exact ⟨sends, hs⟩

theorem sent_shutdown (s : St) : s.shutdown.sent = s.sent := by
  simp [St.sent, St.shutdown, SockOp.bytes]

/-- At the end of the input, the socket is shut down at once if nothing waits to be sent. -/
theorem Inv.endOfStdin (h : Inv s) (heof : s.stdineof = false) (hroom : s.toBuf.iptr < MAXLINE)
    (hrun : s.status = .running) :
    Inv (if s.toBuf.optr = s.toBuf.iptr then St.shutdown { s with stdineof := true } else { s with stdineof := true }) := by
  obtain ⟨sends, hsock⟩ := h.ops_of_not (by simp [St.finished, heof])
  have hret (hr : s.status = .returned) : True ∧ s.frBuf.iptr < MAXLINE := by simp [hrun] at hr
  split
  · rename_i hempty
    have hnil := Window.content_eq_nil.mpr hempty
    refine ⟨?_, h.toStdout, ⟨sends, ?_⟩, h.toStart, h.frStart, fun _ => hroom, fun hr => ⟨rfl, (hret hr).2⟩⟩
    · rw [sent_shutdown]
      exact h.toSock
    · simp [St.shutdown, hsock, St.finished, hnil]
  · rename_i hne
    refine ⟨h.toSock, h.toStdout, ⟨sends, ?_⟩, h.toStart, h.frStart, fun _ => hroom, fun hr => ⟨rfl, (hret hr).2⟩⟩
    simp [hsock, St.finished, Window.content_eq_nil, hne]

theorem Inv.readStdin (h : Inv s) {r : Rd} (hs : s.readStdin w r = some (s', w')) (heof : s.stdineof = false)
    (hroom : s.toBuf.iptr < MAXLINE) (hrun : s.status = .running) : Inv s' := by
  cases r with
  | wouldBlock =>
    obtain ⟨rfl, -⟩ := Prod.mk.inj (Option.some.inj hs)
    exact h
  | error =>
    obtain ⟨rfl, -⟩ := Prod.mk.inj (Option.some.inj hs)
    exact h.failed (by decide)
  | data bs =>
    cases bs with
    | nil =>
      obtain ⟨rfl, -⟩ := Prod.mk.inj (Option.some.inj hs)
      exact h.endOfStdin heof hroom hrun
    | cons b bs =>
      obtain ⟨hfit, hs⟩ := Option.dite_none_right_eq_some.mp hs
      obtain ⟨rfl, -⟩ := Prod.mk.inj (Option.some.inj hs)
      obtain ⟨sends, hsock⟩ := h.ops_of_not (by simp [St.finished, heof])
      refine ⟨?_, h.toStdout, ⟨sends, ?_⟩, fun hnil => ?_, h.frStart, ?_, ?_⟩
      · show s.typed ++ _ = s.sent ++ _
        rw [Window.content_put, h.toSock, List.append_assoc]
      · simp [hsock, St.finished, heof]
      · exact absurd hnil (Window.content_put_ne_nil hfit (by simp))
      · simp [heof]
      · simp [hrun]

/-- Reading standard input says nothing about the socket's side. -/
theorem readStdin_keeps {r : Rd} (hs : s.readStdin w r = some (s', w')) :
    s'.frBuf = s.frBuf ∧ w'.sockRead = w.sockRead := by
  cases r with
  | wouldBlock | error =>
    obtain ⟨rfl, rfl⟩ := Prod.mk.inj (Option.some.inj hs)
    exact ⟨rfl, rfl⟩
  | data bs =>
    cases bs with
    | nil =>
      obtain ⟨rfl, rfl⟩ := Prod.mk.inj (Option.some.inj hs)
      dsimp only
      split <;> exact ⟨rfl, rfl⟩
    | cons b bs =>
      obtain ⟨_, hs⟩ := Option.dite_none_right_eq_some.mp hs
      obtain ⟨rfl, rfl⟩ := Prod.mk.inj (Option.some.inj hs)
      exact ⟨rfl, rfl⟩

theorem Inv.readSock (h : Inv s) {r : Rd} (hs : s.readSock w r = some (s', w')) (hroom : s.frBuf.iptr < MAXLINE)
    (hrun : s.status = .running) : Inv s' := by
  cases r with
  | wouldBlock =>
    obtain ⟨rfl, -⟩ := Prod.mk.inj (Option.some.inj hs)
    exact h
  | error =>
    obtain ⟨rfl, -⟩ := Prod.mk.inj (Option.some.inj hs)
    exact h.failed (by decide)
  | data bs =>
    cases bs with
    | nil =>
      obtain ⟨rfl, -⟩ := Prod.mk.inj (Option.some.inj hs)
      by_cases heof : s.stdineof = true
      · rw [if_pos heof]
        exact { h with retRoom := fun _ => ⟨heof, hroom⟩ }
      · rw [if_neg heof]
        exact h.failed (by decide)
    | cons b bs =>
      obtain ⟨hfit, hs⟩ := Option.dite_none_right_eq_some.mp hs
      obtain ⟨rfl, -⟩ := Prod.mk.inj (Option.some.inj hs)
      refine ⟨h.toSock, ?_, h.ops, h.toStart, fun hnil => ?_, h.eofRoom, ?_⟩
      · show s.received ++ _ = s.shown ++ _
        rw [Window.content_put, h.toStdout, List.append_assoc]
      · exact absurd hnil (Window.content_put_ne_nil hfit (by simp))
      · simp [hrun]

theorem Inv.writeStdout (h : Inv s) {r : Wr} (hs : s.writeStdout r = some s') (hrun : s.status = .running) : Inv s' := by
  cases r with
  | wouldBlock => exact Option.some.inj hs ▸ h
  | error => exact Option.some.inj hs ▸ h.failed (by decide)
  | wrote n =>
    obtain ⟨hn, hs⟩ := Option.dite_none_right_eq_some.mp hs
    obtain rfl := Option.some.inj hs
    refine ⟨h.toSock, ?_, h.ops, h.toStart, Window.iptr_rewind, h.eofRoom, by simp [hrun]⟩
    show s.received = s.shown ++ _ ++ _
    rw [Window.content_rewind, Window.content_take, List.append_assoc, List.take_append_drop]
    exact h.toStdout

theorem Inv.writeSock (h : Inv s) {r : Wr} (hs : s.writeSock r = some s') (hne : s.toBuf.content ≠ []) : Inv s' := by
  obtain ⟨sends, hsock⟩ := h.ops_of_not fun hf => hne hf.2
  cases r with
  | wouldBlock => exact Option.some.inj hs ▸ h
  | error => exact Option.some.inj hs ▸ h.failed (by decide)
  | wrote n =>
    obtain ⟨hn, hs⟩ := Option.dite_none_right_eq_some.mp hs
    obtain rfl := Option.some.inj hs
    have hsent : s.typed = s.sent ++ s.toBuf.content.take n ++ (s.toBuf.take n hn).rewind.content := by
      rw [Window.content_rewind, Window.content_take, List.append_assoc, List.take_append_drop]
      exact h.toSock
    have hroom (heof : s.stdineof = true) : (s.toBuf.take n hn).rewind.iptr < MAXLINE :=
      Nat.lt_of_le_of_lt Window.rewind_iptr_le (h.eofRoom heof)
    split
    · rename_i hdone
      have hnil := Window.content_eq_nil.mpr hdone.1
      refine ⟨?_, h.toStdout, ⟨sends ++ [s.toBuf.content.take n], ?_⟩, Window.iptr_rewind, h.frStart, hroom, h.retRoom⟩
      · simpa [St.sent, St.shutdown, SockOp.bytes] using hsent
      · simp [St.shutdown, hsock, St.finished, hdone.2, hnil]
    · rename_i hnot
      refine ⟨?_, h.toStdout, ⟨sends ++ [s.toBuf.content.take n], ?_⟩, Window.iptr_rewind, h.frStart, hroom, h.retRoom⟩
      · simpa [St.sent, SockOp.bytes] using hsent
      · rw [if_neg]
        · simp [hsock]
        · rintro ⟨heof, hnil⟩
          exact hnot ⟨Window.content_eq_nil.mp (Window.content_rewind.symm.trans hnil), heof⟩

/-- A part of a turn is left out or done while the loop goes on. -/
theorem part_cases {α : Type} {c : Prop} [Decidable c] {skip r : α} {body : Option α} (h : s.part c skip body = some r) :
    r = skip ∨ s.status = .running ∧ c ∧ body = some r := by
  unfold St.part at h
  split at h
  · rename_i hc
    exact .inr ⟨hc.1, hc.2, h⟩
  · exact .inl (Option.some.inj h).symm

theorem le_stdin {a b : Sets} (h : a.le b = true) (ha : a.stdin = true) : b.stdin = true := by
  simp [Sets.le, ha] at h
  exact h.1.1.1

theorem le_sockRead {a b : Sets} (h : a.le b = true) (ha : a.sockRead = true) : b.sockRead = true := by
  simp [Sets.le, ha] at h
  exact h.1.1.2

theorem Inv.turn (h : Inv s) {a : Ans} (hs : step s a = some s') : Inv s' := by
  obtain ⟨⟨-, hle⟩, hs⟩ := Option.ite_none_right_eq_some.mp hs
  obtain ⟨⟨s₁, w₁⟩, h₁, hs⟩ := Option.bind_eq_some_iff.mp hs
  obtain ⟨⟨s₂, w₂⟩, h₂, hs⟩ := Option.bind_eq_some_iff.mp hs
  obtain ⟨s₃, h₃, h₄⟩ := Option.bind_eq_some_iff.mp hs
  have hsock (hr : w₁.sockRead = true) (hfr : s₁.frBuf = s.frBuf) (hw : w₁.sockRead = a.ready.sockRead) :
      s₁.frBuf.iptr < MAXLINE := by
    have hask := le_sockRead hle (hw ▸ hr)
    simp only [St.asked, decide_eq_true_eq] at hask
    exact hfr ▸ hask
  have i₁ : Inv s₁ ∧ s₁.frBuf = s.frBuf ∧ w₁.sockRead = a.ready.sockRead := by
    rcases part_cases h₁ with heq | ⟨hrun, hc, hb⟩
    · obtain ⟨rfl, rfl⟩ := Prod.mk.inj heq
      exact ⟨h, rfl, rfl⟩
    · have hask := le_stdin hle hc
      simp only [St.asked, decide_eq_true_eq] at hask
      exact ⟨h.readStdin hb hask.1 hask.2 hrun, readStdin_keeps hb⟩
  have i₂ : Inv s₂ := by
    rcases part_cases h₂ with heq | ⟨hrun, hc, hb⟩
    · obtain ⟨rfl, -⟩ := Prod.mk.inj heq
      exact i₁.1
    · exact i₁.1.readSock hb (hsock hc i₁.2.1 i₁.2.2) hrun
  have i₃ : Inv s₃ := by
    rcases part_cases h₃ with rfl | ⟨hrun, -, hb⟩
    · exact i₂
    · exact i₂.writeStdout hb hrun
  rcases part_cases h₄ with rfl | ⟨-, hc, hb⟩
  · exact i₃
  · refine i₃.writeSock hb fun hnil => ?_
    have := Window.content_eq_nil.mp hnil
    omega

variable {to₀ fr₀ : ℕ → UInt8}

theorem inv_reach (hr : Reach step Any (St.init to₀ fr₀) s) : Inv s :=
  hr.invariant Inv (inv_init to₀ fr₀) fun _ _ _ _ h _ hs => h.turn hs

/-! ## The two directions -/

/-- Whatever the system answers, what was sent and what the buffer holds is what was typed, in its order; and the same from the
socket to standard output. -/
theorem relay_in_order (hr : Reach step Any (St.init to₀ fr₀) s) :
    s.typed = s.sent ++ s.toBuf.content ∧ s.received = s.shown ++ s.frBuf.content :=
  ⟨(inv_reach hr).toSock, (inv_reach hr).toStdout⟩

/-- `ab` is typed, and the socket takes the `a` only. -/
def partSent : Ans := ⟨⟨true, false, false, false⟩, .data [97, 98], .wouldBlock, .wouldBlock, .wrote 1⟩

theorem part_sent_in_order : ∃ s, Reach step Any (St.init (fun _ => 0) fun _ => 0) s ∧
    s.sent = [97] ∧ s.toBuf.content = [98] ∧ s.typed = s.sent ++ s.toBuf.content := by
  obtain ⟨s, hr, hs⟩ := reach_of_runs step Any (St.init (fun _ => 0) fun _ => 0) [partSent]
    (fun s => s.sent = [97] ∧ s.toBuf.content = [98]) (by decide)
  simp only [decide_eq_true_eq] at hs
  exact ⟨s, hr, hs.1, hs.2, (relay_in_order hr).1⟩

/-- The socket is shut down once at most, as the last thing done to it: when the input has ended and all that was typed is
sent. -/
theorem fin_once_after_all (hr : Reach step Any (St.init to₀ fr₀) s) :
    (.shutdown ∈ s.sock ↔ s.stdineof = true ∧ s.sent = s.typed) ∧
    ∀ before after, s.sock = before ++ .shutdown :: after → after = [] ∧ before.flatMap SockOp.bytes = s.typed := by
  have h := inv_reach hr
  obtain ⟨sends, hops⟩ := h.ops
  have hsent : s.sent = s.typed ↔ s.toBuf.content = [] := by
    rw [h.toSock, List.self_eq_append_right]
  have hno : SockOp.shutdown ∉ sends.map SockOp.send := by simp
  by_cases hf : s.finished
  · rw [if_pos hf] at hops
    have hall := hsent.mpr hf.2
    refine ⟨⟨fun _ => ⟨hf.1, hall⟩, fun _ => by simp [hops]⟩, fun before after hsplit => ?_⟩
    obtain ⟨hb, -, ha⟩ := (List.append_cons_inj_of_notMem hno (by simp)).mp (hops.symm.trans hsplit)
    refine ⟨ha.symm, ?_⟩
    rw [← hall, St.sent, hsplit, ← ha]
    simp [SockOp.bytes]
  · rw [if_neg hf, List.append_nil] at hops
    rw [← hops] at hno
    refine ⟨⟨fun hm => absurd hm hno, fun hall => absurd ⟨hall.1, hsent.mp hall.2⟩ hf⟩, fun before after hsplit => ?_⟩
    exact absurd (by simp [hsplit]) hno

/-- The input ends while the `b` is still held; the socket is shut down after it. -/
def endedLate : List Ans :=
  [partSent, ⟨⟨true, false, false, false⟩, .data [], .wouldBlock, .wouldBlock, .wouldBlock⟩,
    ⟨⟨false, false, true, false⟩, .wouldBlock, .wouldBlock, .wouldBlock, .wrote 1⟩]

theorem fin_after_held_byte : ∃ s, Reach step Any (St.init (fun _ => 0) fun _ => 0) s ∧
    s.sock = [.send [97], .send [98], .shutdown] ∧ s.typed = [97, 98] := by
  obtain ⟨s, hr, hs⟩ := reach_of_runs step Any (St.init (fun _ => 0) fun _ => 0) endedLate
    (fun s => s.sock = [.send [97], .send [98], .shutdown]) (by decide)
  simp only [decide_eq_true_eq] at hs
  exact ⟨s, hr, hs, ((fin_once_after_all hr).2 [.send [97], .send [98]] [] hs).2.symm⟩

/-! ## Waiting and returning -/

/-- As long as the loop goes on, `select` waits for each direction: for the socket's input or for room on standard output, and,
until the input ends, for standard input or for room in the socket. -/
theorem select_always_asks (hr : Reach step Any (St.init to₀ fr₀) s) :
    (s.asked.sockRead = true ∨ s.asked.stdout = true) ∧
    (s.stdineof = false → s.asked.stdin = true ∨ s.asked.sockWrite = true) := by
  have h := inv_reach hr
  -- an empty buffer is at its start, so it has room
  have hroom {w : Window UInt8 MAXLINE} (hw : w.content = [] → w.iptr = 0) : w.iptr < MAXLINE ∨ w.optr ≠ w.iptr := by
    by_cases hempty : w.optr = w.iptr
    · rw [hw (Window.content_eq_nil.mpr hempty)]
      exact .inl (by decide)
    · exact .inr hempty
  simp only [St.asked, decide_eq_true_eq]
  exact ⟨hroom h.frStart, fun heof => (hroom h.toStart).imp_left fun hlt => ⟨heof, hlt⟩⟩

theorem asks_with_held_byte : ∃ s, Reach step Any (St.init (fun _ => 0) fun _ => 0) s ∧ s.toBuf.content = [98] ∧
    (s.asked.sockRead = true ∨ s.asked.stdout = true) := by
  obtain ⟨s, hr, hs⟩ := reach_of_runs step Any (St.init (fun _ => 0) fun _ => 0) [partSent]
    (fun s => s.toBuf.content = [98]) (by decide)
  exact ⟨s, hr, of_decide_eq_true hs, (select_always_asks hr).1⟩

/-- An answer with the bytes `bs`, if there are any. -/
def Rd.some (bs : List UInt8) : Rd := if bs = [] then .wouldBlock else .data bs

/-- Both inputs have bytes, and neither output takes any. -/
def inputsOnly (xs ys : List UInt8) : Ans := ⟨⟨true, true, false, false⟩, .some xs, .some ys, .wouldBlock, .wouldBlock⟩

/-- Both inputs have ended. -/
def inputsEnd : Ans := ⟨⟨true, true, false, false⟩, .data [], .data [], .wouldBlock, .wouldBlock⟩

/-- Only the inputs have been heard of. -/
def St.held (to₀ fr₀ : ℕ → UInt8) (xs ys : List UInt8) (hx : xs.length ≤ (Window.start to₀ : Window UInt8 MAXLINE).room)
    (hy : ys.length ≤ (Window.start fr₀ : Window UInt8 MAXLINE).room) : St :=
  { St.init to₀ fr₀ with
    toBuf := (Window.start to₀).put xs hx, frBuf := (Window.start fr₀).put ys hy, typed := xs, received := ys }

theorem part_self {c : Prop} [Decidable c] : s.part c s (some s) = some s := ite_self _

/-- A turn with both inputs there and no room on either output. -/
theorem step_of_reads {a : Ans} {s₁ s₂ : St} {w₁ w₂ : Sets} (hrun : s.status = .running) (hask : a.ready.le s.asked = true)
    (hin : a.ready.stdin = true) (h₁ : s.readStdin a.ready a.stdin = some (s₁, w₁)) (hrun₁ : s₁.status = .running)
    (hsock : w₁.sockRead = true) (h₂ : s₁.readSock w₁ a.sock = some (s₂, w₂)) (hout : a.stdout = .wouldBlock)
    (hto : a.sockWrite = .wouldBlock) : step s a = some s₂ := by
  have h₁' : s.part (a.ready.stdin = true) (s, a.ready) (s.readStdin a.ready a.stdin) = some (s₁, w₁) :=
    (if_pos ⟨hrun, hin⟩).trans h₁
  have h₂' : s₁.part (w₁.sockRead = true) (s₁, w₁) (s₁.readSock w₁ a.sock) = some (s₂, w₂) :=
    (if_pos ⟨hrun₁, hsock⟩).trans h₂
  simp [step, hrun, hask, h₁', h₂', hout, hto, St.writeStdout, St.writeSock, part_self]

theorem readStdin_some (bs : List UInt8) (h : bs.length ≤ s.toBuf.room) :
    ∃ w' : Sets, w'.sockRead = w.sockRead ∧
      s.readStdin w (.some bs) = some ({ s with toBuf := s.toBuf.put bs h, typed := s.typed ++ bs }, w') := by
  cases bs with
  | nil => exact ⟨w, rfl, by simp [Rd.some, St.readStdin, Window.put_nil]⟩
  | cons b bs => exact ⟨{ w with sockWrite := true }, rfl, dif_pos h⟩

theorem readSock_some (bs : List UInt8) (h : bs.length ≤ s.frBuf.room) :
    ∃ w' : Sets, s.readSock w (.some bs) = some ({ s with frBuf := s.frBuf.put bs h, received := s.received ++ bs }, w') := by
  cases bs with
  | nil => exact ⟨w, by simp [Rd.some, St.readSock, Window.put_nil]⟩
  | cons b bs => exact ⟨{ w with stdout := true }, dif_pos h⟩

theorem step_inputsOnly (to₀ fr₀ : ℕ → UInt8) (xs ys : List UInt8)
    (hx : xs.length ≤ (Window.start to₀ : Window UInt8 MAXLINE).room)
    (hy : ys.length ≤ (Window.start fr₀ : Window UInt8 MAXLINE).room) :
    step (St.init to₀ fr₀) (inputsOnly xs ys) = some (St.held to₀ fr₀ xs ys hx hy) := by
  obtain ⟨w₁, hw, h₁⟩ := readStdin_some (s := St.init to₀ fr₀) (w := (inputsOnly xs ys).ready) xs hx
  obtain ⟨w₂, h₂⟩ := readSock_some (w := w₁) (s := { St.init to₀ fr₀ with toBuf := (Window.start to₀).put xs hx, typed := xs })
    ys hy
  exact step_of_reads rfl rfl rfl h₁ rfl hw h₂ rfl rfl

/-- At the end, with room in both buffers, `str_cli` returns and leaves what they hold. -/
theorem step_inputsEnd (hrun : s.status = .running) (heof : s.stdineof = false) (hto : s.toBuf.iptr < MAXLINE)
    (hfr : s.frBuf.iptr < MAXLINE) : ∃ s', step s inputsEnd = some s' ∧ s'.status = .returned ∧
      s'.sent = s.sent ∧ s'.shown = s.shown ∧ s'.typed = s.typed ∧ s'.received = s.received := by
  have hask : inputsEnd.ready.le s.asked = true := by
    simp [Sets.le, inputsEnd, St.asked, heof, hto, hfr]
  by_cases hempty : s.toBuf.optr = s.toBuf.iptr
  · refine ⟨_, step_of_reads hrun hask rfl rfl ?_ rfl rfl rfl rfl, ?_, ?_⟩
    · simp [hempty, St.shutdown, hrun]
    · simp [hempty, St.shutdown]
    · simp [hempty, St.shutdown, St.sent, SockOp.bytes]
  · refine ⟨_, step_of_reads hrun hask rfl rfl ?_ rfl rfl rfl rfl, ?_, ?_⟩
    · simp [hempty, hrun]
    · simp [hempty]
    · simp [hempty, St.sent]

/-- **What a return can lose.**  When `str_cli` returns, bytes typed and not sent and bytes received and not shown may be left in
the buffers: any bytes at all, as long as neither buffer is full to the end. -/
theorem return_leaves_iff (to₀ fr₀ : ℕ → UInt8) (xs ys : List UInt8) :
    (∃ s, Reach step Any (St.init to₀ fr₀) s ∧ s.status = .returned ∧ s.typed = s.sent ++ xs ∧ s.received = s.shown ++ ys) ↔
      xs.length < MAXLINE ∧ ys.length < MAXLINE := by
  constructor
  · rintro ⟨s, hr, hret, hx, hy⟩
    have h := inv_reach hr
    obtain ⟨heof, hfr⟩ := h.retRoom hret
    have hto := h.eofRoom heof
    obtain rfl : s.toBuf.content = xs := List.append_cancel_left (h.toSock.symm.trans hx)
    obtain rfl : s.frBuf.content = ys := List.append_cancel_left (h.toStdout.symm.trans hy)
    simp only [Window.content_length]
    omega
  · rintro ⟨hx, hy⟩
    have hheld := step_inputsOnly to₀ fr₀ xs ys (Nat.le_of_lt hx) (Nat.le_of_lt hy)
    obtain ⟨s, hs, hret, hsent, hshown, htyped, hrecv⟩ :=
      step_inputsEnd (s := St.held to₀ fr₀ xs ys (Nat.le_of_lt hx) (Nat.le_of_lt hy)) rfl rfl
        (by simpa [St.held, Window.put, Window.start] using hx) (by simpa [St.held, Window.put, Window.start] using hy)
    refine ⟨s, .next (.next .init trivial hheld) trivial hs, hret, ?_, ?_⟩
    · rw [htyped, hsent]
      rfl
    · rw [hrecv, hshown]
      rfl

end CppNotes.Net
