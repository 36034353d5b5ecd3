import CppNotes.Lib.Text
import CppNotes.Net.StrCli

/-!
# Requests that are sent again (`unpv13e/rtt/dg_send_recv.c`, `dg_cli.c` and `dg_echo.c`)

`dg_send_recv` sends a datagram with a sequence number in front of the data, and waits for a datagram with the same sequence
number.  When the alarm comes first, it sends the datagram again, three times at most, and then it gives up.  The server sends
every datagram back, as far as it fits in its buffer of `MAXLINE` bytes, header included.

The network may lose, duplicate, delay and reorder: a datagram that was once sent may arrive at any time, any number of times,
or never.  The estimators of the round-trip time only say when the alarm comes; here it may come at any time while the client
waits.  `Sendmsg` and `Recvmsg` are taken to succeed; when they do not, `err_sys` ends the process, and the run is a run up to
there.

The sequence number has 32 bits.  Up to `2 ^ 32` calls, a reply that is accepted belongs to the request that it is accepted for;
the call after that takes the reply to the first one for its own, if it is late enough.
-/

namespace CppNotes.Net.SendRecv

open CppNotes.Lib

def RTT_MAXNREXMT : ℕ := 3

/-- `sizeof(struct hdr)` -/
def hdrSize : ℕ := 8

structure Dgram where
  seq : UInt32
  ts : UInt32
  data : List UInt8
  deriving DecidableEq

/-- The arguments of a call: what is sent, and the length of the buffer for the reply. -/
structure Call where
  outbuff : List UInt8
  inbytes : ℕ
  deriving DecidableEq

/-- What a call has returned, `none` for the `-1` after it has given up; and how often it has called `Sendmsg`. -/
structure Return where
  value : Option (List UInt8)
  sends : ℕ
  deriving DecidableEq

/-- Where the client is: outside `dg_send_recv`, at `sendagain`, or at `Recvmsg`. -/
inductive Pc where
  | idle
  | sendagain (c : Call)
  | recvmsg (c : Call)
  deriving DecidableEq

/-- `sendhdr.seq` and `rtt_nrexmt`; the datagrams that were ever sent; the calls and what they have returned. -/
structure St where
  pc : Pc
  seq : UInt32
  nrexmt : ℕ
  sends : ℕ
  toServer : List Dgram
  toClient : List Dgram
  calls : List Call
  returns : List Return

def St.init : St := ⟨.idle, 0, 0, 0, [], [], [], []⟩

/-- What happens next: `dg_send_recv` is called, it sends with a time stamp, the alarm comes, or a datagram arrives at the server
or at the client. -/
inductive Act where
  | call (c : Call)
  | send (ts : UInt32)
  | alarm
  | serve (i : ℕ)
  | recv (i : ℕ)

/-- `dg_echo`: `Recvfrom` gives the first `MAXLINE` bytes of a datagram. -/
def echo (d : Dgram) : Dgram := { d with data := d.data.take (MAXLINE - hdrSize) }

def St.sendto (s : St) (d : Dgram) : St := { s with toClient := s.toClient ++ [echo d] }

/-- `sendhdr.seq++` and `rtt_newpack`, at the start of a call. -/
def St.enter (s : St) (c : Call) : St :=
  { s with pc := .sendagain c, seq := s.seq + 1, nrexmt := 0, sends := 0, calls := s.calls ++ [c] }

def St.sendmsg (s : St) (c : Call) (ts : UInt32) : St :=
  { s with pc := .recvmsg c, sends := s.sends + 1, toServer := s.toServer ++ [⟨s.seq, ts, c.outbuff⟩] }

def St.ret (s : St) (v : Option (List UInt8)) : St := { s with pc := .idle, returns := s.returns ++ [⟨v, s.sends⟩] }

/-- `rtt_timeout`, and what `dg_send_recv` does behind `sigsetjmp` then. -/
def St.timeout (s : St) (c : Call) : St :=
  let s := { s with nrexmt := s.nrexmt + 1 }
  if RTT_MAXNREXMT < s.nrexmt then s.ret none else { s with pc := .sendagain c }

def step (s : St) : Act → Option St
  | .call c =>
    match s.pc with
    | .idle => some (s.enter c)
    | _ => none
  | .send ts =>
    match s.pc with
    | .sendagain c => some (s.sendmsg c ts)
    | _ => none
  | .alarm =>
    match s.pc with
    | .recvmsg c => some (s.timeout c)
    | _ => none
  | .serve i => s.toServer[i]?.map s.sendto
  | .recv i =>
    match s.pc with
    | .recvmsg c => s.toClient[i]?.map fun d => if d.seq = s.seq then s.ret (some (d.data.take c.inbytes)) else s
    | _ => none

/-- What a step does, case by case. -/
inductive Moves (s : St) : Act → St → Prop
  | call {c : Call} (hp : s.pc = .idle) : Moves s (.call c) (s.enter c)
  | send {c : Call} {ts : UInt32} (hp : s.pc = .sendagain c) : Moves s (.send ts) (s.sendmsg c ts)
  | giveUp {c : Call} (hp : s.pc = .recvmsg c) (hn : RTT_MAXNREXMT < s.nrexmt + 1) :
    Moves s .alarm ({ s with nrexmt := s.nrexmt + 1 }.ret none)
  | again {c : Call} (hp : s.pc = .recvmsg c) (hn : s.nrexmt + 1 ≤ RTT_MAXNREXMT) :
    Moves s .alarm { s with nrexmt := s.nrexmt + 1, pc := .sendagain c }
  | serve {i : ℕ} {d : Dgram} (hd : d ∈ s.toServer) : Moves s (.serve i) (s.sendto d)
  | accept {c : Call} {i : ℕ} {d : Dgram} (hp : s.pc = .recvmsg c) (hd : d ∈ s.toClient) (hseq : d.seq = s.seq) :
    Moves s (.recv i) (s.ret (some (d.data.take c.inbytes)))
  | ignore {i : ℕ} : Moves s (.recv i) s

theorem moves_of_step {s s' : St} {a : Act} (hs : step s a = some s') : Moves s a s' := by
  cases a with
  | call c =>
    simp only [step] at hs
    split at hs <;> simp only [Option.some.injEq, reduceCtorEq] at hs
    exact hs ▸ .call ‹_›
  | send ts =>
    simp only [step] at hs
    split at hs <;> simp only [Option.some.injEq, reduceCtorEq] at hs
    exact hs ▸ .send ‹_›
  | alarm =>
    simp only [step] at hs
    split at hs <;> simp only [Option.some.injEq, reduceCtorEq] at hs
    subst hs
    unfold St.timeout
    dsimp only
    split_ifs with hn
    · exact .giveUp ‹_› hn
    · exact .again ‹_› (Nat.le_of_not_lt hn)
  | serve i =>
    obtain ⟨d, hd, rfl⟩ := Option.map_eq_some_iff.1 hs
    exact .serve (List.mem_of_getElem? hd)
  | recv i =>
    simp only [step] at hs
    split at hs
    · obtain ⟨d, hd, rfl⟩ := Option.map_eq_some_iff.1 hs
      split_ifs with hseq
      · exact .accept ‹_› (List.mem_of_getElem? hd) hseq
      · exact .ignore
    · simp at hs

/-! ## Whose reply it is -/

/-- The datagram carries the number of a call and what `f` makes of its data. -/
def Belongs (calls : List Call) (f : List UInt8 → List UInt8) (d : Dgram) : Prop :=
  ∃ (k : ℕ) (c : Call), calls[k]? = some c ∧ d.seq = UInt32.ofNat (k + 1) ∧ d.data = f c.outbuff

/-- What a call should return, if it does not give up. -/
def Call.reply (c : Call) : List UInt8 := (c.outbuff.take (MAXLINE - hdrSize)).take c.inbytes

/-- The call that is being served. -/
def St.Current (s : St) : Prop :=
  match s.pc with
  | .idle => s.returns.length = s.calls.length
  | .sendagain c | .recvmsg c => ∃ cs, s.calls = cs ++ [c] ∧ s.returns.length = cs.length

/-- How often it has been sent. -/
def St.Counted (s : St) : Prop :=
  match s.pc with
  | .idle => True
  | .sendagain _ => s.sends = s.nrexmt ∧ s.nrexmt ≤ RTT_MAXNREXMT
  | .recvmsg _ => s.sends = s.nrexmt + 1 ∧ s.nrexmt ≤ RTT_MAXNREXMT

/-- Sent at least once, and as often as it may be before it has given up. -/
def Return.Fair (r : Return) : Prop :=
  1 ≤ r.sends ∧ r.sends ≤ RTT_MAXNREXMT + 1 ∧ (r.value = none → r.sends = RTT_MAXNREXMT + 1)

structure Inv (s : St) : Prop where
  seq : s.seq = UInt32.ofNat s.calls.length
  toServer : ∀ d ∈ s.toServer, Belongs s.calls id d
  toClient : ∀ d ∈ s.toClient, Belongs s.calls (List.take (MAXLINE - hdrSize)) d
  current : s.Current
  counted : s.Counted
  fair : ∀ r ∈ s.returns, r.Fair
  /-- As long as the numbers do not repeat, every reply belongs to its call. -/
  replies : s.calls.length ≤ 2 ^ 32 → ∀ (k : ℕ) (r : Return) v, s.returns[k]? = some r → r.value = some v →
    ∃ c : Call, s.calls[k]? = some c ∧ v = c.reply

theorem inv_init : Inv St.init where
  seq := rfl
  toServer := by simp [St.init]
  toClient := by simp [St.init]
  current := rfl
  counted := trivial
  fair := by simp [St.init]
  replies := by simp [St.init]

variable {s s' : St} {c : Call}

theorem Inv.serving (h : Inv s) (hp : s.pc = .sendagain c ∨ s.pc = .recvmsg c) :
    ∃ cs, s.calls = cs ++ [c] ∧ s.returns.length = cs.length := by
  have hc := h.current
  rcases hp with hp | hp
  · simpa only [St.Current, hp] using hc
  · simpa only [St.Current, hp] using hc

theorem Inv.waiting (h : Inv s) (hp : s.pc = .recvmsg c) : s.sends = s.nrexmt + 1 ∧ s.nrexmt ≤ RTT_MAXNREXMT := by
  have hn := h.counted
  simpa only [St.Counted, hp] using hn

theorem getElem?_append_some {α : Type} {l : List α} {k : ℕ} {a : α} (h : l[k]? = some a) (m : List α) :
    (l ++ m)[k]? = some a := by
  rw [List.getElem?_append_left (List.getElem?_eq_some_iff.mp h).1, h]

theorem Belongs.append {calls : List Call} {f : List UInt8 → List UInt8} {d : Dgram} (h : Belongs calls f d) (c : Call) :
    Belongs (calls ++ [c]) f d := by
  obtain ⟨k, c', hk, hseq, hdata⟩ := h
  exact ⟨k, c', getElem?_append_some hk _, hseq, hdata⟩

theorem ofNat_inj {a b : ℕ} (ha : 0 < a) (hb : 0 < b) (ha' : a ≤ 2 ^ 32) (hb' : b ≤ 2 ^ 32)
    (h : UInt32.ofNat a = UInt32.ofNat b) : a = b := by
  have hn := congrArg UInt32.toNat h
  simp only [UInt32.toNat_ofNat'] at hn
  omega

theorem Inv.enter (h : Inv s) (hp : s.pc = .idle) (c : Call) : Inv (s.enter c) where
  seq := by
    simp only [St.enter, List.length_append, List.length_singleton, h.seq]
    exact (UInt32.ofNat_add _ _).symm
  toServer d hd := (h.toServer d hd).append c
  toClient d hd := (h.toClient d hd).append c
  current := by
    have hc := h.current
    simp only [St.Current, hp] at hc
    exact ⟨s.calls, rfl, hc⟩
  counted := ⟨rfl, Nat.zero_le _⟩
  fair := h.fair
  replies hn k r v hk hv := by
    simp only [St.enter, List.length_append, List.length_singleton] at hn
    obtain ⟨c', hc', hrep⟩ := h.replies (by omega) k r v hk hv
    exact ⟨c', getElem?_append_some hc' _, hrep⟩

theorem Inv.sendmsg (h : Inv s) (hp : s.pc = .sendagain c) (ts : UInt32) : Inv (s.sendmsg c ts) := by
  have hn := h.counted
  simp only [St.Counted, hp] at hn
  obtain ⟨cs, hcs, hlen⟩ := h.serving (.inl hp)
  refine ⟨h.seq, ?_, h.toClient, ⟨cs, hcs, hlen⟩, ⟨congrArg (· + 1) hn.1, hn.2⟩, h.fair, h.replies⟩
  intro d hd
  rcases List.mem_append.1 hd with hd | hd
  · exact h.toServer d hd
  · rw [List.mem_singleton] at hd
    subst hd
    refine ⟨cs.length, c, ?_, ?_, rfl⟩
    · simp [St.sendmsg, hcs]
    · simp [h.seq, hcs]

theorem Inv.sendto (h : Inv s) {d : Dgram} (hd : d ∈ s.toServer) : Inv (s.sendto d) := by
  refine ⟨h.seq, h.toServer, ?_, h.current, h.counted, h.fair, h.replies⟩
  intro e he
  rcases List.mem_append.1 he with he | he
  · exact h.toClient e he
  · rw [List.mem_singleton] at he
    obtain ⟨k, c, hk, hseq, hdata⟩ := h.toServer d hd
    exact ⟨k, c, hk, by rw [he]; exact hseq, by rw [he]; exact congrArg _ hdata⟩

/-- The call returns.  `rtt_timeout` has counted the retransmission that does not take place. -/
theorem Inv.ret (h : Inv s) (hp : s.pc = .recvmsg c) (n : ℕ) {v : Option (List UInt8)} (hf : Return.Fair ⟨v, s.sends⟩)
    (hv : s.calls.length ≤ 2 ^ 32 → ∀ w, v = some w → w = c.reply) : Inv ({ s with nrexmt := n }.ret v) := by
  obtain ⟨cs, hcs, hlen⟩ := h.serving (.inr hp)
  refine ⟨h.seq, h.toServer, h.toClient, ?_, trivial, ?_, ?_⟩
  · simp [St.Current, St.ret, hcs, hlen]
  · intro r hr
    rcases List.mem_append.1 hr with hr | hr
    · exact h.fair r hr
    · rw [List.mem_singleton] at hr
      rw [hr]
      exact hf
  · intro hle k r w hk hw
    -- an earlier return, or the one that is added
    rcases lt_or_ge k s.returns.length with hlt | hge
    · exact h.replies hle k r w (by simpa [St.ret, List.getElem?_append_left hlt] using hk) hw
    · simp only [St.ret, List.getElem?_append_right hge, List.getElem?_singleton] at hk
      split at hk
      · rename_i hk0
        have hkl : k = cs.length := by omega
        simp only [Option.some.injEq] at hk
        subst hk
        exact ⟨c, by simp [St.ret, hcs, hkl], hv hle w hw⟩
      · simp at hk

theorem Inv.giveUp (h : Inv s) (hp : s.pc = .recvmsg c) (hmax : RTT_MAXNREXMT < s.nrexmt + 1) :
    Inv ({ s with nrexmt := s.nrexmt + 1 }.ret none) := by
  have hn := h.waiting hp
  have hsent : s.sends = RTT_MAXNREXMT + 1 := by omega
  exact h.ret hp _ ⟨hsent ▸ Nat.succ_pos _, hsent.le, fun _ => hsent⟩ (by simp)

theorem Inv.again (h : Inv s) (hp : s.pc = .recvmsg c) (hmax : s.nrexmt + 1 ≤ RTT_MAXNREXMT) :
    Inv { s with nrexmt := s.nrexmt + 1, pc := .sendagain c } :=
  ⟨h.seq, h.toServer, h.toClient, h.serving (.inr hp), ⟨(h.waiting hp).1, hmax⟩, h.fair, h.replies⟩

/-- While the numbers do not repeat, a datagram with the number of the last call has its data. -/
theorem Belongs.last {cs : List Call} {f : List UInt8 → List UInt8} {d : Dgram} (h : Belongs (cs ++ [c]) f d)
    (hle : (cs ++ [c]).length ≤ 2 ^ 32) (hseq : d.seq = UInt32.ofNat (cs ++ [c]).length) : d.data = f c.outbuff := by
  obtain ⟨k, c', hk, hd, hdata⟩ := h
  have hlt := (List.getElem?_eq_some_iff.mp hk).1
  have hkn : k + 1 = (cs ++ [c]).length := ofNat_inj (by omega) (by omega) (by omega) hle (hd.symm.trans hseq)
  have hkl : k = cs.length := by simpa using hkn
  have hcc : c = c' := by simpa [hkl] using hk
  rw [hdata, hcc]

theorem Inv.data_of_seq (h : Inv s) (hp : s.pc = .recvmsg c) {d : Dgram} (hd : d ∈ s.toClient) (hseq : d.seq = s.seq)
    (hle : s.calls.length ≤ 2 ^ 32) : d.data.take c.inbytes = c.reply := by
  obtain ⟨cs, hcs, -⟩ := h.serving (.inr hp)
  have hb := h.toClient d hd
  have hs := hseq.trans h.seq
  rw [hcs] at hb hs hle
  rw [hb.last hle hs, Call.reply]

theorem Inv.accept (h : Inv s) (hp : s.pc = .recvmsg c) {d : Dgram} (hd : d ∈ s.toClient) (hseq : d.seq = s.seq) :
    Inv (s.ret (some (d.data.take c.inbytes))) := by
  have hn := h.waiting hp
  have hpos : 1 ≤ s.sends := by omega
  have hmax : s.sends ≤ RTT_MAXNREXMT + 1 := by omega
  refine h.ret hp s.nrexmt ⟨hpos, hmax, by simp⟩ ?_
  rintro hle w ⟨⟩
  exact h.data_of_seq hp hd hseq hle

theorem Inv.move {a : Act} (h : Inv s) (hm : Moves s a s') : Inv s' := by
  cases hm with
  | call hp => exact h.enter hp _
  | send hp => exact h.sendmsg hp _
  | giveUp hp hn => exact h.giveUp hp hn
  | again hp hn => exact h.again hp hn
  | serve hd => exact h.sendto hd
  | accept hp hd hseq => exact h.accept hp hd hseq
  | ignore => exact h

theorem inv_of_reach (h : Reach step Any St.init s) : Inv s :=
  h.invariant Inv inv_init fun _ _ _ _ hi _ hs => hi.move (moves_of_step hs)

/-- **Nobody gets the reply to another call.**  Whatever the network loses, duplicates, delays or reorders: up to `2 ^ 32` calls,
what a call returns is the echo of its own data, as far as it fits in the buffers of the server and of the client. -/
theorem accepted_reply_matches (h : Reach step Any St.init s) (hle : s.calls.length ≤ 2 ^ 32) {k : ℕ} {r : Return}
    {v : List UInt8} (hk : s.returns[k]? = some r) (hv : r.value = some v) :
    ∃ c : Call, s.calls[k]? = some c ∧ v = (c.outbuff.take (MAXLINE - hdrSize)).take c.inbytes :=
  (inv_of_reach h).replies hle k r v hk hv

/-- The first request is lost; of the two copies of the next reply one comes late, in the next call. -/
def retried (a b : Call) : List Act :=
  [.call a, .send 0, .alarm, .send 1, .serve 1, .serve 1, .recv 0, .call b, .send 2, .recv 1, .serve 2, .recv 2]

theorem late_copy_ignored : ∃ s, Reach step Any St.init s ∧ s.returns[1]? = some ⟨some [98], 1⟩ ∧
    ∃ c : Call, s.calls[1]? = some c ∧ [98] = (c.outbuff.take (MAXLINE - hdrSize)).take c.inbytes := by
  obtain ⟨s, hr, hs⟩ := reach_of_runs step Any St.init (retried ⟨[97], 4⟩ ⟨[98], 4⟩)
    (fun s => decide (s.calls.length = 2 ∧ s.returns[1]? = some (Return.mk (some [98]) 1))) (by decide)
  obtain ⟨hlen, hret⟩ := of_decide_eq_true hs
  exact ⟨s, hr, hret, accepted_reply_matches hr (by omega) hret rfl⟩

/-- **Four datagrams at most.**  A call sends at least one datagram and at most four, and it gives up only after four. -/
theorem sends_per_call (h : Reach step Any St.init s) {r : Return} (hr : r ∈ s.returns) :
    1 ≤ r.sends ∧ r.sends ≤ RTT_MAXNREXMT + 1 ∧ (r.value = none → r.sends = RTT_MAXNREXMT + 1) :=
  (inv_of_reach h).fair r hr

/-! ## After the sequence numbers have wrapped around -/

def timeouts (n : ℕ) : List Act := (List.replicate n [Act.send 0, .alarm]).flatten

/-- Nothing that is sent arrives: four datagrams, four alarms. -/
def unanswered (c : Call) : List Act := .call c :: timeouts (RTT_MAXNREXMT + 1)

theorem gives_up_after_four : ∃ s, Reach step Any St.init s ∧
    ∃ r ∈ s.returns, r.value = none ∧ r.sends = RTT_MAXNREXMT + 1 := by
  obtain ⟨s, hr, hs⟩ := reach_of_runs step Any St.init (unanswered ⟨[97], 4⟩)
    (fun s => s.returns.any fun r => r.value.isNone) (by decide)
  obtain ⟨r, hmem, hnone⟩ := List.any_eq_true.1 hs
  have hv : r.value = none := Option.isNone_iff_eq_none.1 hnone
  exact ⟨s, hr, r, hmem, hv, (sends_per_call hr hmem).2.2 hv⟩

theorem runs_unanswered (hp : s.pc = .idle) (c : Call) :
    ∃ t, runs step Any s (unanswered c) = some t ∧ t.pc = .idle ∧ t.toClient = s.toClient ∧ t.calls = s.calls ++ [c] := by
  obtain ⟨pc, seq, nrexmt, sends, toServer, toClient, calls, returns⟩ := s
  cases hp
  exact ⟨_, rfl, rfl, rfl, rfl⟩

/-- As many calls as one likes, while what is under way to the client stays under way. -/
theorem reach_unanswered (hp : s.pc = .idle) (c : Call) (n : ℕ) :
    ∃ t, Reach step Any s t ∧ t.pc = .idle ∧ t.toClient = s.toClient ∧ t.calls = s.calls ++ List.replicate n c := by
  induction n with
  | zero => exact ⟨s, .init, hp, rfl, by simp⟩
  | succ n ih =>
    obtain ⟨t, hr, ht, hto, hcalls⟩ := ih
    obtain ⟨u, hu, hpc, hto', hcalls'⟩ := runs_unanswered ht c
    refine ⟨u, hr.runs hu, hpc, hto'.trans hto, ?_⟩
    rw [hcalls', hcalls, List.append_assoc, List.replicate_succ']

/-- The first request is served, but the reply stays under way; then the client gives up. -/
theorem runs_delayed (c : Call) :
    ∃ t, runs step Any St.init (.call c :: .send 0 :: .serve 0 :: .alarm :: timeouts RTT_MAXNREXMT) = some t ∧
      t.pc = .idle ∧ t.toClient = [⟨1, 0, c.outbuff.take (MAXLINE - hdrSize)⟩] ∧ t.calls = [c] :=
  ⟨_, rfl, rfl, rfl, rfl⟩

/-- A call that finds a datagram with its number under way may return it. -/
theorem runs_answered {d : Dgram} {ds : List Dgram} (hp : s.pc = .idle) (hd : s.toClient = d :: ds) (hseq : d.seq = s.seq + 1)
    (c : Call) :
    ∃ t, runs step Any s [.call c, .send 0, .recv 0] = some t ∧ t.calls = s.calls ++ [c] ∧
      t.returns = s.returns ++ [⟨some (d.data.take c.inbytes), 1⟩] := by
  obtain ⟨pc, seq, nrexmt, sends, toServer, toClient, calls, returns⟩ := s
  cases hp
  cases hd
  have hseq' : d.seq = seq + 1 := hseq
  simp [runs, step, Any, hseq', St.enter, St.sendmsg, St.ret]

/-- **The bound is sharp.**  When the reply to the first call is late enough, the call `2 ^ 32` calls later takes it for its own,
whatever the two calls have sent. -/
theorem late_reply_accepted (first last : Call) :
    ∃ s r, Reach step Any St.init s ∧ s.calls.length = 2 ^ 32 + 1 ∧ s.calls.head? = some first ∧
      s.calls.getLast? = some last ∧ s.returns.getLast? = some r ∧
      r.value = some ((first.outbuff.take (MAXLINE - hdrSize)).take last.inbytes) := by
  obtain ⟨s₁, hs₁, hp₁, hto₁, hc₁⟩ := runs_delayed first
  obtain ⟨s₂, hs₂, hp₂, hto₂, hc₂⟩ := reach_unanswered hp₁ first (2 ^ 32 - 1)
  have hr₂ : Reach step Any St.init s₂ := (Reach.init.runs hs₁).append hs₂
  -- the number of the next call is one again
  have hlen : s₂.calls.length = 2 ^ 32 := by
    rw [hc₂, hc₁, List.length_append, List.length_replicate, List.length_singleton]
    omega
  have hseq : s₂.seq = 0 := by
    rw [(inv_of_reach hr₂).seq, hlen]
    rfl
  obtain ⟨s₃, hs₃, hc₃, hret₃⟩ := runs_answered hp₂ (hto₂.trans hto₁) (by rw [hseq]; rfl) last
  refine ⟨s₃, _, hr₂.runs hs₃, ?_, ?_, ?_, by rw [hret₃, List.getLast?_concat], rfl⟩
  · rw [hc₃, List.length_append, hlen, List.length_singleton]
  · rw [hc₃, hc₂, hc₁]
    rfl
  · rw [hc₃, List.getLast?_concat]

/-! ## When nothing arrives -/

/-- The client's own steps, without an arrival. -/
def Silent (_ : St) : Act → Prop
  | .send _ | .alarm => True
  | _ => False

instance (s : St) : (a : Act) → Decidable (Silent s a)
  | .send _ | .alarm => isTrue trivial
  | .call _ | .serve _ | .recv _ => isFalse id

/-- How many steps are left before the call gives up. -/
def St.left (s : St) : ℕ :=
  match s.pc with
  | .idle => 0
  | .sendagain _ => 2 * (RTT_MAXNREXMT + 1 - s.nrexmt)
  | .recvmsg _ => 2 * (RTT_MAXNREXMT - s.nrexmt) + 1

theorem left_le (s : St) : s.left ≤ 2 * (RTT_MAXNREXMT + 1) := by
  unfold St.left
  split <;> omega

theorem left_lt {a : Act} (h : Inv s) (ha : Silent s a) (hm : Moves s a s') : s'.left < s.left := by
  cases hm with
  | send hp =>
    have hn := h.counted
    simp only [St.Counted, hp] at hn
    simp only [St.left, St.sendmsg, hp]
    omega
  | giveUp hp => simp [St.left, St.ret, hp]
  | again hp hn =>
    simp only [St.left, hp]
    omega
  | call | serve | accept | ignore => exact ha.elim

/-- Since the state `s` nothing has arrived: the call goes on, or it has given up. -/
def Unheard (s t : St) : Prop :=
  (t.pc ≠ .idle ∧ t.returns = s.returns) ∨ (t.pc = .idle ∧ t.returns = s.returns ++ [⟨none, RTT_MAXNREXMT + 1⟩])

theorem Unheard.move {t t' : St} {a : Act} (h : Unheard s t) (hi : Inv t) (ha : Silent t a) (hm : Moves t a t') :
    Unheard s t' := by
  rcases h with ⟨-, hret⟩ | ⟨hidle, -⟩
  · cases hm with
    | send | again => exact .inl ⟨by simp [St.sendmsg], hret⟩
    | giveUp hp hmax =>
      have hn := hi.waiting hp
      have hsent : t.sends = RTT_MAXNREXMT + 1 := by omega
      exact .inr ⟨rfl, by simp [St.ret, hret, hsent]⟩
    | call | serve | accept | ignore => exact ha.elim
  · cases hm with
    | send hp | again hp | giveUp hp => simp [hidle] at hp
    | call | serve | accept | ignore => exact ha.elim

theorem exists_silent (hp : s.pc ≠ .idle) : ∃ a, Silent s a ∧ step s a ≠ none := by
  cases hpc : s.pc with
  | idle => exact absurd hpc hp
  | sendagain c => exact ⟨.send 0, trivial, by simp [step, hpc]⟩
  | recvmsg c => exact ⟨.alarm, trivial, by simp [step, hpc]⟩

/-- **A call does not wait for ever.**  If nothing arrives any more, then the call takes eight steps at most, and where it stops,
it has returned `-1`. -/
theorem silence_ends_call (h : Reach step Any St.init s) (hp : s.pc ≠ .idle) {as : List Act}
    (hr : runs step Silent s as = some s') :
    as.length ≤ 2 * (RTT_MAXNREXMT + 1) ∧
    ((∀ a, Silent s' a → step s' a = none) → s'.pc = .idle ∧ s'.returns = s.returns ++ [⟨none, RTT_MAXNREXMT + 1⟩]) := by
  have hinv {t : St} (ht : Reach step Silent s t) : Inv t := inv_of_reach (h.append ht.any)
  constructor
  · have hlen := length_add_le_of_runs St.left
      (fun _ _ _ ht ha hs => left_lt (hinv ht) ha (moves_of_step hs)) Reach.init hr
    have hle := left_le s
    omega
  · intro hstop
    have hun : Unheard s s' := (Reach.init.runs hr).invariant (Unheard s) (.inl ⟨hp, rfl⟩)
      fun _ _ _ ht hu ha hs => hu.move (hinv ht) ha (moves_of_step hs)
    rcases hun with ⟨hne, -⟩ | hgone
    · obtain ⟨a, ha, hs⟩ := exists_silent hne
      exact absurd (hstop a ha) hs
    · exact hgone

theorem first_call_unanswered : ∃ s s', Reach step Any St.init s ∧ s.pc ≠ .idle ∧
    runs step Silent s (timeouts (RTT_MAXNREXMT + 1)) = some s' ∧ s'.returns = [⟨none, RTT_MAXNREXMT + 1⟩] := by
  have hr : Reach step Any St.init (St.init.enter ⟨[97], 4⟩) := .next .init trivial (rfl : step _ (.call _) = _)
  have hne : (St.init.enter ⟨[97], 4⟩).pc ≠ .idle := by simp [St.enter]
  obtain ⟨s', hs', hidle⟩ : ∃ s', runs step Silent (St.init.enter ⟨[97], 4⟩) (timeouts (RTT_MAXNREXMT + 1)) = some s' ∧
      s'.pc = .idle := ⟨_, rfl, rfl⟩
  refine ⟨_, s', hr, hne, hs', ((silence_ends_call hr hne hs').2 ?_).2⟩
  intro a ha
  cases a with
  | send | alarm => simp [step, hidle]
  | call | serve | recv => exact ha.elim

/-! ## The client `dg_cli` -/

/-- `fgets` with room for `n` bytes in front of the NUL: the bytes up to a newline, as far as there is room, and what is left of
the input. -/
def fgets : List UInt8 → ℕ → List UInt8 × List UInt8
  | b :: bs, n + 1 =>
    if b = 10 then ([b], bs) else
      let r := fgets bs n
      (b :: r.1, r.2)
  | bs, _ => ([], bs)

theorem fgets_append (bs : List UInt8) (n : ℕ) : (fgets bs n).1 ++ (fgets bs n).2 = bs := by
  induction bs generalizing n with
  | nil => rfl
  | cons b bs ih =>
    cases n with
    | zero => rfl
    | succ n =>
      unfold fgets
      split
      · rfl
      · exact congrArg (b :: ·) (ih n)

theorem fgets_ne_nil (b : UInt8) (bs : List UInt8) (n : ℕ) : (fgets (b :: bs) (n + 1)).1 ≠ [] := by
  unfold fgets
  split <;> simp

/-- What `Fgets(sendline, MAXLINE, fp)` leaves in `sendline`, at most `n` times. -/
def fgetsUpTo : ℕ → List UInt8 → List (List UInt8)
  | n + 1, b :: bs =>
    let r := fgets (b :: bs) (MAXLINE - 1)
    r.1 :: fgetsUpTo n r.2
  | _, _ => []

/-- And one time after the other, up to the end of the input. -/
def sendlines (input : List UInt8) : List (List UInt8) := fgetsUpTo input.length input

theorem flatten_fgetsUpTo {n : ℕ} {input : List UInt8} (h : input.length ≤ n) : (fgetsUpTo n input).flatten = input := by
  induction n generalizing input with
  | zero => rw [List.length_eq_zero_iff.1 (Nat.le_zero.1 h)]; rfl
  | succ n ih =>
    cases input with
    | nil => rfl
    | cons b bs =>
      have happ := fgets_append (b :: bs) (MAXLINE - 1)
      have hpos := List.length_pos_iff.2 (fgets_ne_nil b bs (MAXLINE - 2))
      have hlen := congrArg List.length happ
      rw [List.length_append] at hlen
      have hrest : (fgets (b :: bs) (MAXLINE - 1)).2.length ≤ n := by
        change 0 < (fgets (b :: bs) (MAXLINE - 1)).1.length at hpos
        omega
      rw [fgetsUpTo, List.flatten_cons, ih hrest, happ]

theorem flatten_sendlines (input : List UInt8) : (sendlines input).flatten = input := flatten_fgetsUpTo le_rfl

/-- `dg_cli` sends the string in `sendline`, up to the first NUL, one after the other and with room for `MAXLINE` bytes;
`Dg_send_recv` ends the process when a call has given up. -/
def dgCli (input : List UInt8) (s : St) : Act → Prop
  | .call c =>
    (sendlines input)[s.calls.length]?.map cstring = some c.outbuff ∧ c.inbytes = MAXLINE ∧
      ∀ r ∈ s.returns, r.value.isSome = true
  | _ => True

instance (input : List UInt8) (s : St) : (a : Act) → Decidable (dgCli input s a)
  | .call _ => inferInstanceAs (Decidable (_ ∧ _ ∧ _))
  | .send _ | .alarm | .serve _ | .recv _ => isTrue trivial

/-- What `Fputs` has written, call by call: the string in `recvline`. -/
def St.printed (s : St) : List (List UInt8) := s.returns.filterMap fun r => r.value.map cstring

@[simp]
theorem printed_ret (s : St) (v : Option (List UInt8)) : (s.ret v).printed = s.printed ++ (v.map cstring).toList := by
  cases v <;> simp [St.printed, St.ret]

/-- While a call is being served, every call before it has been answered and printed. -/
structure Cli (input : List UInt8) (s : St) : Prop where
  calls : s.calls <+: (sendlines input).map fun line => ⟨cstring line, MAXLINE⟩
  printed : s.printed <+: s.calls.map fun c => cstring c.reply
  all : s.pc ≠ .idle → s.printed.length = s.returns.length

variable {input : List UInt8}

theorem cli_init : Cli input St.init := ⟨by simp [St.init], by simp [St.init, St.printed], fun h => absurd rfl h⟩

theorem append_next {α : Type} {l m : List α} {a : α} (h : l <+: m) (ha : m[l.length]? = some a) : l ++ [a] <+: m := by
  obtain ⟨hlt, rfl⟩ := List.getElem?_eq_some_iff.1 ha
  exact List.concat_get_prefix h hlt

theorem Cli.enter (h : Cli input s) (hok : dgCli input s (.call c)) : Cli input (s.enter c) where
  calls := by
    obtain ⟨hline, hin, -⟩ := hok
    obtain ⟨line, hget, hout⟩ := Option.map_eq_some_iff.1 hline
    refine append_next h.calls ?_
    rw [List.getElem?_map, hget, Option.map_some, hout, ← hin]
  printed := by
    rw [St.enter, List.map_append]
    exact h.printed.trans (List.prefix_append _ _)
  all _ := List.filterMap_length_eq_length.2 fun r hr => by
    rw [Option.isSome_map]
    exact hok.2.2 r hr

/-- The call returns; what it returns is printed, unless it has given up. -/
theorem Cli.ret (h : Cli input s) (hi : Inv s) (hp : s.pc = .recvmsg c) (n : ℕ) {v : Option (List UInt8)}
    (hv : ∀ w, v = some w → w = c.reply) : Cli input ({ s with nrexmt := n }.ret v) := by
  refine ⟨h.calls, ?_, fun hne => absurd rfl hne⟩
  rw [printed_ret]
  change s.printed ++ _ <+: s.calls.map fun c => cstring c.reply
  cases v with
  | none => simpa using h.printed
  | some w =>
    obtain ⟨cs, hcs, hlen⟩ := hi.serving (.inr hp)
    have hall := h.all (by simp [hp])
    refine append_next h.printed ?_
    simp [hcs, hall, hlen, hv w rfl]

theorem Cli.move {a : Act} (h : Cli input s) (hi : Inv s) (hle : (sendlines input).length ≤ 2 ^ 32) (hok : dgCli input s a)
    (hm : Moves s a s') : Cli input s' := by
  cases hm with
  | call => exact h.enter hok
  | send hp | again hp => exact ⟨h.calls, h.printed, fun _ => h.all (by simp [hp])⟩
  | giveUp hp => exact h.ret hi hp _ (by simp)
  | serve => exact ⟨h.calls, h.printed, h.all⟩
  | accept hp hd hseq =>
    have hlen := h.calls.length_le
    rw [List.length_map] at hlen
    refine h.ret hi hp s.nrexmt ?_
    rintro w ⟨⟩
    exact hi.data_of_seq hp hd hseq (hlen.trans hle)
  | ignore => exact h

/-- A string that is sent with room for `MAXLINE` bytes comes back without what the header leaves no room for. -/
theorem cstring_reply (line : List UInt8) :
    cstring (Call.reply ⟨cstring line, MAXLINE⟩) = (cstring line).take (MAXLINE - hdrSize) := by
  have hrep : Call.reply ⟨cstring line, MAXLINE⟩ = (cstring line).take (MAXLINE - hdrSize) := by
    rw [Call.reply, List.take_take, Nat.min_eq_right (Nat.sub_le _ _)]
  rw [hrep]
  exact cstring_of_nul_not_mem fun h0 => nul_not_mem_cstring line (List.mem_of_mem_take h0)

/-- **The client prints what it was given, as far as it can.**  On any run, if `Fgets` gets at most `2 ^ 32` lines, what is
printed so far are the first lines in order, each once.  A line is what `Fgets` reads at a time, at most `MAXLINE - 1` bytes;
of it the bytes from the first NUL on are missing, and those behind the first `MAXLINE - 8`, since the server reads the header
into the same buffer.  So without a NUL and with lines that fit, the output is the start of the input. -/
theorem dg_cli_prints_lines (hle : (sendlines input).length ≤ 2 ^ 32) (h : Reach step (dgCli input) St.init s) :
    s.printed <+: (sendlines input).map (fun line => (cstring line).take (MAXLINE - hdrSize)) ∧
    (0 ∉ input → (∀ line ∈ sendlines input, line.length ≤ MAXLINE - hdrSize) → s.printed.flatten <+: input) := by
  have hcli : Cli input s :=
    h.invariant (Cli input) cli_init fun _ _ _ hr hc hok hs =>
      hc.move (inv_of_reach hr.any) hle hok (moves_of_step hs)
  have hlines : s.printed <+: (sendlines input).map (fun line => (cstring line).take (MAXLINE - hdrSize)) := by
    have hcalls := hcli.calls.map fun c => cstring c.reply
    simp only [List.map_map, Function.comp_def, cstring_reply] at hcalls
    exact hcli.printed.trans hcalls
  refine ⟨hlines, fun h0 hfit => ?_⟩
  have hwhole (line : List UInt8) (hmem : line ∈ sendlines input) :
      (cstring line).take (MAXLINE - hdrSize) = line := by
    have hnul : 0 ∉ line := fun hz => h0 (flatten_sendlines input ▸ List.mem_flatten_of_mem hmem hz)
    rw [cstring_of_nul_not_mem hnul, List.take_of_length_le (hfit line hmem)]
  rw [List.map_congr_left hwhole, List.map_id'] at hlines
  obtain ⟨rest, hrest⟩ := hlines
  exact ⟨rest.flatten, by rw [← List.flatten_append, hrest, flatten_sendlines]⟩

theorem two_lines_printed : ∃ s, Reach step (dgCli [97, 10, 98, 10]) St.init s ∧ s.printed = [[97, 10], [98, 10]] ∧
    s.printed.flatten <+: [97, 10, 98, 10] := by
  obtain ⟨s, hr, hs⟩ := reach_of_runs step (dgCli [97, 10, 98, 10]) St.init
    (retried ⟨[97, 10], MAXLINE⟩ ⟨[98, 10], MAXLINE⟩) (fun s => decide (s.printed = [[97, 10], [98, 10]])) (by decide)
  exact ⟨s, hr, of_decide_eq_true hs, (dg_cli_prints_lines (by decide) hr).2 (by decide) (by decide)⟩

end CppNotes.Net.SendRecv
