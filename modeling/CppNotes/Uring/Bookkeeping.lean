import CppNotes.Lib.Chunk
import CppNotes.Lib.Pool
import CppNotes.Uring.Moves

/-!
# The bookkeeping of `copy_file`

`Book N s` relates the counters of `copy_file` to the `io_data` it has allocated and to the requests in the ring.
Every live `io_data` has exactly one request in the ring, queued, in flight or completed; so at most `QD` entries are
ever queued, and the assertion of `queue_prepped` holds.
-/

namespace CppNotes.Uring

open CppNotes.Lib

def IoData.block (d : IoData) : ℕ × ℕ := (d.firstOffset, d.firstLen)

def IoData.reading (d : IoData) : Bool := d.live && d.read
def IoData.writing (d : IoData) : Bool := d.live && !d.read

/-- The bytes that the `io_data` still has to read. -/
def IoData.toRead (d : IoData) : ℕ := if d.reading then d.firstLen else 0

/-- The `io_data` of all requests in the ring. -/
def St.ids (s : St) : List ℕ := (s.sq ++ s.flight).map Sqe.id ++ s.cq.map Cqe.id

structure Book (N : ℕ) (s : St) : Prop where
  reads : s.reads = s.pool.countP IoData.reading
  writes : s.writes = s.pool.countP IoData.writing
  room : s.reads + s.writes ≤ QD
  size : s.offset + s.insize = N
  left : s.writeLeft = s.insize + (s.pool.map IoData.toRead).sum
  tiles : Tiles 0 (s.pool.map IoData.block) s.offset
  small : ∀ b ∈ s.pool.map IoData.block, b.2 ≤ BS
  nodup : s.ids.Nodup
  owned : ∀ k, k ∈ s.ids ↔ k < s.pool.length ∧ (s.at k).live = true
  queuedOnce : s.writeQueued.Nodup
  queued : ∀ k ∈ s.writeQueued, k < s.pool.length ∧ (s.at k).read = false

variable {N : ℕ} {e : Env} {s s' : St} {a : Act}

/-! ## The `io_data` that a pointer points to -/

theorem at_set (s s' : St) {id : ℕ} {d : IoData} (h : s'.pool = s.pool.set id d) (k : ℕ) :
    s'.at k = if id = k ∧ k < s.pool.length then d else s.at k := by
  rw [St.at, h]
  exact getD_set s.pool id k d .null

theorem at_append (s s' : St) {d : IoData} (h : s'.pool = s.pool ++ [d]) {k : ℕ} (hk : k < s.pool.length) :
    s'.at k = s.at k := by
  rw [St.at, h]
  exact List.getD_append _ _ _ _ hk

theorem at_mem {id : ℕ} (hid : id < s.pool.length) : s.at id ∈ s.pool := by
  rw [St.at, List.getD_eq_getElem _ _ hid]
  exact List.getElem_mem hid

theorem Book.firstLen_pos (h : Book N s) {id : ℕ} (hid : id < s.pool.length) : 0 < (s.at id).firstLen :=
  (h.tiles.bounds.2 _ (List.mem_map_of_mem (at_mem hid))).2.2

theorem Book.toRead_le (h : Book N s) {id : ℕ} (hid : id < s.pool.length) : (s.at id).toRead ≤ s.writeLeft := by
  have hs := sum_map_set s.pool hid .null .null IoData.toRead
  have h0 : IoData.null.toRead = 0 := rfl
  rw [h.left, St.at]
  omega

/-! ## The requests in the ring -/

theorem ids_submit (s : St) (r : ℤ) : (s.submit r).ids.Perm s.ids := by
  have hs : (s.sq.drop r.toNat ++ (s.flight ++ s.sq.take r.toNat)).Perm (s.sq ++ s.flight) := by
    refine List.perm_append_comm.trans ?_
    rw [List.append_assoc, List.take_append_drop]
    exact List.perm_append_comm
  exact (hs.map Sqe.id).append_right _

theorem perm_queued (s : St) (q : Sqe) : (s.sq ++ [q] ++ s.flight).Perm (q :: (s.sq ++ s.flight)) := by
  rw [List.append_assoc]
  exact List.perm_middle

theorem ids_push {c : Cqe} {cq : List Cqe} (h : s.cq = c :: cq) : ({ s with cq := cq }.push c.id).ids.Perm s.ids := by
  unfold St.ids
  rw [h]
  exact (((perm_queued s _).map Sqe.id).append_right _).trans List.perm_middle.symm

theorem ids_complete {j : ℕ} {q : Sqe} (h : s.flight[j]? = some q) (res : ℤ) :
    ({ s with flight := s.flight.eraseIdx j, cq := s.cq ++ [⟨q.id, res⟩] } : St).ids.Perm s.ids := by
  obtain ⟨hj, rfl⟩ := List.getElem?_eq_some_iff.mp h
  have hs : (s.sq ++ s.flight).Perm (s.flight[j] :: (s.sq ++ s.flight.eraseIdx j)) :=
    ((List.getElem_cons_eraseIdx_perm hj).symm.append_left _).trans List.perm_middle
  have hc : (s.cq ++ [Cqe.mk s.flight[j].id res]).map Cqe.id = s.cq.map Cqe.id ++ [s.flight[j].id] := List.map_append
  show ((s.sq ++ s.flight.eraseIdx j).map Sqe.id ++ (s.cq ++ [Cqe.mk s.flight[j].id res]).map Cqe.id).Perm s.ids
  rw [hc, ← List.append_assoc]
  exact (List.perm_append_singleton _ _).trans ((hs.map Sqe.id).symm.append_right _)

/-- The number of requests in the ring is `reads + writes`. -/
theorem Book.length_ids (h : Book N s) : s.sq.length + s.flight.length + s.cq.length = s.reads + s.writes := by
  have hl := length_pointers s.pool .null IoData.live h.nodup h.owned
  have hsplit : s.pool.countP IoData.live = s.pool.countP IoData.reading + s.pool.countP IoData.writing := by
    clear hl h
    induction s.pool with
    | nil => rfl
    | cons d ds ih =>
      rw [List.countP_cons, List.countP_cons, List.countP_cons, ih, IoData.reading, IoData.writing]
      cases d.live <;> cases d.read <;> simp <;> omega
  have hlen : s.ids.length = s.sq.length + s.flight.length + s.cq.length := by
    simp [St.ids, Nat.add_assoc]
  rw [h.reads, h.writes]
  omega

theorem Book.head (h : Book N s) {c : Cqe} {cq : List Cqe} (hc : s.cq = c :: cq) :
    c.id < s.pool.length ∧ (s.at c.id).live = true := by
  rw [← h.owned, St.ids, hc]
  simp

theorem Book.in_flight (h : Book N s) {j : ℕ} {q : Sqe} (hq : s.flight[j]? = some q) :
    q.id < s.pool.length ∧ (s.at q.id).live = true := by
  rw [← h.owned]
  have := List.mem_map_of_mem (f := Sqe.id) (List.mem_of_getElem? hq)
  simp [St.ids, this]

/-- While a completion is reaped the submission ring has a free entry. -/
theorem Book.free_entry (h : Book N s) {c : Cqe} {cq : List Cqe} (hc : s.cq = c :: cq) : s.sq.length < QD := by
  have hl := h.length_ids
  have hr := h.room
  rw [hc, List.length_cons] at hl
  omega

/-! ## How the parts of a step keep the books -/

theorem Book.control (h : Book N s) (p : Pc) (n : ℕ) (g : Bool) :
    Book N { s with pc := p, hadReads := n, gotComp := g } :=
  ⟨h.reads, h.writes, h.room, h.size, h.left, h.tiles, h.small, h.nodup, h.owned, h.queuedOnce, h.queued⟩

/-- Requests move through the ring. -/
theorem Book.ring (h : Book N s) (sq flight : List Sqe) (cq : List Cqe)
    (hp : ({ s with sq := sq, flight := flight, cq := cq } : St).ids.Perm s.ids) :
    Book N { s with sq := sq, flight := flight, cq := cq } :=
  { h with
    nodup := hp.nodup_iff.mpr h.nodup
    owned := fun k => hp.mem_iff.trans (h.owned k) }

theorem Book.submit (h : Book N s) (r : ℤ) : Book N (s.submit r) := h.ring _ _ _ (ids_submit s r)

theorem Book.push (h : Book N s) {c : Cqe} {cq : List Cqe} (hc : s.cq = c :: cq) :
    Book N ({ s with cq := cq }.push c.id) := h.ring _ _ _ (ids_push hc)

/-- One `io_data` changes and the counters follow; its block stays. -/
theorem Book.set (h : Book N s) {id : ℕ} {d : IoData} (hid : id < s.pool.length) (hpool : s'.pool = s.pool.set id d)
    (hb : d.block = (s.at id).block) (hoffset : s'.offset = s.offset) (hinsize : s'.insize = s.insize)
    (hreads : s'.reads + (if (s.at id).reading then 1 else 0) = s.reads + (if d.reading then 1 else 0))
    (hwrites : s'.writes + (if (s.at id).writing then 1 else 0) = s.writes + (if d.writing then 1 else 0))
    (hleft : s'.writeLeft + (s.at id).toRead = s.writeLeft + d.toRead) (hroom : s'.reads + s'.writes ≤ QD)
    (hnodup : s'.ids.Nodup) (howned : ∀ k, k ∈ s'.ids ↔ k < s.pool.length ∧ (s'.at k).live = true)
    (honce : s'.writeQueued.Nodup) (hqueued : ∀ k ∈ s'.writeQueued, k < s.pool.length ∧ (s'.at k).read = false) :
    Book N s' := by
  have hblocks : s'.pool.map IoData.block = s.pool.map IoData.block := by
    rw [hpool]
    exact map_set_of_eq _ _ _ _ _ hb
  have hlen : s'.pool.length = s.pool.length := by rw [hpool, List.length_set]
  refine ⟨?_, ?_, hroom, ?_, ?_, ?_, ?_, hnodup, ?_, honce, ?_⟩
  · have hc := countP_set s.pool hid d .null IoData.reading
    rw [← h.reads, ← hpool] at hc
    exact Nat.add_right_cancel (hreads.trans hc.symm)
  · have hc := countP_set s.pool hid d .null IoData.writing
    rw [← h.writes, ← hpool] at hc
    exact Nat.add_right_cancel (hwrites.trans hc.symm)
  · rw [hoffset, hinsize, h.size]
  · have hs := sum_map_set s.pool hid d .null IoData.toRead
    have hl := h.left
    rw [← hpool] at hs
    simp only [St.at] at hleft
    omega
  · rw [hblocks, hoffset]
    exact h.tiles
  · rw [hblocks]
    exact h.small
  · rw [hlen]
    exact howned
  · rw [hlen]
    exact hqueued

/-- An `io_data` changes without a change of phase, as in a short or a completed transfer. -/
theorem Book.update (h : Book N s) {id : ℕ} {d : IoData} {out : File} (hid : id < s.pool.length)
    (hb : d.block = (s.at id).block) (hr : d.read = (s.at id).read) (hl : d.live = (s.at id).live) :
    Book N { s with pool := s.pool.set id d, out := out } := by
  have hat (k : ℕ) := at_set s { s with pool := s.pool.set id d, out := out } rfl k
  have hto : d.toRead = (s.at id).toRead := by
    rw [IoData.toRead, IoData.toRead, IoData.reading, IoData.reading, hr, hl]
    rw [show d.firstLen = (s.at id).firstLen from congrArg Prod.snd hb]
  refine h.set hid rfl hb rfl rfl ?_ ?_ ?_ h.room h.nodup ?_ h.queuedOnce ?_
  · rw [IoData.reading, IoData.reading, hr, hl]
  · rw [IoData.writing, IoData.writing, hr, hl]
  · rw [hto]
  · intro k
    rw [hat]
    split_ifs with hk
    · obtain ⟨rfl, -⟩ := hk
      rw [hl]
      exact h.owned _
    · exact h.owned k
  · intro k hk
    rw [hat]
    split_ifs with hk'
    · obtain ⟨rfl, -⟩ := hk'
      rw [hr]
      exact h.queued _ hk
    · exact h.queued k hk

theorem Book.transfer (h : Book N s) {j : ℕ} {q : Sqe} (hq : s.flight[j]? = some q) (n : ℕ) :
    Book N (s.transfer e q n) := by
  have hid := (h.in_flight hq).1
  unfold St.transfer
  split
  · exact h.update hid rfl rfl rfl
  · exact ⟨h.reads, h.writes, h.room, h.size, h.left, h.tiles, h.small, h.nodup, h.owned, h.queuedOnce, h.queued⟩

theorem Book.advance (h : Book N s) {id : ℕ} (hid : id < s.pool.length) (n : ℕ) : Book N (s.advance id n) :=
  h.update hid rfl rfl rfl

theorem Book.withRead (h : Book N s) (hin : s.insize ≠ 0) (hroom : s.reads + s.writes < QD) :
    Book N (s.withRead e) := by
  have hpos : 0 < s.thisSize := by unfold St.thisSize BS; split <;> omega
  have hle : s.thisSize ≤ s.insize := by unfold St.thisSize; split <;> omega
  have hbs : s.thisSize ≤ BS := by unfold St.thisSize; split <;> omega
  have hids : (s.withRead e).ids.Perm (s.pool.length :: s.ids) := by
    exact ((perm_queued s _).map Sqe.id).append_right _
  have hfresh : s.pool.length ∉ s.ids := fun hk => absurd ((h.owned _).mp hk).1 (lt_irrefl _)
  refine ⟨?_, ?_, ?_, ?_, ?_, ?_, ?_, ?_, ?_, h.queuedOnce, ?_⟩
  · simp [St.withRead, IoData.reading, h.reads]
  · simp [St.withRead, IoData.writing, h.writes]
  · simp only [St.withRead]
    omega
  · have := h.size
    simp only [St.withRead]
    omega
  · have := h.left
    simp only [St.withRead, List.map_append, List.sum_append, List.map_cons, List.map_nil, List.sum_cons, List.sum_nil,
      IoData.toRead, IoData.reading, Bool.and_self, if_true]
    omega
  · simp only [St.withRead, List.map_append]
    exact h.tiles.append hpos
  · intro b hb
    simp only [St.withRead, List.map_append, List.mem_append, List.map_cons, List.map_nil, List.mem_singleton] at hb
    rcases hb with hb | rfl
    · exact h.small b hb
    · exact hbs
  · exact hids.nodup_iff.mpr (List.nodup_cons.mpr ⟨hfresh, h.nodup⟩)
  · intro k
    rw [hids.mem_iff, List.mem_cons, h.owned k]
    rcases lt_trichotomy k s.pool.length with hk | rfl | hk
    · rw [at_append s (s.withRead e) rfl hk]
      simp [St.withRead, hk, Nat.lt_succ_of_lt hk, hk.ne]
    · simp [St.withRead, St.at]
    · simp only [St.withRead, List.length_append, List.length_singleton]
      omega
  · intro k hk
    obtain ⟨hlt, hr⟩ := h.queued k hk
    rw [at_append s (s.withRead e) rfl hlt]
    simp only [St.withRead, List.length_append, List.length_singleton]
    exact ⟨by omega, hr⟩

/-- A complete read becomes a write. -/
theorem Book.toWrite (h : Book N s) {id : ℕ} (hid : id < s.pool.length) (hl : (s.at id).live = true)
    (hr : (s.at id).read = true) :
    Book N { s.toWrite id with
      writeLeft := s.writeLeft - (s.at id).firstLen, reads := s.reads - 1, writes := s.writes + 1 } := by
  have hreads : 0 < s.reads := by
    rw [h.reads, List.countP_pos_iff]
    exact ⟨s.at id, at_mem hid, by simp [IoData.reading, hl, hr]⟩
  have hto : (s.at id).toRead = (s.at id).firstLen := by simp [IoData.toRead, IoData.reading, hl, hr]
  have hleft := h.toRead_le hid
  have hnew : id ∉ s.writeQueued := by
    intro hk
    have := (h.queued id hk).2
    simp [hr] at this
  have hroom := h.room
  have hat (k : ℕ) := at_set s { s.toWrite id with
    writeLeft := s.writeLeft - (s.at id).firstLen, reads := s.reads - 1, writes := s.writes + 1 } rfl k
  refine h.set hid rfl rfl rfl rfl ?_ ?_ ?_ ?_ h.nodup ?_ ?_ ?_
  · simp only [IoData.reading, hl, hr, Bool.and_self, Bool.and_false, if_true, Bool.false_eq_true, if_false]
    omega
  · simp [IoData.writing, hl, hr]
  · rw [hto]
    simp only [IoData.toRead, IoData.reading, Bool.and_false, Bool.false_eq_true, if_false]
    omega
  · show s.reads - 1 + (s.writes + 1) ≤ QD
    omega
  · intro k
    rw [hat]
    split_ifs with hk
    · obtain ⟨rfl, -⟩ := hk
      exact h.owned _
    · exact h.owned k
  · exact List.nodup_append.mpr ⟨h.queuedOnce, List.nodup_singleton _, by
      intro a ha b hb hab
      rw [List.mem_singleton] at hb
      exact hnew (hb ▸ hab ▸ ha)⟩
  · intro k hk
    rw [hat]
    split_ifs with hk'
    · exact ⟨hk'.2, rfl⟩
    · rcases List.mem_append.mp hk with hk | hk
      · exact h.queued k hk
      · rw [List.mem_singleton] at hk
        omega

theorem withWrite_eq (s : St) {id : ℕ} (hid : id < s.pool.length) (r : ℤ) :
    s.withWrite id r = { ({ s.toWrite id with
        writeLeft := s.writeLeft - (s.at id).firstLen, reads := s.reads - 1,
        writes := s.writes + 1 }.push id).submit r with pc := .inner } := by
  have hlen : ((((s.toWrite id).push id).submit r).at id).firstLen = (s.at id).firstLen := by
    rw [at_set s (((s.toWrite id).push id).submit r) rfl id, if_pos ⟨rfl, hid⟩]
  unfold St.withWrite
  simp only [hlen]
  rfl

theorem Book.withWrite (h : Book N s) {c : Cqe} {cq : List Cqe} (hc : s.cq = c :: cq) (hr : (s.at c.id).read = true)
    (r : ℤ) : Book N ({ s with cq := cq }.withWrite c.id r) := by
  obtain ⟨hid, hl⟩ := h.head hc
  rw [withWrite_eq { s with cq := cq } hid]
  exact (((h.toWrite hid hl hr).push hc).submit r).control .inner s.hadReads s.gotComp

theorem Book.writes_pos (h : Book N s) {id : ℕ} (hid : id < s.pool.length) (hl : (s.at id).live = true)
    (hw : (s.at id).read = false) : 0 < s.writes := by
  rw [h.writes, List.countP_pos_iff]
  exact ⟨s.at id, at_mem hid, by simp [IoData.writing, hl, hw]⟩

theorem Book.writeDone (h : Book N s) {c : Cqe} {cq : List Cqe} (hc : s.cq = c :: cq)
    (hw : (s.at c.id).read = false) : Book N ({ s with cq := cq }.writeDone c.id) := by
  obtain ⟨hid, hl⟩ := h.head hc
  have hwrites := h.writes_pos hid hl hw
  have hids : s.ids.Perm (c.id :: ({ s with cq := cq }.writeDone c.id).ids) := by
    unfold St.ids
    rw [hc]
    exact List.perm_middle
  have hnodup := List.nodup_cons.mp (hids.nodup_iff.mp h.nodup)
  have hroom := h.room
  have hat (k : ℕ) := at_set s ({ s with cq := cq }.writeDone c.id) rfl k
  refine h.set hid rfl rfl rfl rfl ?_ ?_ ?_ ?_ hnodup.2 ?_ h.queuedOnce ?_
  · simp [IoData.reading, hw, St.writeDone]
  · simp only [IoData.writing, hl, hw, Bool.not_false, Bool.and_self, if_true, Bool.false_and, Bool.false_eq_true,
      if_false, St.writeDone]
    omega
  · simp [IoData.toRead, IoData.reading, hw, St.writeDone]
  · show s.reads + (s.writes - 1) ≤ QD
    omega
  · intro k
    rw [hat]
    have hk := h.owned k
    rw [hids.mem_iff, List.mem_cons] at hk
    split_ifs with hk'
    · obtain ⟨rfl, -⟩ := hk'
      simp [hnodup.1]
    · rw [← hk]
      constructor
      · exact Or.inr
      · rintro (rfl | hmem)
        · exact absurd ⟨rfl, hid⟩ hk'
        · exact hmem
  · intro k hk
    rw [hat]
    split_ifs with hk'
    · obtain ⟨rfl, -⟩ := hk'
      exact ⟨hid, hw⟩
    · exact h.queued k hk

/-! ## Steps and runs -/

theorem book_init (N : ℕ) : Book N (St.init N) := by
  refine ⟨rfl, rfl, Nat.zero_le _, Nat.zero_add N, rfl, rfl, ?_, List.nodup_nil, ?_, List.nodup_nil, ?_⟩
  · simp [St.init]
  · simp [St.init, St.ids]
  · simp [St.init]

theorem Book.step (h : Book N s) (hm : Move e s a s') : Book N s' := by
  cases hm with
  | enter => exact h.control _ _ _
  | finish => exact h.control _ _ _
  | readStop => exact h.control _ _ _
  | queueRead r _ hin hroom => exact h.withRead hin hroom
  | submitFail => exact h.control _ _ _
  | submit r => exact (h.submit r).control _ _ _
  | noSubmit => exact h.control _ _ _
  | leave => exact h.control _ _ _
  | toWait => exact h.control _ _ _
  | peek => exact h.control _ _ _
  | peekFail => exact h.control _ _ _
  | waited => exact h.control _ _ _
  | waitFail => exact h.control _ _ _
  | again r _ hc => exact (h.push hc).control _ _ _
  | failed => exact h.control _ _ _
  | short r _ hc => exact ((h.advance (h.head hc).1 _).push hc).control _ _ _
  | readDone r _ hc _ hr => exact h.withWrite hc hr r
  | writeDone r _ hc _ hw => exact h.writeDone hc hw
  | overflow r _ hc hfull =>
    have := h.free_entry hc
    omega
  | @complete _ res q hq =>
    have ht := h.transfer (e := e) hq res.toNat
    obtain ⟨pool, out, hf⟩ := transfer_frame s e q res.toNat
    rw [hf] at ht ⊢
    exact ht.ring _ _ _ (ids_complete hq _)

theorem Move.pc_ne_abort (hm : Move e s a s') (h : Book N s) (hp : s.pc ≠ .abort) : s'.pc ≠ .abort := by
  cases hm with
  | queueRead => exact hp
  | overflow r _ hc hfull =>
    have := h.free_entry hc
    omega
  | @complete _ res q =>
    obtain ⟨pool, out, ht⟩ := transfer_frame s e q res.toNat
    rw [ht]
    exact hp
  | _ => simp [St.withWrite, St.writeDone]

theorem reach_book (h : Reach (step e) Any (St.init N) s) : Book N s ∧ s.pc ≠ .abort := by
  refine h.invariant (fun s => Book N s ∧ s.pc ≠ .abort) ⟨book_init N, by simp [St.init]⟩ ?_
  rintro s s' a - ⟨hb, hp⟩ - hstep
  have hm := step_move hstep
  exact ⟨hb.step hm, hm.pc_ne_abort hb hp⟩

theorem sum_toRead (pool : List IoData) :
    (pool.map IoData.toRead).sum = ((pool.filter IoData.reading).map IoData.firstLen).sum := by
  induction pool with
  | nil => rfl
  | cons d ds ih =>
    rw [List.map_cons, List.sum_cons, ih, List.filter_cons, IoData.toRead]
    split
    · rw [List.map_cons, List.sum_cons]
    · rw [Nat.zero_add]

/-- **The counters of `copy_file`.**  In every state reached, so also at the loop heads, they count the live `io_data`
and the bytes that have not been read; the blocks tile `[0, offset)`, no block is written twice, and the assertion of
`queue_prepped` has not failed. -/
theorem copy_file_bookkeeping (h : Reach (step e) Any (St.init N) s) :
    s.reads = s.pool.countP (fun d => d.live && d.read) ∧
    s.writes = s.pool.countP (fun d => d.live && !d.read) ∧
    s.reads + s.writes ≤ QD ∧
    s.offset + s.insize = N ∧
    s.writeLeft = s.insize + ((s.pool.filter fun d => d.live && d.read).map IoData.firstLen).sum ∧
    (∀ d ∈ s.pool, 0 < d.firstLen ∧ d.firstLen ≤ BS) ∧
    s.pool.Pairwise (fun d d' => d.firstOffset + d.firstLen ≤ d'.firstOffset) ∧
    (∀ x, x < s.offset ↔ ∃ d ∈ s.pool, d.firstOffset ≤ x ∧ x < d.firstOffset + d.firstLen) ∧
    s.writeQueued.Nodup ∧
    s.pc ≠ .abort := by
  obtain ⟨hb, hp⟩ := reach_book h
  refine ⟨hb.reads, hb.writes, hb.room, hb.size, ?_, ?_, ?_, ?_, hb.queuedOnce, hp⟩
  · rw [hb.left, sum_toRead]
    rfl
  · intro d hd
    have hmem := List.mem_map_of_mem (f := IoData.block) hd
    exact ⟨(hb.tiles.bounds.2 _ hmem).2.2, hb.small _ hmem⟩
  · exact List.pairwise_map.mp hb.tiles.pairwise
  · intro x
    simpa [IoData.block] using hb.tiles.covers x

/-- An input of `n` bytes `7`, with zeroed buffers. -/
def sevens (n : ℕ) : Env := ⟨File.empty.write 0 n fun _ => 7, fun _ => 0⟩

/-- Both blocks of an input of `BS + 2` bytes are queued; the first read is short and the second one complete. -/
def shortThenFull : List Act :=
  [.prog 0, .prog 0, .prog 0, .prog 0, .prog 2, .kernel 0 1, .kernel 0 2, .prog 0, .prog 0, .prog 1, .prog 0, .prog 2]

theorem copy_file_bookkeeping_two_blocks : ∃ s, Reach (step (sevens (BS + 2))) Any (St.init (BS + 2)) s ∧
    s.pc = .inner ∧ s.reads = 1 ∧ s.writes = 1 ∧ s.writeQueued = [1] ∧
    s.writeLeft = s.insize + ((s.pool.filter fun d => d.live && d.read).map IoData.firstLen).sum := by
  obtain ⟨s, hs, hp⟩ := reach_of_runs (step (sevens (BS + 2))) Any (St.init (BS + 2)) shortThenFull
    (fun s => decide (s.pc = .inner ∧ s.reads = 1 ∧ s.writes = 1 ∧ s.writeQueued = [1])) (by decide)
  obtain ⟨hpc, hr, hw, hq⟩ := of_decide_eq_true hp
  obtain ⟨-, -, -, -, hleft, -⟩ := copy_file_bookkeeping hs
  exact ⟨s, hs, hpc, hr, hw, hq, hleft⟩

end CppNotes.Uring
