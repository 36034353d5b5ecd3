import CppNotes.Uring.Outstanding

/-!
# What `copy_file` copies

A partial transfer moves the iovec but not the file offset of the request, so the rest of the block is read from, or
written to, the place where the block starts.  Without partial transfers, and if `io_uring_submit` submits what is
queued, the output agrees with the input once everything that was in flight has completed (`Copied`).
-/

namespace CppNotes.Uring

open CppNotes.Lib

variable {N : ℕ} {e : Env} {s s' : St} {a : Act}

/-- A request completes in full or transfers nothing. -/
def Entire (s : St) : Act → Prop
  | .kernel j res => res ≤ 0 ∨ s.flight[j]?.map (fun q => ((s.at q.id).iovLen : ℤ)) = some res
  | .prog _ => True

/-- The buffer holds the block of the input. -/
def IoData.Holds (d : IoData) (inp : File) : Prop := ∀ i < d.firstLen, d.buf i = inp.byte (d.firstOffset + i)

/-- The output agrees with the input on the block. -/
def IoData.In (d : IoData) (out inp : File) : Prop :=
  ∀ i < d.firstLen, out.byte (d.firstOffset + i) = inp.byte (d.firstOffset + i)

/-- The request of the `io_data` has completed in full, unseen yet. -/
def St.Completed (s : St) (k : ℕ) : Prop := ∃ c ∈ s.cq, c.id = k ∧ c.res = (s.at k).firstLen

structure Copied (e : Env) (s : St) : Prop where
  whole : ∀ k < s.pool.length,
    (s.at k).iovBase = 0 ∧ (s.at k).iovLen = (s.at k).firstLen ∧ (s.at k).offset = (s.at k).firstOffset
  op : ∀ q ∈ s.sq ++ s.flight, q.read = (s.at q.id).read ∧ q.offset = (s.at q.id).firstOffset
  entire : ∀ c ∈ s.cq, c.res ≤ 0 ∨ c.res = (s.at c.id).firstLen
  freed : ∀ k < s.pool.length, (s.at k).live = false → (s.at k).read = false
  filled : ∀ k < s.pool.length, (s.at k).read = false ∨ s.Completed k → (s.at k).Holds e.inp
  written : ∀ k < s.pool.length, (s.at k).read = false → (s.at k).live = false ∨ s.Completed k →
    (s.at k).In s.out e.inp

theorem copied_init (e : Env) (N : ℕ) : Copied e (St.init N) := by
  refine ⟨?_, ?_, ?_, ?_, ?_, ?_⟩ <;> simp [St.init]

/-! ## Steps of the program -/

theorem Copied.control (h : Copied e s) (p : Pc) (n : ℕ) (g : Bool) :
    Copied e { s with pc := p, hadReads := n, gotComp := g } :=
  ⟨h.whole, h.op, h.entire, h.freed, h.filled, h.written⟩

theorem Copied.submit (h : Copied e s) (r : ℤ) : Copied e (s.submit r) := by
  refine ⟨h.whole, ?_, h.entire, h.freed, h.filled, h.written⟩
  intro q hq
  refine h.op q ?_
  have hq : q ∈ s.sq.drop r.toNat ++ (s.flight ++ s.sq.take r.toNat) := hq
  rw [← List.take_append_drop r.toNat s.sq]
  simp only [List.mem_append] at hq ⊢
  tauto

theorem Copied.seen (h : Copied e s) {c : Cqe} {cq : List Cqe} (hc : s.cq = c :: cq) : Copied e { s with cq := cq } := by
  have hmem {d : Cqe} (hd : d ∈ cq) : d ∈ s.cq := hc ▸ List.mem_cons_of_mem c hd
  have hlater (k : ℕ) : St.Completed { s with cq := cq } k → s.Completed k := by
    rintro ⟨d, hd, hk⟩
    exact ⟨d, hmem hd, hk⟩
  refine ⟨h.whole, h.op, fun d hd => h.entire d (hmem hd), h.freed, ?_, ?_⟩
  · intro k hk hf
    exact h.filled k hk (hf.imp_right (hlater k))
  · intro k hk hr hf
    exact h.written k hk hr (hf.imp_right (hlater k))

theorem Copied.push (h : Copied e s) {id : ℕ} (hid : id < s.pool.length) : Copied e (s.push id) := by
  refine ⟨h.whole, ?_, h.entire, h.freed, h.filled, h.written⟩
  intro q hq
  have hq : q ∈ s.sq ++ [⟨id, (s.at id).read, (s.at id).offset⟩] ++ s.flight := hq
  simp only [List.mem_append, List.mem_singleton] at hq
  rcases hq with (hq | rfl) | hq
  · exact h.op q (List.mem_append_left _ hq)
  · exact ⟨rfl, (h.whole id hid).2.2⟩
  · exact h.op q (List.mem_append_right _ hq)

/-- An `io_data` without a request in the ring changes its phase. -/
theorem Copied.set (h : Copied e s) {id : ℕ} {d : IoData} (hid : id < s.pool.length) (hring : id ∉ s.ids)
    (hpool : s'.pool = s.pool.set id d) (hsq : s'.sq = s.sq) (hflight : s'.flight = s.flight) (hcq : s'.cq = s.cq)
    (hout : s'.out = s.out) (hwhole : d.iovBase = 0 ∧ d.iovLen = d.firstLen ∧ d.offset = d.firstOffset)
    (hread : d.read = false) (hholds : d.Holds e.inp) (hin : d.live = false → d.In s.out e.inp) : Copied e s' := by
  have hself : s'.at id = d := by rw [at_set s s' hpool, if_pos ⟨rfl, hid⟩]
  have hat {k : ℕ} (hk : id ≠ k) : s'.at k = s.at k := by rw [at_set s s' hpool, if_neg (fun hn => hk hn.1)]
  have hlen : s'.pool.length = s.pool.length := by rw [hpool, List.length_set]
  have hop {q : Sqe} (hq : q ∈ s.sq ++ s.flight) : id ≠ q.id := by
    rintro rfl
    exact hring (List.mem_append_left _ (List.mem_map_of_mem hq))
  have hcqe {c : Cqe} (hc : c ∈ s.cq) : id ≠ c.id := by
    rintro rfl
    exact hring (List.mem_append_right _ (List.mem_map_of_mem hc))
  have hcompleted {k : ℕ} (hf : s'.Completed k) : id ≠ k ∧ s.Completed k := by
    obtain ⟨c, hc, rfl, hres⟩ := hf
    rw [hcq] at hc
    have hne := hcqe hc
    exact ⟨hne, c, hc, rfl, by rwa [hat hne] at hres⟩
  refine ⟨?_, ?_, ?_, ?_, ?_, ?_⟩
  · intro k hk
    rw [hlen] at hk
    by_cases heq : id = k
    · subst heq
      rw [hself]
      exact hwhole
    · rw [hat heq]
      exact h.whole k hk
  · intro q hq
    rw [hsq, hflight] at hq
    rw [hat (hop hq)]
    exact h.op q hq
  · intro c hc
    rw [hcq] at hc
    rw [hat (hcqe hc)]
    exact h.entire c hc
  · intro k hk hl
    rw [hlen] at hk
    by_cases heq : id = k
    · subst heq
      rw [hself]
      exact hread
    · rw [hat heq] at hl ⊢
      exact h.freed k hk hl
  · intro k hk hf
    rw [hlen] at hk
    by_cases heq : id = k
    · subst heq
      rw [hself]
      exact hholds
    · rw [hat heq] at hf ⊢
      exact h.filled k hk (hf.imp_right fun hf => (hcompleted hf).2)
  · intro k hk hr hf
    rw [hlen] at hk
    rw [hout]
    by_cases heq : id = k
    · subst heq
      rw [hself] at hf ⊢
      exact hin (hf.resolve_right fun hf => (hcompleted hf).1 rfl)
    · rw [hat heq] at hr hf ⊢
      exact h.written k hk hr (hf.imp_right fun hf => (hcompleted hf).2)

theorem Copied.withRead (h : Copied e s) (hb : Book N s) : Copied e (s.withRead e) := by
  have hat {k : ℕ} (hk : k < s.pool.length) : (s.withRead e).at k = s.at k := at_append s (s.withRead e) rfl hk
  have hnew : (s.withRead e).at s.pool.length =
      ⟨true, s.offset, s.offset, s.thisSize, 0, s.thisSize, e.junk, true⟩ := by simp [St.withRead, St.at]
  have hlen {k : ℕ} (hk : k < (s.withRead e).pool.length) : k < s.pool.length ∨ k = s.pool.length := by
    simp only [St.withRead, List.length_append, List.length_singleton] at hk
    omega
  have hring {k : ℕ} (hk : k ∈ s.ids) : k < s.pool.length := ((hb.owned k).mp hk).1
  have hcq {c : Cqe} (hc : c ∈ s.cq) : c.id < s.pool.length :=
    hring (List.mem_append_right _ (List.mem_map_of_mem hc))
  have hsame {k : ℕ} (hk : k < s.pool.length) (hf : (s.withRead e).Completed k) : s.Completed k := by
    rw [St.Completed, hat hk] at hf
    exact hf
  have hfresh : ¬ (s.withRead e).Completed s.pool.length := by
    rintro ⟨c, hc, hid, -⟩
    exact absurd (hcq hc) (by omega)
  refine ⟨?_, ?_, ?_, ?_, ?_, ?_⟩
  · intro k hk
    rcases hlen hk with hk | rfl
    · rw [hat hk]
      exact h.whole k hk
    · simp [hnew]
  · intro q hq
    have hq : q ∈ s.sq ++ [⟨s.pool.length, true, s.offset⟩] ++ s.flight := hq
    simp only [List.mem_append, List.mem_singleton] at hq
    have hold (hq : q ∈ s.sq ++ s.flight) :
        q.read = ((s.withRead e).at q.id).read ∧ q.offset = ((s.withRead e).at q.id).firstOffset := by
      rw [hat (hring (List.mem_append_left _ (List.mem_map_of_mem hq)))]
      exact h.op q hq
    rcases hq with (hq | rfl) | hq
    · exact hold (List.mem_append_left _ hq)
    · rw [hnew]
      exact ⟨rfl, rfl⟩
    · exact hold (List.mem_append_right _ hq)
  · intro c hc
    rw [hat (hcq hc)]
    exact h.entire c hc
  · intro k hk hl
    rcases hlen hk with hk | rfl
    · rw [hat hk] at hl ⊢
      exact h.freed k hk hl
    · simp [hnew] at hl
  · intro k hk hf
    rcases hlen hk with hk | rfl
    · rw [hat hk] at hf ⊢
      exact h.filled k hk (hf.imp_right (hsame hk))
    · rw [hnew] at hf
      simp [hfresh] at hf
  · intro k hk hr hf
    rcases hlen hk with hk | rfl
    · rw [hat hk] at hr hf ⊢
      exact h.written k hk hr (hf.imp_right (hsame hk))
    · simp [hnew] at hr

/-! ## Steps of the kernel -/

/-- `n` bytes from the start of the block are read into the start of the buffer. -/
def IoData.fill (d : IoData) (inp : File) (n : ℕ) : IoData :=
  { d with buf := fun i => if i < n then inp.byte (d.firstOffset + i) else d.buf i }

theorem IoData.fill_holds {d : IoData} {inp : File} {n : ℕ} (h : d.Holds inp ∨ n = d.firstLen) :
    (d.fill inp n).Holds inp := by
  intro i hi
  simp only [IoData.fill]
  split
  · rfl
  · rcases h with h | rfl
    · exact h i hi
    · exact absurd hi ‹_›

/-- A write from a buffer that holds the block leaves no wrong byte behind. -/
theorem byte_write_of_holds {d : IoData} {out inp : File} {n x : ℕ} (h : d.Holds inp) (hn : n ≤ d.firstLen)
    (hx : out.byte x = inp.byte x ∨ d.firstOffset ≤ x ∧ x < d.firstOffset + n) :
    (out.write d.firstOffset n d.buf).byte x = inp.byte x := by
  by_cases hmem : d.firstOffset ≤ x ∧ x < d.firstOffset + n
  · rw [File.write_byte_of_mem hmem.1 hmem.2, h _ (by omega)]
    congr 1
    omega
  · rw [File.write_byte_of_not_mem hmem]
    exact hx.resolve_right hmem

theorem Copied.transfer_eq (h : Copied e s) {q : Sqe} (n : ℕ) (hid : q.id < s.pool.length) (hq : q ∈ s.flight) :
    s.transfer e q n =
      if (s.at q.id).read then { s with pool := s.pool.set q.id ((s.at q.id).fill e.inp n) }
      else { s with out := s.out.write (s.at q.id).firstOffset n (s.at q.id).buf } := by
  obtain ⟨hread, hoffset⟩ := h.op q (List.mem_append_right _ hq)
  obtain ⟨hbase, -, -⟩ := h.whole q.id hid
  simp only [St.transfer, IoData.fill, hread, hoffset, hbase, Nat.zero_le, true_and, Nat.zero_add, Nat.sub_zero]

theorem Copied.readBlock (h : Copied e s) (id n : ℕ) :
    Copied e { s with pool := s.pool.set id ((s.at id).fill e.inp n) } := by
  have hat (k : ℕ) := at_set s { s with pool := s.pool.set id ((s.at id).fill e.inp n) } rfl k
  have hlen : (s.pool.set id ((s.at id).fill e.inp n)).length = s.pool.length := List.length_set
  have hsame {β : Type} (f : IoData → β) (hf : f ((s.at id).fill e.inp n) = f (s.at id)) (k : ℕ) :
      f (St.at { s with pool := s.pool.set id ((s.at id).fill e.inp n) } k) = f (s.at k) := by
    rw [hat]
    split_ifs with hk
    · rw [hf, hk.1]
    · rfl
  have hcompleted {k : ℕ} (hf : St.Completed { s with pool := s.pool.set id ((s.at id).fill e.inp n) } k) :
      s.Completed k := by
    rw [St.Completed, hsame IoData.firstLen rfl] at hf
    exact hf
  refine ⟨?_, ?_, ?_, ?_, ?_, ?_⟩
  · intro k hk
    rw [hsame IoData.iovBase rfl, hsame IoData.iovLen rfl, hsame IoData.firstLen rfl, hsame IoData.offset rfl,
      hsame IoData.firstOffset rfl]
    exact h.whole k (hlen ▸ hk)
  · intro q hq
    rw [hsame IoData.read rfl, hsame IoData.firstOffset rfl]
    exact h.op q hq
  · intro c hc
    rw [hsame IoData.firstLen rfl]
    exact h.entire c hc
  · intro k hk
    rw [hsame IoData.live rfl, hsame IoData.read rfl]
    exact h.freed k (hlen ▸ hk)
  · intro k hk hf
    rw [hsame IoData.read rfl] at hf
    have hh := h.filled k (hlen ▸ hk) (hf.imp_right hcompleted)
    rw [hat]
    split_ifs with hk'
    · rw [hk'.1]
      exact IoData.fill_holds (.inl hh)
    · exact hh
  · intro k hk hr hf
    rw [hsame IoData.read rfl] at hr
    rw [hsame IoData.live rfl] at hf
    have hin := h.written k (hlen ▸ hk) hr (hf.imp_right hcompleted)
    intro i hi
    rw [hsame IoData.firstLen rfl] at hi
    rw [hsame IoData.firstOffset rfl]
    exact hin i hi

theorem Copied.writeBlock (h : Copied e s) {id n : ℕ} (hh : (s.at id).Holds e.inp) (hn : n ≤ (s.at id).firstLen) :
    Copied e { s with out := s.out.write (s.at id).firstOffset n (s.at id).buf } := by
  refine ⟨h.whole, h.op, h.entire, h.freed, h.filled, ?_⟩
  intro k hk hr hf i hi
  exact byte_write_of_holds hh hn (.inl (h.written k hk hr hf i hi))

/-- What a transfer leaves behind, and what it has achieved if it was a full one. -/
theorem Copied.transfer (h : Copied e s) {q : Sqe} {n : ℕ} (hid : q.id < s.pool.length) (hq : q ∈ s.flight)
    (hn : n ≤ (s.at q.id).firstLen) :
    Copied e (s.transfer e q n) ∧ ((s.transfer e q n).at q.id).firstLen = (s.at q.id).firstLen ∧
    (n = (s.at q.id).firstLen → ((s.transfer e q n).at q.id).Holds e.inp ∧
      (((s.transfer e q n).at q.id).read = false → ((s.transfer e q n).at q.id).In (s.transfer e q n).out e.inp)) := by
  rw [h.transfer_eq n hid hq]
  split_ifs with hr
  · have hself : St.at { s with pool := s.pool.set q.id ((s.at q.id).fill e.inp n) } q.id = (s.at q.id).fill e.inp n := by
      rw [at_set s { s with pool := s.pool.set q.id ((s.at q.id).fill e.inp n) } rfl q.id, if_pos ⟨rfl, hid⟩]
    rw [hself]
    refine ⟨h.readBlock q.id n, rfl, fun hfull => ⟨IoData.fill_holds (.inr hfull), fun hw => ?_⟩⟩
    have hw : (s.at q.id).read = false := hw
    simp [hr] at hw
  · have hh := h.filled q.id hid (.inl (by simpa using hr))
    refine ⟨h.writeBlock hh hn, rfl, fun hfull => ⟨hh, fun _ i hi => byte_write_of_holds hh hn (.inr ⟨Nat.le_add_right _ _, ?_⟩)⟩⟩
    rw [hfull]
    exact Nat.add_lt_add_left hi _

/-- The completion of a request is posted. -/
theorem Copied.complete (h : Copied e s) (id : ℕ) (res : ℤ) (j : ℕ) (hpos : 0 < (s.at id).firstLen)
    (hres : res ≤ 0 ∨ res = (s.at id).firstLen ∧ (s.at id).Holds e.inp ∧
      ((s.at id).read = false → (s.at id).In s.out e.inp)) :
    Copied e { s with flight := s.flight.eraseIdx j, cq := s.cq ++ [⟨id, res⟩] } := by
  have hcompleted {k : ℕ} (hf : St.Completed { s with flight := s.flight.eraseIdx j, cq := s.cq ++ [⟨id, res⟩] } k) :
      s.Completed k ∨ id = k ∧ res = (s.at id).firstLen := by
    obtain ⟨c, hc, hk, hfull⟩ := hf
    rcases List.mem_append.mp hc with hc | hc
    · exact .inl ⟨c, hc, hk, hfull⟩
    · rw [List.mem_singleton] at hc
      subst hc
      subst hk
      exact .inr ⟨rfl, hfull⟩
  refine ⟨h.whole, ?_, ?_, h.freed, ?_, ?_⟩
  · intro q hq
    refine h.op q ?_
    have hq : q ∈ s.sq ++ s.flight.eraseIdx j := hq
    rcases List.mem_append.mp hq with hq | hq
    · exact List.mem_append_left _ hq
    · exact List.mem_append_right _ (List.mem_of_mem_eraseIdx hq)
  · intro c hc
    rcases List.mem_append.mp hc with hc | hc
    · exact h.entire c hc
    · rw [List.mem_singleton] at hc
      subst hc
      exact hres.imp_right And.left
  · intro k hk hf
    rcases hf with hr | hf
    · exact h.filled k hk (.inl hr)
    · rcases hcompleted hf with hf | ⟨rfl, hfull⟩
      · exact h.filled k hk (.inr hf)
      · exact (hres.resolve_left (by omega)).2.1
  · intro k hk hr hf
    rcases hf with hl | hf
    · exact h.written k hk hr (.inl hl)
    · rcases hcompleted hf with hf | ⟨rfl, hfull⟩
      · exact h.written k hk hr (.inr hf)
      · exact (hres.resolve_left (by omega)).2.2 hr

/-! ## Steps and runs -/

theorem advance_zero (s : St) {id : ℕ} (hid : id < s.pool.length) : s.advance id 0 = s := by
  have hset : s.pool.set id (s.at id) = s.pool := by
    rw [St.at, List.getD_eq_getElem _ _ hid, List.set_getElem_self]
  exact congrArg (fun pool => { s with pool := pool }) hset

theorem Book.head_fresh (h : Book N s) {c : Cqe} {cq : List Cqe} (hc : s.cq = c :: cq) :
    c.id ∉ St.ids { s with cq := cq } := by
  have hn := h.nodup
  rw [St.ids, hc, List.map_cons, List.nodup_middle] at hn
  exact (List.nodup_cons.mp hn).1

theorem Copied.step (h : Copied e s) (hb : Book N s) (hent : Entire s a) (hm : Move e s a s') : Copied e s' := by
  cases hm with
  | enter => exact h.control _ _ _
  | finish => exact h.control _ _ _
  | readStop => exact h.control _ _ _
  | queueRead => exact h.withRead hb
  | submitFail => exact h.control _ _ _
  | submit r => exact (h.submit r).control _ _ _
  | noSubmit => exact h.control _ _ _
  | leave => exact h.control _ _ _
  | toWait => exact h.control _ _ _
  | peek => exact h.control _ _ _
  | peekFail => exact h.control _ _ _
  | waited => exact h.control _ _ _
  | waitFail => exact h.control _ _ _
  | again r _ hc => exact ((h.seen hc).push (hb.head hc).1).control _ _ _
  | failed => exact h.control _ _ _
  | @short r c cq _ hc h0 hne =>
    have hid := (hb.head hc).1
    have hzero : c.res.toNat = 0 := by
      have := h.entire c (by simp [hc])
      rw [(h.whole _ hid).2.1] at hne
      omega
    rw [hzero, advance_zero { s with cq := cq } hid]
    exact ((h.seen hc).push hid).control _ _ _
  | @readDone r c cq _ hc hfull hr =>
    obtain ⟨hid, hl⟩ := hb.head hc
    rw [(h.whole _ hid).2.1] at hfull
    have hholds := h.filled _ hid (.inr ⟨c, by simp [hc], rfl, hfull⟩)
    rw [withWrite_eq { s with cq := cq } hid]
    have hw : Copied e { St.toWrite { s with cq := cq } c.id with
        writeLeft := s.writeLeft - (s.at c.id).firstLen, reads := s.reads - 1, writes := s.writes + 1 } := by
      refine (h.seen hc).set hid (hb.head_fresh hc) rfl rfl rfl rfl rfl ⟨rfl, rfl, rfl⟩ rfl hholds fun hf => ?_
      have hf : (s.at c.id).live = false := hf
      simp [hl] at hf
    exact ((hw.push (by simpa [St.toWrite] using hid)).submit r).control _ _ _
  | @writeDone r c cq _ hc hfull hw =>
    have hid := (hb.head hc).1
    have hwhole := h.whole _ hid
    rw [hwhole.2.1] at hfull
    have hin := h.written _ hid hw (.inr ⟨c, by simp [hc], rfl, hfull⟩)
    exact (h.seen hc).set hid (hb.head_fresh hc) rfl rfl rfl rfl rfl hwhole hw (h.filled _ hid (.inl hw)) fun _ => hin
  | overflow r _ hc hroom =>
    have := hb.free_entry hc
    omega
  | @complete j res q hq hle =>
    have hid := (hb.in_flight hq).1
    have hlen := (h.whole _ hid).2.1
    have hpos := hb.firstLen_pos hid
    obtain ⟨ht, hfirst, hfull⟩ := h.transfer hid (List.mem_of_getElem? hq) (n := res.toNat) (by omega)
    have hc := ht.complete q.id res j (by omega) ?_
    · obtain ⟨pool, out, hf⟩ := transfer_frame s e q res.toNat
      rw [hf] at hc ⊢
      exact hc
    · rcases hent with hneg | heq
      · exact .inl hneg
      · rw [hq, Option.map_some, Option.some.injEq] at heq
        exact .inr ⟨by omega, hfull (by omega)⟩

/-- Once the last write is queued nothing is left to submit, and `copy_file` returns 0 only then. -/
structure Flushed (s : St) : Prop where
  submitted : s.writeLeft = 0 → s.sq = []
  last : s.pc = .ret 0 → s.writeLeft = 0

theorem Flushed.step (h : Flushed s) (hb : Book N s) (ho : Owing N s) (hsub : SubmitsAll s a) (hm : Move e s a s') :
    Flushed s' := by
  cases hm with
  | enter => exact ⟨h.submitted, by simp⟩
  | finish r hp _ hl => exact ⟨h.submitted, fun _ => hl⟩
  | readStop => exact ⟨h.submitted, by simp⟩
  | queueRead r hp => exact ⟨fun hl => absurd hl (ho.busy hp rfl), h.last⟩
  | submitFail r hp _ hr =>
    have := hsub.1 hp
    omega
  | submit r hp => exact ⟨fun hl => absurd hl (ho.busy hp rfl), by simp⟩
  | noSubmit => exact ⟨h.submitted, by simp⟩
  | leave => exact ⟨h.submitted, by simp⟩
  | toWait => exact ⟨h.submitted, by simp⟩
  | peek => exact ⟨h.submitted, by simp⟩
  | peekFail => exact ⟨h.submitted, by simp⟩
  | waited => exact ⟨h.submitted, by simp⟩
  | waitFail => exact ⟨h.submitted, by simp⟩
  | again r hp => exact ⟨fun hl => absurd hl (ho.busy hp rfl), by simp⟩
  | failed => exact ⟨h.submitted, by simp⟩
  | short r hp => exact ⟨fun hl => absurd hl (ho.busy hp rfl), by simp⟩
  | readDone r hp =>
    have hr := hsub.2 hp
    refine ⟨fun _ => ?_, by simp [St.withWrite]⟩
    simp [St.withWrite, St.submit, St.push, St.toWrite, hr]
  | writeDone => exact ⟨h.submitted, by simp [St.writeDone]⟩
  | overflow r _ hc hroom =>
    have := hb.free_entry hc
    omega
  | @complete _ res q =>
    obtain ⟨pool, out, ht⟩ := transfer_frame s e q res.toNat
    rw [ht]
    exact ⟨h.submitted, h.last⟩

/-- `io_uring_submit` submits what is queued, and there are no partial transfers. -/
def Smooth (s : St) (a : Act) : Prop := SubmitsAll s a ∧ Entire s a

instance (s : St) : (a : Act) → Decidable (Entire s a)
  | .kernel _ _ => inferInstanceAs (Decidable (_ ∨ _))
  | .prog _ => inferInstanceAs (Decidable True)

instance (s : St) (a : Act) : Decidable (Smooth s a) := inferInstanceAs (Decidable (_ ∧ _))

theorem reach_copied (h : Reach (step e) Smooth (St.init N) s) : Copied e s ∧ Flushed s := by
  refine h.invariant (fun s => Copied e s ∧ Flushed s) ⟨copied_init e N, fun _ => rfl, by simp [St.init]⟩ ?_
  rintro s s' a hr ⟨hc, hf⟩ ⟨hsub, hent⟩ hstep
  have hb := (reach_book hr.any).1
  have hm := step_move hstep
  exact ⟨hc.step hb hent hm, hf.step hb (reach_owing hr.any) hsub hm⟩

/-- **Faithful copy.**  Without partial transfers, and if every submission takes all that is queued: once `copy_file`
has returned 0 and what was then in flight has completed in full, the output holds the bytes of the input. -/
theorem copy_file_faithful (h : Reach (step e) Smooth (St.init e.inp.size) s) (hp : s.pc = .ret 0)
    (hflight : s.flight = []) (hfull : ∀ c ∈ s.cq, c.res = (s.at c.id).iovLen) :
    ∀ x < e.inp.size, s.out.byte x = e.inp.byte x := by
  obtain ⟨hc, hf⟩ := reach_copied h
  have hb := (reach_book h.any).1
  have hl := hf.last hp
  have hsq := hf.submitted hl
  have hleft := hb.left
  have hsize := hb.size
  have hin (k : ℕ) (hk : k < s.pool.length) : (s.at k).In s.out e.inp := by
    have hr : (s.at k).read = false := by
      by_contra hread
      have hlive : (s.at k).live ≠ false := fun hlive => hread (hc.freed k hk hlive)
      have hto := hb.toRead_le hk
      simp only [Bool.not_eq_false] at hread hlive
      simp only [IoData.toRead, IoData.reading, hread, hlive, Bool.and_self, if_true] at hto
      have := hb.firstLen_pos hk
      omega
    refine hc.written k hk hr ?_
    by_cases hlive : (s.at k).live = true
    · have hid := (hb.owned k).mpr ⟨hk, hlive⟩
      rw [St.ids, hsq, hflight] at hid
      obtain ⟨c, hmem, rfl⟩ := List.mem_map.mp hid
      exact .inr ⟨c, hmem, rfl, by rw [hfull c hmem, (hc.whole _ hk).2.1]⟩
    · exact .inl (by simpa using hlive)
  intro x hx
  obtain ⟨b, hb', hlo, hhi⟩ := (hb.tiles.covers x).mp ⟨Nat.zero_le x, by omega⟩
  obtain ⟨d, hd, rfl⟩ := List.mem_map.mp hb'
  obtain ⟨k, hk, rfl⟩ := List.getElem_of_mem hd
  have hx' := hin k hk (x - (s.at k).firstOffset)
  rw [St.at, List.getD_eq_getElem _ _ hk] at hx'
  simp only [IoData.block] at hlo hhi
  rw [Nat.add_sub_cancel' hlo] at hx'
  exact hx' (by omega)

/-- A file of one byte is copied; the write completes after the return. -/
theorem copy_file_faithful_one_byte : ∃ s, Reach (step (sevens 1)) Smooth (St.init (sevens 1).inp.size) s ∧
    s.pc = .ret 0 ∧ s.flight = [] ∧ s.out.byte 0 = (sevens 1).inp.byte 0 := by
  obtain ⟨s, hs, hp⟩ := reach_of_runs (step (sevens 1)) Smooth (St.init (sevens 1).inp.size)
    (copyOneByte ++ [.kernel 0 1])
    (fun s => decide (s.pc = .ret 0) && s.flight.isEmpty && s.cq.all fun c => c.res = (s.at c.id).iovLen) (by decide)
  simp only [Bool.and_eq_true, decide_eq_true_eq, List.isEmpty_iff, List.all_eq_true] at hp
  obtain ⟨⟨hpc, hf⟩, hc⟩ := hp
  exact ⟨s, hs, hpc, hf, copy_file_faithful hs hpc hf hc 0 Nat.one_pos⟩

/-- Results of reads and writes, short or full. -/
def Positive : Act → Prop
  | .kernel _ res => 1 ≤ res
  | .prog _ => True

instance : (a : Act) → Decidable (Positive a)
  | .kernel _ _ => inferInstanceAs (Decidable (_ ≤ _))
  | .prog _ => inferInstanceAs (Decidable True)

/-- An input of `n` bytes `0, 1, 2, …`, with zeroed buffers. -/
def counting (n : ℕ) : Env := ⟨File.empty.write 0 n UInt8.ofNat, fun _ => 0⟩

/-- After the short read of the first block its rest is read, in full, from where the block starts. -/
theorem short_read_miscopies : ¬ ∀ (e : Env) (s : St),
    Reach (step e) (fun s a => Prompt s a ∧ Positive a) (St.init e.inp.size) s → s.pc = .ret 0 → s.flight = [] →
    (∀ c ∈ s.cq, c.res = (s.at c.id).iovLen) → ∀ x < e.inp.size, s.out.byte x = e.inp.byte x := by
  intro h
  obtain ⟨s, hs, hp⟩ := reach_of_runs (step (counting (BS + 2))) (fun s a => Prompt s a ∧ Positive a)
    (St.init (counting (BS + 2)).inp.size)
    (shortThenFull ++ [.kernel 0 16383, .prog 0, .prog 1, .prog 0, .prog 0, .kernel 0 2, .kernel 0 16384])
    (fun s => decide (s.pc = .ret 0) && s.flight.isEmpty && (s.cq.all fun c => c.res = (s.at c.id).iovLen) &&
      decide (s.out.byte 1 = 0)) (by decide)
  simp only [Bool.and_eq_true, decide_eq_true_eq, List.isEmpty_iff, List.all_eq_true] at hp
  obtain ⟨⟨⟨hpc, hf⟩, hc⟩, hbyte⟩ := hp
  have := h _ s hs hpc hf hc 1 (by decide)
  rw [hbyte] at this
  exact absurd this (by decide)

end CppNotes.Uring
