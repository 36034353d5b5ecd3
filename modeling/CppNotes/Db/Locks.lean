import CppNotes.Db.Map
import CppNotes.Lib.Locks

/-!
# Locks of several processes

Several processes may have the database open, and every call locks ranges of bytes of the two files: the pointer of a hash
chain, the pointer of the free list, the part of the index file where records are, the data file.  Whatever the files hold, a
call that returns has unlocked what it locked, and it asks for a second lock only while it holds the chain
(`DB.Logs.call`).  So the calls of any number of processes do not block each other for ever (`processes_finish`).

What a call reads may have been written by another process in between; here every call may find the files in any state.
-/

namespace CppNotes.Db

open CppNotes.Lib

/-! ## What the calls lock -/

/-- What happened to the locks, and that the fields that say where to lock are as before. -/
structure DB.Logs (db' db : DB) (ls : List LockCall) : Prop where
  locks : db'.locks = db.locks ++ ls
  nhash : db'.nhash = db.nhash
  hashoff : db'.hashoff = db.hashoff
  chainoff : db'.chainoff = db.chainoff

def freeLocks : List LockCall := [⟨.writew, .idxfd, FREE_OFF, 1⟩, ⟨.un, .idxfd, FREE_OFF, 1⟩]

def appendLocks (recoff : ℤ) : List LockCall :=
  [⟨.writew, .datfd, 0, 0⟩, ⟨.un, .datfd, 0, 0⟩, ⟨.writew, .idxfd, recoff, 0⟩, ⟨.un, .idxfd, recoff, 0⟩]

/-- What is locked while the chain is. -/
def IsBody (recoff : ℤ) (ls : List LockCall) : Prop :=
  ls = [] ∨ ls = freeLocks ∨ ls = freeLocks ++ appendLocks recoff

section Logs

variable {db db₁ db₂ : DB} {ls ls' : List LockCall}

theorem DB.Logs.refl (db : DB) : db.Logs db [] := ⟨by simp, rfl, rfl, rfl⟩

theorem DB.Logs.trans (h : db₁.Logs db ls) (h' : db₂.Logs db₁ ls') : db₂.Logs db (ls ++ ls') :=
  ⟨by rw [h'.locks, h.locks, List.append_assoc], h'.nhash.trans h.nhash, h'.hashoff.trans h.hashoff,
    h'.chainoff.trans h.chainoff⟩

theorem DB.Logs.lock (db : DB) (cmd : LockCmd) (fd : FileId) (offset : ℤ) (len : ℕ) :
    (db.lock cmd fd offset len).Logs db [⟨cmd, fd, offset, len⟩] := ⟨rfl, rfl, rfl, rfl⟩

theorem DB.Logs.recoff (h : db₁.Logs db ls) : db₁.recoff = db.recoff := by rw [DB.recoff, DB.recoff, h.nhash]

/-- A change of other fields. -/
theorem DB.Logs.of_eq (h₁ : db₁.locks = db.locks) (h₂ : db₁.nhash = db.nhash) (h₃ : db₁.hashoff = db.hashoff)
    (h₄ : db₁.chainoff = db.chainoff) : db₁.Logs db [] := ⟨by rw [h₁, List.append_nil], h₂, h₃, h₄⟩

/-- A check that does not end the process. -/
theorem check_eq_ok {α : Type} {c : Prop} [Decidable c] {e : Stop} {x : Except Stop α} {a : α} :
    (if c then .error e else x) = .ok a ↔ ¬ c ∧ x = .ok a := by
  split
  · simp_all
  · simp_all

theorem readPtr_logs {offset : ℤ} {r : ℤ × DB} (h : readPtr db offset = .ok r) : r.2.Logs db [] := by
  obtain ⟨idx, -, h⟩ := bind_eq_ok.mp h
  obtain ⟨-, h⟩ := check_eq_ok.mp h
  obtain rfl := Except.ok.inj h
  exact .of_eq rfl rfl rfl rfl

theorem parseIdx_logs {buf : List UInt8} {r : ℤ × DB} (h : parseIdx db buf = .ok r) : r.2.Logs db [] := by
  obtain ⟨-, h⟩ := check_eq_ok.mp h
  split at h
  · simp at h
  split at h
  · simp at h
  obtain ⟨-, h⟩ := check_eq_ok.mp h
  obtain ⟨-, h⟩ := check_eq_ok.mp h
  obtain ⟨-, h⟩ := check_eq_ok.mp h
  obtain rfl := Except.ok.inj h
  exact .of_eq rfl rfl rfl rfl

theorem readIdx_logs {offset : ℤ} {r : ℤ × DB} (h : readIdx db offset = .ok r) : r.2.Logs db [] := by
  obtain ⟨idx, -, h⟩ := bind_eq_ok.mp h
  dsimp only at h
  split at h
  · split at h
    · obtain rfl := Except.ok.inj h
      exact .of_eq rfl rfl rfl rfl
    · simp at h
  · obtain ⟨-, h⟩ := check_eq_ok.mp h
    obtain ⟨-, h⟩ := check_eq_ok.mp h
    have hlog := parseIdx_logs h
    exact ⟨hlog.locks, hlog.nhash, hlog.hashoff, hlog.chainoff⟩

theorem readDat_logs {r : List UInt8 × DB} (h : readDat db = .ok r) : r.2.Logs db [] := by
  obtain ⟨dat, -, h⟩ := bind_eq_ok.mp h
  obtain ⟨-, h⟩ := check_eq_ok.mp h
  obtain ⟨-, h⟩ := check_eq_ok.mp h
  obtain rfl := Except.ok.inj h
  exact .of_eq rfl rfl rfl rfl

theorem walk_logs {found : DB → Bool} {n : ℕ} {save offset : ℤ} {r : ℤ × ℤ × DB}
    (h : walk found n save offset db = .ok r) : r.2.2.Logs db [] := by
  induction n generalizing save offset db with
  | zero => simp [walk] at h
  | succ n ih =>
    rw [walk] at h
    split at h
    · obtain rfl := Except.ok.inj h
      exact .refl db
    · obtain ⟨r', hr', h⟩ := bind_eq_ok.mp h
      have hlog := readIdx_logs hr'
      split at h
      · obtain rfl := Except.ok.inj h
        exact hlog
      · exact hlog.trans (ih h)

theorem writePtr_logs {offset ptrval : ℤ} (h : writePtr db offset ptrval = .ok db₁) : db₁.Logs db [] := by
  obtain ⟨-, h⟩ := check_eq_ok.mp h
  obtain ⟨idx, -, h⟩ := bind_eq_ok.mp h
  obtain rfl := Except.ok.inj h
  exact .of_eq rfl rfl rfl rfl

theorem writeDat_set_logs {data : List UInt8} {offset : ℤ} (h : writeDat db data offset .set = .ok db₁) :
    db₁.Logs db [] := by
  obtain ⟨dat, -, h⟩ := bind_eq_ok.mp h
  obtain rfl := Except.ok.inj h
  exact .of_eq rfl rfl rfl rfl

theorem writeIdx_set_logs {key : List UInt8} {offset ptrval : ℤ} (h : writeIdx db key offset .set ptrval = .ok db₁) :
    db₁.Logs db [] := by
  obtain ⟨-, h⟩ := check_eq_ok.mp h
  obtain ⟨-, h⟩ := check_eq_ok.mp h
  obtain ⟨idx, -, h⟩ := bind_eq_ok.mp h
  obtain rfl := Except.ok.inj h
  exact .of_eq rfl rfl rfl rfl

/-- A record that is added is written under the locks of the ends of the files. -/
theorem append_logs {key data : List UInt8} {ptrval : ℤ} (h : append db key data ptrval = .ok db₁) :
    db₁.Logs db (appendLocks db.recoff) := by
  obtain ⟨db₂, h₂, h⟩ := bind_eq_ok.mp h
  obtain ⟨db₃, h₃, h⟩ := bind_eq_ok.mp h
  have hdat : db₂.Logs db [⟨.writew, .datfd, 0, 0⟩, ⟨.un, .datfd, 0, 0⟩] := by
    obtain ⟨dat, -, h₂⟩ := bind_eq_ok.mp h₂
    obtain rfl := Except.ok.inj h₂
    exact ⟨by simp [DB.lock], rfl, rfl, rfl⟩
  have hidx : db₃.Logs db₂ [⟨.writew, .idxfd, db₂.recoff, 0⟩, ⟨.un, .idxfd, db₂.recoff, 0⟩] := by
    obtain ⟨-, h₃⟩ := check_eq_ok.mp h₃
    obtain ⟨-, h₃⟩ := check_eq_ok.mp h₃
    obtain ⟨idx, -, h₃⟩ := bind_eq_ok.mp h₃
    obtain rfl := Except.ok.inj h₃
    exact ⟨by simp [DB.lock, DB.recoff], rfl, rfl, rfl⟩
  rw [hdat.recoff] at hidx
  exact (hdat.trans hidx).trans (writePtr_logs h)

theorem findFree_logs {keylen datlen : ℕ} {r : Bool × DB} (h : findFree db keylen datlen = .ok r) :
    r.2.Logs db freeLocks := by
  obtain ⟨p, hp, h⟩ := bind_eq_ok.mp h
  obtain ⟨w, hw, h⟩ := bind_eq_ok.mp h
  have hlog := ((DB.Logs.lock db .writew .idxfd FREE_OFF 1).trans (readPtr_logs hp)).trans (walk_logs hw)
  split at h
  · obtain rfl := Except.ok.inj h
    exact hlog.trans (.lock _ ..)
  · obtain ⟨db', hd, h⟩ := bind_eq_ok.mp h
    obtain rfl := Except.ok.inj h
    exact (hlog.trans (writePtr_logs hd)).trans (.lock _ ..)

theorem doDelete_logs (h : doDelete db = .ok db₁) : db₁.Logs db freeLocks := by
  obtain ⟨db₂, h₂, h⟩ := bind_eq_ok.mp h
  obtain ⟨r, hr, h⟩ := bind_eq_ok.mp h
  obtain ⟨db₃, h₃, h⟩ := bind_eq_ok.mp h
  obtain ⟨db₄, h₄, h⟩ := bind_eq_ok.mp h
  obtain ⟨db₅, h₅, h⟩ := bind_eq_ok.mp h
  obtain rfl := Except.ok.inj h
  have hblank : DB.Logs { db with
      datbuf := List.replicate (db.datlen - 1) SPACE
      idxbuf := List.replicate db.idxbuf.length SPACE } db [] := .of_eq rfl rfl rfl rfl
  have hread := ((hblank.trans (.lock _ ..)).trans (writeDat_set_logs h₂)).trans (readPtr_logs hr)
  have hwrite := ((writeIdx_set_logs h₃).trans (writePtr_logs h₄)).trans (writePtr_logs h₅)
  exact (hread.trans hwrite).trans (.lock _ ..)

theorem storeAbsent_logs {key data : List UInt8} {flag : ℤ} {r : ℤ × DB} (h : storeAbsent db key data flag = .ok r) :
    ∃ ls, IsBody db.recoff ls ∧ r.2.Logs db ls := by
  unfold storeAbsent at h
  split at h
  · obtain rfl := Except.ok.inj h
    exact ⟨[], .inl rfl, .of_eq rfl rfl rfl rfl⟩
  · obtain ⟨p, hp, h⟩ := bind_eq_ok.mp h
    obtain ⟨f, hf, h⟩ := bind_eq_ok.mp h
    have hlog := (readPtr_logs hp).trans (findFree_logs hf)
    split at h
    · obtain ⟨db₁, h₁, h⟩ := bind_eq_ok.mp h
      obtain rfl := Except.ok.inj h
      have happ := append_logs h₁
      rw [hlog.recoff] at happ
      exact ⟨_, .inr (.inr rfl), (hlog.trans happ).trans (.of_eq rfl rfl rfl rfl)⟩
    · obtain ⟨db₁, h₁, h⟩ := bind_eq_ok.mp h
      obtain ⟨db₂, h₂, h⟩ := bind_eq_ok.mp h
      obtain ⟨db₃, h₃, h⟩ := bind_eq_ok.mp h
      obtain rfl := Except.ok.inj h
      have hwrite := ((writeDat_set_logs h₁).trans (writeIdx_set_logs h₂)).trans (writePtr_logs h₃)
      exact ⟨_, .inr (.inl rfl), (hlog.trans hwrite).trans (.of_eq rfl rfl rfl rfl)⟩

theorem storePresent_logs {key data : List UInt8} {flag : ℤ} {r : ℤ × DB} (h : storePresent db key data flag = .ok r) :
    ∃ ls, IsBody db.recoff ls ∧ r.2.Logs db ls := by
  unfold storePresent at h
  split at h
  · obtain rfl := Except.ok.inj h
    exact ⟨[], .inl rfl, .of_eq rfl rfl rfl rfl⟩
  split at h
  · obtain ⟨db₁, h₁, h⟩ := bind_eq_ok.mp h
    obtain ⟨p, hp, h⟩ := bind_eq_ok.mp h
    obtain ⟨db₂, h₂, h⟩ := bind_eq_ok.mp h
    obtain rfl := Except.ok.inj h
    have hlog := (doDelete_logs h₁).trans (readPtr_logs hp)
    have happ := append_logs h₂
    rw [hlog.recoff] at happ
    exact ⟨_, .inr (.inr rfl), (hlog.trans happ).trans (.of_eq rfl rfl rfl rfl)⟩
  · obtain ⟨db₁, h₁, h⟩ := bind_eq_ok.mp h
    obtain rfl := Except.ok.inj h
    exact ⟨[], .inl rfl, (writeDat_set_logs h₁).trans (.of_eq rfl rfl rfl rfl)⟩

end Logs

/-! ## One call -/

/-- Where the pointer of the chain of a key is. -/
def DB.chain (db : DB) (key : List UInt8) : ℤ := hash db.nhash key * PTR_SZ + db.hashoff

/-- A call locks the chain, and other ranges only meanwhile. -/
inductive CallLocks (recoff : ℤ) (chain : ℤ) : List LockCall → Prop
  | none : CallLocks recoff chain []
  | locked (write : Bool) {ls : List LockCall} (h : IsBody recoff ls) :
    CallLocks recoff chain (⟨if write then .writew else .readw, .idxfd, chain, 1⟩ :: ls ++ [⟨.un, .idxfd, chain, 1⟩])

section Calls

variable {db db' : DB} {key : List UInt8}

theorem findAndLock_logs {w : Bool} {r : Bool × DB} (h : findAndLock db key w = .ok r) :
    r.2.locks = db.locks ++ [⟨if w then .writew else .readw, .idxfd, db.chain key, 1⟩] ∧ r.2.chainoff = db.chain key ∧
      r.2.recoff = db.recoff := by
  obtain ⟨p, hp, h⟩ := bind_eq_ok.mp h
  obtain ⟨w, hw, h⟩ := bind_eq_ok.mp h
  obtain rfl := Except.ok.inj h
  have hlog := (readPtr_logs hp).trans (walk_logs hw)
  exact ⟨by rw [hlog.locks]; simp [DB.lock, DB.chain], hlog.chainoff, hlog.recoff⟩

/-- What follows under the lock of the chain. -/
theorem callLocks_of_logs {w : Bool} {r : Bool × DB} (h : findAndLock db key w = .ok r) {ls : List LockCall}
    (hls : IsBody db.recoff ls) (hlog : db'.Logs r.2 ls) :
    ∃ ls, CallLocks db.recoff (db.chain key) ls ∧ db'.unlockChain.locks = db.locks ++ ls := by
  obtain ⟨hlocks, hchain, -⟩ := findAndLock_logs h
  refine ⟨_, .locked w hls, ?_⟩
  simp [DB.unlockChain, DB.lock, hlog.locks, hlocks, hlog.chainoff, hchain]

theorem fetch_locks {r : Option (List UInt8) × DB} (h : fetch db key = .ok r) :
    ∃ ls, CallLocks db.recoff (db.chain key) ls ∧ r.2.locks = db.locks ++ ls := by
  obtain ⟨f, hf, h⟩ := bind_eq_ok.mp h
  split at h
  · obtain ⟨d, hd, h⟩ := bind_eq_ok.mp h
    obtain rfl := Except.ok.inj h
    exact callLocks_of_logs hf (.inl rfl) ((readDat_logs hd).trans (.of_eq rfl rfl rfl rfl))
  · obtain rfl := Except.ok.inj h
    exact callLocks_of_logs hf (.inl rfl) (.of_eq rfl rfl rfl rfl)

theorem delete_locks {r : ℤ × DB} (h : delete db key = .ok r) :
    ∃ ls, CallLocks db.recoff (db.chain key) ls ∧ r.2.locks = db.locks ++ ls := by
  obtain ⟨f, hf, h⟩ := bind_eq_ok.mp h
  split at h
  · obtain ⟨db₁, h₁, h⟩ := bind_eq_ok.mp h
    obtain rfl := Except.ok.inj h
    exact callLocks_of_logs hf (.inr (.inl rfl)) ((doDelete_logs h₁).trans (.of_eq rfl rfl rfl rfl))
  · obtain rfl := Except.ok.inj h
    exact callLocks_of_logs hf (.inl rfl) (.of_eq rfl rfl rfl rfl)

theorem store_locks {data : List UInt8} {flag : ℤ} {r : ℤ × DB} (h : store db key data flag = .ok r) :
    ∃ ls, CallLocks db.recoff (db.chain key) ls ∧ r.2.locks = db.locks ++ ls := by
  unfold store at h
  split at h
  · obtain rfl := Except.ok.inj h
    exact ⟨[], .none, by simp⟩
  obtain ⟨-, h⟩ := check_eq_ok.mp h
  obtain ⟨f, hf, h⟩ := bind_eq_ok.mp h
  have hrec := (findAndLock_logs hf).2.2
  dsimp only at h
  split at h
  · obtain ⟨s, hs, h⟩ := bind_eq_ok.mp h
    obtain rfl := Except.ok.inj h
    obtain ⟨ls, hls, hlog⟩ := storeAbsent_logs hs
    exact callLocks_of_logs hf (hrec ▸ hls) hlog
  · obtain ⟨s, hs, h⟩ := bind_eq_ok.mp h
    obtain rfl := Except.ok.inj h
    obtain ⟨ls, hls, hlog⟩ := storePresent_logs hs
    exact callLocks_of_logs hf (hrec ▸ hls) hlog

theorem nextRec_locks {r : Option (List UInt8 × List UInt8) × DB} (h : nextRec db = .ok r) :
    r.2.locks = db.locks ++ [⟨.readw, .idxfd, FREE_OFF, 1⟩, ⟨.un, .idxfd, FREE_OFF, 1⟩] := by
  have hloop : ∀ n (db : DB) r, nextNonblank n db = .ok r → r.2.Logs db [] := by
    intro n
    induction n with
    | zero =>
      intro db r h
      simp [nextNonblank] at h
    | succ n ih =>
      intro db r h
      rw [nextNonblank] at h
      obtain ⟨p, hp, h⟩ := bind_eq_ok.mp h
      have hlog := readIdx_logs hp
      split at h
      · obtain rfl := Except.ok.inj h
        exact hlog
      split at h
      · exact hlog.trans (ih _ _ h)
      · obtain rfl := Except.ok.inj h
        exact hlog
  obtain ⟨n, hn, h⟩ := bind_eq_ok.mp h
  have hlog := hloop _ _ _ hn
  split at h
  · obtain ⟨d, hd, h⟩ := bind_eq_ok.mp h
    obtain rfl := Except.ok.inj h
    have := (hlog.trans (readDat_logs hd)).locks
    simp [DB.lock, this]
  · obtain rfl := Except.ok.inj h
    simp [DB.lock, hlog.locks]

end Calls

/-! ## Several processes -/

/-- A range of bytes of a file; the length 0 reaches to the end. -/
structure Range where
  fd : FileId
  offset : ℤ
  len : ℕ
  deriving DecidableEq

def Range.overlap (a b : Range) : Bool :=
  a.fd = b.fd ∧ (a.len = 0 ∨ b.offset < a.offset + a.len) ∧ (b.len = 0 ∨ a.offset < b.offset + b.len)

/-- The process waits for the lock (`F_SETLKW`), or gives it back. -/
def LockCall.act (l : LockCall) : LockAct Range :=
  match l.cmd with
  | .readw => .take false ⟨l.fd, l.offset, l.len⟩
  | .writew => .take true ⟨l.fd, l.offset, l.len⟩
  | .un => .drop ⟨l.fd, l.offset, l.len⟩

/-- What a process locks, call after call; it finds the files in any state. -/
inductive Script : List LockCall → Prop
  | exit : Script []
  | call {db db' : DB} {c : Call} {a : Answer} {ls rest : List LockCall} (hn : db.nhash = NHASH_DEF)
    (ho : db.hashoff = HASH_OFF) (h : c.run db = .ok (a, db')) (hl : db'.locks = db.locks ++ ls) (hs : Script rest) :
    Script (ls ++ rest)
  | nextRec {db : DB} {r : Option (List UInt8 × List UInt8) × DB} {ls rest : List LockCall} (h : nextRec db = .ok r)
    (hl : r.2.locks = db.locks ++ ls) (hs : Script rest) : Script (ls ++ rest)
  | dbOpen {creat trunc : Bool} {files : Option (List UInt8 × List UInt8)} {db : DB} {rest : List LockCall}
    (h : dbOpen creat trunc files = .ok (some db)) (hs : Script rest) : Script (db.locks ++ rest)

/-- The order in which the ranges are locked: the chains, the free list, the data file, the records of the index file. -/
def Range.rank (r : Range) : ℕ :=
  if r.fd = .datfd then 2 else if r = ⟨.idxfd, FREE_OFF, 1⟩ then 1 else if (RECOFF : ℤ) ≤ r.offset then 3 else 0

theorem Range.rank_le (r : Range) : r.rank ≤ 3 := by
  unfold rank
  split
  · omega
  split
  · omega
  split
  · omega
  · omega

section Ordered

variable {chain : ℤ} (hpos : 0 < chain) (hlt : chain < RECOFF)

include hpos hlt

/-- Who waits because of the chain waits for a chain, or for the whole file. -/
theorem rank_of_overlap_chain {r : Range} (h : r.overlap ⟨.idxfd, chain, 1⟩ = true) : r.rank = 0 := by
  simp only [Range.overlap, decide_eq_true_eq, one_ne_zero, false_or] at h
  obtain ⟨hfd, hend, hstart⟩ := h
  have hfree : r ≠ ⟨.idxfd, FREE_OFF, 1⟩ := by
    rintro rfl
    simp only [FREE_OFF, one_ne_zero, false_or] at hend
    omega
  rw [Range.rank, if_neg (by rw [hfd]; decide), if_neg hfree, if_neg (by push_cast at hstart; omega)]

theorem lockOrdered_body {recoff : ℤ} (hrec : recoff = RECOFF) {ls : List LockCall} (h : IsBody recoff ls) (w : Bool) :
    LockOrdered Range.overlap Range.rank [(⟨.idxfd, chain, 1⟩, w)]
      (ls.map LockCall.act ++ [.drop ⟨.idxfd, chain, 1⟩]) := by
  have hend : LockOrdered Range.overlap Range.rank [(⟨.idxfd, chain, 1⟩, w)] [.drop ⟨.idxfd, chain, 1⟩] := by
    simp [LockOrdered]
  -- every other range has a rank above the chains
  have hstep : ∀ {r : Range} {acts : List (LockAct Range)}, 0 < r.rank →
      LockOrdered Range.overlap Range.rank [(⟨.idxfd, chain, 1⟩, w)] acts →
      LockOrdered Range.overlap Range.rank [(⟨.idxfd, chain, 1⟩, w)] (.take true r :: .drop r :: acts) := by
    intro r acts hr hacts
    have hself : Range.rank ⟨.idxfd, chain, 1⟩ = 0 :=
      rank_of_overlap_chain hpos hlt (by simp [Range.overlap])
    apply hacts.takeDrop
    · intro h hh r' hov
      obtain rfl := List.mem_singleton.mp hh
      rw [rank_of_overlap_chain hpos hlt hov]
      exact hr
    · intro h hh heq
      obtain rfl := List.mem_singleton.mp hh
      rw [← heq, hself] at hr
      omega
  have hrank : Range.rank ⟨.idxfd, recoff, 0⟩ = 3 := by rw [hrec]; decide
  rcases h with rfl | rfl | rfl
  · exact hend
  · exact hstep (by decide) hend
  · exact hstep (by decide) (hstep (by decide) (hstep (by rw [hrank]; decide) hend))

theorem CallLocks.ordered {recoff : ℤ} (hrec : recoff = RECOFF) {ls : List LockCall} (h : CallLocks recoff chain ls) :
    LockOrdered Range.overlap Range.rank [] (ls.map LockCall.act) := by
  cases h with
  | none => rfl
  | @locked w ls hbody =>
    have hact : LockCall.act ⟨if w then .writew else .readw, .idxfd, chain, 1⟩ = .take w ⟨.idxfd, chain, 1⟩ := by
      cases w
      · rfl
      · rfl
    rw [List.cons_append, List.map_cons, List.map_append, hact]
    exact ⟨by simp, lockOrdered_body hpos hlt hrec hbody w⟩

end Ordered

theorem DB.chain_bounds {db : DB} (hn : db.nhash = NHASH_DEF) (ho : db.hashoff = HASH_OFF) (key : List UInt8) :
    0 < db.chain key ∧ db.chain key < RECOFF := by
  have hlt : hash db.nhash key < 137 := by
    rw [hn]
    exact Nat.mod_lt _ (by decide)
  rw [DB.chain, ho, HASH_OFF, RECOFF, PTR_SZ, NHASH_DEF]
  push_cast
  omega

theorem DB.recoff_eq {db : DB} (hn : db.nhash = NHASH_DEF) : db.recoff = RECOFF := by
  rw [DB.recoff, hn]
  rfl

theorem dbOpen_locks {creat trunc : Bool} {files : Option (List UInt8 × List UInt8)} {db : DB}
    (h : dbOpen creat trunc files = .ok (some db)) :
    db.locks = [] ∨ db.locks = [⟨.writew, .idxfd, 0, 0⟩, ⟨.un, .idxfd, 0, 0⟩] := by
  have hopened : ∀ idx dat, dbOpen.opened creat trunc idx dat = .ok (some db) →
      db.locks = [] ∨ db.locks = [⟨.writew, .idxfd, 0, 0⟩, ⟨.un, .idxfd, 0, 0⟩] := by
    intro idx dat h
    obtain ⟨db₁, h₁, h⟩ := bind_eq_ok.mp h
    obtain rfl := Option.some.inj (Except.ok.inj h)
    obtain ⟨fd, -, h₁⟩ := bind_eq_ok.mp h₁
    obtain rfl := Except.ok.inj h₁
    dsimp only
    split
    · split
      · exact .inr rfl
      · exact .inr rfl
    · exact .inl rfl
  unfold dbOpen at h
  split at h
  · split at h
    · exact hopened _ _ h
    · simp at h
  · split at h
    · exact hopened _ _ h
    · exact hopened _ _ h

/-- **Every call keeps the order**, whatever it finds in the files. -/
theorem Script.ordered {ls : List LockCall} (h : Script ls) :
    LockOrdered Range.overlap Range.rank [] (ls.map LockCall.act) := by
  induction h with
  | exit => rfl
  | @call db db' c a ls rest hn ho h hl _ ih =>
    rw [List.map_append]
    refine LockOrdered.append ?_ ih
    have hcall : ∀ key ls', CallLocks db.recoff (db.chain key) ls' → db'.locks = db.locks ++ ls' →
        LockOrdered Range.overlap Range.rank [] (ls.map LockCall.act) := by
      intro key ls' hcl hl'
      obtain rfl := List.append_cancel_left (hl.symm.trans hl')
      obtain ⟨hpos, hlt⟩ := DB.chain_bounds hn ho key
      exact hcl.ordered hpos hlt (DB.recoff_eq hn)
    cases c with
    | fetch key =>
      obtain ⟨r, hr, h⟩ := bind_eq_ok.mp h
      obtain ⟨-, rfl⟩ := Prod.mk.inj (Except.ok.inj h)
      obtain ⟨ls', hcl, hl'⟩ := fetch_locks hr
      exact hcall key ls' hcl hl'
    | store key data flag =>
      obtain ⟨r, hr, h⟩ := bind_eq_ok.mp h
      obtain ⟨-, rfl⟩ := Prod.mk.inj (Except.ok.inj h)
      obtain ⟨ls', hcl, hl'⟩ := store_locks hr
      exact hcall key ls' hcl hl'
    | delete key =>
      obtain ⟨r, hr, h⟩ := bind_eq_ok.mp h
      obtain ⟨-, rfl⟩ := Prod.mk.inj (Except.ok.inj h)
      obtain ⟨ls', hcl, hl'⟩ := delete_locks hr
      exact hcall key ls' hcl hl'
    | reopen =>
      -- the new handle has not locked anything
      obtain ⟨r, hr, h⟩ := bind_eq_ok.mp h
      obtain ⟨-, rfl⟩ := Prod.mk.inj (Except.ok.inj h)
      obtain ⟨db₁, h₁, hr⟩ := bind_eq_ok.mp hr
      obtain rfl := Except.ok.inj hr
      obtain ⟨fd, -, h₁⟩ := bind_eq_ok.mp h₁
      obtain rfl := Except.ok.inj h₁
      obtain ⟨-, rfl⟩ := List.append_eq_nil_iff.mp hl.symm
      rfl
  | nextRec h hl _ ih =>
    rw [List.map_append]
    refine LockOrdered.append ?_ ih
    obtain rfl := List.append_cancel_left (hl.symm.trans (nextRec_locks h))
    exact lockOrdered_one ..
  | dbOpen h _ ih =>
    rw [List.map_append]
    refine LockOrdered.append ?_ ih
    rcases dbOpen_locks h with hl | hl
    · rw [hl]
      rfl
    · rw [hl]
      exact lockOrdered_one ..

/-- **Processes do not block each other for ever.**  Any number of processes make their calls, in any order of their steps: from
every state that is reached, all of them can come to their end, and then no lock is held. -/
theorem processes_finish {n : ℕ} {scripts : Fin n → List LockCall} (h : ∀ i, Script (scripts i)) {s : Fin n → Locker Range}
    (hr : Reach (lockStep Range.overlap) Any (fun i => ⟨[], (scripts i).map LockCall.act⟩) s) :
    ∃ t, Reach (lockStep Range.overlap) Any s t ∧ ∀ i, t i = ⟨[], []⟩ := by
  have hord : ∀ i, LockOrdered Range.overlap Range.rank (s i).held (s i).todo := by
    refine hr.invariant (fun s => ∀ i, LockOrdered Range.overlap Range.rank (s i).held (s i).todo) ?_ ?_
    · intro i
      exact (h i).ordered
    · intro s s' i _ hs _ hstep
      exact (lockOrdered_step hs hstep).1
  exact lockStep_finishes Range.rank_le hord

/-- What a process locks that creates the database. -/
def createLocks : List LockCall := [⟨.writew, .idxfd, 0, 0⟩, ⟨.un, .idxfd, 0, 0⟩]

theorem script_create : Script createLocks := by
  obtain ⟨db, ho, hl⟩ : ∃ db, dbOpen true true none = .ok (some db) ∧ db.locks = createLocks := ⟨_, rfl, rfl⟩
  rw [← List.append_nil createLocks, ← hl]
  exact .dbOpen ho .exit

/-- Two processes create the database; the first one has the lock, and the second one waits. -/
theorem two_creations_finish : ∃ s t : Fin 2 → Locker Range,
    Reach (lockStep Range.overlap) Any (fun _ => ⟨[], createLocks.map LockCall.act⟩) s ∧
    lockStep Range.overlap s 1 = none ∧ Reach (lockStep Range.overlap) Any s t ∧ ∀ i, t i = ⟨[], []⟩ := by
  have hr : Reach (lockStep Range.overlap) Any (fun _ : Fin 2 => ⟨[], createLocks.map LockCall.act⟩) _ :=
    .next .init (a := 0) trivial rfl
  obtain ⟨t, ht, hend⟩ := processes_finish (fun _ => script_create) hr
  exact ⟨_, t, hr, by decide, ht, hend⟩

end CppNotes.Db
