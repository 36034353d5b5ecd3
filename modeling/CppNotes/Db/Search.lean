import CppNotes.Db.Disk

/-!
# Searching the chains

A disk is sound if every record is on exactly one list, a record with a blank key on the free list and any other one on the
chain of its key.  `DB.Stores` says that the files of a database are such a disk, and that its chains hold a map.  Then the two
loops of the library find what is on the list, and do not run forever.

That is so for a chain without a colon in its keys (`Clear`).  A chain with such a key starts with one (`DB.Stores.readable`),
and `_db_find_and_lock` does not come back from it.
-/

namespace CppNotes.Db

open CppNotes.Lib

/-- The slot of the chain of a key; the slot 0 is the free list. -/
def home (key : List UInt8) : ℕ := hash NHASH_DEF key + 1

def Blank (key : List UInt8) : Prop := ∀ c ∈ key, c = SPACE

/-- Which records belong on a list. -/
def Belongs (i : ℕ) (r : List UInt8 × List UInt8) : Prop := if i = 0 then Blank r.1 else home r.1 = i ∧ ¬ Blank r.1

theorem home_pos (key : List UInt8) : 0 < home key := Nat.succ_pos _

theorem home_lt (key : List UInt8) : home key < NHASH_DEF + 1 :=
  Nat.succ_lt_succ (Nat.mod_lt _ (by decide))

theorem belongs_home {key : List UInt8} (h : ¬ Blank key) (data : List UInt8) : Belongs (home key) (key, data) := by
  rw [Belongs, if_neg (home_pos key).ne']
  exact ⟨rfl, h⟩

structure Disk.Sound (d : Disk) (ch : ℕ → List ℕ) : Prop where
  ok : d.Ok
  threaded : Threaded (NHASH_DEF + 1) Belongs d.cell d.content d.offsets ch

/-- `_db_readidx` can read the record. -/
def Readable (r : List UInt8 × List UInt8) : Prop := SEP ∉ r.1

/-- No key of the chain has a separator in it. -/
def Clear (m : List UInt8 → Option (List UInt8)) (i : ℕ) : Prop := ∀ k v, m k = some v → home k = i → SEP ∉ k

structure DB.Stores (db : DB) (d : Disk) (ch : ℕ → List ℕ) (m : List UInt8 → Option (List UInt8)) : Prop where
  idx : db.idx.bytes = d.idx
  dat : db.dat.bytes = d.dat
  nhash : db.nhash = NHASH_DEF
  hashoff : db.hashoff = HASH_OFF
  sound : d.Sound ch
  holds : Holds home d.content ch m
  readable : ∀ key, Guarded Readable d.content (ch (home key))

/-- The two structures differ at most in the offset of the index file and in what describes the current record. -/
structure DB.Agrees (db' db : DB) : Prop where
  idx : db'.idx.bytes = db.idx.bytes
  dat : db'.dat = db.dat
  nhash : db'.nhash = db.nhash
  hashoff : db'.hashoff = db.hashoff
  chainoff : db'.chainoff = db.chainoff
  cnt : db'.cnt = db.cnt
  errno : db'.errno = db.errno
  locks : db'.locks = db.locks

theorem DB.Agrees.refl (db : DB) : db.Agrees db := ⟨rfl, rfl, rfl, rfl, rfl, rfl, rfl, rfl⟩

theorem DB.loaded_agrees (db : DB) (o : ℕ) (e : Entry) : (db.loaded o e).Agrees db :=
  ⟨rfl, rfl, rfl, rfl, rfl, rfl, rfl, rfl⟩

theorem DB.Agrees.trans {db db' db'' : DB} (h : db''.Agrees db') (h' : db'.Agrees db) : db''.Agrees db :=
  ⟨h.idx.trans h'.idx, h.dat.trans h'.dat, h.nhash.trans h'.nhash, h.hashoff.trans h'.hashoff,
    h.chainoff.trans h'.chainoff, h.cnt.trans h'.cnt, h.errno.trans h'.errno, h.locks.trans h'.locks⟩

theorem DB.Stores.agrees {db db' : DB} {d : Disk} {ch : ℕ → List ℕ} {m : List UInt8 → Option (List UInt8)}
    (h : db.Stores d ch m) (ha : db'.Agrees db) : db'.Stores d ch m :=
  ⟨ha.idx.trans h.idx, (congrArg Fd.bytes ha.dat).trans h.dat, ha.nhash.trans h.nhash, ha.hashoff.trans h.hashoff, h.sound,
    h.holds, h.readable⟩

section Sound

variable {d : Disk} {ch : ℕ → List ℕ} (h : d.Sound ch) {i o : ℕ}

include h

theorem Disk.Sound.exists_entry (hi : i < NHASH_DEF + 1) (ho : o ∈ ch i) : ∃ e, d.entryAt o = some e :=
  Option.isSome_iff_exists.mp (Disk.mem_offsets.mp ((h.threaded.mem o).mpr ⟨i, hi, ho⟩))

/-- A chain is not longer than the file. -/
theorem Disk.Sound.chain_length (hi : i < NHASH_DEF + 1) : (ch i).length < d.idx.length + 1 := by
  have h₁ : (ch i).length ≤ d.entries.length := (h.threaded.length_le hi).trans length_offs.le
  have h₂ := h.ok.entries_length
  omega

/-- A record whose key is blank is on the free list. -/
theorem Disk.Sound.mem_free {e : Entry} (he : d.entryAt o = some e) (hb : Blank e.key) : o ∈ ch 0 := by
  obtain ⟨i, hi, ho⟩ := (h.threaded.mem o).mp (Disk.mem_offsets.mpr (Option.isSome_iff_exists.mpr ⟨e, he⟩))
  obtain ⟨r, hr, hbel⟩ := h.threaded.fits i hi o ho
  obtain rfl := Option.some.inj ((Disk.content_eq he).symm.trans hr)
  by_cases h0 : i = 0
  · exact h0 ▸ ho
  · rw [Belongs, if_neg h0] at hbel
    exact absurd hb hbel.2

/-- Any other record is on the chain of its key. -/
theorem Disk.Sound.mem_chain {e : Entry} (he : d.entryAt o = some e) (hb : ¬ Blank e.key) : o ∈ ch (home e.key) := by
  obtain ⟨i, hi, ho⟩ := (h.threaded.mem o).mp (Disk.mem_offsets.mpr (Option.isSome_iff_exists.mpr ⟨e, he⟩))
  obtain ⟨r, hr, hbel⟩ := h.threaded.fits i hi o ho
  obtain rfl := Option.some.inj ((Disk.content_eq he).symm.trans hr)
  by_cases h0 : i = 0
  · rw [Belongs, if_pos h0] at hbel
    exact absurd hbel hb
  · rw [Belongs, if_neg h0] at hbel
    exact hbel.1 ▸ ho

/-- A record of another list is not on the chain of the key. -/
theorem Disk.Sound.not_mem_chain (hi : i < NHASH_DEF + 1) (ho : o ∈ ch i) {key : List UInt8} (hne : home key ≠ i) :
    o ∉ ch (home key) := fun hmem => hne (h.threaded.apart _ (home_lt key) _ hi o hmem ho)

/-- The free records can be read. -/
theorem Disk.Sound.free_readable : AllOn Readable d.content (ch 0) := by
  intro o ho r hr
  obtain ⟨r', hr', hbel⟩ := h.threaded.fits 0 (Nat.succ_pos _) o ho
  obtain rfl := Option.some.inj (hr.symm.trans hr')
  exact fun hsep => absurd (hbel SEP hsep) (by decide)

end Sound

/-! ## The loop -/

section Walk

variable {d : Disk} (found : DB → Bool) (test : Entry → Bool)

/-- **The loop over a list** stops at the first record that passes the test, or at the end. -/
theorem walk_eq (db : DB) (hfound : ∀ db o e, found (DB.loaded db o e) = test e) (hok : d.Ok) {l : List ℕ} {q : Loc ℕ}
    (hl : Linked Loc.node d.cell q l) (hat : ∀ o ∈ l, ∃ e, d.entryAt o = some e)
    (hkeys : AllOn Readable d.content l) {n : ℕ} (hn : l.length < n)
    (hb : db.idx.bytes = d.idx) :
    (∃ save db', walk found n (locOff q) (d.ptr q) db = .ok (save, 0, db') ∧ db'.Agrees db ∧
      ∀ o ∈ l, ∀ e, d.entryAt o = some e → test e = false) ∨
    ∃ l₁ o l₂ e, l = l₁ ++ o :: l₂ ∧ d.entryAt o = some e ∧ test e = true ∧
      walk found n (locOff q) (d.ptr q) db = .ok ((locOff (before Loc.node q l₁) : ℤ), (o : ℤ), db.loaded o e) := by
  induction l generalizing q n db with
  | nil =>
    obtain ⟨n, rfl⟩ : ∃ k, n = k + 1 := ⟨n - 1, by omega⟩
    have hp : d.ptr q = 0 := by
      by_contra hp
      have : d.cell q = none := hl
      rw [Disk.cell, link_of_ne hp] at this
      simp at this
    exact .inl ⟨locOff q, db, by simp [walk, hp], .refl db, by simp⟩
  | cons o l ih =>
    obtain ⟨n, rfl⟩ : ∃ k, n = k + 1 := ⟨n - 1, by omega⟩
    obtain ⟨e, he⟩ := hat o List.mem_cons_self
    have hp : d.ptr q = o := ptr_of_link hl.1
    have ho : ¬ (o : ℤ) = 0 := by
      have := Disk.ne_zero_of_entryAt he
      omega
    have hkey : SEP ∉ e.key := hkeys o List.mem_cons_self _ (Disk.content_eq he)
    have hstep : walk found (n + 1) (locOff q) (d.ptr q) db =
        if test e then .ok ((locOff q : ℤ), (o : ℤ), db.loaded o e)
        else walk found n (locOff (.node o)) (d.ptr (.node o)) (db.loaded o e) := by
      rw [walk, hp, if_neg ho, readIdx_entry db hok hb he hkey]
      simp only [ok_bind, hfound]
      rfl
    by_cases ht : test e = true
    · exact .inr ⟨[], o, l, e, rfl, he, ht, by rw [hstep, if_pos ht]; rfl⟩
    · rw [hstep, if_neg ht]
      rw [List.length_cons] at hn
      rcases ih (db.loaded o e) (q := .node o) hl.2 (fun x hx => hat x (List.mem_cons_of_mem _ hx))
        (fun x hx => hkeys x (List.mem_cons_of_mem _ hx)) (n := n) (by omega) hb with
        ⟨save, db', hw, ha, hno⟩ | ⟨l₁, o', l₂, e', rfl, he', ht', hw⟩
      · refine .inl ⟨save, db', hw, ha.trans (db.loaded_agrees o e), fun x hx f hf => ?_⟩
        rcases List.mem_cons.mp hx with rfl | hx
        · obtain rfl := Option.some.inj (he.symm.trans hf)
          simpa using ht
        · exact hno x hx f hf
      · exact .inr ⟨o :: l₁, o', l₂, e', rfl, he', ht', hw⟩

end Walk

/-! ## Finding a key -/

/-- The structure when the chain of the key is locked. -/
def DB.onChain (db : DB) (key : List UInt8) (writelock : Bool) : DB :=
  { db with
    chainoff := (home key * PTR_SZ : ℕ)
    ptroff := (home key * PTR_SZ : ℕ)
    locks := db.locks ++ [⟨if writelock then .writew else .readw, .idxfd, (home key * PTR_SZ : ℕ), 1⟩] }

/-- The structure when `_db_find_and_lock` has found the entry at `o`, behind the records `l₁` of the chain. -/
def DB.foundAt (db : DB) (key : List UInt8) (writelock : Bool) (l₁ : List ℕ) (o : ℕ) (e : Entry) : DB :=
  { (db.onChain key writelock).loaded o e with ptroff := locOff (before Loc.node (.slot (home key)) l₁) }

section Find

variable {db : DB} {d : Disk} {ch : ℕ → List ℕ} {m : List UInt8 → Option (List UInt8)}

theorem DB.Stores.onChain (h : db.Stores d ch m) (key : List UInt8) (w : Bool) : (db.onChain key w).Stores d ch m :=
  ⟨h.idx, h.dat, h.nhash, h.hashoff, h.sound, h.holds, h.readable⟩

/-- The chains of the other keys stay as readable as they are when a record changes that is not on them. -/
theorem DB.Stores.readable_update (h : db.Stores d ch m) {ch' : ℕ → List ℕ} {o : ℕ} {r : Option (List UInt8 × List UInt8)}
    {key : List UInt8} (hkey : Guarded Readable (Function.update d.content o r) (ch' (home key)))
    (hother : ∀ k, home k ≠ home key → ch' (home k) = ch (home k) ∧ o ∉ ch (home k)) (k : List UInt8) :
    Guarded Readable (Function.update d.content o r) (ch' (home k)) := by
  by_cases hk : home k = home key
  · rw [hk]
    exact hkey
  · obtain ⟨hch, hout⟩ := hother k hk
    rw [hch]
    exact (h.readable k).update_of_not_mem hout r

/-- What is on the chain of a key is what the map has there. -/
theorem DB.Stores.allOn_iff (h : db.Stores d ch m) (key : List UInt8) :
    AllOn Readable d.content (ch (home key)) ↔ Clear m (home key) := by
  constructor
  · intro hall k v hm hk
    obtain ⟨o, ho, hcon⟩ := (h.holds.get k v).mp hm
    exact hall o (hk ▸ ho) _ hcon
  · rintro hclear o ho ⟨k, v⟩ hcon
    obtain ⟨r, hr, hbel⟩ := h.sound.threaded.fits _ (home_lt key) o ho
    obtain rfl := Option.some.inj (hcon.symm.trans hr)
    rw [Belongs, if_neg (home_pos key).ne'] at hbel
    have hhome : home k = home key := hbel.1
    exact hclear k v ((h.holds.get k v).mpr ⟨o, hhome ▸ ho, hcon⟩) hhome

/-- `_db_find_and_lock` at the chain of the key. -/
theorem findAndLock_eq (hn : db.nhash = NHASH_DEF) (ho : db.hashoff = HASH_OFF) (key : List UInt8) (w : Bool) :
    findAndLock db key w = (do
      let r ← readPtr (db.onChain key w) (home key * PTR_SZ : ℕ)
      let w ← walk (fun db => db.idxbuf = key) (db.idx.bytes.length + 1) (home key * PTR_SZ : ℕ) r.1 r.2
      .ok (decide (w.2.1 ≠ 0), { w.2.2 with ptroff := w.1 })) := by
  have hchain : (hash db.nhash key * PTR_SZ + db.hashoff : ℤ) = (home key * PTR_SZ : ℕ) := by
    rw [hn, ho, home, HASH_OFF]
    push_cast
    ring
  simp only [findAndLock, hchain]
  rfl

/-- Every record can be read if no key of the map has a separator in it. -/
theorem DB.Stores.key_readable (h : db.Stores d ch m) (hclear : ∀ i, Clear m i) {o : ℕ} {e : Entry}
    (he : d.entryAt o = some e) : SEP ∉ e.key := by
  by_cases hb : Blank e.key
  · exact h.sound.free_readable o (h.sound.mem_free he hb) _ (Disk.content_eq he)
  · exact (h.allOn_iff e.key).mpr (hclear _) o (h.sound.mem_chain he hb) _ (Disk.content_eq he)

/-- **What `_db_find_and_lock` finds** is what the map holds. -/
theorem findAndLock_cases (h : db.Stores d ch m) {key : List UInt8} (hclear : Clear m (home key)) (w : Bool) :
    (m key = none ∧ ∃ db', findAndLock db key w = .ok (false, db') ∧ db'.Agrees (db.onChain key w)) ∨
    ∃ l₁ o l₂ e, ch (home key) = l₁ ++ o :: l₂ ∧ d.entryAt o = some e ∧ e.key = key ∧ m key = some e.data ∧
      findAndLock db key w = .ok (true, db.foundAt key w l₁ o e) := by
  have hptr := readPtr_slot (db.onChain key w) h.sound.ok h.idx (home_lt key)
  have hl := h.sound.threaded.linked (home key) (home_lt key)
  have hfind : findAndLock db key w =
      walk (fun db => db.idxbuf = key) (d.idx.length + 1) (locOff (.slot (home key))) (d.ptr (.slot (home key)))
        { db.onChain key w with idx := ⟨d.idx, home key * PTR_SZ + PTR_SZ⟩ } >>= fun r =>
          (.ok (decide (r.2.1 ≠ 0), { r.2.2 with ptroff := r.1 }) : Except Stop (Bool × DB)) := by
    rw [findAndLock_eq h.nhash h.hashoff, hptr, ok_bind, h.idx]
    rfl
  rw [hfind]
  rcases walk_eq (fun db => db.idxbuf = key) (fun e => e.key = key)
    { db.onChain key w with idx := ⟨d.idx, home key * PTR_SZ + PTR_SZ⟩ }
    (fun _ _ _ => rfl) h.sound.ok hl
    (fun o ho => h.sound.exists_entry (home_lt key) ho) ((h.allOn_iff key).mpr hclear) (h.sound.chain_length (home_lt key))
    rfl with
    ⟨save, db', hw, ha, hno⟩ | ⟨l₁, o, l₂, e, hch, he, ht, hw⟩
  · refine .inl ⟨?_, { db' with ptroff := save }, by rw [hw]; rfl, ?_⟩
    · -- a key of the map would be on the chain
      rw [Option.eq_none_iff_forall_ne_some]
      intro v hv
      obtain ⟨o, ho, hcon⟩ := (h.holds.get key v).mp hv
      obtain ⟨e, he⟩ := h.sound.exists_entry (home_lt key) ho
      rw [Disk.content_eq he, Option.some.injEq, Prod.mk.injEq] at hcon
      have := hno o ho e he
      simp [hcon.1] at this
    · exact ⟨ha.idx.trans h.idx.symm, ha.dat, ha.nhash, ha.hashoff, ha.chainoff, ha.cnt, ha.errno, ha.locks⟩
  · have hkey : e.key = key := by simpa using ht
    have ho : (o : ℤ) ≠ 0 := by
      have := Disk.ne_zero_of_entryAt he
      omega
    refine .inr ⟨l₁, o, l₂, e, hch, he, hkey, ?_, ?_⟩
    · refine (h.holds.get key e.data).mpr ⟨o, by simp [hch], ?_⟩
      rw [Disk.content_eq he, hkey]
    · rw [hw, ok_bind]
      simp only [ho, ne_eq, not_false_eq_true, decide_true]
      have hb : db.idx.bytes = d.idx := h.idx
      simp only [DB.foundAt, DB.loaded, DB.onChain, hb]

/-- **From a chain with a colon in a key** it does not come back. -/
theorem findAndLock_colon (h : db.Stores d ch m) {key : List UInt8} (hclear : ¬ Clear m (home key)) (w : Bool) :
    findAndLock db key w = .error (.dump "_db_readidx: too many separators") := by
  rcases h.readable key with hall | ⟨o, l, ⟨k, v⟩, hch, hcon, hsep⟩
  · exact absurd ((h.allOn_iff key).mp hall) hclear
  obtain ⟨e, he, hkv⟩ := Option.map_eq_some_iff.mp hcon
  obtain ⟨rfl, rfl⟩ := Prod.mk.inj hkv
  have hptr := readPtr_slot (db.onChain key w) h.sound.ok h.idx (home_lt key)
  have hp : d.ptr (.slot (home key)) = o := by
    have hl := h.sound.threaded.linked (home key) (home_lt key)
    rw [hch] at hl
    exact ptr_of_link hl.1
  have ho : ¬ (o : ℤ) = 0 := by
    have := Disk.ne_zero_of_entryAt he
    omega
  have hread := readIdx_entry_colon { db.onChain key w with idx := ⟨d.idx, home key * PTR_SZ + PTR_SZ⟩ } h.sound.ok rfl he
    (not_not.mp hsep)
  rw [findAndLock_eq h.nhash h.hashoff, hptr, ok_bind, walk, hp]
  dsimp only
  rw [if_neg ho, hread]
  rfl

end Find

end CppNotes.Db
