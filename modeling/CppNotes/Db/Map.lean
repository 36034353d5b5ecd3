import CppNotes.Db.Update
import CppNotes.Lib.Run

/-!
# The database is a map

What `db_fetch`, `db_store` and `db_delete` are for: a map from keys to data.  `Call.meaning` says what each call does to the
map and what it answers; a run is any sequence of calls behind a `db_open` that creates the database, also with the database
closed and opened again in between.  In every state of a run the files are a sound disk, and every call answers what the map
answers (`calls_refine_map`).

The keys and the data have to be strings that the format can hold, and a new record needs an offset of 7 digits: `Call.Ok`
asks for it of a `db_store`, of the other calls nothing.  `Call.Fits` asks the same but for the colons in a key; then one call
is right as long as the chain that it looks at has no key with a colon (`Rep.call`).
-/

namespace CppNotes.Db

open CppNotes.Lib

abbrev Map : Type := List UInt8 → Option (List UInt8)

inductive Call where
  | fetch (key : List UInt8)
  | store (key data : List UInt8) (flag : ℤ)
  | delete (key : List UInt8)
  /-- `db_close`, and `db_open` without `O_TRUNC` -/
  | reopen
  deriving DecidableEq

inductive Answer where
  | data (ptr : Option (List UInt8))
  | rc (rc : ℤ)
  | handle (ok : Bool)
  deriving DecidableEq

def Call.run (db : DB) : Call → Except Stop (Answer × DB)
  | .fetch key => do
    let r ← Db.fetch db key
    .ok (.data r.1, r.2)
  | .store key data flag => do
    let r ← Db.store db key data flag
    .ok (.rc r.1, r.2)
  | .delete key => do
    let r ← Db.delete db key
    .ok (.rc r.1, r.2)
  | .reopen => do
    let r ← dbOpen false false (some (db.idx.bytes, db.dat.bytes))
    .ok (.handle r.isSome, r.getD db)

/-- What the call answers, and what it does to the map. -/
def Call.meaning (m : Map) : Call → Answer × Map
  | .fetch key => (.data (m key), m)
  | .store key data flag =>
    if flag ≠ DB_INSERT ∧ flag ≠ DB_REPLACE ∧ flag ≠ DB_STORE then (.rc (-1), m)
    else if (m key).isSome then
      if flag = DB_INSERT then (.rc 1, m) else (.rc 0, Function.update m key (some data))
    else if flag = DB_REPLACE then (.rc (-1), m) else (.rc 0, Function.update m key (some data))
  | .delete key => if (m key).isSome then (.rc 0, Function.update m key none) else (.rc (-1), m)
  | .reopen => (.handle true, m)

/-- What is asked of a call. -/
def Call.Ok (db : DB) : Call → Prop
  | .store key data _ => KeyOk key ∧ DataOk data ∧ db.idx.bytes.length ≤ PTR_MAX
  | _ => True

/-- The same without a condition on the separators. -/
def Call.Fits (db : DB) : Call → Prop
  | .store key data _ => KeyFits key ∧ DataOk data ∧ db.idx.bytes.length ≤ PTR_MAX
  | _ => True

theorem Call.Ok.fits {db : DB} {c : Call} (h : c.Ok db) : c.Fits db := by
  cases c with
  | store key data flag => exact ⟨h.1.toKeyFits, h.2⟩
  | fetch | delete | reopen => trivial

/-- The chain that the call looks at. -/
def Call.chain : Call → Option ℕ
  | .fetch key | .delete key => some (home key)
  | .store key _ flag => if flag ≠ DB_INSERT ∧ flag ≠ DB_REPLACE ∧ flag ≠ DB_STORE then none else some (home key)
  | .reopen => none

/-- A call changes the map at a key of the chain that it looks at, if at all; and only a `db_store` adds one. -/
theorem Call.meaning_map (m : Map) (c : Call) : (c.meaning m).2 = m ∨ ∃ key v, (c.meaning m).2 = Function.update m key v ∧
    c.chain = some (home key) ∧ (v = none ∨ ∃ data flag, c = .store key data flag) := by
  cases c with
  | fetch key => exact .inl rfl
  | reopen => exact .inl rfl
  | delete key =>
    simp only [Call.meaning]
    split
    · exact .inr ⟨key, none, rfl, rfl, .inl rfl⟩
    · exact .inl rfl
  | store key data flag =>
    have hupd (hflag : ¬ (flag ≠ DB_INSERT ∧ flag ≠ DB_REPLACE ∧ flag ≠ DB_STORE)) :
        ∃ key' v, Function.update m key (some data) = Function.update m key' v ∧
          (Call.store key data flag).chain = some (home key') ∧
          (v = none ∨ ∃ data' flag', Call.store key data flag = .store key' data' flag') :=
      ⟨key, some data, rfl, if_neg hflag, .inr ⟨data, flag, rfl⟩⟩
    simp only [Call.meaning]
    split_ifs with hflag
    · exact .inl rfl
    · exact .inl rfl
    · exact .inr (hupd hflag)
    · exact .inl rfl
    · exact .inr (hupd hflag)

/-! ## The calls one by one -/

section Calls

variable {db db' : DB} {d : Disk} {ch : ℕ → List ℕ} {m : Map} {key data : List UInt8} {flag : ℤ}

/-- Only the files and the size of the hash table matter. -/
theorem DB.Stores.congr (h : db.Stores d ch m) (hidx : db'.idx.bytes = db.idx.bytes) (hdat : db'.dat.bytes = db.dat.bytes)
    (hn : db'.nhash = db.nhash) (hh : db'.hashoff = db.hashoff) : db'.Stores d ch m :=
  ⟨hidx.trans h.idx, hdat.trans h.dat, hn.trans h.nhash, hh.trans h.hashoff, h.sound, h.holds, h.readable⟩

theorem Clear.delete {i : ℕ} (h : Clear m i) (key : List UInt8) : Clear (Function.update m key none) i := by
  intro k v hm
  rw [Function.update_apply] at hm
  split at hm
  · simp at hm
  · exact h k v hm

/-- **`db_fetch`** returns what the map holds, and leaves the files as they are. -/
theorem DB.Stores.fetch (h : db.Stores d ch m) (hclear : Clear m (home key)) :
    ∃ db', fetch db key = .ok (m key, db') ∧ db'.Stores d ch m := by
  rcases findAndLock_cases h hclear false with ⟨hm, db', hf, ha⟩ | ⟨l₁, o, l₂, e, hch, he, hkey, hm, hf⟩
  · refine ⟨_, by simp only [Db.fetch, hf, ok_bind, hm]; rfl, ?_⟩
    exact ((h.onChain key false).agrees ha).congr rfl rfl rfl rfl
  · have hd := readDat_entry (db.foundAt key false l₁ o e) h.sound.ok h.dat he rfl rfl
    refine ⟨_, by simp only [Db.fetch, hf, ok_bind, if_true, hd, hm]; rfl, ?_⟩
    exact h.congr rfl h.dat.symm rfl rfl

/-- **`db_delete`**, of a key that is not there. -/
theorem DB.Stores.delete_absent (h : db.Stores d ch m) (hclear : Clear m (home key)) (hm : m key = none) :
    ∃ db', delete db key = .ok (-1, db') ∧ db'.Stores d ch m := by
  rcases findAndLock_cases h hclear true with ⟨-, db', hf, ha⟩ | ⟨l₁, o, l₂, e, -, -, -, hm', -⟩
  · refine ⟨_, by simp only [Db.delete, hf, ok_bind]; rfl, ?_⟩
    exact ((h.onChain key true).agrees ha).congr rfl rfl rfl rfl
  · rw [hm] at hm'
    simp at hm'

/-- **`db_delete`**, of a key that is there: both files stay as long as they are, and there is a free record of the lengths of
the key and of the data. -/
theorem DB.Stores.delete_present (h : db.Stores d ch m) (hclear : Clear m (home key)) {v : List UInt8} (hm : m key = some v) :
    ∃ db' d' ch', delete db key = .ok (0, db') ∧ db'.Stores d' ch' (Function.update m key none) ∧
      d'.idx.length = d.idx.length ∧ d'.dat.length = d.dat.length ∧
      ∃ o ∈ ch' 0, ∃ e, d'.entryAt o = some e ∧ e.Sized key.length (v.length + 1) := by
  rcases findAndLock_cases h hclear true with ⟨hm', -⟩ | ⟨l₁, o, l₂, e, hch, he, hkey, hm', hf⟩
  · rw [hm] at hm'
    simp at hm'
  · obtain rfl := Option.some.inj (hm.symm.trans hm')
    obtain ⟨db', d', ch', hdel, hst, -, hl₁, hl₂, k, v, ho, hcon, hk, hv⟩ := h.doDelete hclear true hch he hkey
    refine ⟨{ db' with cnt.delok := db'.cnt.delok + 1 }.unlockChain, d', ch', ?_, hst.congr rfl rfl rfl rfl, hl₁, hl₂, o, ho,
      Disk.exists_sized_iff.mpr ⟨k, v, hcon, hk, by rw [hv]⟩⟩
    simp only [Db.delete, hf, ok_bind, if_true, hdel]

/-- The tests at the start of `db_store`. -/
theorem store_eq (hflag : flag = DB_INSERT ∨ flag = DB_REPLACE ∨ flag = DB_STORE) (hd : DataOk data) :
    store db key data flag = (do
      let r ← findAndLock db key true
      let s ← if r.1 = false then storeAbsent r.2 key data flag else storePresent r.2 key data flag
      .ok (s.1, s.2.unlockChain)) := by
  have h₁ := hd.length_ge
  have h₂ := hd.length_le
  rw [store, if_neg (by tauto), if_neg (by omega)]

/-- **`db_store`** with `DB_REPLACE`, of a key that is not there. -/
theorem DB.Stores.store_missing (h : db.Stores d ch m) (hclear : Clear m (home key)) (hm : m key = none) (hd : DataOk data) :
    ∃ db', store db key data DB_REPLACE = .ok (-1, db') ∧ db'.Stores d ch m ∧ db'.errno = ENOENT := by
  rcases findAndLock_cases h hclear true with ⟨-, db', hf, ha⟩ | ⟨l₁, o, l₂, e, -, -, -, hm', -⟩
  · refine ⟨_, by rw [store_eq (.inr (.inl rfl)) hd, hf, ok_bind, if_pos rfl, storeAbsent, if_pos rfl]; rfl, ?_, rfl⟩
    exact ((h.onChain key true).agrees ha).congr rfl rfl rfl rfl
  · rw [hm] at hm'
    simp at hm'

/-- **`db_store`** with `DB_INSERT`, of a key that is there. -/
theorem DB.Stores.store_existing (h : db.Stores d ch m) (hclear : Clear m (home key)) (hm : m key ≠ none) (hd : DataOk data) :
    ∃ db', store db key data DB_INSERT = .ok (1, db') ∧ db'.Stores d ch m := by
  rcases findAndLock_cases h hclear true with ⟨hm', -⟩ | ⟨l₁, o, l₂, e, hch, he, hkey, hm', hf⟩
  · exact absurd hm' hm
  · refine ⟨_, by rw [store_eq (.inl rfl) hd, hf, ok_bind, if_neg (by simp), storePresent, if_pos rfl]; rfl, ?_⟩
    exact h.congr rfl rfl rfl rfl

/-- **`db_store`** of a new key: a free record of its lengths is used if there is one, and then the files stay as long as they
are; otherwise a record is added to each of them. -/
theorem DB.Stores.store_new (h : db.Stores d ch m) (hclear : Clear m (home key)) (hm : m key = none)
    (hflag : flag = DB_INSERT ∨ flag = DB_STORE) (hk : KeyFits key) (hd : DataOk data) (hlen : d.idx.length ≤ PTR_MAX) :
    ∃ db' d' ch', store db key data flag = .ok (0, db') ∧ db'.Stores d' ch' (Function.update m key (some data)) ∧
      ((∃ o ∈ ch 0, ∃ e, d.entryAt o = some e ∧ e.Sized key.length (data.length + 1)) →
        d'.idx.length = d.idx.length ∧ d'.dat.length = d.dat.length) ∧
      ((¬ ∃ o ∈ ch 0, ∃ e, d.entryAt o = some e ∧ e.Sized key.length (data.length + 1)) →
        d'.idx.length = d.idx.length + (PTR_SZ + IDXLEN_SZ + (idxText key d.dat.length (data.length + 1)).length) ∧
        d'.dat.length = d.dat.length + (data.length + 1)) := by
  rcases findAndLock_cases h hclear true with ⟨-, db₁, hf, ha⟩ | ⟨l₁, o, l₂, e, -, -, -, hm', -⟩
  swap
  · rw [hm] at hm'
    simp at hm'
  have hflag' : flag = DB_INSERT ∨ flag = DB_REPLACE ∨ flag = DB_STORE := by tauto
  have hnr : flag ≠ DB_REPLACE := by rcases hflag with rfl | rfl <;> decide
  have hst₁ := (h.onChain key true).agrees ha
  have hchain : db₁.chainoff = (home key * PTR_SZ : ℕ) := ha.chainoff
  have hptr := readPtr_slot db₁ h.sound.ok hst₁.idx (home_lt key)
  rw [← hchain] at hptr
  have hst₂ : ({ db₁ with idx := ⟨d.idx, home key * PTR_SZ + PTR_SZ⟩ } : DB).Stores d ch m :=
    hst₁.congr hst₁.idx.symm rfl rfl rfl
  have hstore : store db key data flag = (storeAbsent db₁ key data flag >>= fun s => .ok (s.1, s.2.unlockChain)) := by
    rw [store_eq hflag' hd, hf, ok_bind, if_pos rfl]
  have habs : storeAbsent db₁ key data flag =
      (findFree { db₁ with idx := ⟨d.idx, home key * PTR_SZ + PTR_SZ⟩ } key.length (data.length + 1) >>= fun f =>
        if f.1 = false then do
          let db ← Db.append f.2 key data (d.ptr (.slot (home key)))
          .ok ((0 : ℤ), { db with cnt.stor1 := db.cnt.stor1 + 1 })
        else do
          let db ← writeDat f.2 data f.2.datoff .set
          let db ← writeIdx db key db.idxoff .set (d.ptr (.slot (home key)))
          let db ← writePtr db db.chainoff db.idxoff
          .ok (0, { db with cnt.stor2 := db.cnt.stor2 + 1 })) := by
    rw [storeAbsent, if_neg hnr, hptr, ok_bind]
  rcases findFree_cases hst₂ key.length (data.length + 1) with ⟨db₃, hff, hst₃, hkeep, hno⟩ | ⟨l₁, o, l₂, e, hch, he, hsz, hff⟩
  · obtain ⟨db', d', ch', happ, hst', -, hl₁, hl₂⟩ :=
      hst₃.append hclear hm hk hd hlen (hkeep.chainoff.trans hchain)
    refine ⟨{ db' with cnt.stor1 := db'.cnt.stor1 + 1 }.unlockChain, d', ch', ?_, hst'.congr rfl rfl rfl rfl, fun hex => ?_,
      fun _ => ⟨hl₁, hl₂⟩⟩
    · rw [hstore, habs, hff, ok_bind, if_pos rfl, happ]
      rfl
    · obtain ⟨o, ho, e, he, hsz⟩ := hex
      exact absurd hsz (hno o ho e he)
  · obtain ⟨db', d', ch', hre, hst', -, hl₁, hl₂⟩ := hst₂.reuse hclear hm hk hd hch he hsz hchain
    obtain ⟨db₄, h₄, hre⟩ := bind_eq_ok.mp hre
    obtain ⟨db₅, h₅, hre⟩ := bind_eq_ok.mp hre
    refine ⟨{ db' with cnt.stor2 := db'.cnt.stor2 + 1 }.unlockChain, d', ch', ?_, hst'.congr rfl rfl rfl rfl,
      fun _ => ⟨hl₁, hl₂⟩, fun hno => ?_⟩
    · rw [hstore, habs, hff, ok_bind, if_neg (by simp), h₄, ok_bind, h₅, ok_bind, hre]
      rfl
    · exact absurd ⟨o, by simp [hch], e, he, hsz⟩ hno

/-- **`db_store`** of a key that is there: data of the same length are written over the old ones; otherwise the old record
becomes free and a new one is added to each of the files. -/
theorem DB.Stores.store_over (h : db.Stores d ch m) (hclear : Clear m (home key)) {v : List UInt8} (hm : m key = some v)
    (hflag : flag = DB_REPLACE ∨ flag = DB_STORE) (hk : KeyFits key) (hd : DataOk data) (hlen : d.idx.length ≤ PTR_MAX) :
    ∃ db' d' ch', store db key data flag = .ok (0, db') ∧ db'.Stores d' ch' (Function.update m key (some data)) ∧
      (data.length = v.length → d'.idx = d.idx ∧ d'.dat.length = d.dat.length) := by
  rcases findAndLock_cases h hclear true with ⟨hm', -⟩ | ⟨l₁, o, l₂, e, hch, he, hkey, hm', hf⟩
  · rw [hm] at hm'
    simp at hm'
  obtain rfl := Option.some.inj (hm.symm.trans hm')
  have hflag' : flag = DB_INSERT ∨ flag = DB_REPLACE ∨ flag = DB_STORE := by tauto
  have hni : flag ≠ DB_INSERT := by rcases hflag with rfl | rfl <;> decide
  have hstore : store db key data flag =
      (storePresent (db.foundAt key true l₁ o e) key data flag >>= fun s => .ok (s.1, s.2.unlockChain)) := by
    rw [store_eq hflag' hd, hf, ok_bind, if_neg (by simp)]
  by_cases hl : data.length + 1 = e.datlen
  · obtain ⟨db', d', hw, hst', -, hidx, hdat⟩ := h.overwrite hclear true hk hd hch he hkey hl
    refine ⟨{ db' with cnt.stor4 := db'.cnt.stor4 + 1 }.unlockChain, d', ch, ?_, hst'.congr rfl rfl rfl rfl,
      fun _ => ⟨hidx, hdat⟩⟩
    have hl' : ¬ data.length + 1 ≠ (db.foundAt key true l₁ o e).datlen := not_not.mpr hl
    rw [hstore, storePresent, if_neg hni, if_neg hl', hw]
    rfl
  · obtain ⟨db₁, d₁, ch₁, hdel, hst₁, hkeep, hl₁, -⟩ := h.doDelete hclear true hch he hkey
    have hchain : db₁.chainoff = (home key * PTR_SZ : ℕ) := hkeep.chainoff
    have hptr := readPtr_slot db₁ hst₁.sound.ok hst₁.idx (home_lt key)
    rw [← hchain] at hptr
    have hst₂ : ({ db₁ with idx := ⟨d₁.idx, home key * PTR_SZ + PTR_SZ⟩ } : DB).Stores d₁ ch₁ (Function.update m key none) :=
      hst₁.congr hst₁.idx.symm rfl rfl rfl
    obtain ⟨db', d', ch', happ, hst', -, -⟩ :=
      hst₂.append (hclear.delete key) (Function.update_self ..) hk hd (hl₁.trans_le hlen) hchain
    rw [Function.update_idem] at hst'
    refine ⟨{ db' with cnt.stor3 := db'.cnt.stor3 + 1 }.unlockChain, d', ch', ?_, hst'.congr rfl rfl rfl rfl,
      fun hv => absurd (congrArg (· + 1) hv) hl⟩
    have hl' : data.length + 1 ≠ (db.foundAt key true l₁ o e).datlen := hl
    rw [hstore, storePresent, if_neg hni, if_pos hl', hdel, ok_bind, hptr, ok_bind, happ]
    rfl

end Calls

/-! ## Opening -/

def Disk.empty : Disk := ⟨List.replicate (NHASH_DEF + 1) 0, []⟩

theorem Disk.empty_sound : Disk.empty.Sound fun _ => [] where
  ok := ⟨List.length_replicate, fun p hp => by rw [List.eq_of_mem_replicate hp]; exact Nat.zero_le _, rfl⟩
  threaded :=
    { linked := fun i _ => by
        have hp : Disk.empty.ptr (.slot i) = 0 := by
          simp only [Disk.ptr, Disk.empty, List.getD_eq_getElem?_getD, List.getElem?_replicate]
          split <;> rfl
        simp [Linked, Disk.cell, hp, link]
      mem := fun o => by simp [Disk.offsets, Disk.empty, offs]
      apart := fun i _ j _ o ho => absurd ho List.not_mem_nil
      fits := fun i _ o ho => absurd ho List.not_mem_nil }

theorem opened_eq (creat trunc : Bool) (idx dat : List UInt8) (h : (creat && trunc) = false ∨ idx = []) :
    ∃ db, dbOpen.opened creat trunc idx dat = .ok (some db) ∧ db.nhash = NHASH_DEF ∧ db.hashoff = HASH_OFF ∧
      db.dat.bytes = dat ∧ db.idx.bytes = if creat && trunc then Disk.empty.idx else idx := by
  have hpos : ¬ ((NHASH_DEF : ℤ) + 1) * PTR_SZ + 1 < 0 := by decide
  have hempty : (List.replicate (NHASH_DEF + 1) (padded PTR_SZ 0)).flatten ++ [NEWLINE] = Disk.empty.idx := by
    simp [Disk.idx, Disk.empty, List.flatMap]
  rcases h with h | rfl
  · exact ⟨_, by simp [dbOpen.opened, h, rewind, DB.recoff, Fd.lseek, hpos]; rfl, rfl, rfl, rfl, by simp [h]⟩
  · by_cases hct : (creat && trunc) = true
    · refine ⟨_, by
        simp only [dbOpen.opened, hct, if_true, DB.lock, List.length_nil, rewind, DB.recoff, Fd.lseek, hpos, if_false, ok_bind,
          Fd.write, hempty]
        rfl, rfl, rfl, rfl, ?_⟩
      simp [hct, splice]
    · exact ⟨_, by simp [dbOpen.opened, hct, rewind, DB.recoff, Fd.lseek, hpos]; rfl, rfl, rfl, rfl, by simp [hct]⟩

/-- A database that is created is empty, whatever was there before. -/
theorem dbOpen_created (files : Option (List UInt8 × List UInt8)) :
    ∃ db, dbOpen true true files = .ok (some db) ∧ db.Stores Disk.empty (fun _ => []) fun _ => none := by
  obtain ⟨db, ho, hn, hh, hdat, hidx⟩ := opened_eq true true [] [] (.inr rfl)
  refine ⟨db, ?_, hidx, hdat, hn, hh, Disk.empty_sound,
    ⟨fun k v => by simp, fun k v v' o ho => absurd ho List.not_mem_nil⟩, fun _ => .inl fun o ho => absurd ho List.not_mem_nil⟩
  cases files with
  | none => exact ho
  | some f => exact ho

theorem DB.Stores.reopen {db : DB} {d : Disk} {ch : ℕ → List ℕ} {m : Map} (h : db.Stores d ch m) :
    ∃ db', dbOpen false false (some (db.idx.bytes, db.dat.bytes)) = .ok (some db') ∧ db'.Stores d ch m := by
  obtain ⟨db', ho, hn, hh, hdat, hidx⟩ := opened_eq false false db.idx.bytes db.dat.bytes (.inl rfl)
  exact ⟨db', ho, hidx.trans h.idx, hdat.trans h.dat, hn, hh, h.sound, h.holds, h.readable⟩

/-! ## Runs -/

/-- A call, on the database and on the map. -/
def step (s : DB × Map) (c : Call) : Option (DB × Map) :=
  (c.run s.1).toOption.map fun r => (r.2, (c.meaning s.2).2)

theorem step_of_run {s : DB × Map} {c : Call} {a : Answer} {db' : DB} (h : c.run s.1 = .ok (a, db')) :
    step s c = some (db', (c.meaning s.2).2) := by
  rw [step, h]
  rfl

/-- The database holds the map. -/
def Rep (s : DB × Map) : Prop := ∃ d ch, s.1.Stores d ch s.2

/-- The files of the two are the same. -/
def SameFiles (db' db : DB) : Prop := db'.idx.bytes = db.idx.bytes ∧ db'.dat.bytes = db.dat.bytes

theorem DB.Stores.sameFiles {db db' : DB} {d : Disk} {ch : ℕ → List ℕ} {m m' : Map} (h : db.Stores d ch m)
    (h' : db'.Stores d ch m') : SameFiles db' db := ⟨h'.idx.trans h.idx.symm, h'.dat.trans h.dat.symm⟩

/-- **One call** answers what the map answers, and afterwards the database holds the new map.  It writes to the files only
if it answers 0. -/
theorem Rep.call {s : DB × Map} {c : Call} (h : Rep s) (hc : c.Fits s.1) (hclear : ∀ i ∈ c.chain, Clear s.2 i) :
    ∃ db', c.run s.1 = .ok ((c.meaning s.2).1, db') ∧ Rep (db', (c.meaning s.2).2) ∧
      ((c.meaning s.2).1 ≠ .rc 0 → SameFiles db' s.1) := by
  obtain ⟨d, ch, h⟩ := h
  cases c with
  | fetch key =>
    obtain ⟨db', hf, hst⟩ := h.fetch (hclear _ rfl)
    exact ⟨db', by rw [Call.run, hf]; rfl, ⟨d, ch, hst⟩, fun _ => h.sameFiles hst⟩
  | reopen =>
    obtain ⟨db', ho, hst⟩ := h.reopen
    exact ⟨db', by rw [Call.run, ho]; rfl, ⟨d, ch, hst⟩, fun _ => h.sameFiles hst⟩
  | delete key =>
    cases hm : s.2 key with
    | none =>
      have hmean : (Call.delete key).meaning s.2 = (.rc (-1), s.2) := by rw [Call.meaning, hm, if_neg (by simp)]
      obtain ⟨db', hd, hst⟩ := h.delete_absent (hclear _ rfl) hm
      rw [hmean]
      exact ⟨db', by rw [Call.run, hd]; rfl, ⟨d, ch, hst⟩, fun _ => h.sameFiles hst⟩
    | some v =>
      have hmean : (Call.delete key).meaning s.2 = (.rc 0, Function.update s.2 key none) := by
        rw [Call.meaning, hm, if_pos (by simp)]
      obtain ⟨db', d', ch', hd, hst, -⟩ := h.delete_present (hclear _ rfl) hm
      rw [hmean]
      exact ⟨db', by rw [Call.run, hd]; rfl, ⟨d', ch', hst⟩, fun hne => absurd rfl hne⟩
  | store key data flag =>
    obtain ⟨hk, hd, hlen⟩ := hc
    rw [h.idx] at hlen
    by_cases hbad : flag ≠ DB_INSERT ∧ flag ≠ DB_REPLACE ∧ flag ≠ DB_STORE
    · have hmean : (Call.store key data flag).meaning s.2 = (.rc (-1), s.2) := if_pos hbad
      rw [hmean]
      exact ⟨{ s.1 with errno := EINVAL }, by simp [Call.run, Db.store, hbad],
        ⟨d, ch, h.congr rfl rfl rfl rfl⟩, fun _ => ⟨rfl, rfl⟩⟩
    have hflag : flag = DB_INSERT ∨ flag = DB_REPLACE ∨ flag = DB_STORE := by tauto
    have hclear := hclear (home key) (if_neg hbad)
    cases hm : s.2 key with
    | none =>
      by_cases hrep : flag = DB_REPLACE
      · have hmean : (Call.store key data flag).meaning s.2 = (.rc (-1), s.2) := by
          rw [Call.meaning, if_neg hbad, hm, if_neg (by simp), if_pos hrep]
        obtain ⟨db', hs, hst, -⟩ := h.store_missing hclear hm hd
        rw [hmean, hrep]
        exact ⟨db', by rw [Call.run, hs]; rfl, ⟨d, ch, hst⟩, fun _ => h.sameFiles hst⟩
      · have hmean : (Call.store key data flag).meaning s.2 = (.rc 0, Function.update s.2 key (some data)) := by
          rw [Call.meaning, if_neg hbad, hm, if_neg (by simp), if_neg hrep]
        obtain ⟨db', d', ch', hs, hst, -⟩ := h.store_new hclear hm (by tauto) hk hd hlen
        rw [hmean]
        exact ⟨db', by rw [Call.run, hs]; rfl, ⟨d', ch', hst⟩, fun hne => absurd rfl hne⟩
    | some v =>
      by_cases hins : flag = DB_INSERT
      · have hmean : (Call.store key data flag).meaning s.2 = (.rc 1, s.2) := by
          rw [Call.meaning, if_neg hbad, hm, if_pos (by simp), if_pos hins]
        obtain ⟨db', hs, hst⟩ := h.store_existing hclear (show s.2 key ≠ none by rw [hm]; simp) hd
        rw [hmean, hins]
        exact ⟨db', by rw [Call.run, hs]; rfl, ⟨d, ch, hst⟩, fun _ => h.sameFiles hst⟩
      · have hmean : (Call.store key data flag).meaning s.2 = (.rc 0, Function.update s.2 key (some data)) := by
          rw [Call.meaning, if_neg hbad, hm, if_pos (by simp), if_neg hins]
        obtain ⟨db', d', ch', hs, hst, -⟩ := h.store_over hclear hm (by tauto) hk hd hlen
        rw [hmean]
        exact ⟨db', by rw [Call.run, hs]; rfl, ⟨d', ch', hst⟩, fun hne => absurd rfl hne⟩

/-- The states of the runs that start with an empty database. -/
def Runs (s : DB × Map) : Prop :=
  ∃ files db, dbOpen true true files = .ok (some db) ∧ Reach step (fun s c => c.Ok s.1) (db, fun _ => none) s

theorem rep_created {files : Option (List UInt8 × List UInt8)} {db : DB} (ho : dbOpen true true files = .ok (some db)) :
    Rep (db, fun _ => none) := by
  obtain ⟨db', ho', hst⟩ := dbOpen_created files
  obtain rfl : db = db' := by
    rw [ho] at ho'
    exact Option.some.inj (Except.ok.inj ho')
  exact ⟨_, _, hst⟩

/-- The state behind a call that has returned. -/
theorem Rep.next {s s' : DB × Map} {c : Call} (h : Rep s) (hc : c.Fits s.1) (hclear : ∀ i ∈ c.chain, Clear s.2 i)
    (hs : step s c = some s') : Rep s' ∧ s'.2 = (c.meaning s.2).2 := by
  obtain ⟨db', hrun, hrep, -⟩ := h.call hc hclear
  obtain rfl := Option.some.inj ((step_of_run hrun).symm.trans hs)
  exact ⟨hrep, rfl⟩

/-- The keys of the map stay without separators. -/
theorem Call.Ok.clear_meaning {db : DB} {c : Call} (hc : c.Ok db) {m : Map} (h : ∀ i, Clear m i) (i : ℕ) :
    Clear (c.meaning m).2 i := by
  rcases c.meaning_map m with hm | ⟨key, v, hm, -, hv⟩
  · rw [hm]
    exact h i
  · rw [hm]
    rcases hv with rfl | ⟨data, flag, rfl⟩
    · exact (h i).delete key
    · intro k w hk hi
      rw [Function.update_apply] at hk
      split at hk
      · rename_i heq
        rw [heq]
        exact hc.1.sep
      · exact h i k w hk hi

/-- In every state of a run the database holds the map, and no key has a separator in it. -/
theorem Runs.inv {s : DB × Map} (h : Runs s) : Rep s ∧ ∀ i, Clear s.2 i := by
  obtain ⟨files, db, ho, hr⟩ := h
  refine hr.invariant (fun s => Rep s ∧ ∀ i, Clear s.2 i) ⟨rep_created ho, by simp [Clear]⟩ fun s s' c _ hs hc hstep => ?_
  obtain ⟨hrep, hm⟩ := hs.1.next hc.fits (fun i _ => hs.2 i) hstep
  rw [hm]
  exact ⟨hrep, hc.clear_meaning hs.2⟩

theorem Runs.call {s : DB × Map} {c : Call} (h : Runs s) (hc : c.Ok s.1) :
    ∃ db', c.run s.1 = .ok ((c.meaning s.2).1, db') ∧ ((c.meaning s.2).1 ≠ .rc 0 → SameFiles db' s.1) := by
  obtain ⟨db', hrun, -, hsame⟩ := h.inv.1.call hc.fits fun i _ => h.inv.2 i
  exact ⟨db', hrun, hsame⟩

/-- **The database is a map.**  In every state of a run every call returns, and answers what the map answers that the calls so
far have made. -/
theorem calls_refine_map {s : DB × Map} (h : Runs s) {c : Call} (hc : c.Ok s.1) :
    ∃ db', c.run s.1 = .ok ((c.meaning s.2).1, db') := by
  obtain ⟨db', hrun, -⟩ := h.call hc
  exact ⟨db', hrun⟩

/-- The state after a call that is asked for what it needs. -/
theorem Runs.next {s : DB × Map} (h : Runs s) {c : Call} (hc : c.Ok s.1) {a : Answer} {db' : DB}
    (hrun : c.run s.1 = .ok (a, db')) : Runs (db', (c.meaning s.2).2) := by
  obtain ⟨files, db, ho, hr⟩ := h
  exact ⟨files, db, ho, hr.next hc (step_of_run hrun)⟩

theorem keyOk_ab : KeyOk [65, 66] := ⟨⟨by decide, fun h => absurd (h 65 (by decide)) (by decide), by decide⟩, by decide⟩

theorem dataOk_cd : DataOk [67, 68] := ⟨by decide, by decide, by decide⟩

/-- The run of one call that stores `CD` under `AB`; the index file is then 985 bytes long. -/
theorem exists_run_ab : ∃ db, Runs (db, Function.update (fun _ => none) [65, 66] (some [67, 68])) ∧
    db.idx.bytes.length ≤ PTR_MAX := by
  obtain ⟨db, ho, hst⟩ := dbOpen_created none
  have hlen : Disk.empty.idx.length = 967 := Disk.empty_sound.ok.idx_length
  obtain ⟨db₁, d₁, ch₁, hs, hst₁, -, hgrow⟩ :=
    hst.store_new (by simp [Clear]) rfl (.inl rfl) keyOk_ab.toKeyFits dataOk_cd (by rw [hlen]; decide)
  have h₀ : Runs (db, fun _ => none) := ⟨none, db, ho, .init⟩
  have hc : (Call.store [65, 66] [67, 68] DB_INSERT).Ok db := ⟨keyOk_ab, dataOk_cd, by rw [hst.idx, hlen]; decide⟩
  have hrun : (Call.store [65, 66] [67, 68] DB_INSERT).run db = .ok (.rc 0, db₁) := by
    rw [Call.run, hs]
    rfl
  refine ⟨db₁, h₀.next hc hrun, ?_⟩
  rw [hst₁.idx, (hgrow (by simp)).1, hlen]
  decide

/-- `AB` is stored, and then fetched. -/
theorem ab_fetched : ∃ s db', Runs s ∧ (Call.fetch [65, 66]).run s.1 = .ok (.data (some [67, 68]), db') := by
  obtain ⟨db, h, -⟩ := exists_run_ab
  obtain ⟨db', hrun⟩ := calls_refine_map h (c := .fetch [65, 66]) trivial
  exact ⟨_, db', h, hrun⟩

/-- A call that fails, and any call that only reads, leaves both files as they are, byte by byte. -/
theorem failed_call_keeps_files {s : DB × Map} (h : Runs s) {c : Call} (hc : c.Ok s.1) {a : Answer} {db' : DB}
    (hrun : c.run s.1 = .ok (a, db')) (ha : a ≠ .rc 0) : SameFiles db' s.1 := by
  obtain ⟨db₁, hrun₁, hsame⟩ := h.call hc
  obtain ⟨rfl, rfl⟩ := Prod.mk.inj (Except.ok.inj (hrun.symm.trans hrun₁))
  exact hsame ha

/-- **Every record is on exactly one list.**  In every state of a run the two files are a table of pointers and a row of
records, the pointers lead through lists that end, every record is on one of them, the free ones with a blank key on the free
list and the others on the chain of their key.  No key has a separator in it. -/
theorem records_on_one_list {s : DB × Map} (h : Runs s) : ∃ (d : Disk) (ch : ℕ → List ℕ),
    s.1.idx.bytes = d.idx ∧ s.1.dat.bytes = d.dat ∧ d.Ok ∧
    (∀ i < NHASH_DEF + 1, Linked Loc.node d.cell (.slot i) (ch i)) ∧
    ∀ o e, d.entryAt o = some e → SEP ∉ e.key ∧ (∃ i < NHASH_DEF + 1, o ∈ ch i ∧ ∀ j < NHASH_DEF + 1, o ∈ ch j → j = i) ∧
      (Blank e.key → o ∈ ch 0) ∧ (¬ Blank e.key → o ∈ ch (home e.key)) := by
  obtain ⟨⟨d, ch, hst⟩, hclear⟩ := h.inv
  have ht := hst.sound.threaded
  refine ⟨d, ch, hst.idx, hst.dat, hst.sound.ok, ht.linked, fun o e he => ?_⟩
  obtain ⟨i, hi, ho⟩ := (ht.mem o).mp (Disk.mem_offsets.mpr (Option.isSome_iff_exists.mpr ⟨e, he⟩))
  exact ⟨hst.key_readable hclear he, ⟨i, hi, ho, fun j hj hoj => ht.apart j hj i hi o hoj ho⟩, hst.sound.mem_free he,
    hst.sound.mem_chain he⟩

theorem ab_on_one_list : ∃ (s : DB × Map) (d : Disk), Runs s ∧ s.1.idx.bytes = d.idx ∧ d.Ok := by
  obtain ⟨db, h, -⟩ := exists_run_ab
  obtain ⟨d, ch, hidx, -, hok, -⟩ := records_on_one_list h
  exact ⟨_, d, h, hidx, hok⟩

/-- **The room of a deleted record is used again.**  When a record was deleted, a new one whose key and data are as long as
its were leaves both files as long as they were before. -/
theorem deleted_room_reused {s : DB × Map} (h : Runs s) {key v key' data : List UInt8} {flag : ℤ} (hv : s.2 key = some v)
    (hfresh : key' = key ∨ s.2 key' = none) (hk : KeyOk key') (hd : DataOk data) (hlen : s.1.idx.bytes.length ≤ PTR_MAX)
    (hkl : key'.length = key.length) (hdl : data.length = v.length) (hflag : flag = DB_INSERT ∨ flag = DB_STORE) :
    ∃ db₁ db₂, delete s.1 key = .ok (0, db₁) ∧ store db₁ key' data flag = .ok (0, db₂) ∧
      db₂.idx.bytes.length = s.1.idx.bytes.length ∧ db₂.dat.bytes.length = s.1.dat.bytes.length := by
  obtain ⟨⟨d, ch, hst⟩, hclear⟩ := h.inv
  obtain ⟨db₁, d₁, ch₁, hdel, hst₁, hi₁, hd₁, o, ho, e, he, hsz⟩ := hst.delete_present (hclear _) hv
  have hnone : Function.update s.2 key none key' = none := by
    rw [Function.update_apply]
    split
    · rfl
    · rename_i hne
      exact hfresh.resolve_left hne
  obtain ⟨db₂, d₂, ch₂, hstore, hst₂, hfree, -⟩ :=
    hst₁.store_new ((hclear _).delete key) hnone hflag hk.toKeyFits hd (by rw [hi₁, ← hst.idx]; exact hlen)
  have hlens := hfree ⟨o, ho, e, he, by rw [hkl, hdl]; exact hsz⟩
  refine ⟨db₁, db₂, hdel, hstore, ?_, ?_⟩
  · rw [hst₂.idx, hst.idx, hlens.1, hi₁]
  · rw [hst₂.dat, hst.dat, hlens.2, hd₁]

/-- `AB` is stored, deleted and stored again. -/
theorem ab_room_reused : ∃ s db₁ db₂, Runs s ∧ delete s.1 [65, 66] = .ok (0, db₁) ∧
    store db₁ [65, 66] [67, 68] DB_INSERT = .ok (0, db₂) ∧ db₂.idx.bytes.length = s.1.idx.bytes.length := by
  obtain ⟨db, h, hlen⟩ := exists_run_ab
  have hv : Function.update (fun _ => none : Map) [65, 66] (some [67, 68]) [65, 66] = some [67, 68] := Function.update_self ..
  obtain ⟨db₁, db₂, hdel, hstore, hidx, -⟩ := deleted_room_reused h hv (.inl rfl) keyOk_ab dataOk_cd hlen rfl rfl (.inl rfl)
  exact ⟨_, db₁, db₂, h, hdel, hstore, hidx⟩

end CppNotes.Db
