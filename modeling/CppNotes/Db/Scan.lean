import CppNotes.Db.Map

/-!
# Reading the database from its start

`db_rewind` and then `db_nextrec` until it returns `NULL` step through the index file record by record and leave out those
with a blank key, which are the free ones.  So every record of the map is returned, and returned once.
-/

namespace CppNotes.Db

open CppNotes.Lib

/-- `while ((ptr = db_nextrec(db, key)) != NULL)`, with the keys and the data that are returned -/
def scan : ℕ → DB → Except Stop (List (List UInt8 × List UInt8) × DB)
  | 0, _ => .error .spins
  | n + 1, db => do
    let r ← nextRec db
    match r.1 with
    | none => .ok ([], r.2)
    | some kv => do
      let t ← scan n r.2
      .ok (kv :: t.1, t.2)

instance (key : List UInt8) : Decidable (Blank key) := inferInstanceAs (Decidable (∀ c ∈ key, c = SPACE))

/-- The records that are not free, in the order of the file. -/
def Disk.live (es : List Entry) : List (List UInt8 × List UInt8) :=
  (es.filter fun e => ¬ Blank e.key).map fun e => (e.key, e.data)

/-- The structure is at the record behind `es₁`. -/
structure DB.At (db : DB) (d : Disk) (es₁ es₂ : List Entry) : Prop where
  entries : d.entries = es₁ ++ es₂
  idx : db.idx.bytes = d.idx
  dat : db.dat.bytes = d.dat
  pos : db.idx.pos = RECOFF + (es₁.flatMap Entry.record).length

section Scan

variable {db : DB} {d : Disk} {es₁ es₂ : List Entry} {e : Entry} (hkeys : ∀ e ∈ d.entries, SEP ∉ e.key)

theorem Disk.live_append (fs gs : List Entry) : Disk.live (fs ++ gs) = Disk.live fs ++ Disk.live gs := by
  simp [Disk.live]

theorem Disk.live_cons (h : ¬ Blank e.key) (gs : List Entry) : Disk.live (e :: gs) = (e.key, e.data) :: Disk.live gs := by
  simp [Disk.live, h]

theorem Disk.mem_live {k v : List UInt8} : (k, v) ∈ Disk.live es₂ ↔ ∃ e ∈ es₂, ¬ Blank e.key ∧ e.key = k ∧ e.data = v := by
  simp [Disk.live, and_assoc]

include hkeys

/-- `_db_readidx` at the current offset. -/
theorem DB.At.readIdx_next (hok : d.Ok) (h : db.At d es₁ (e :: es₂)) :
    readIdx db 0 = .ok (e.ptr, db.loaded db.idx.pos e) ∧ (db.loaded db.idx.pos e).At d (es₁ ++ [e]) es₂ := by
  have hlen : (d.slots.flatMap (padded PTR_SZ) ++ [NEWLINE] ++ es₁.flatMap Entry.record).length = db.idx.pos := by
    rw [List.length_append, hok.front_length, h.pos]
  have hb : db.idx.bytes = d.slots.flatMap (padded PTR_SZ) ++ [NEWLINE] ++ es₁.flatMap Entry.record ++ e.record ++
      es₂.flatMap Entry.record := by
    rw [h.idx, Disk.idx, h.entries]
    simp
  refine ⟨?_, by rw [h.entries]; simp, h.idx, h.dat, ?_⟩
  · rw [← hlen]
    exact readIdx_eq e (hkeys e (by simp [h.entries])) hb (.inr ⟨rfl, hlen.symm⟩)
  · simp only [DB.loaded, h.pos, List.flatMap_append, List.flatMap_cons, List.flatMap_nil, List.length_append,
      List.length_nil, Nat.add_zero, Nat.add_assoc]

omit hkeys in
theorem DB.At.readIdx_end (hok : d.Ok) (h : db.At d es₁ []) :
    readIdx db 0 = .ok (-1, { db with idxoff := db.idx.bytes.length }) := by
  refine readIdx_eof ?_
  rw [h.pos, h.idx, hok.idx_length, h.entries, List.append_nil]

/-- **The loop of `db_nextrec`** reads up to the next record that is not free. -/
theorem nextNonblank_spec (hok : d.Ok) (h : db.At d es₁ es₂) {n : ℕ} (hn : es₂.length < n) :
    (∃ db', nextNonblank n db = .ok (false, db') ∧ db'.At d d.entries [] ∧ Disk.live es₂ = []) ∨
    ∃ fs e gs db', es₂ = fs ++ e :: gs ∧ Disk.live fs = [] ∧ ¬ Blank e.key ∧
      nextNonblank n db = .ok (true, DB.loaded db' (RECOFF + ((es₁ ++ fs).flatMap Entry.record).length) e) ∧
      (DB.loaded db' (RECOFF + ((es₁ ++ fs).flatMap Entry.record).length) e).At d (es₁ ++ fs ++ [e]) gs := by
  induction es₂ generalizing db es₁ n with
  | nil =>
    obtain ⟨n, rfl⟩ : ∃ k, n = k + 1 := ⟨n - 1, by omega⟩
    have hpos := h.pos
    rw [← List.append_nil es₁, ← h.entries] at hpos
    refine .inl ⟨{ db with idxoff := db.idx.bytes.length }, ?_, ⟨by simp, h.idx, h.dat, hpos⟩, rfl⟩
    rw [nextNonblank, h.readIdx_end hok, ok_bind, if_pos (show (-1 : ℤ) < 0 by decide)]
  | cons e es ih =>
    obtain ⟨n, rfl⟩ : ∃ k, n = k + 1 := ⟨n - 1, by omega⟩
    obtain ⟨hread, hat⟩ := h.readIdx_next hkeys hok
    have hptr : ¬ ((e.ptr : ℤ) < 0) := by omega
    have hbuf : (db.loaded db.idx.pos e).idxbuf = e.key := rfl
    rw [List.length_cons] at hn
    by_cases hblank : Blank e.key
    · have hall : e.key.all (fun c => decide (c = SPACE)) = true := by simpa [Blank] using hblank
      have hstep : nextNonblank (n + 1) db = nextNonblank n (db.loaded db.idx.pos e) := by
        rw [nextNonblank, hread, ok_bind, if_neg hptr, hbuf, if_pos hall]
      have hlive : ∀ gs, Disk.live (e :: gs) = Disk.live gs := fun gs => by simp [Disk.live, hblank]
      rw [hstep]
      rcases ih hat (n := n) (by omega) with ⟨db', hr, hend, hl⟩ | ⟨fs, f, gs, db', rfl, hl, hne, hr, hat'⟩
      · exact .inl ⟨db', hr, hend, by rw [hlive, hl]⟩
      · refine .inr ⟨e :: fs, f, gs, db', rfl, by rw [hlive, hl], hne, ?_, ?_⟩
        · simpa using hr
        · simpa using hat'
    · have hall : ¬ e.key.all (fun c => decide (c = SPACE)) = true := by simpa [Blank] using hblank
      have hpos : db.idx.pos = RECOFF + ((es₁ ++ []).flatMap Entry.record).length := by rw [List.append_nil, h.pos]
      refine .inr ⟨[], e, es, db, rfl, rfl, hblank, ?_, ?_⟩
      · rw [nextNonblank, hread, ok_bind, if_neg hptr, hbuf, if_neg hall, hpos]
      · rw [← hpos, List.append_nil]
        exact hat

/-- **`db_nextrec`** returns the next record that is not free, or `NULL` behind the last one. -/
theorem nextRec_spec (hok : d.Ok) (h : db.At d es₁ es₂) :
    (∃ db', nextRec db = .ok (none, db') ∧ db'.At d d.entries [] ∧ Disk.live es₂ = []) ∨
    ∃ (e : Entry) (gs es : List Entry) (db' : DB), nextRec db = .ok (some (e.key, e.data), db') ∧ db'.At d es gs ∧
      gs.length < es₂.length ∧
      Disk.live es₂ = (e.key, e.data) :: Disk.live gs := by
  have hat : (db.lock .readw .idxfd FREE_OFF 1).At d es₁ es₂ := ⟨h.entries, h.idx, h.dat, h.pos⟩
  have hfuel : es₂.length < (db.lock .readw .idxfd FREE_OFF 1).idx.bytes.length + 1 := by
    have hlt := hok.entries_length
    rw [h.entries, List.length_append] at hlt
    rw [hat.idx]
    omega
  rcases nextNonblank_spec hkeys hok hat hfuel with ⟨db', hr, hend, hl⟩ | ⟨fs, e, gs, db', rfl, hl, hne, hr, hat'⟩
  · refine .inl ⟨db'.lock .un .idxfd FREE_OFF 1, ?_, ⟨hend.entries, hend.idx, hend.dat, hend.pos⟩, hl⟩
    rw [nextRec, hr, ok_bind]
    rfl
  · have he : d.entryAt (RECOFF + ((es₁ ++ fs).flatMap Entry.record).length) = some e :=
      Disk.entryAt_of_split (show d.entries = (es₁ ++ fs) ++ e :: gs by rw [hat'.entries]; simp)
    obtain ⟨db₂, hdat, hidx₂, hdat₂⟩ : ∃ db₂, readDat (DB.loaded db' _ e) = .ok (e.data, db₂) ∧
        db₂.idx = (DB.loaded db' _ e).idx ∧ db₂.dat.bytes = d.dat := ⟨_, readDat_entry _ hok hat'.dat he rfl rfl, rfl, rfl⟩
    refine .inr ⟨e, gs, es₁ ++ fs ++ [e], { db₂ with cnt.nextrec := db₂.cnt.nextrec + 1 }.lock .un .idxfd FREE_OFF 1, ?_,
      ⟨hat'.entries, (congrArg Fd.bytes hidx₂).trans hat'.idx, hdat₂, (congrArg Fd.pos hidx₂).trans hat'.pos⟩, ?_, ?_⟩
    · rw [nextRec, hr, ok_bind, if_pos rfl, hdat, ok_bind]
      rfl
    · simp only [List.length_append, List.length_cons]
      omega
    · rw [Disk.live_append, hl, Disk.live_cons hne, List.nil_append]

/-- **The scan** returns the records that are not free, in the order of the file. -/
theorem scan_spec (hok : d.Ok) (h : db.At d es₁ es₂) {n : ℕ} (hn : es₂.length < n) :
    ∃ db', scan n db = .ok (Disk.live es₂, db') ∧ db'.At d d.entries [] := by
  induction n generalizing db es₁ es₂ with
  | zero => omega
  | succ n ih =>
    rcases nextRec_spec hkeys hok h with ⟨db', hr, hend, hl⟩ | ⟨e, gs, es, db', hr, hat, hlt, hl⟩
    · exact ⟨db', by rw [scan, hr, ok_bind, hl], hend⟩
    · obtain ⟨db'', hs, hend⟩ := ih hat (by omega)
      exact ⟨db'', by rw [scan, hr, ok_bind, hl]; simp only [hs, ok_bind], hend⟩

end Scan

section Live

variable {db : DB} {d : Disk} {ch : ℕ → List ℕ} {m : Map}

/-- The records that are not free are those of the map. -/
theorem DB.Stores.mem_live (h : db.Stores d ch m) (k v : List UInt8) : (k, v) ∈ Disk.live d.entries ↔ m k = some v := by
  rw [h.holds.get, Disk.mem_live]
  constructor
  · rintro ⟨e, he, hne, rfl, rfl⟩
    obtain ⟨o, ho⟩ := Disk.exists_entryAt he
    exact ⟨o, h.sound.mem_chain ho hne, Disk.content_eq ho⟩
  · rintro ⟨o, ho, hr⟩
    obtain ⟨r, hr', hb⟩ := h.sound.threaded.fits _ (home_lt k) o ho
    obtain rfl := Option.some.inj (hr.symm.trans hr')
    obtain ⟨e, he, hkv⟩ := Option.map_eq_some_iff.mp hr
    obtain ⟨rfl, rfl⟩ := Prod.mk.inj hkv
    rw [Belongs, if_neg (home_pos _).ne'] at hb
    exact ⟨e, mem_of_recAt he, hb.2, rfl, rfl⟩

/-- No key is there twice. -/
theorem DB.Stores.live_nodup (h : db.Stores d ch m) : ((Disk.live d.entries).map Prod.fst).Nodup := by
  have hent : d.entries.Nodup := by
    refine List.Nodup.of_map Entry.datoff ?_
    rw [h.sound.ok.laid]
    exact offs_nodup fun e _ => e.slot_pos
  rw [Disk.live, List.map_map]
  refine List.Nodup.map_on (fun e he f hf hkey => ?_) (hent.filter _)
  simp only [List.mem_filter, decide_eq_true_eq] at he hf
  obtain ⟨o, ho⟩ := Disk.exists_entryAt he.1
  obtain ⟨o', ho'⟩ := Disk.exists_entryAt hf.1
  have hkey : e.key = f.key := hkey
  have hon := h.sound.mem_chain ho' hf.2
  rw [← hkey] at hon
  have heq := h.holds.once e.key e.data f.data o (h.sound.mem_chain ho he.2) o' hon (Disk.content_eq ho)
    (by rw [hkey]; exact Disk.content_eq ho')
  rw [heq] at ho
  exact Option.some.inj (ho.symm.trans ho')

end Live

/-- **A scan returns every record once.**  In every state of a run, what `db_nextrec` returns after `db_rewind`, call after call
until it returns `NULL`, is the map: no key twice, and a key with data exactly when the map has it.  The files do not change. -/
theorem scan_returns_map {s : DB × Map} (h : Runs s) {n : ℕ} (hn : s.1.idx.bytes.length ≤ n) :
    ∃ db₀ kvs db', rewind s.1 = .ok db₀ ∧ scan n db₀ = .ok (kvs, db') ∧ SameFiles db' s.1 ∧
      (kvs.map Prod.fst).Nodup ∧ ∀ k v, (k, v) ∈ kvs ↔ s.2 k = some v := by
  obtain ⟨⟨d, ch, hst⟩, hclear⟩ := h.inv
  have hok := hst.sound.ok
  have hkeys : ∀ e ∈ d.entries, SEP ∉ e.key := by
    intro e he
    obtain ⟨o, ho⟩ := Disk.exists_entryAt he
    exact hst.key_readable hclear ho
  have hrec : s.1.recoff = RECOFF := by rw [DB.recoff, hst.nhash]; rfl
  have hrew : rewind s.1 = .ok { s.1 with idxoff := RECOFF, idx := ⟨s.1.idx.bytes, RECOFF⟩ } := by
    rw [rewind, hrec, lseek_set]
    rfl
  have hat : DB.At { s.1 with idxoff := RECOFF, idx := ⟨s.1.idx.bytes, RECOFF⟩ } d [] d.entries :=
    ⟨rfl, hst.idx, hst.dat, rfl⟩
  have hfuel : d.entries.length < n := by
    rw [hst.idx] at hn
    exact hok.entries_length.trans_le hn
  obtain ⟨db', hs, hend⟩ := scan_spec hkeys hok hat hfuel
  exact ⟨_, _, db', hrew, hs, ⟨hend.idx.trans hst.idx.symm, hend.dat.trans hst.dat.symm⟩, hst.live_nodup, hst.mem_live⟩

/-- After `AB` was stored the scan returns it. -/
theorem ab_scanned : ∃ s db₀ kvs db', Runs s ∧ rewind s.1 = .ok db₀ ∧ scan s.1.idx.bytes.length db₀ = .ok (kvs, db') ∧
    ([65, 66], [67, 68]) ∈ kvs := by
  obtain ⟨db, h, -⟩ := exists_run_ab
  obtain ⟨db₀, kvs, db', hrew, hscan, -, -, hmem⟩ := scan_returns_map h le_rfl
  have hv : Function.update (fun _ => none : Map) [65, 66] (some [67, 68]) [65, 66] = some [67, 68] := Function.update_self ..
  exact ⟨_, db₀, kvs, db', h, hrew, hscan, (hmem _ _).mpr hv⟩

end CppNotes.Db
