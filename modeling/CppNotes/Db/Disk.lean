import CppNotes.Db.Format
import CppNotes.Lib.Chains

/-!
# The two files as a table of entries

A `Disk` is what the two files hold: the free list pointer and the heads of the hash chains, and the entries in the order in
which their index records stand in the index file.  The data records stand in the same order in the data file (`Disk.Ok`).

An entry is named by the offset of its index record, which is also where its chain pointer stands; so a pointer is at a
location `Loc ℕ`, and `Disk.cell` reads it.  The functions of the library that write are replayed on a `Disk`: `setPtr` for
`_db_writeptr`, `setEntry` for a record that is written over another one, `append` for one at the end.
-/

namespace CppNotes.Db

open CppNotes.Lib

/-- Where the index records start. -/
def RECOFF : ℕ := (NHASH_DEF + 1) * PTR_SZ + 1

/-- The offset in the index file. -/
def locOff : Loc ℕ → ℕ
  | .slot i => i * PTR_SZ
  | .node o => o

/-- The null pointer is 0. -/
def link (p : ℕ) : Option ℕ := if p = 0 then none else some p

theorem link_of_ne {p : ℕ} (h : p ≠ 0) : link p = some p := if_neg h

theorem ptr_of_link {p o : ℕ} (h : link p = some o) : p = o := by
  unfold link at h
  split at h
  · simp at h
  · exact Option.some.inj h

structure Disk where
  slots : List ℕ
  entries : List Entry

namespace Disk

def idx (d : Disk) : List UInt8 := d.slots.flatMap (padded PTR_SZ) ++ [NEWLINE] ++ d.entries.flatMap Entry.record

def dat (d : Disk) : List UInt8 := d.entries.flatMap Entry.slot

/-- The entry whose index record starts at the offset. -/
def entryAt (d : Disk) (o : ℕ) : Option Entry := recAt Entry.record RECOFF d.entries o

def offsets (d : Disk) : List ℕ := offs Entry.record RECOFF d.entries

/-- The key and the data at the offset. -/
def content (d : Disk) (o : ℕ) : Option (List UInt8 × List UInt8) := (d.entryAt o).map fun e => (e.key, e.data)

def ptr (d : Disk) : Loc ℕ → ℕ
  | .slot i => d.slots.getD i 0
  | .node o => ((d.entryAt o).map Entry.ptr).getD 0

def cell (d : Disk) (q : Loc ℕ) : Option ℕ := link (d.ptr q)

/-- There is a pointer at the location. -/
def Has (d : Disk) : Loc ℕ → Prop
  | .slot i => i < NHASH_DEF + 1
  | .node o => (d.entryAt o).isSome = true

structure Ok (d : Disk) : Prop where
  slots_length : d.slots.length = NHASH_DEF + 1
  slots_le : ∀ p ∈ d.slots, p ≤ PTR_MAX
  laid : d.entries.map Entry.datoff = offs Entry.slot 0 d.entries

end Disk

/-- The same entry with another pointer. -/
def Entry.withPtr (e : Entry) (p : ℕ) (hp : p ≤ PTR_MAX) : Entry := { e with ptr := p, ptr_le := hp }

/-- The entry fits in the place of the other. -/
structure Entry.Fits (e' e : Entry) : Prop where
  key : e'.key.length = e.key.length
  datoff : e'.datoff = e.datoff
  data : e'.data.length = e.data.length

namespace Entry.Fits

variable {e e' : Entry} (h : e'.Fits e)

include h

theorem record_length : e'.record.length = e.record.length := by
  rw [Entry.record_length, Entry.record_length]
  simp only [Entry.text, idxText, Entry.datlen, List.length_append, List.length_cons, h.key, h.datoff, h.data]

theorem slot_length : e'.slot.length = e.slot.length := by
  rw [Entry.slot_length, Entry.slot_length, Entry.datlen, Entry.datlen, h.data]

end Entry.Fits

theorem Entry.record_pos (e : Entry) : 0 < e.record.length := by
  rw [e.record_length]
  exact Nat.add_pos_left (by decide) _

namespace Disk

def setSlot (d : Disk) (i p : ℕ) : Disk := { d with slots := d.slots.set i p }

def setEntry (d : Disk) (o : ℕ) (e : Entry) : Disk := { d with entries := setAt Entry.record RECOFF d.entries o e }

def setPtr (d : Disk) (q : Loc ℕ) (p : ℕ) (hp : p ≤ PTR_MAX) : Disk :=
  match q with
  | .slot i => d.setSlot i p
  | .node o => (d.entryAt o).elim d fun e => d.setEntry o (e.withPtr p hp)

def append (d : Disk) (e : Entry) : Disk := { d with entries := d.entries ++ [e] }

variable {d : Disk} {i o p : ℕ} {q : Loc ℕ} {e e' : Entry}

/-! ## Where things stand -/

theorem length_slots_bytes {l : List ℕ} (h : ∀ p ∈ l, p ≤ PTR_MAX) :
    (l.flatMap (padded PTR_SZ)).length = l.length * PTR_SZ := by
  induction l with
  | nil => simp
  | cons p l ih =>
    have hp : (padded PTR_SZ p).length = PTR_SZ :=
      padded_length (by decide) (lt_of_le_of_lt (h p List.mem_cons_self) (by decide))
    rw [List.flatMap_cons, List.length_append, hp, ih fun q hq => h q (List.mem_cons_of_mem _ hq), List.length_cons,
      Nat.add_mul, Nat.one_mul, Nat.add_comm]

theorem Ok.front_length (hok : d.Ok) : (d.slots.flatMap (padded PTR_SZ) ++ [NEWLINE]).length = RECOFF := by
  rw [List.length_append, length_slots_bytes hok.slots_le, hok.slots_length]
  rfl

theorem Ok.idx_length (hok : d.Ok) : d.idx.length = RECOFF + (d.entries.flatMap Entry.record).length := by
  rw [idx, List.length_append, hok.front_length]

theorem Ok.entries_length (hok : d.Ok) : d.entries.length < d.idx.length := by
  have hle : d.entries.length ≤ (d.entries.flatMap Entry.record).length := length_le_flatMap fun e _ => e.record_pos
  rw [hok.idx_length, RECOFF]
  omega

/-- The bytes of a pointer of the table. -/
theorem Ok.idx_slot (hok : d.Ok) (hi : i < NHASH_DEF + 1) : ∃ a c, a.length = i * PTR_SZ ∧
    d.idx = a ++ padded PTR_SZ (d.ptr (.slot i)) ++ c ∧ ∀ p, (d.setSlot i p).idx = a ++ padded PTR_SZ p ++ c := by
  have hlt : i < d.slots.length := hok.slots_length ▸ hi
  have hsplit : d.slots = d.slots.take i ++ d.slots.getD i 0 :: d.slots.drop (i + 1) := by
    rw [List.getD_eq_getElem?_getD, List.getElem?_eq_getElem hlt, Option.getD_some, List.getElem_cons_drop,
      List.take_append_drop]
  refine ⟨(d.slots.take i).flatMap (padded PTR_SZ), (d.slots.drop (i + 1)).flatMap (padded PTR_SZ) ++
    ([NEWLINE] ++ d.entries.flatMap Entry.record), ?_, ?_, fun p => ?_⟩
  · rw [length_slots_bytes fun p hp => hok.slots_le p (List.mem_of_mem_take hp), List.length_take,
      Nat.min_eq_left hlt.le]
  · conv_lhs => rw [idx, hsplit]
    simp [ptr]
  · rw [idx, setSlot, List.set_eq_take_append_cons_drop, if_pos hlt]
    simp

/-- The bytes of an index record. -/
theorem Ok.idx_entry (hok : d.Ok) (h : d.entryAt o = some e) : ∃ a c, a.length = o ∧
    d.idx = a ++ e.record ++ c ∧ ∀ e', (d.setEntry o e').idx = a ++ e'.record ++ c := by
  obtain ⟨es₁, es₂, hes, ho, hset⟩ := recAt_split h
  refine ⟨d.slots.flatMap (padded PTR_SZ) ++ [NEWLINE] ++ es₁.flatMap Entry.record, es₂.flatMap Entry.record, ?_, ?_,
    fun e' => ?_⟩
  · rw [List.length_append, hok.front_length, ho]
  · rw [idx, hes]
    simp
  · rw [idx, setEntry, hset]
    simp

/-- The bytes of the data record of the entry. -/
theorem Ok.dat_entry (hok : d.Ok) (h : d.entryAt o = some e) : ∃ a c, a.length = e.datoff ∧
    d.dat = a ++ e.slot ++ c ∧ ∀ e', (d.setEntry o e').dat = a ++ e'.slot ++ c := by
  obtain ⟨es₁, es₂, hes, -, hset⟩ := recAt_split h
  refine ⟨es₁.flatMap Entry.slot, es₂.flatMap Entry.slot, ?_, ?_, fun e' => ?_⟩
  · have hl := hok.laid
    rw [hes, List.map_append, List.map_cons, offs_append] at hl
    obtain ⟨-, hl⟩ := List.append_inj hl (by rw [List.length_map, length_offs])
    obtain ⟨hl, -⟩ := List.cons.inj hl
    rw [hl, Nat.zero_add]
  · rw [dat, hes]
    simp
  · rw [dat, setEntry, hset]
    simp

theorem Ok.ptr_le (hok : d.Ok) (q : Loc ℕ) : d.ptr q ≤ PTR_MAX := by
  cases q with
  | slot i =>
    simp only [ptr, List.getD_eq_getElem?_getD]
    cases hi : d.slots[i]? with
    | none => simp
    | some p => exact hok.slots_le p (List.mem_of_getElem? hi)
  | node o =>
    simp only [ptr]
    cases d.entryAt o with
    | none => simp
    | some e => exact e.ptr_le

theorem ptr_node (h : d.entryAt o = some e) : d.ptr (.node o) = e.ptr := by simp [ptr, h]

theorem content_eq (h : d.entryAt o = some e) : d.content o = some (e.key, e.data) := by simp [content, h]

theorem mem_offsets : o ∈ d.offsets ↔ (d.entryAt o).isSome = true := recAt_isSome.symm

/-- There are pointers where there are records. -/
theorem has_congr {d' : Disk} (h : d'.offsets = d.offsets) (hq : d.Has q) : d'.Has q := by
  cases q with
  | slot i => exact hq
  | node o => exact mem_offsets.mp (h ▸ mem_offsets.mpr hq)

/-- No record starts at the offset 0, which stands for the end of a chain. -/
theorem ne_zero_of_entryAt (h : d.entryAt o = some e) : o ≠ 0 := by
  have := (recAt_bounds h).1
  have : 0 < RECOFF := by decide
  omega

theorem ne_nil_of_entryAt {a : List UInt8} (h : d.entryAt a.length = some e) : a ≠ [] :=
  List.ne_nil_of_length_pos (Nat.pos_of_ne_zero (ne_zero_of_entryAt h))

/-! ## What a write changes -/

theorem Ok.setSlot (hok : d.Ok) (hp : p ≤ PTR_MAX) : (d.setSlot i p).Ok where
  slots_length := (List.length_set ..).trans hok.slots_length
  slots_le q hq := (List.mem_or_eq_of_mem_set hq).elim (hok.slots_le q) fun h => h ▸ hp
  laid := hok.laid

theorem Ok.setEntry (hok : d.Ok) (h : d.entryAt o = some e) (hf : e'.Fits e) : (d.setEntry o e').Ok where
  slots_length := hok.slots_length
  slots_le := hok.slots_le
  laid := by
    obtain ⟨es₁, es₂, hes, -, hset⟩ := recAt_split h
    have hl := hok.laid
    rw [hes, List.map_append, offs_append, List.map_cons] at hl
    rw [Disk.setEntry, hset, List.map_append, offs_append, List.map_cons, hf.datoff]
    simp only [offs, hf.slot_length] at hl ⊢
    exact hl

theorem Ok.append (hok : d.Ok) (he : e.datoff = d.dat.length) : (d.append e).Ok where
  slots_length := hok.slots_length
  slots_le := hok.slots_le
  laid := by
    rw [Disk.append, List.map_append, hok.laid, offs_append, Nat.zero_add]
    simp [offs, he, dat]

theorem cell_setSlot (hok : d.Ok) (hi : i < NHASH_DEF + 1) :
    (d.setSlot i p).cell = Function.update d.cell (.slot i) (link p) := by
  funext q
  have hlt : i < d.slots.length := hok.slots_length ▸ hi
  cases q with
  | slot j =>
    by_cases hj : j = i
    · subst hj
      simp [cell, ptr, setSlot, hlt]
    · rw [Function.update_of_ne (by simpa using hj)]
      simp [cell, ptr, setSlot, List.getElem?_set_ne (Ne.symm hj)]
  | node o => rfl

theorem entryAt_setEntry (h : d.entryAt o = some e) (hf : e'.Fits e) (x : ℕ) :
    (d.setEntry o e').entryAt x = if x = o then some e' else d.entryAt x := recAt_setAt h hf.record_length x

theorem cell_setEntry (h : d.entryAt o = some e) (hf : e'.Fits e) :
    (d.setEntry o e').cell = Function.update d.cell (.node o) (link e'.ptr) := by
  funext q
  cases q with
  | slot j => rfl
  | node x =>
    simp only [cell, ptr, entryAt_setEntry h hf, Function.update_apply, Loc.node.injEq]
    split <;> rfl

theorem content_setEntry (h : d.entryAt o = some e) (hf : e'.Fits e) :
    (d.setEntry o e').content = Function.update d.content o (some (e'.key, e'.data)) := by
  funext x
  simp only [content, entryAt_setEntry h hf, Function.update_apply]
  split <;> rfl

theorem idx_length_setEntry (hok : d.Ok) (h : d.entryAt o = some e) (hf : e'.Fits e) :
    (d.setEntry o e').idx.length = d.idx.length := by
  obtain ⟨a, c, -, hd, hset⟩ := hok.idx_entry h
  rw [hset, hd, List.length_append, List.length_append, List.length_append, List.length_append, hf.record_length]

theorem dat_length_setEntry (hok : d.Ok) (h : d.entryAt o = some e) (hf : e'.Fits e) :
    (d.setEntry o e').dat.length = d.dat.length := by
  obtain ⟨a, c, -, hd, hset⟩ := hok.dat_entry h
  rw [hset, hd, List.length_append, List.length_append, List.length_append, List.length_append, hf.slot_length]

theorem offsets_setEntry (h : d.entryAt o = some e) (hf : e'.Fits e) : (d.setEntry o e').offsets = d.offsets :=
  offs_setAt h hf.record_length

theorem entryAt_append (hok : d.Ok) (x : ℕ) :
    (d.append e).entryAt x = if x = d.idx.length then some e else d.entryAt x := by
  rw [hok.idx_length]
  exact recAt_concat (fun e _ => e.record_pos) e x

theorem cell_append (hok : d.Ok) : (d.append e).cell = Function.update d.cell (.node d.idx.length) (link e.ptr) := by
  funext q
  cases q with
  | slot j => rfl
  | node x =>
    simp only [cell, ptr, entryAt_append hok, Function.update_apply, Loc.node.injEq]
    split <;> rfl

theorem content_append (hok : d.Ok) :
    (d.append e).content = Function.update d.content d.idx.length (some (e.key, e.data)) := by
  funext x
  simp only [content, entryAt_append hok, Function.update_apply]
  split <;> rfl

theorem offsets_append (hok : d.Ok) : (d.append e).offsets = d.offsets ++ [d.idx.length] := by
  rw [offsets, Disk.append, offs_append, hok.idx_length]
  rfl

theorem not_mem_offsets_length (hok : d.Ok) : d.idx.length ∉ d.offsets := by
  intro hmem
  obtain ⟨e, he⟩ := Option.isSome_iff_exists.mp (mem_offsets.mp hmem)
  have h₁ := (recAt_bounds he).2
  have h₂ := e.record_pos
  rw [hok.idx_length] at h₁
  omega

theorem entryAt_of_split {es₁ es₂ : List Entry} (h : d.entries = es₁ ++ e :: es₂) :
    d.entryAt (RECOFF + (es₁.flatMap Entry.record).length) = some e := by
  rw [entryAt, h, recAt_append, recAt_end fun f _ => f.record_pos]
  simp [recAt]

theorem exists_entryAt (h : e ∈ d.entries) : ∃ o, d.entryAt o = some e := by
  obtain ⟨es₁, es₂, hes⟩ := List.append_of_mem h
  exact ⟨_, entryAt_of_split hes⟩

theorem withPtr_fits (e : Entry) (hp : p ≤ PTR_MAX) : (e.withPtr p hp).Fits e := ⟨rfl, rfl, rfl⟩

section SetPtr

variable (hok : d.Ok) (hq : d.Has q) (hp : p ≤ PTR_MAX)

include hok hq

theorem Ok.setPtr : (d.setPtr q p hp).Ok := by
  cases q with
  | slot i => exact hok.setSlot hp
  | node o =>
    obtain ⟨e, he⟩ := Option.isSome_iff_exists.mp hq
    simp only [Disk.setPtr, he, Option.elim]
    exact hok.setEntry he (withPtr_fits e hp)

theorem cell_setPtr : (d.setPtr q p hp).cell = Function.update d.cell q (link p) := by
  cases q with
  | slot i => exact cell_setSlot hok hq
  | node o =>
    obtain ⟨e, he⟩ := Option.isSome_iff_exists.mp hq
    simp only [Disk.setPtr, he, Option.elim]
    exact cell_setEntry he (withPtr_fits e hp)

omit hok in
theorem content_setPtr : (d.setPtr q p hp).content = d.content := by
  cases q with
  | slot i => rfl
  | node o =>
    obtain ⟨e, he⟩ := Option.isSome_iff_exists.mp hq
    simp only [Disk.setPtr, he, Option.elim]
    rw [content_setEntry he (withPtr_fits e hp)]
    exact Function.update_eq_self_iff.mpr (content_eq he).symm

omit hok in
theorem offsets_setPtr : (d.setPtr q p hp).offsets = d.offsets := by
  cases q with
  | slot i => rfl
  | node o =>
    obtain ⟨e, he⟩ := Option.isSome_iff_exists.mp hq
    simp only [Disk.setPtr, he, Option.elim]
    exact offsets_setEntry he (withPtr_fits e hp)

omit hok in
theorem entryAt_setPtr_of_ne (ho : q ≠ .node o) : (d.setPtr q p hp).entryAt o = d.entryAt o := by
  cases q with
  | slot i => rfl
  | node x =>
    obtain ⟨e, he⟩ := Option.isSome_iff_exists.mp hq
    simp only [Disk.setPtr, he, Option.elim]
    rw [entryAt_setEntry he (withPtr_fits e hp), if_neg fun hxo => ho (by rw [hxo])]

theorem dat_setPtr : (d.setPtr q p hp).dat = d.dat := by
  cases q with
  | slot i => rfl
  | node o =>
    obtain ⟨e, he⟩ := Option.isSome_iff_exists.mp hq
    simp only [Disk.setPtr, he, Option.elim]
    obtain ⟨a, c, -, hd, hset⟩ := hok.dat_entry he
    rw [hset, hd]
    rfl

/-- The bytes around a pointer. -/
theorem Ok.idx_ptr : ∃ a b c, a.length = locOff q ∧ b.length = PTR_SZ ∧ d.idx = a ++ b ++ c ∧
    (d.setPtr q p hp).idx = a ++ padded PTR_SZ p ++ c := by
  cases q with
  | slot i =>
    obtain ⟨a, c, ha, hd, hset⟩ := hok.idx_slot hq
    exact ⟨a, _, c, ha, padded_length (by decide) (lt_of_le_of_lt (hok.ptr_le _) (by decide)), hd, hset p⟩
  | node o =>
    obtain ⟨e, he⟩ := Option.isSome_iff_exists.mp hq
    obtain ⟨a, c, ha, hd, hset⟩ := hok.idx_entry he
    refine ⟨a, padded PTR_SZ e.ptr, padded IDXLEN_SZ e.text.length ++ e.text ++ c, ha, e.ptr_length, ?_, ?_⟩
    · rw [hd, Entry.record]
      simp
    · simp only [Disk.setPtr, he, Option.elim]
      rw [hset, Entry.record]
      simp only [List.append_assoc]
      rfl

theorem idx_length_setPtr : (d.setPtr q p hp).idx.length = d.idx.length := by
  obtain ⟨a, b, c, -, hb, hd, hset⟩ := hok.idx_ptr hq hp
  rw [hset, hd, List.length_append, List.length_append, List.length_append, List.length_append, hb,
    padded_length (by decide) (lt_of_le_of_lt hp (by decide))]

end SetPtr

end Disk

/-! ## The functions of the library on a disk -/

section Library

variable (db : DB) {d : Disk} {q : Loc ℕ} {i o p : ℕ} {e : Entry}

theorem readPtr_slot (hok : d.Ok) (hb : db.idx.bytes = d.idx) (hi : i < NHASH_DEF + 1) :
    readPtr db (i * PTR_SZ : ℕ) = .ok (d.ptr (.slot i), { db with idx := ⟨d.idx, i * PTR_SZ + PTR_SZ⟩ }) := by
  obtain ⟨a, c, ha, hd, -⟩ := hok.idx_slot hi
  rw [← ha, readPtr_eq (hok.ptr_le (.slot i)) (hb.trans hd), hb]

theorem readIdx_entry (hok : d.Ok) (hb : db.idx.bytes = d.idx) (h : d.entryAt o = some e) (hkey : SEP ∉ e.key) :
    readIdx db o = .ok (d.ptr (.node o), db.loaded o e) := by
  obtain ⟨a, c, rfl, hd, -⟩ := hok.idx_entry h
  rw [Disk.ptr_node h]
  exact readIdx_eq e hkey (hb.trans hd) (.inl ⟨rfl, Disk.ne_nil_of_entryAt h⟩)

theorem readIdx_entry_colon (hok : d.Ok) (hb : db.idx.bytes = d.idx) (h : d.entryAt o = some e) (hkey : SEP ∈ e.key) :
    readIdx db o = .error (.dump "_db_readidx: too many separators") := by
  obtain ⟨a, c, rfl, hd, -⟩ := hok.idx_entry h
  exact readIdx_colon e hkey (hb.trans hd) (.inl ⟨rfl, Disk.ne_nil_of_entryAt h⟩)

theorem readDat_entry (hok : d.Ok) (hb : db.dat.bytes = d.dat) (h : d.entryAt o = some e) (hoff : db.datoff = e.datoff)
    (hlen : db.datlen = e.datlen) :
    readDat db = .ok (e.data, { db with dat := ⟨d.dat, e.datoff + e.datlen⟩, datbuf := e.data }) := by
  obtain ⟨a, c, ha, hd, -⟩ := hok.dat_entry h
  rw [readDat_eq (hb.trans hd) (by rw [hoff, ha]) hlen e.data_nul, hb, ha]
  rfl

theorem writePtr_disk (hok : d.Ok) (hb : db.idx.bytes = d.idx) (hq : d.Has q) (hp : p ≤ PTR_MAX) :
    writePtr db (locOff q) p = .ok { db with idx := ⟨(d.setPtr q p hp).idx, locOff q + PTR_SZ⟩ } := by
  obtain ⟨a, b, c, ha, hlen, hd, hset⟩ := hok.idx_ptr hq hp
  rw [← ha, writePtr_eq hp (hb.trans hd) hlen, hset]

/-- A record is written over another one: the data record, and then the index record. -/
theorem writeDat_entry (e' : Entry) (hok : d.Ok) (hb : db.dat.bytes = d.dat) (h : d.entryAt o = some e) (hf : e'.Fits e)
    {data : List UInt8} (hdata : e'.data = data) : writeDat db data e.datoff .set = .ok { db with
      dat := ⟨(d.setEntry o e').dat, e.datoff + e.datlen⟩, datoff := e.datoff, datlen := e.datlen } := by
  obtain ⟨a, c, ha, hd, hset⟩ := hok.dat_entry h
  have hlen : e.slot.length = e'.data.length + 1 := by rw [Entry.slot_length, Entry.datlen, hf.data]
  rw [← ha, ← hdata, writeDat_set (hb.trans hd) hlen, hset, Entry.datlen, hf.data]
  rfl

theorem writeIdx_entry (e' : Entry) (hok : d.Ok) (hb : db.idx.bytes = d.idx) (h : d.entryAt o = some e) (hf : e'.Fits e)
    (hoff : db.datoff = e.datoff) (hlen : db.datlen = e.datlen) {key : List UInt8} (hkey : e'.key = key) {ptrval : ℤ}
    (hptr : e'.ptr = ptrval) : writeIdx db key o .set ptrval = .ok { db with
      idx := ⟨(d.setEntry o e').idx, o + e'.record.length⟩, idxoff := o, ptrval := e'.ptr, idxbuf := e'.text } := by
  obtain ⟨a, c, rfl, hd, hset⟩ := hok.idx_entry h
  rw [← hkey, ← hptr, writeIdx_set e' (hb.trans hd) hf.record_length.symm (by rw [hoff, hf.datoff])
    (by rw [hlen, Entry.datlen, Entry.datlen, hf.data]), hset]

end Library

end CppNotes.Db
