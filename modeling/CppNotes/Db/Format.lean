import CppNotes.Db.Defs

/-!
# The formats of the two files

An `Entry` is what an index record and its data record hold together; the bounds that the library checks when it reads a
record are part of it.  `Entry.record` and `Entry.slot` are its bytes in the index file and in the data file.  Each function
that reads or writes has one equation here, for a file of which the part at the offset is known.

The colon separates the key from the two numbers behind it.  `_db_writeidx` does not look for a colon in the key, but
`_db_readidx` ends the process when it meets one too many; so `_db_readidx` has two equations.
-/

namespace CppNotes.Db

open CppNotes.Lib

/-! ## Numbers -/

theorem atol_decimal {n : ℕ} (h : n < 2 ^ 63) : atol (decimal n) = n := by
  have hn := number_decimal 0 n
  rw [List.replicate_zero, List.nil_append] at hn
  rw [atol, hn]
  omega

theorem atol_padded {w n : ℕ} (h : n < 2 ^ 63) : atol (padded w n) = n := by
  rw [atol, padded, number_decimal]
  omega

/-! ## Strings -/

theorem strchr_append {s t : List UInt8} {c : UInt8} (h : c ∉ s) : strchr (s ++ c :: t) c = some (s, t) := by
  have hs : ∀ x ∈ s, decide (x ≠ c) = true := fun x hx => decide_eq_true fun hxc => h (hxc ▸ hx)
  unfold strchr
  rw [if_pos (by simp), List.takeWhile_append_of_pos hs, List.dropWhile_append_of_pos hs]
  simp

/-! ## Entries -/

structure Entry where
  ptr : ℕ
  key : List UInt8
  datoff : ℕ
  data : List UInt8
  ptr_le : ptr ≤ PTR_MAX
  key_nul : 0 ∉ key
  datoff_lt : datoff < 2 ^ 63
  data_nul : 0 ∉ data
  data_ge : DATLEN_MIN ≤ data.length + 1
  data_le : data.length + 1 ≤ DATLEN_MAX
  text_ge : IDXLEN_MIN ≤ (idxText key datoff (data.length + 1)).length
  text_le : (idxText key datoff (data.length + 1)).length ≤ IDXLEN_MAX

namespace Entry

def datlen (e : Entry) : ℕ := e.data.length + 1

def text (e : Entry) : List UInt8 := idxText e.key e.datoff e.datlen

/-- The bytes of the index record. -/
def record (e : Entry) : List UInt8 := padded PTR_SZ e.ptr ++ (padded IDXLEN_SZ e.text.length ++ e.text)

/-- The bytes of the data record. -/
def slot (e : Entry) : List UInt8 := e.data ++ [NEWLINE]

variable (e : Entry)

theorem ptr_length : (padded PTR_SZ e.ptr).length = PTR_SZ :=
  padded_length (by decide) (lt_of_le_of_lt e.ptr_le (by decide))

theorem len_length : (padded IDXLEN_SZ e.text.length).length = IDXLEN_SZ :=
  padded_length (by decide) (lt_of_le_of_lt e.text_le (by decide))

theorem record_length : e.record.length = PTR_SZ + IDXLEN_SZ + e.text.length := by
  rw [record, List.length_append, List.length_append, e.ptr_length, e.len_length, Nat.add_assoc]

theorem slot_length : e.slot.length = e.datlen := by simp [slot, datlen]

theorem slot_pos : 0 < e.slot.length := by simp [slot]

end Entry

/-- The structure after `_db_readidx` has read the entry at the offset. -/
def DB.loaded (db : DB) (o : ℕ) (e : Entry) : DB :=
  { db with
    idx := ⟨db.idx.bytes, o + e.record.length⟩
    idxoff := o
    ptrval := e.ptr
    idxlen := e.text.length
    idxbuf := e.key
    datoff := e.datoff
    datlen := e.datlen }

/-! ## Reading -/

theorem lseek_set (fd : Fd) (n : ℕ) (msg : String) : fd.lseek n .set msg = .ok ⟨fd.bytes, n⟩ := by
  have : ¬ (n : ℤ) < 0 := by omega
  simp [Fd.lseek, this]

theorem read_part (fd : Fd) {a s c : List UInt8} (hb : fd.bytes = a ++ s ++ c) (hp : fd.pos = a.length) :
    fd.read s.length = (s, ⟨fd.bytes, a.length + s.length⟩) := by
  have hd : (fd.bytes.drop fd.pos).take s.length = s := by
    rw [hb, hp, List.append_assoc, List.drop_left, List.take_left]
  rw [Fd.read, hd, hp]

section Read

variable {db : DB} {a c : List UInt8}

theorem readPtr_eq {p : ℕ} (hp : p ≤ PTR_MAX) (hb : db.idx.bytes = a ++ padded PTR_SZ p ++ c) :
    readPtr db a.length = .ok (p, { db with idx := ⟨db.idx.bytes, a.length + PTR_SZ⟩ }) := by
  have hlen : (padded PTR_SZ p).length = PTR_SZ := padded_length (by decide) (lt_of_le_of_lt hp (by decide))
  have hread := read_part ⟨db.idx.bytes, a.length⟩ hb rfl
  rw [hlen] at hread
  simp only [readPtr, lseek_set, ok_bind, hread, hlen]
  rw [if_neg (by simp), atol_padded (lt_of_le_of_lt hp (by decide))]

theorem cstring_text (e : Entry) :
    cstring e.text.dropLast = e.key ++ SEP :: (decimal e.datoff ++ SEP :: decimal e.datlen) := by
  have hnul : ∀ n, (0 : UInt8) ∉ decimal n := not_mem_decimal (by decide)
  have htext : e.text = (e.key ++ SEP :: (decimal e.datoff ++ SEP :: decimal e.datlen)) ++ [NEWLINE] := by
    simp [Entry.text, idxText]
  rw [htext, List.dropLast_concat]
  refine cstring_of_nul_not_mem ?_
  simp [e.key_nul, hnul, SEP]

theorem parseIdx_eq (e : Entry) (hkey : SEP ∉ e.key) :
    parseIdx db e.text = .ok (db.ptrval, { db with idxbuf := e.key, datoff := e.datoff, datlen := e.datlen }) := by
  have hsep : ∀ n, SEP ∉ decimal n := not_mem_decimal (by decide)
  have hlast : e.text.getLast? = some NEWLINE := by simp [Entry.text, idxText, List.getLast?_cons]
  have hlen : e.datlen < 2 ^ 63 := lt_of_le_of_lt e.data_le (by decide)
  have hle : (e.datlen : ℤ) ≤ DATLEN_MAX := by exact_mod_cast e.data_le
  have hpos : 0 < e.datlen := by simp [Entry.datlen]
  unfold parseIdx
  rw [if_neg (by simp [hlast]), cstring_text e, strchr_append hkey]
  simp only [strchr_append (hsep e.datoff), atol_decimal e.datoff_lt, atol_decimal hlen]
  rw [if_neg (hsep _), if_neg (by omega), if_neg (by omega), Int.toNat_natCast]

/-- The separators of the key come before the two others. -/
theorem parseIdx_colon (e : Entry) (hkey : SEP ∈ e.key) :
    parseIdx db e.text = .error (.dump "_db_readidx: too many separators") := by
  have hlast : e.text.getLast? = some NEWLINE := by simp [Entry.text, idxText, List.getLast?_cons]
  obtain ⟨k₁, k₂, hk, hk₁⟩ := List.eq_append_cons_of_mem hkey
  have htext := cstring_text e
  rw [hk, List.append_assoc, List.cons_append] at htext
  unfold parseIdx
  rw [if_neg (by simp [hlast]), htext, strchr_append hk₁]
  -- the second separator is another one of the key, or the one behind it; the last one is still there
  obtain ⟨p, q, hpq, hq⟩ : ∃ p q, strchr (k₂ ++ SEP :: (decimal e.datoff ++ SEP :: decimal e.datlen)) SEP = some (p, q) ∧
      SEP ∈ q := by
    by_cases hk₂ : SEP ∈ k₂
    · obtain ⟨k₃, k₄, rfl, hk₃⟩ := List.eq_append_cons_of_mem hk₂
      exact ⟨k₃, k₄ ++ SEP :: (decimal e.datoff ++ SEP :: decimal e.datlen), by simp [strchr_append hk₃], by simp⟩
    · exact ⟨k₂, decimal e.datoff ++ SEP :: decimal e.datlen, strchr_append hk₂, by simp⟩
  simp only [hpq, if_pos hq]

/-- The two calls of `read` of `_db_readidx`, at the offset or, for the offset 0, at the current one. -/
theorem readIdx_text {p : ℕ} {text : List UInt8} {offset : ℤ} (hp : p ≤ PTR_MAX) (hge : IDXLEN_MIN ≤ text.length)
    (hle : text.length ≤ IDXLEN_MAX)
    (hb : db.idx.bytes = a ++ (padded PTR_SZ p ++ (padded IDXLEN_SZ text.length ++ text)) ++ c)
    (ho : (offset = a.length ∧ a ≠ []) ∨ (offset = 0 ∧ db.idx.pos = a.length)) :
    readIdx db offset = parseIdx { db with
      idx := ⟨db.idx.bytes, a.length + (PTR_SZ + IDXLEN_SZ + text.length)⟩, idxoff := a.length, ptrval := p
      idxlen := text.length } text := by
  have hseek : db.idx.lseek offset (if offset = 0 then .cur else .set) "_db_readidx: lseek error" =
      .ok ⟨db.idx.bytes, a.length⟩ := by
    rcases ho with ⟨rfl, ha⟩ | ⟨rfl, hpos⟩
    · have : ¬ (a.length : ℤ) = 0 := by simpa using ha
      rw [if_neg this, lseek_set]
    · simp [Fd.lseek, hpos]
  have hplen : (padded PTR_SZ p).length = PTR_SZ := padded_length (by decide) (lt_of_le_of_lt hp (by decide))
  have htlen : (padded IDXLEN_SZ text.length).length = IDXLEN_SZ :=
    padded_length (by decide) (lt_of_le_of_lt hle (by decide))
  have hfront : (padded PTR_SZ p ++ padded IDXLEN_SZ text.length).length = PTR_SZ + IDXLEN_SZ := by
    rw [List.length_append, hplen, htlen]
  have hread : (⟨db.idx.bytes, a.length⟩ : Fd).read (PTR_SZ + IDXLEN_SZ) =
      (padded PTR_SZ p ++ padded IDXLEN_SZ text.length, ⟨db.idx.bytes, a.length + (PTR_SZ + IDXLEN_SZ)⟩) := by
    rw [← hfront]
    refine read_part _ (a := a) (c := text ++ c) ?_ rfl
    simp [hb]
  have hread' : (⟨db.idx.bytes, a.length + (PTR_SZ + IDXLEN_SZ)⟩ : Fd).read text.length =
      (text, ⟨db.idx.bytes, a.length + (PTR_SZ + IDXLEN_SZ + text.length)⟩) := by
    have := read_part ⟨db.idx.bytes, a.length + (PTR_SZ + IDXLEN_SZ)⟩
      (a := a ++ (padded PTR_SZ p ++ padded IDXLEN_SZ text.length)) (s := text) (c := c)
      (by simp [hb]) (by rw [List.length_append, hfront])
    rw [this, List.length_append, hfront, Nat.add_assoc]
  have hptr : atol ((padded PTR_SZ p ++ padded IDXLEN_SZ text.length).take PTR_SZ) = p := by
    rw [List.take_left' hplen, atol_padded (lt_of_le_of_lt hp (by decide))]
  have hlen : atol ((padded PTR_SZ p ++ padded IDXLEN_SZ text.length).drop PTR_SZ) = text.length := by
    rw [List.drop_left' hplen, atol_padded (lt_of_le_of_lt hle (by decide))]
  have hbounds : ¬ ((text.length : ℤ) < IDXLEN_MIN ∨ (text.length : ℤ) > IDXLEN_MAX) := by omega
  simp only [readIdx, hseek, ok_bind, hread, hfront, ne_eq, not_true_eq_false, if_false, hlen, hbounds, Int.toNat_natCast,
    hread', hptr]

/-- **Reading an index record.** -/
theorem readIdx_eq (e : Entry) (hkey : SEP ∉ e.key) {offset : ℤ} (hb : db.idx.bytes = a ++ e.record ++ c)
    (ho : (offset = a.length ∧ a ≠ []) ∨ (offset = 0 ∧ db.idx.pos = a.length)) :
    readIdx db offset = .ok (e.ptr, db.loaded a.length e) := by
  have hge : IDXLEN_MIN ≤ e.text.length := e.text_ge
  have hle : e.text.length ≤ IDXLEN_MAX := e.text_le
  rw [readIdx_text e.ptr_le hge hle hb ho, parseIdx_eq e hkey, DB.loaded, e.record_length]

theorem readIdx_colon (e : Entry) (hkey : SEP ∈ e.key) {offset : ℤ} (hb : db.idx.bytes = a ++ e.record ++ c)
    (ho : (offset = a.length ∧ a ≠ []) ∨ (offset = 0 ∧ db.idx.pos = a.length)) :
    readIdx db offset = .error (.dump "_db_readidx: too many separators") := by
  have hge : IDXLEN_MIN ≤ e.text.length := e.text_ge
  have hle : e.text.length ≤ IDXLEN_MAX := e.text_le
  rw [readIdx_text e.ptr_le hge hle hb ho, parseIdx_colon e hkey]

/-- At the end of the file. -/
theorem readIdx_eof (hpos : db.idx.pos = db.idx.bytes.length) :
    readIdx db 0 = .ok (-1, { db with idxoff := db.idx.bytes.length }) := by
  have h0 : ¬ (db.idx.bytes.length : ℤ) < 0 := by omega
  have hidx : (⟨db.idx.bytes, db.idx.bytes.length⟩ : Fd) = db.idx := by rw [← hpos]
  simp [readIdx, Fd.lseek, hpos, h0, Fd.read, PTR_SZ, IDXLEN_SZ, hidx]

theorem readDat_eq {d : List UInt8} (hb : db.dat.bytes = a ++ (d ++ [NEWLINE]) ++ c) (hoff : db.datoff = a.length)
    (hlen : db.datlen = d.length + 1) (hd : 0 ∉ d) :
    readDat db = .ok (d, { db with dat := ⟨db.dat.bytes, a.length + (d.length + 1)⟩, datbuf := d }) := by
  have hread := read_part ⟨db.dat.bytes, a.length⟩ hb rfl
  rw [List.length_append, List.length_singleton, ← hlen] at hread
  simp only [readDat, hoff, lseek_set, ok_bind, hread]
  rw [if_neg (by simp [hlen]), if_neg (by simp), List.dropLast_concat, cstring_of_nul_not_mem hd, hlen]

end Read

/-! ## Writing -/

section Write

variable {db : DB} {a b c : List UInt8}

theorem write_part (fd : Fd) {s : List UInt8} (hb : fd.bytes = a ++ b ++ c) (hp : fd.pos = a.length)
    (hs : s.length = b.length) : fd.write s = ⟨a ++ s ++ c, a.length + s.length⟩ := by
  rw [Fd.write, hb, hp, splice_mid 0 a c hs]

theorem writePtr_eq {p : ℕ} (hp : p ≤ PTR_MAX) (hb : db.idx.bytes = a ++ b ++ c) (hlen : b.length = PTR_SZ) :
    writePtr db a.length p = .ok { db with idx := ⟨a ++ padded PTR_SZ p ++ c, a.length + PTR_SZ⟩ } := by
  have hpl : (padded PTR_SZ p).length = PTR_SZ := padded_length (by decide) (lt_of_le_of_lt hp (by decide))
  have hw := write_part ⟨db.idx.bytes, a.length⟩ hb rfl (hpl.trans hlen.symm)
  unfold writePtr
  rw [if_neg (by omega)]
  simp only [lseek_set, ok_bind, Int.toNat_natCast, hw, hpl]

theorem writeDat_set {d : List UInt8} (hb : db.dat.bytes = a ++ b ++ c) (hlen : b.length = d.length + 1) :
    writeDat db d a.length .set = .ok { db with
      dat := ⟨a ++ (d ++ [NEWLINE]) ++ c, a.length + (d.length + 1)⟩, datoff := a.length, datlen := d.length + 1 } := by
  have hw := write_part ⟨db.dat.bytes, a.length⟩ (s := d ++ [NEWLINE]) hb rfl (by simp [hlen])
  rw [List.length_append, List.length_singleton] at hw
  simp [writeDat, lseek_set, hw]

theorem writeDat_fin (d : List UInt8) : writeDat db d 0 .fin = .ok { db with
    dat := ⟨db.dat.bytes ++ (d ++ [NEWLINE]), db.dat.bytes.length + (d.length + 1)⟩, datoff := db.dat.bytes.length
    datlen := d.length + 1, locks := db.locks ++ [⟨.writew, .datfd, 0, 0⟩, ⟨.un, .datfd, 0, 0⟩] } := by
  have h0 : ¬ (db.dat.bytes.length : ℤ) < 0 := by omega
  simp [writeDat, Fd.lseek, DB.lock, h0, Fd.write, splice_end]

/-- The checks of `_db_writeidx` pass, and what it writes is the record. -/
theorem writeIdx_set (e : Entry) (hb : db.idx.bytes = a ++ b ++ c) (hlen : b.length = e.record.length)
    (hoff : db.datoff = e.datoff) (hdlen : db.datlen = e.datlen) :
    writeIdx db e.key a.length .set e.ptr = .ok { db with
      idx := ⟨a ++ e.record ++ c, a.length + e.record.length⟩, idxoff := a.length, ptrval := e.ptr, idxbuf := e.text } := by
  have hw := write_part ⟨db.idx.bytes, a.length⟩ hb rfl hlen.symm
  have hrec : padded PTR_SZ e.ptr ++ padded IDXLEN_SZ e.text.length ++ e.text = e.record := by simp [Entry.record]
  have htext : idxText e.key db.datoff.toNat db.datlen = e.text := by rw [hoff, hdlen]; rfl
  have hptr := e.ptr_le
  have hge : ¬ (e.text.length < IDXLEN_MIN ∨ e.text.length > IDXLEN_MAX) := by
    have h₁ : IDXLEN_MIN ≤ e.text.length := e.text_ge
    have h₂ : e.text.length ≤ IDXLEN_MAX := e.text_le
    omega
  unfold writeIdx
  rw [if_neg (by omega)]
  simp only [htext, if_neg hge, reduceCtorEq, if_false, lseek_set, ok_bind, Int.toNat_natCast, hrec, hw]

theorem writeIdx_fin (e : Entry) (hoff : db.datoff = e.datoff) (hdlen : db.datlen = e.datlen) :
    writeIdx db e.key 0 .fin e.ptr = .ok { db with
      idx := ⟨db.idx.bytes ++ e.record, db.idx.bytes.length + e.record.length⟩, idxoff := db.idx.bytes.length,
      ptrval := e.ptr, idxbuf := e.text
      locks := db.locks ++ [⟨.writew, .idxfd, db.recoff, 0⟩, ⟨.un, .idxfd, db.recoff, 0⟩] } := by
  have hrec : padded PTR_SZ e.ptr ++ padded IDXLEN_SZ e.text.length ++ e.text = e.record := by simp [Entry.record]
  have htext : idxText e.key db.datoff.toNat db.datlen = e.text := by rw [hoff, hdlen]; rfl
  have hptr := e.ptr_le
  have hge : ¬ (e.text.length < IDXLEN_MIN ∨ e.text.length > IDXLEN_MAX) := by
    have h₁ : IDXLEN_MIN ≤ e.text.length := e.text_ge
    have h₂ : e.text.length ≤ IDXLEN_MAX := e.text_le
    omega
  have h0 : ¬ (db.idx.bytes.length : ℤ) < 0 := by omega
  unfold writeIdx
  rw [if_neg (by omega)]
  simp only [htext, if_neg hge, Fd.lseek, Int.add_zero, DB.lock, if_true, if_neg h0, ok_bind, Int.toNat_natCast, hrec,
    Fd.write, splice_end, DB.recoff, List.append_assoc]
  rfl

end Write

end CppNotes.Db
