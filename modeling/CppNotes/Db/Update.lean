import CppNotes.Db.Search

/-!
# Changing the chains

What the functions that write do to the disk, as a whole: `_db_dodelete` moves a record to the free list and blanks it,
`_db_findfree` and the writes behind it move a free record to a chain, an append puts a new record on a chain, and a data
record of the same length is written over.  The pointers are not written in the same order each time; all that counts is
which three (or two) they are.
-/

namespace CppNotes.Db

open CppNotes.Lib

theorem idxText_length_congr {key key' : List UInt8} {datoff n n' : ℕ} (hk : key'.length = key.length) (hn : n' = n) :
    (idxText key' datoff n').length = (idxText key datoff n).length := by
  simp only [idxText, List.length_append, List.length_cons, hk, hn]

section Sound

variable {d : Disk} {ch : ℕ → List ℕ} (h : d.Sound ch) {i o : ℕ} {l₁ l₂ : List ℕ}

include h

theorem Disk.Sound.has_before (hi : i < NHASH_DEF + 1) (hch : ch i = l₁ ++ o :: l₂) :
    d.Has (before Loc.node (.slot i) l₁) := by
  have hon := onList_before hch
  generalize before Loc.node (.slot i) l₁ = b at hon
  cases b with
  | slot j =>
    obtain rfl := onList_slot.mp hon
    exact hi
  | node x => exact Option.isSome_iff_exists.mpr (h.exists_entry hi (onList_node.mp hon))

/-- A record on a list has an offset that a pointer can hold. -/
theorem Disk.Sound.le_ptr_max (hi : i < NHASH_DEF + 1) (hch : ch i = l₁ ++ o :: l₂) : o ≤ PTR_MAX := by
  have hl := h.threaded.linked i hi
  rw [hch] at hl
  rw [← ptr_of_link hl.rest.1]
  exact h.ok.ptr_le _

end Sound

/-! ## Deleting -/

namespace Entry

/-- The entry after it was deleted, with the pointer to the next free one. -/
def blank (e : Entry) (p : ℕ) (hp : p ≤ PTR_MAX) : Entry where
  ptr := p
  key := List.replicate e.key.length SPACE
  datoff := e.datoff
  data := List.replicate e.data.length SPACE
  ptr_le := hp
  key_nul := fun h => absurd (List.eq_of_mem_replicate h) (by decide)
  datoff_lt := e.datoff_lt
  data_nul := fun h => absurd (List.eq_of_mem_replicate h) (by decide)
  data_ge := e.data_ge.trans_eq (congrArg (· + 1) List.length_replicate.symm)
  data_le := (congrArg (· + 1) List.length_replicate).trans_le e.data_le
  text_ge := e.text_ge.trans_eq (idxText_length_congr List.length_replicate (congrArg (· + 1) List.length_replicate)).symm
  text_le := (idxText_length_congr List.length_replicate (congrArg (· + 1) List.length_replicate)).trans_le e.text_le

theorem blank_fits (e : Entry) {p : ℕ} (hp : p ≤ PTR_MAX) : (e.blank p hp).Fits e :=
  ⟨List.length_replicate, rfl, List.length_replicate⟩

theorem blank_key (e : Entry) {p : ℕ} (hp : p ≤ PTR_MAX) : (e.blank p hp).key = List.replicate e.key.length SPACE := rfl

theorem blank_data (e : Entry) {p : ℕ} (hp : p ≤ PTR_MAX) : (e.blank p hp).data = List.replicate (e.datlen - 1) SPACE := rfl

theorem blank_ptr (e : Entry) {p : ℕ} (hp : p ≤ PTR_MAX) : ((e.blank p hp).ptr : ℤ) = p := rfl

end Entry

/-- The disk after the entry at `o` was deleted, to which the pointer at `b` led. -/
def Disk.release (d : Disk) (hok : d.Ok) (o : ℕ) (e : Entry) (b : Loc ℕ) (ho : o ≤ PTR_MAX) : Disk :=
  ((d.setEntry o (e.blank (d.ptr (.slot 0)) (hok.ptr_le _))).setPtr (.slot 0) o ho).setPtr b e.ptr e.ptr_le

section Release

variable {d : Disk} (hok : d.Ok) {o : ℕ} {e : Entry} {b : Loc ℕ} (ho : o ≤ PTR_MAX) (he : d.entryAt o = some e)
  (hb : d.Has b)

include he hb

omit ho hb in
/-- The free list pointer is there after the record was blanked. -/
theorem release_stage : (d.setEntry o (e.blank (d.ptr (.slot 0)) (hok.ptr_le _))).Ok ∧
    (d.setEntry o (e.blank (d.ptr (.slot 0)) (hok.ptr_le _))).Has (.slot 0) :=
  ⟨hok.setEntry he (e.blank_fits _), Nat.succ_pos _⟩

theorem release_stage₂ :
    ((d.setEntry o (e.blank (d.ptr (.slot 0)) (hok.ptr_le _))).setPtr (.slot 0) o ho).Ok ∧
      ((d.setEntry o (e.blank (d.ptr (.slot 0)) (hok.ptr_le _))).setPtr (.slot 0) o ho).Has b := by
  obtain ⟨h₁, h₂⟩ := release_stage hok he
  refine ⟨h₁.setPtr h₂ ho, Disk.has_congr ?_ hb⟩
  rw [Disk.offsets_setPtr h₂ ho, Disk.offsets_setEntry he (e.blank_fits _)]

theorem release_ok : (d.release hok o e b ho).Ok :=
  (release_stage₂ hok ho he hb).1.setPtr (release_stage₂ hok ho he hb).2 e.ptr_le

theorem cell_release : (d.release hok o e b ho).cell = Function.update (Function.update (Function.update d.cell (.node o)
    (d.cell (.slot 0))) (.slot 0) (some o)) b (d.cell (.node o)) := by
  obtain ⟨h₁, h₂⟩ := release_stage hok he
  obtain ⟨h₃, h₄⟩ := release_stage₂ hok ho he hb
  rw [Disk.release, Disk.cell_setPtr h₃ h₄, Disk.cell_setPtr h₁ h₂, Disk.cell_setEntry he (e.blank_fits _),
    link_of_ne (Disk.ne_zero_of_entryAt he), ← Disk.ptr_node he]
  rfl

theorem content_release : (d.release hok o e b ho).content =
    Function.update d.content o (some (List.replicate e.key.length SPACE, List.replicate e.data.length SPACE)) := by
  rw [Disk.release, Disk.content_setPtr (release_stage₂ hok ho he hb).2, Disk.content_setPtr (release_stage hok he).2,
    Disk.content_setEntry he (e.blank_fits _)]
  rfl

theorem offsets_release : (d.release hok o e b ho).offsets = d.offsets := by
  rw [Disk.release, Disk.offsets_setPtr (release_stage₂ hok ho he hb).2, Disk.offsets_setPtr (release_stage hok he).2,
    Disk.offsets_setEntry he (e.blank_fits _)]

theorem lengths_release : (d.release hok o e b ho).idx.length = d.idx.length ∧
    (d.release hok o e b ho).dat.length = d.dat.length := by
  obtain ⟨h₁, h₂⟩ := release_stage hok he
  obtain ⟨h₃, h₄⟩ := release_stage₂ hok ho he hb
  constructor
  · rw [Disk.release, Disk.idx_length_setPtr h₃ h₄, Disk.idx_length_setPtr h₁ h₂,
      Disk.idx_length_setEntry hok he (e.blank_fits _)]
  · rw [Disk.release, Disk.dat_setPtr h₃ h₄, Disk.dat_setPtr h₁ h₂, Disk.dat_length_setEntry hok he (e.blank_fits _)]

/-- **`_db_dodelete`** on the disk. -/
theorem doDelete_eq (db : DB) (hidx : db.idx.bytes = d.idx) (hdat : db.dat.bytes = d.dat) (hidxoff : db.idxoff = o)
    (hidxbuf : db.idxbuf = e.key) (hdatoff : db.datoff = e.datoff) (hdatlen : db.datlen = e.datlen)
    (hptrval : db.ptrval = e.ptr) (hptroff : db.ptroff = locOff b) :
    doDelete db = .ok { db with
      idx := ⟨(d.release hok o e b ho).idx, locOff b + PTR_SZ⟩
      dat := ⟨(d.release hok o e b ho).dat, e.datoff + e.datlen⟩
      idxbuf := (e.blank (d.ptr (.slot 0)) (hok.ptr_le _)).text
      datbuf := List.replicate e.data.length SPACE
      ptrval := d.ptr (.slot 0)
      locks := db.locks ++ [⟨.writew, .idxfd, FREE_OFF, 1⟩, ⟨.un, .idxfd, FREE_OFF, 1⟩] } := by
  obtain ⟨h₁, h₂⟩ := release_stage hok he
  obtain ⟨h₃, h₄⟩ := release_stage₂ hok ho he hb
  have hfree : FREE_OFF = ((0 * PTR_SZ : ℕ) : ℤ) := rfl
  have hfree' : ((0 * PTR_SZ : ℕ) : ℤ) = (locOff (.slot 0) : ℤ) := rfl
  have hdat' : (d.release hok o e b ho).dat = (d.setEntry o (e.blank (d.ptr (.slot 0)) (hok.ptr_le _))).dat := by
    rw [Disk.release, Disk.dat_setPtr h₃ h₄, Disk.dat_setPtr h₁ h₂]
  simp only [doDelete, DB.lock, hdatlen, hdatoff, hidxbuf, hidxoff, hptrval, hptroff]
  rw [writeDat_entry _ _ hok ?_ he (e.blank_fits (hok.ptr_le (.slot 0))) (e.blank_data _), ok_bind]
  · simp only [hfree]
    rw [readPtr_slot _ hok ?_ (Nat.succ_pos _), ok_bind]
    · simp only
      rw [writeIdx_entry _ _ hok rfl he (e.blank_fits (hok.ptr_le (.slot 0))) rfl rfl (e.blank_key _) (e.blank_ptr _), ok_bind]
      simp only [hfree']
      rw [writePtr_disk _ h₁ rfl h₂ ho, ok_bind]
      simp only
      rw [writePtr_disk _ h₃ rfl h₄ e.ptr_le, ok_bind, hdat']
      simp only [List.append_assoc]
      rfl
    · exact hidx
  · exact hdat

end Release

section Stores

variable {db : DB} {d : Disk} {ch : ℕ → List ℕ} {m : List UInt8 → Option (List UInt8)} {key : List UInt8} {o : ℕ}
  {l₁ l₂ : List ℕ} {e : Entry}

/-- What the writes of a call leave alone. -/
structure DB.Keeps (db' db : DB) : Prop where
  nhash : db'.nhash = db.nhash
  hashoff : db'.hashoff = db.hashoff
  chainoff : db'.chainoff = db.chainoff
  cnt : db'.cnt = db.cnt
  errno : db'.errno = db.errno

/-- **The record of the key is deleted.** -/
theorem DB.Stores.doDelete (h : db.Stores d ch m) (hclear : Clear m (home key)) (w : Bool) (hch : ch (home key) = l₁ ++ o :: l₂)
    (he : d.entryAt o = some e) (hkey : e.key = key) :
    ∃ db' d' ch', doDelete (db.foundAt key w l₁ o e) = .ok db' ∧ db'.Stores d' ch' (Function.update m key none) ∧
      db'.Keeps (db.onChain key w) ∧ d'.idx.length = d.idx.length ∧ d'.dat.length = d.dat.length ∧
      ∃ k v, o ∈ ch' 0 ∧ d'.content o = some (k, v) ∧ k.length = key.length ∧ v.length = e.data.length := by
  have hs := h.sound
  have hhome := home_lt key
  have hb := hs.has_before hhome hch
  have ho := hs.le_ptr_max hhome hch
  have hne : home key ≠ 0 := (home_pos key).ne'
  have hbo := hs.threaded.before_ne_node hhome hch
  have hb0 := hs.threaded.before_ne_slot hhome (Nat.succ_pos _) hne hch
  have hcontent := content_release hs.ok ho he hb
  have hlen := lengths_release hs.ok ho he hb
  refine ⟨_, d.release hs.ok o e (before Loc.node (.slot (home key)) l₁) ho, moved ch (home key) 0 o (l₁ ++ l₂),
    doDelete_eq hs.ok ho he hb _ h.idx h.dat rfl rfl rfl rfl rfl rfl, ⟨rfl, rfl, h.nhash, h.hashoff, ?_, ?_, ?_⟩,
    ⟨rfl, rfl, rfl, rfl, rfl⟩, hlen.1, hlen.2, _, _, ?_, by rw [hcontent, Function.update_self], ?_, List.length_replicate⟩
  · refine ⟨release_ok hs.ok ho he hb, ?_⟩
    rw [hcontent, offsets_release hs.ok ho he hb]
    refine hs.threaded.move hhome (Nat.succ_pos _) hne hch ?_ ?_ ?_ ?_ fun q hqb hqo hq0 => ?_
    · exact fun c hc => List.eq_of_mem_replicate hc
    all_goals rw [cell_release hs.ok ho he hb]
    · rw [Function.update_self]
    · rw [Function.update_of_ne hbo.symm, Function.update_of_ne (by simp), Function.update_self]
    · rw [Function.update_of_ne hb0.symm, Function.update_self]
    · rw [Function.update_of_ne hqb, Function.update_of_ne hq0, Function.update_of_ne hqo]
  · have hold : d.content o = some (key, e.data) := by rw [Disk.content_eq he, hkey]
    rw [hcontent]
    exact h.holds.remove home_lt (hs.threaded.placed_moved hhome hne hch) (fun k => (home_pos k).ne') (by simp [hch]) hold _
  · rw [hcontent]
    refine h.readable_update ?_ fun k hk => ⟨moved_of_ne hk (home_pos k).ne', hs.not_mem_chain hhome (by simp [hch]) hk⟩
    rw [moved_src hne]
    refine .inl (AllOn.update (fun x hx => (h.allOn_iff key).mpr hclear x ?_) ?_)
    · rw [hch]
      exact (List.sublist_cons_self o l₂).append_left l₁ |>.mem hx
    · exact fun hsep => absurd (List.eq_of_mem_replicate hsep) (by decide)
  · rw [moved_dst]
    exact List.mem_cons_self
  · rw [List.length_replicate, hkey]

end Stores

/-! ## Adding -/

/-- The strings that can be stored as keys. -/
structure KeyFits (key : List UInt8) : Prop where
  nul : 0 ∉ key
  nonblank : ¬ Blank key
  length_le : key.length + 16 ≤ IDXLEN_MAX

/-- Those that can also be found again. -/
structure KeyOk (key : List UInt8) : Prop extends KeyFits key where
  sep : SEP ∉ key

/-- The strings that can be stored as data. -/
structure DataOk (data : List UInt8) : Prop where
  nul : 0 ∉ data
  length_ge : DATLEN_MIN ≤ data.length + 1
  length_le : data.length + 1 ≤ DATLEN_MAX

theorem KeyFits.length_pos {key : List UInt8} (h : KeyFits key) : 0 < key.length := by
  refine List.length_pos_iff.mpr fun hk => h.nonblank ?_
  rw [hk]
  exact fun c hc => absurd hc List.not_mem_nil

/-- The index file is long before the data file is: an index record has 17 bytes, a data record at most 1024. -/
theorem Disk.dat_length_le (d : Disk) : 17 * d.dat.length ≤ 1024 * (d.entries.flatMap Entry.record).length := by
  rw [dat]
  induction d.entries with
  | nil => simp
  | cons e es ih =>
    have h₁ : 17 ≤ e.record.length := by
      rw [e.record_length]
      exact Nat.add_le_add_left (show 6 ≤ e.text.length from e.text_ge) 11
    have h₂ : e.slot.length ≤ 1024 := e.slot_length.trans_le e.data_le
    simp only [List.flatMap_cons, List.length_append]
    omega

/-- So an offset of the data file has at most 9 digits. -/
theorem Disk.Ok.dat_length_lt {d : Disk} (hok : d.Ok) (hlen : d.idx.length ≤ PTR_MAX) : d.dat.length < 10 ^ 9 := by
  have h₁ := d.dat_length_le
  have h₂ : RECOFF + (d.entries.flatMap Entry.record).length ≤ PTR_MAX := hok.idx_length ▸ hlen
  have h₃ : RECOFF + (d.entries.flatMap Entry.record).length ≤ 9999999 := h₂
  omega

section Entries

variable {key data : List UInt8} {p datoff : ℕ}

/-- The text of the index record has a length that is allowed. -/
theorem idxText_bounds (hpos : 0 < key.length) (hle : key.length + 16 ≤ IDXLEN_MAX) (hd : DataOk data)
    (hoff : datoff < 10 ^ 9) : IDXLEN_MIN ≤ (idxText key datoff (data.length + 1)).length ∧
      (idxText key datoff (data.length + 1)).length ≤ IDXLEN_MAX := by
  have h₃ := decimal_length_pos datoff
  have h₄ := decimal_length_le (by decide) hoff
  have h₅ := decimal_length_pos (data.length + 1)
  have h₆ : (decimal (data.length + 1)).length ≤ 4 :=
    decimal_length_le (by decide) (lt_of_le_of_lt hd.length_le (by decide))
  have hlen : (idxText key datoff (data.length + 1)).length =
      key.length + ((decimal datoff).length + ((decimal (data.length + 1)).length + 1 + 1) + 1) := by
    simp [idxText]
  rw [hlen]
  simp only [IDXLEN_MIN]
  omega

/-- A new record at the end of the files. -/
theorem exists_entry_fresh (hk : KeyFits key) (hd : DataOk data) (hp : p ≤ PTR_MAX) (hoff : datoff < 10 ^ 9) :
    ∃ e : Entry, e.ptr = p ∧ e.key = key ∧ e.datoff = datoff ∧ e.data = data := by
  obtain ⟨hge, hle⟩ := idxText_bounds hk.length_pos hk.length_le hd hoff
  exact ⟨⟨p, key, datoff, data, hp, hk.nul, by omega, hd.nul, hd.length_ge, hd.length_le, hge, hle⟩,
    rfl, rfl, rfl, rfl⟩

/-- A new record in the place of one of the same lengths. -/
theorem exists_entry_fits (e : Entry) (hk : KeyFits key) (hd : DataOk data) (hp : p ≤ PTR_MAX)
    (hkl : e.key.length = key.length) (hdl : e.datlen = data.length + 1) :
    ∃ e' : Entry, e'.ptr = p ∧ e'.key = key ∧ e'.data = data ∧ e'.Fits e := by
  have hlen : (idxText key e.datoff (data.length + 1)).length = (idxText e.key e.datoff (e.data.length + 1)).length :=
    idxText_length_congr hkl.symm hdl.symm
  exact ⟨⟨p, key, e.datoff, data, hp, hk.nul, e.datoff_lt, hd.nul, hd.length_ge, hd.length_le,
    hlen.symm ▸ e.text_ge, hlen.symm ▸ e.text_le⟩, rfl, rfl, rfl, hkl.symm, rfl, by
      have : e.data.length + 1 = data.length + 1 := hdl
      simp only
      omega⟩

end Entries

section Append

variable {d : Disk} {i : ℕ} {e : Entry}

theorem Disk.idx_append : (d.append e).idx = d.idx ++ e.record := by simp [idx, append]

theorem Disk.dat_append : (d.append e).dat = d.dat ++ e.slot := by simp [dat, append]

/-- The writes of a new record at the ends of the files. -/
theorem append_eq (hok : d.Ok) (hoff : e.datoff = d.dat.length) (hlen : d.idx.length ≤ PTR_MAX) (db : DB)
    (hidx : db.idx.bytes = d.idx) (hdat : db.dat.bytes = d.dat) (hi : i < NHASH_DEF + 1)
    (hchain : db.chainoff = (i * PTR_SZ : ℕ)) : append db e.key e.data e.ptr = .ok { db with
      idx := ⟨((d.append e).setPtr (.slot i) d.idx.length hlen).idx, i * PTR_SZ + PTR_SZ⟩
      dat := ⟨((d.append e).setPtr (.slot i) d.idx.length hlen).dat, d.dat.length + e.datlen⟩
      idxbuf := e.text
      idxoff := d.idx.length
      datoff := e.datoff
      datlen := e.datlen
      ptrval := e.ptr
      locks := db.locks ++ [⟨.writew, .datfd, 0, 0⟩, ⟨.un, .datfd, 0, 0⟩] ++
        [⟨.writew, .idxfd, db.recoff, 0⟩, ⟨.un, .idxfd, db.recoff, 0⟩] } := by
  have hslot : (d.append e).Has (.slot i) := hi
  have hloc : ((i * PTR_SZ : ℕ) : ℤ) = locOff (.slot i) := rfl
  have hdat' : d.dat ++ (e.data ++ [NEWLINE]) = (d.append e).dat := Disk.dat_append.symm
  simp only [append]
  rw [writeDat_fin, ok_bind, writeIdx_fin e (by rw [hoff, hdat]) rfl, ok_bind]
  simp only [hchain, hloc, hidx, hdat, hdat', ← Disk.idx_append]
  rw [writePtr_disk _ (hok.append hoff) rfl hslot hlen, Disk.dat_setPtr (hok.append hoff) hslot hlen, hoff]
  rfl

end Append

section Stores

variable {db : DB} {d : Disk} {ch : ℕ → List ℕ} {m : List UInt8 → Option (List UInt8)} {key data : List UInt8} {o : ℕ}
  {l₁ l₂ : List ℕ} {e : Entry}

/-- **A record is added** at the ends of the files. -/
theorem DB.Stores.append (h : db.Stores d ch m) (hclear : Clear m (home key)) (hnone : m key = none) (hk : KeyFits key)
    (hd : DataOk data) (hlen : d.idx.length ≤ PTR_MAX) (hchain : db.chainoff = (home key * PTR_SZ : ℕ)) :
    ∃ db' d' ch', append db key data (d.ptr (.slot (home key))) = .ok db' ∧
      db'.Stores d' ch' (Function.update m key (some data)) ∧ db'.Keeps db ∧
      d'.idx.length = d.idx.length + (PTR_SZ + IDXLEN_SZ + (idxText key d.dat.length (data.length + 1)).length) ∧
      d'.dat.length = d.dat.length + (data.length + 1) := by
  have hs := h.sound
  have hhome := home_lt key
  have hoff := hs.ok.dat_length_lt hlen
  obtain ⟨e, hep, hek, heo, hed⟩ := exists_entry_fresh hk hd (hs.ok.ptr_le (.slot (home key))) hoff
  have hok' := hs.ok.append heo
  have hslot : (d.append e).Has (.slot (home key)) := hhome
  have hnew := Disk.not_mem_offsets_length hs.ok
  have hout (k : List UInt8) : d.idx.length ∉ ch (home k) := fun hmem =>
    hnew ((hs.threaded.mem _).mpr ⟨home k, home_lt k, hmem⟩)
  have hcell : ((d.append e).setPtr (.slot (home key)) d.idx.length hlen).cell =
      Function.update (Function.update d.cell (.node d.idx.length) (d.cell (.slot (home key)))) (.slot (home key))
        (some d.idx.length) := by
    have hne : d.idx.length ≠ 0 := by
      rw [hs.ok.idx_length]
      exact (Nat.add_pos_left (by decide) _).ne'
    rw [Disk.cell_setPtr hok' hslot, Disk.cell_append hs.ok, link_of_ne hne, hep]
    rfl
  have hcontent : ((d.append e).setPtr (.slot (home key)) d.idx.length hlen).content =
      Function.update d.content d.idx.length (some (key, data)) := by
    rw [Disk.content_setPtr hslot, Disk.content_append hs.ok, hek, hed]
  have happ := append_eq hs.ok heo hlen db h.idx h.dat hhome hchain
  rw [hek, hed, hep] at happ
  refine ⟨_, (d.append e).setPtr (.slot (home key)) d.idx.length hlen,
    Function.update ch (home key) (d.idx.length :: ch (home key)), happ,
    ⟨rfl, rfl, h.nhash, h.hashoff, ⟨hok'.setPtr hslot hlen, ?_⟩, ?_, ?_⟩, ⟨rfl, rfl, rfl, rfl, rfl⟩, ?_, ?_⟩
  · rw [hcontent, Disk.offsets_setPtr hslot, Disk.offsets_append hs.ok]
    refine hs.threaded.push hhome hnew (belongs_home hk.nonblank data) ?_ ?_ fun q hqo hqs => ?_
    all_goals rw [hcell]
    · rw [Function.update_of_ne (by simp), Function.update_self]
    · rw [Function.update_self]
    · rw [Function.update_of_ne hqs, Function.update_of_ne hqo]
  · rw [hcontent]
    exact h.holds.add home_lt (hs.threaded.placed_pushed hnew) hout hnone
  · rw [hcontent]
    refine h.readable_update ?_ fun k hk => ⟨Function.update_of_ne hk .., hout k⟩
    rw [Function.update_self]
    exact ((h.allOn_iff key).mpr hclear).guarded_cons (hout key)
  · rw [Disk.idx_length_setPtr hok' hslot, Disk.idx_append, List.length_append, e.record_length, Entry.text, Entry.datlen,
      hek, heo, hed]
  · rw [Disk.dat_setPtr hok' hslot, Disk.dat_append, List.length_append, e.slot_length, Entry.datlen, hed]

/-! ## Free records -/

/-- The structure when `_db_findfree` has taken the entry at `o` off the free list. -/
def DB.taken (db : DB) (d : Disk) (l₁ : List ℕ) (o : ℕ) (e : Entry) : DB :=
  { db.loaded o e with
    idx := ⟨(d.setPtr (before Loc.node (.slot 0) l₁) e.ptr e.ptr_le).idx,
      locOff (before Loc.node (.slot 0) l₁) + PTR_SZ⟩
    locks := db.locks ++ [⟨.writew, .idxfd, FREE_OFF, 1⟩, ⟨.un, .idxfd, FREE_OFF, 1⟩] }

/-- The record has the lengths that are asked for. -/
def Entry.Sized (e : Entry) (keylen datlen : ℕ) : Prop := e.key.length = keylen ∧ e.datlen = datlen

theorem Disk.exists_sized_iff {d : Disk} {o keylen datlen : ℕ} : (∃ e, d.entryAt o = some e ∧ e.Sized keylen datlen) ↔
    ∃ k v, d.content o = some (k, v) ∧ k.length = keylen ∧ v.length + 1 = datlen := by
  constructor
  · rintro ⟨e, he, hk, hd⟩
    exact ⟨e.key, e.data, Disk.content_eq he, hk, hd⟩
  · rintro ⟨k, v, hc, hk, hv⟩
    obtain ⟨e, he, hkv⟩ := Option.map_eq_some_iff.mp hc
    obtain ⟨rfl, rfl⟩ := Prod.mk.inj hkv
    exact ⟨e, he, hk, hv⟩

/-- **What `_db_findfree` finds** is the first free record of the lengths. -/
theorem findFree_cases (h : db.Stores d ch m) (keylen datlen : ℕ) :
    (∃ db', findFree db keylen datlen = .ok (false, db') ∧ db'.Stores d ch m ∧ db'.Keeps db ∧
      ∀ o ∈ ch 0, ∀ e, d.entryAt o = some e → ¬ e.Sized keylen datlen) ∨
    ∃ l₁ o l₂ e, ch 0 = l₁ ++ o :: l₂ ∧ d.entryAt o = some e ∧ e.Sized keylen datlen ∧
      findFree db keylen datlen = .ok (true, db.taken d l₁ o e) := by
  have hfree : FREE_OFF = ((0 * PTR_SZ : ℕ) : ℤ) := rfl
  have h0 : 0 < NHASH_DEF + 1 := Nat.succ_pos _
  have hs := h.sound
  have hb : (db.lock .writew .idxfd FREE_OFF 1).idx.bytes = d.idx := h.idx
  have hptr := readPtr_slot (db.lock .writew .idxfd FREE_OFF 1) hs.ok hb h0
  rw [← hfree] at hptr
  simp only [findFree, hptr, ok_bind, hb]
  rcases walk_eq (fun db => decide (db.idxbuf.length = keylen ∧ db.datlen = datlen))
    (fun e => decide (e.key.length = keylen ∧ e.datlen = datlen))
    { db.lock .writew .idxfd FREE_OFF 1 with idx := ⟨d.idx, 0 * PTR_SZ + PTR_SZ⟩ } (fun _ _ _ => rfl) hs.ok
    (hs.threaded.linked 0 h0) (fun o ho => hs.exists_entry h0 ho) hs.free_readable (hs.chain_length h0) rfl with
    ⟨save, db', hw, ha, hno⟩ | ⟨l₁, o, l₂, e, hch, he, ht, hw⟩
  · refine .inl ⟨db'.lock .un .idxfd FREE_OFF 1, ?_, ?_, ?_, fun o ho e he hsz => ?_⟩
    · exact congrArg (· >>= _) hw
    · exact ⟨ha.idx, (congrArg Fd.bytes ha.dat).trans h.dat, ha.nhash.trans h.nhash, ha.hashoff.trans h.hashoff, hs, h.holds,
        h.readable⟩
    · exact ⟨ha.nhash, ha.hashoff, ha.chainoff, ha.cnt, ha.errno⟩
    · exact absurd (hno o ho e he) (by simpa [Entry.Sized] using hsz)
  · have ho : (o : ℤ) ≠ 0 := by
      have := Disk.ne_zero_of_entryAt he
      omega
    refine .inr ⟨l₁, o, l₂, e, hch, he, by simpa [Entry.Sized] using ht, ?_⟩
    refine (congrArg (· >>= _) hw).trans ?_
    simp only [ok_bind, ho, if_false, DB.loaded]
    rw [writePtr_disk _ hs.ok rfl (hs.has_before h0 hch) e.ptr_le, ok_bind]
    simp [DB.taken, DB.loaded, DB.lock]

end Stores

/-- The disk after the free entry at `o`, to which the pointer at `b` led, became the first of the chain `i`. -/
def Disk.reclaim (d : Disk) (b : Loc ℕ) (o : ℕ) (e e' : Entry) (i : ℕ) (ho : o ≤ PTR_MAX) : Disk :=
  ((d.setPtr b e.ptr e.ptr_le).setEntry o e').setPtr (.slot i) o ho

section Reclaim

variable {d : Disk} (hok : d.Ok) {o i : ℕ} {e e' : Entry} {b : Loc ℕ} (ho : o ≤ PTR_MAX) (he : d.entryAt o = some e)
  (hb : d.Has b) (hbo : b ≠ .node o) (hf : e'.Fits e) (hi : i < NHASH_DEF + 1)

include hok he hb hbo hf hi

omit hf hi in
theorem reclaim_stage : (d.setPtr b e.ptr e.ptr_le).Ok ∧ (d.setPtr b e.ptr e.ptr_le).entryAt o = some e := by
  refine ⟨hok.setPtr hb e.ptr_le, ?_⟩
  rw [Disk.entryAt_setPtr_of_ne hb _ hbo, he]

theorem reclaim_stage₂ : ((d.setPtr b e.ptr e.ptr_le).setEntry o e').Ok ∧
    ((d.setPtr b e.ptr e.ptr_le).setEntry o e').Has (.slot i) := by
  obtain ⟨h₁, h₂⟩ := reclaim_stage hok he hb hbo
  exact ⟨h₁.setEntry h₂ hf, hi⟩

theorem reclaim_ok : (d.reclaim b o e e' i ho).Ok :=
  (reclaim_stage₂ hok he hb hbo hf hi).1.setPtr (reclaim_stage₂ hok he hb hbo hf hi).2 ho

theorem cell_reclaim : (d.reclaim b o e e' i ho).cell = Function.update (Function.update (Function.update d.cell b
    (d.cell (.node o))) (.node o) (link e'.ptr)) (.slot i) (some o) := by
  obtain ⟨h₁, h₂⟩ := reclaim_stage hok he hb hbo
  obtain ⟨h₃, h₄⟩ := reclaim_stage₂ hok he hb hbo hf hi
  rw [Disk.reclaim, Disk.cell_setPtr h₃ h₄, Disk.cell_setEntry h₂ hf, Disk.cell_setPtr hok hb,
    link_of_ne (Disk.ne_zero_of_entryAt he), ← Disk.ptr_node he]
  rfl

theorem content_reclaim : (d.reclaim b o e e' i ho).content = Function.update d.content o (some (e'.key, e'.data)) := by
  rw [Disk.reclaim, Disk.content_setPtr (reclaim_stage₂ hok he hb hbo hf hi).2,
    Disk.content_setEntry (reclaim_stage hok he hb hbo).2 hf, Disk.content_setPtr hb]

theorem offsets_reclaim : (d.reclaim b o e e' i ho).offsets = d.offsets := by
  rw [Disk.reclaim, Disk.offsets_setPtr (reclaim_stage₂ hok he hb hbo hf hi).2,
    Disk.offsets_setEntry (reclaim_stage hok he hb hbo).2 hf, Disk.offsets_setPtr hb]

theorem lengths_reclaim : (d.reclaim b o e e' i ho).idx.length = d.idx.length ∧
    (d.reclaim b o e e' i ho).dat.length = d.dat.length := by
  obtain ⟨h₁, h₂⟩ := reclaim_stage hok he hb hbo
  obtain ⟨h₃, h₄⟩ := reclaim_stage₂ hok he hb hbo hf hi
  constructor
  · rw [Disk.reclaim, Disk.idx_length_setPtr h₃ h₄, Disk.idx_length_setEntry h₁ h₂ hf, Disk.idx_length_setPtr hok hb]
  · rw [Disk.reclaim, Disk.dat_setPtr h₃ h₄, Disk.dat_length_setEntry h₁ h₂ hf, Disk.dat_setPtr hok hb]

/-- The writes of `db_store` to a free record. -/
theorem reclaim_eq (db : DB) (hidx : db.idx.bytes = (d.setPtr b e.ptr e.ptr_le).idx) (hdat : db.dat.bytes = d.dat)
    (hidxoff : db.idxoff = o) (hdatoff : db.datoff = e.datoff) (hchain : db.chainoff = (i * PTR_SZ : ℕ)) :
    (do
      let db ← writeDat db e'.data db.datoff .set
      let db ← writeIdx db e'.key db.idxoff .set e'.ptr
      writePtr db db.chainoff db.idxoff) = .ok { db with
        idx := ⟨(d.reclaim b o e e' i ho).idx, i * PTR_SZ + PTR_SZ⟩
        dat := ⟨(d.reclaim b o e e' i ho).dat, e.datoff + e.datlen⟩
        idxbuf := e'.text
        datlen := e.datlen
        ptrval := e'.ptr } := by
  obtain ⟨h₁, h₂⟩ := reclaim_stage hok he hb hbo
  obtain ⟨h₃, h₄⟩ := reclaim_stage₂ hok he hb hbo hf hi
  have hloc : ((i * PTR_SZ : ℕ) : ℤ) = locOff (.slot i) := rfl
  have hdat₁ : db.dat.bytes = (d.setPtr b e.ptr e.ptr_le).dat := by rw [Disk.dat_setPtr hok hb, hdat]
  simp only [hdatoff]
  rw [writeDat_entry _ _ h₁ hdat₁ h₂ hf rfl, ok_bind]
  simp only [hidxoff]
  rw [writeIdx_entry _ _ h₁ ?_ h₂ hf rfl rfl rfl rfl, ok_bind]
  · simp only [hchain, hloc]
    rw [writePtr_disk _ h₃ rfl h₄ ho, Disk.reclaim, Disk.dat_setPtr h₃ h₄]
    rfl
  · exact hidx

end Reclaim

section Stores

variable {db : DB} {d : Disk} {ch : ℕ → List ℕ} {m : List UInt8 → Option (List UInt8)} {key data : List UInt8} {o : ℕ}
  {l₁ l₂ : List ℕ} {e : Entry}

/-- **A free record is used again.** -/
theorem DB.Stores.reuse (h : db.Stores d ch m) (hclear : Clear m (home key)) (hnone : m key = none) (hk : KeyFits key)
    (hd : DataOk data) (hch : ch 0 = l₁ ++ o :: l₂) (he : d.entryAt o = some e) (hsz : e.Sized key.length (data.length + 1))
    (hchain : db.chainoff = (home key * PTR_SZ : ℕ)) :
    ∃ db' d' ch', (do
      let db ← writeDat (db.taken d l₁ o e) data (db.taken d l₁ o e).datoff .set
      let db ← writeIdx db key db.idxoff .set (d.ptr (.slot (home key)))
      writePtr db db.chainoff db.idxoff) = .ok db' ∧ db'.Stores d' ch' (Function.update m key (some data)) ∧
      db'.Keeps db ∧ d'.idx.length = d.idx.length ∧ d'.dat.length = d.dat.length := by
  have hs := h.sound
  have h0 : 0 < NHASH_DEF + 1 := Nat.succ_pos _
  have hi := home_lt key
  have hne : 0 ≠ home key := (home_pos key).ne
  have hb := hs.has_before h0 hch
  have hbo := hs.threaded.before_ne_node h0 hch
  have hbs := hs.threaded.before_ne_slot h0 hi hne hch
  have ho := hs.le_ptr_max h0 hch
  have hout (k : List UInt8) : o ∉ ch (home k) := hs.not_mem_chain h0 (by simp [hch]) (home_pos k).ne'
  obtain ⟨e', hep, hek, hed, hf⟩ := exists_entry_fits e hk hd (hs.ok.ptr_le (.slot (home key))) hsz.1 hsz.2
  have hcell := cell_reclaim hs.ok ho he hb hbo hf hi
  have hcontent := content_reclaim hs.ok ho he hb hbo hf hi
  have hlen := lengths_reclaim hs.ok ho he hb hbo hf hi
  have hw := reclaim_eq hs.ok ho he hb hbo hf hi (db.taken d l₁ o e) rfl h.dat rfl rfl hchain
  rw [hep, show link (d.ptr (.slot (home key))) = d.cell (.slot (home key)) from rfl] at hcell
  rw [hek, hed] at hcontent
  rw [hek, hed, hep] at hw
  refine ⟨_, d.reclaim (before Loc.node (.slot 0) l₁) o e e' (home key) ho, moved ch 0 (home key) o (l₁ ++ l₂), hw,
    ⟨rfl, rfl, h.nhash, h.hashoff, ⟨reclaim_ok hs.ok ho he hb hbo hf hi, ?_⟩, ?_, ?_⟩, ⟨rfl, rfl, rfl, rfl, rfl⟩, hlen⟩
  · rw [hcontent, offsets_reclaim hs.ok ho he hb hbo hf hi]
    refine hs.threaded.move h0 hi hne hch (belongs_home hk.nonblank data) ?_ ?_ ?_ fun q hqb hqo hqs => ?_
    all_goals rw [hcell]
    · rw [Function.update_of_ne hbs, Function.update_of_ne hbo, Function.update_self]
    · rw [Function.update_of_ne (by simp), Function.update_self]
    · rw [Function.update_self]
    · rw [Function.update_of_ne hqs, Function.update_of_ne hqo, Function.update_of_ne hqb]
  · rw [hcontent]
    exact h.holds.add home_lt (hs.threaded.placed_moved h0 hne hch) hout hnone
  · rw [hcontent]
    refine h.readable_update ?_ fun k hk => ⟨moved_of_ne (home_pos k).ne' hk, hout k⟩
    rw [moved_dst]
    exact ((h.allOn_iff key).mpr hclear).guarded_cons (hout key)

/-- **A data record is written over** by one of the same length. -/
theorem DB.Stores.overwrite (h : db.Stores d ch m) (hclear : Clear m (home key)) (w : Bool) (hk : KeyFits key)
    (hd : DataOk data) (hch : ch (home key) = l₁ ++ o :: l₂) (he : d.entryAt o = some e) (hkey : e.key = key)
    (hlen : data.length + 1 = e.datlen) :
    ∃ db' d', writeDat (db.foundAt key w l₁ o e) data (db.foundAt key w l₁ o e).datoff .set = .ok db' ∧
      db'.Stores d' ch (Function.update m key (some data)) ∧ db'.Keeps (db.onChain key w) ∧
      d'.idx = d.idx ∧ d'.dat.length = d.dat.length := by
  have hs := h.sound
  obtain ⟨e', hep, hek, hed, hf⟩ := exists_entry_fits e hk hd e.ptr_le (by rw [hkey]) hlen.symm
  have hcontent := Disk.content_setEntry he hf
  have hold : d.content o = some (key, e.data) := by rw [Disk.content_eq he, hkey]
  have hcell : (d.setEntry o e').cell = d.cell := by
    rw [Disk.cell_setEntry he hf, hep, ← Disk.ptr_node he]
    exact Function.update_eq_self _ _
  -- the index record stays the same
  have hidx : (d.setEntry o e').idx = d.idx := by
    obtain ⟨a, c, -, hd', hset⟩ := hs.ok.idx_entry he
    have hrec : e'.record = e.record := by
      simp only [Entry.record, Entry.text, Entry.datlen, hep, hek, hkey, hf.datoff, hf.data]
    rw [hset, hd', hrec]
  rw [hek, hed] at hcontent
  refine ⟨_, d.setEntry o e', writeDat_entry (db.foundAt key w l₁ o e) e' hs.ok h.dat he hf hed,
    ⟨h.idx.trans hidx.symm, rfl, h.nhash, h.hashoff, ⟨hs.ok.setEntry he hf, ?_⟩, ?_, ?_⟩, ⟨rfl, rfl, rfl, rfl, rfl⟩, hidx,
    Disk.dat_length_setEntry hs.ok he hf⟩
  · rw [hcell, hcontent, Disk.offsets_setEntry he hf]
    exact hs.threaded.rewrite (home_lt key) (by simp [hch]) (belongs_home hk.nonblank data)
  · rw [hcontent]
    exact h.holds.replace (by simp [hch]) hold
  · have hall := (h.allOn_iff key).mpr hclear
    have hsep : SEP ∉ key := hall o (by simp [hch]) _ hold
    rw [hcontent]
    exact h.readable_update (.inl (hall.update hsep)) fun k hk => ⟨rfl, hs.not_mem_chain (home_lt key) (by simp [hch]) hk⟩

end Stores

end CppNotes.Db
