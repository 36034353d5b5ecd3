import CppNotes.Lib.Groups
import CppNotes.Lib.Pool
import CppNotes.Iotool.CheckArgs
import CppNotes.Iotool.Reads

/-!
# Dumps of sectors (`prt_sect_data`)

`prt_sect_data` prints its bytes in lines of 32, as numbers and as characters, and before every 512-th byte the number of
a sector, which it computes from a 32-bit offset.  `rdonesect`, `rdonepage`, `rdpages` and `R` call it with what they
have read.  Its `int i` is a natural number here: they pass 512 bytes, or a block, for which `CheckArgs` accepts at most 64 MiB.

The number is right as long as the position fits in 32 bits and the caller passes the position of the byte that the dump
starts with.  `_do_read_one_page` passes that of the page to all of its eight dumps, and the last dump of `R` is made with
another position than it has read from.
-/

namespace CppNotes.Iotool

open CppNotes.Lib

/-! ## `prt_sect_data` -/

/-- What `prt_sect_data` prints, piece by piece. -/
inductive Piece where
  | text (s : String)
  | sector (n : UInt32)
  | address (i : ℕ)
  | addressOdd (i : ℕ)
  | hex (b : UInt8)
  | char (c : UInt8)
  deriving DecidableEq

/-- `isprint(c) && c != '\r' && c != '\n'` -/
def isPrintable (c : UInt8) : Bool := 32 ≤ c && c ≤ 126

/-- The number of the sector that starts with byte `i`. -/
def prtSector (offset : UInt32) (i : ℕ) : List Piece :=
  if i % 512 = 0 then [.sector (offset / 512 + .ofNat (i / 512))] else []

/-- The address at the start of a line. -/
def prtPosition (i : ℕ) : List Piece :=
  if i % 32 = 0 then [if i % 64 = 0 then .address i else .addressOdd i] else []

/-- What separates the numbers. -/
def prtGap (i : ℕ) : List Piece :=
  (if (i + 1) % 2 = 0 then
    [if (i + 1) % 8 = 0 then .text "  " else if (i + 1) % 4 = 0 then .text " " else .text "-"]
  else []) ++ if (i + 1) % 32 = 0 then [.text "  "] else []

def prtChar (data : List UInt8) (k : ℕ) : List Piece :=
  let c := data.getD k 0
  (if isPrintable c then .char c else if c ≠ 0 then .text "*" else .text ".") ::
    (if (k + 1) % 16 = 0 then [.text " "] else []) ++ if (k + 1) % 32 = 0 then [.text "\n"] else []

/-- The characters of a line, behind its last byte. -/
def prtChars (data : List UInt8) (i : ℕ) : List Piece :=
  if (i + 1) % 32 = 0 then (List.range' (i + 1 - 32) 32).flatMap (prtChar data) else []

/-- The turn of the loop for byte `i`. -/
def prtByte (data : List UInt8) (offset : UInt32) (i : ℕ) : List Piece :=
  prtSector offset i ++ prtPosition i ++ [.hex (data.getD i 0)] ++ prtGap i ++ prtChars data i

def ruleText : String :=
  "-------------------------------------------------------------------------------------------    " ++
    "---------------- ----------------\n"

def columnsText : String :=
  "Address  0 1  2 3  4 5  6 7   8 9  A B  C D  E F   0 1  2 3  4 5  6 7   8 9  A B  C D  E F     " ++
    "0123456789ABCDEF 0123456789ABCDEF\n"

/-- `prt_sect_data` -/
def prtSectData (data : List UInt8) (offset : UInt32) : List Piece :=
  [.text ruleText, .text columnsText] ++ (List.range data.length).flatMap (prtByte data offset) ++ [.text "\n"]

/-- Neither a byte nor the number of a sector. -/
def Piece.isFiller : Piece → Bool
  | sector _ | hex _ => false
  | _ => true

section Pieces

variable {data : List UInt8} {offset n : UInt32} {i : ℕ} {l : List Piece}

theorem prtPosition_filler : (prtPosition i).all Piece.isFiller = true := by
  unfold prtPosition
  split_ifs <;> rfl

theorem prtGap_filler : (prtGap i).all Piece.isFiller = true := by
  unfold prtGap
  split_ifs <;> rfl

theorem prtChar_filler (k : ℕ) : (prtChar data k).all Piece.isFiller = true := by
  unfold prtChar
  simp only
  split_ifs <;> rfl

theorem prtChars_filler : (prtChars data i).all Piece.isFiller = true := by
  unfold prtChars
  split_ifs
  · rw [List.all_flatMap, List.all_eq_true]
    exact fun k _ => prtChar_filler k
  · rfl

theorem sector_notMem_of_filler (h : l.all Piece.isFiller = true) : .sector n ∉ l := fun hn =>
  absurd (List.all_eq_true.mp h _ hn) (by simp [Piece.isFiller])

theorem mem_prtByte_sector : .sector n ∈ prtByte data offset i ↔ i % 512 = 0 ∧ n = offset / 512 + .ofNat (i / 512) := by
  simp only [prtByte, List.mem_append, sector_notMem_of_filler prtPosition_filler,
    sector_notMem_of_filler prtGap_filler, sector_notMem_of_filler prtChars_filler, prtSector]
  split_ifs with hi <;> simp [hi]

end Pieces

/-! ## The dumps of a run -/

/-- What `prt_sect_data` is called with. -/
def Line.dump? : Line → Option (List UInt8 × UInt32)
  | sectData data offset => some (data, offset)
  | _ => none

def Sys.dumps (s : Sys) : List (List UInt8 × UInt32) := s.out.filterMap Line.dump?

/-- The reads that have not failed. -/
def Sys.okReads (s : Sys) : List Pread := s.reads.filter fun p => decide (0 ≤ p.res)

/-- Dump `d` shows the bytes of the read `p` from `j * 512` on. -/
def Shows (p : Pread) (j : ℕ) (d : List UInt8 × UInt32) : Prop :=
  ∀ i b, p.data[j * 512 + i]? = some b → i < d.1.length → d.1[i]? = some b

/-- The header before a byte that was read, if there is one, has the number of the sector that the byte comes from. -/
def Names (p : Pread) (j : ℕ) (d : List UInt8 × UInt32) : Prop :=
  ∀ i n, i < d.1.length → j * 512 + i < p.data.length → .sector n ∈ prtByte d.1 d.2 i →
    n.toNat = (unat p.offset + j * 512 + i) / 512

/-- `do_read_pages` after the file was opened, from page `i` on: what it has done when it has come to its end or to that of
the answers.  For each page these are the memory, the result of `lseek` and that of `read`. -/
def doReadPages (pageOff pageCnt : Int64) (i : Int32) (s : Sys) : List (Option Mem × Int64 × Int64) → Sys
  | [] => s
  | (mem, pos, r) :: rest =>
    if i.toInt64 < pageCnt then
      -- the result of the page is ignored
      doReadPages pageOff pageCnt (i + 1)
        ((doReadOnePage (pageOff + i.toInt64) mem [pos, r] (s.print (.printingPage i))).2.print .blankLines) rest
    else s

/-- The arguments of a command `R` that dumps whole sectors. -/
structure DumpArgs extends Args where
  print : inp.isPrint = true
  aligned : bs % 512 = 0
  bounded : bs ≤ BLOCK_SIZE_MAX

/-- The commands that dump sectors. -/
inductive DumpCmd where
  | oneSect (sectOff : Int64)
  | onePage (pageOff : Int64)
  | pages (pageOff pageCnt : Int64)
  | blocks (engine : CStr) (a : DumpArgs)

/-- The number of dumps for one read. -/
def DumpCmd.parts : DumpCmd → ℕ
  | oneSect _ | blocks _ _ => 1
  | onePage _ | pages _ _ => 8

/-- The states that a run of the command ends in. -/
def DumpCmd.Run (s : Sys) : DumpCmd → Prop
  | oneSect sectOff => ∃ mem rs f, s = (doReadOneSect sectOff mem rs ⟨f, [], [], []⟩).2
  | onePage pageOff => ∃ mem rs f, s = (doReadOnePage pageOff mem rs ⟨f, [], [], []⟩).2
  | pages pageOff pageCnt => ∃ answers f, s = doReadPages pageOff pageCnt 0 ⟨f, [], [], []⟩ answers
  | blocks engine a => ∃ errno mem rs f, s = (readIo engine a.toArgs errno mem rs f).2

/-- Each dump shows its part of a read, of which there are `m`, and its headers are right. -/
def Sys.Labelled (s : Sys) (m : ℕ) : Prop := Grouped m (fun p j d => Shows p j d ∧ Names p j d) s.okReads s.dumps

/-- In every run the dumps have the right headers. -/
def DumpCmd.NamesSectors (cmd : DumpCmd) : Prop :=
  ∀ s, cmd.Run s → (∀ p ∈ s.reads, p.Valid) → s.Labelled cmd.parts

/-! ## Steps -/

section Steps

variable {s : Sys} {buf : Mem} {count : UInt64} {offset r : Int64}

@[simp] theorem print_okReads (s : Sys) (l : Line) : (s.print l).okReads = s.okReads := rfl

theorem print_dumps (s : Sys) {l : Line} (h : l.dump? = none) : (s.print l).dumps = s.dumps := by
  simp [Sys.dumps, Sys.print, h]

theorem dump_dumps (s : Sys) (data : Mem) (n offset : UInt32) :
    (s.dump data n offset).dumps = s.dumps ++ [((List.range n.toNat).map data, offset)] := by
  simp [Sys.dumps, Sys.dump, Sys.print, Line.dump?]

@[simp] theorem pread_dumps (s : Sys) (buf : Mem) (count : UInt64) (offset r : Int64) :
    (s.pread buf count offset r).2.dumps = s.dumps := rfl

theorem pread_okReads (hr : ¬ r < 0) (buf : Mem) (count : UInt64) : (s.pread buf count offset r).2.okReads =
    s.okReads ++ [⟨offset, count, r, s.got offset r⟩] := by
  simp [Sys.okReads, Sys.pread, Sys.got, Int64.not_lt.mp hr]

theorem pread_okReads_of_neg (hr : r < 0) (buf : Mem) (count : UInt64) : (s.pread buf count offset r).2.okReads = s.okReads := by
  simp [Sys.okReads, Sys.pread, Int64.not_le.mpr hr]

/-- The eight dumps of a page. -/
def pageDumps (buf : Mem) (offset : Int64) : List (List UInt8 × UInt32) :=
  (List.range 8).map fun j => ((List.range 512).map fun i => buf (j * 512 + i), offset.toUInt64.toUInt32)

theorem dumpPage_dumps (s : Sys) (buf : Mem) (offset : Int64) :
    (s.dumpPage buf offset).dumps = s.dumps ++ pageDumps buf offset := by
  simp only [Sys.dumps, Sys.dumpPage, Sys.dump, foldl_print_out, List.filterMap_append, List.filterMap_flatMap, pageDumps,
    List.map_eq_flatMap]
  rfl

end Steps

/-- With positions that are multiples of the sector size, the headers are right exactly if the dump was given the position
that it starts with. -/
theorem names_iff {p : Pread} {j : ℕ} {d : List UInt8 × UInt32} (hp : unat p.offset % 512 = 0) (hd : d.2.toNat % 512 = 0)
    (hlen : d.1.length < 2 ^ 31) :
    Names p j d ↔ (0 < d.1.length → j * 512 < p.data.length → d.2.toNat = unat p.offset + j * 512) := by
  have hnum (i : ℕ) (hi : i < d.1.length) : (d.2 / 512 + .ofNat (i / 512)).toNat = d.2.toNat / 512 + i / 512 := by
    have := d.2.toNat_lt
    rw [UInt32.toNat_add, UInt32.toNat_div, UInt32.toNat_ofNat', Nat.mod_eq_of_lt (by omega : i / 512 < 2 ^ 32)]
    exact Nat.mod_eq_of_lt (show d.2.toNat / 512 + i / 512 < 2 ^ 32 by omega)
  simp only [Names, mem_prtByte_sector]
  constructor
  · intro h h0 hj
    have hfirst := h 0 _ h0 (by rwa [Nat.add_zero]) ⟨rfl, rfl⟩
    rw [hnum 0 h0] at hfirst
    omega
  · rintro h i n hi hlt ⟨hmod, rfl⟩
    rw [hnum i hi, h (Nat.zero_lt_of_lt hi) (Nat.lt_of_le_of_lt (Nat.le_add_right _ _) hlt)]
    omega

/-! ## One read and its dumps -/

/-- From `s` to `s'` at most one read has not failed, and the buffer was then dumped. -/
structure ReadsOnce (s s' : Sys) (count : UInt64) (offset : Int64) (ds : Mem → List (List UInt8 × UInt32)) : Prop where
  reads : s.reads <+: s'.reads
  dumped : s'.okReads = s.okReads ∧ s'.dumps = s.dumps ∨
    ∃ r buf, ¬ r < 0 ∧ ⟨offset, count, r, s.got offset r⟩ ∈ s'.reads ∧
      s'.okReads = s.okReads ++ [⟨offset, count, r, s.got offset r⟩] ∧
      s'.dumps = s.dumps ++ ds (s.pread buf count offset r).1

section Once

variable {s s' : Sys} {count : UInt64} {offset r : Int64} {ds : Mem → List (List UInt8 × UInt32)}

theorem ReadsOnce.none (hreads : s'.reads = s.reads) (hdumps : s'.dumps = s.dumps) : ReadsOnce s s' count offset ds :=
  ⟨hreads ▸ List.prefix_rfl, .inl ⟨congrArg (List.filter _) hreads, hdumps⟩⟩

theorem ReadsOnce.failed (hr : r < 0) (buf : Mem) (hreads : s'.reads = (s.pread buf count offset r).2.reads)
    (hdumps : s'.dumps = s.dumps) : ReadsOnce s s' count offset ds :=
  ⟨hreads ▸ List.prefix_append _ _,
    .inl ⟨(congrArg (List.filter _) hreads).trans (pread_okReads_of_neg hr buf count), hdumps⟩⟩

theorem ReadsOnce.ok (hr : ¬ r < 0) (buf : Mem) (hreads : s'.reads = (s.pread buf count offset r).2.reads)
    (hdumps : s'.dumps = s.dumps ++ ds (s.pread buf count offset r).1) : ReadsOnce s s' count offset ds := by
  refine ⟨hreads ▸ List.prefix_append _ _,
    .inr ⟨r, buf, hr, ?_, (congrArg (List.filter _) hreads).trans (pread_okReads hr buf count), hdumps⟩⟩
  rw [hreads]
  exact pread_mem buf

theorem ReadsOnce.grouped {m : ℕ} {R : Pread → ℕ → List UInt8 × UInt32 → Prop} (h : ReadsOnce s s' count offset ds)
    (hg : Grouped m R s.okReads s.dumps) (hlen : ∀ buf, (ds buf).length = m) (hv : ∀ p ∈ s'.reads, p.Valid)
    (hR : ∀ r buf, ¬ r < 0 → Pread.Valid ⟨offset, count, r, s.got offset r⟩ → ∀ j d,
      (ds (s.pread buf count offset r).1)[j]? = some d → R ⟨offset, count, r, s.got offset r⟩ j d) :
    Grouped m R s'.okReads s'.dumps := by
  rcases h.dumped with ⟨hok, hd⟩ | ⟨r, buf, hr, hmem, hok, hd⟩
  · rwa [hok, hd]
  · rw [hok, hd]
    exact hg.append (hlen _) (hR r buf hr (hv _ hmem))

/-- A dump of the buffer shows what was read. -/
theorem shows_pread (buf : Mem) (j n : ℕ) (o : UInt32) : Shows ⟨offset, count, r, s.got offset r⟩ j
    ((List.range n).map fun i => (s.pread buf count offset r).1 (j * 512 + i), o) := by
  intro i b hb hi
  simp only [List.length_map, List.length_range] at hi
  simp only [List.getElem?_map, List.getElem?_range hi, Option.map_some, pread_buf, List.getD_eq_getElem?_getD, hb,
    Option.getD_some]

theorem oneSect_readsOnce (sectOff : Int64) (mem : Option Mem) (rs : List Int64) (s : Sys) :
    ReadsOnce s (doReadOneSect sectOff mem rs s).2 SECTOR_SIZE (sectOff * 512) fun buf =>
      [((List.range 512).map buf, (sectOff * 512).toUInt64.toUInt32)] := by
  match mem, rs with
  | none, _ => exact .none rfl (print_dumps _ rfl)
  | some _, [] => exact .none rfl rfl
  | some buf, r :: rs =>
    by_cases hr : r < 0
    · simp only [doReadOneSect, hr, if_true]
      exact .failed hr buf rfl (print_dumps _ rfl)
    · rw [doReadOneSect_ok hr]
      exact .ok hr buf rfl (dump_dumps _ _ _ _)

theorem onePage_readsOnce (pageOff : Int64) (mem : Option Mem) (rs : List Int64) (s : Sys) :
    ReadsOnce s (doReadOnePage pageOff mem rs s).2 4096 (pageOff * 4096) fun buf => pageDumps buf (pageOff * 4096) := by
  match mem, rs with
  | none, _ => exact .none rfl (print_dumps _ rfl)
  | some _, [] => exact .none rfl rfl
  | some buf, pos :: rs =>
    by_cases hpos : pos < 0
    · simp only [doReadOnePage, hpos, if_true]
      exact .none rfl (print_dumps _ rfl)
    cases rs with
    | nil =>
      simp only [doReadOnePage, hpos, if_false]
      exact .none rfl rfl
    | cons r rs =>
      by_cases hr : r < 0
      · simp only [doReadOnePage, hpos, hr, if_true, if_false]
        exact .failed hr buf rfl (print_dumps _ rfl)
      · rw [doReadOnePage_ok hpos hr]
        exact .ok hr buf (dumpPage_reads _ _ _) (dumpPage_dumps _ _ _)

theorem shows_pread_zero (buf : Mem) (n : ℕ) (o : UInt32) : Shows ⟨offset, count, r, s.got offset r⟩ 0
    ((List.range n).map (s.pread buf count offset r).1, o) := by
  simpa using shows_pread buf 0 n o

end Once

/-! ## Runs that read all they ask for -/

/-- A file that does not end. -/
def endless : File := ⟨2 ^ 64, fun _ => 0, fun _ _ => rfl⟩

section Endless

variable {s : Sys} {count : UInt64} {offset r : Int64} {n : ℕ}

theorem got_endless (hs : s.file = endless) (hoff : unat offset < 2 ^ 63) (hr : r.toInt = n) (hn : n < 2 ^ 63) :
    (s.got offset r).length = n := by
  simp only [Sys.got, hs, File.read, endless, hr, Int.toNat_natCast, List.length_map, List.length_range]
  omega

theorem valid_endless (hs : s.file = endless) (hoff : unat offset < 2 ^ 63) (hr : r.toInt = n) (hn : n < 2 ^ 63)
    (hle : n ≤ count.toNat) : Pread.Valid ⟨offset, count, r, s.got offset r⟩ := by
  refine .inr ⟨nonneg_iff_unat.mpr hoff, ?_, ?_⟩
  · simp only [hr]
    exact_mod_cast hle
  · rw [got_endless hs hoff hr hn]
    simp only [hr, Int.toNat_natCast]

/-- What holds of the dumps of a run holds of those of its last read. -/
theorem names_of_grouped {m : ℕ} {s s' : Sys} {p : Pread} {ds : List (List UInt8 × UInt32)}
    (hg : s'.Labelled m)
    (hlen : s.dumps.length = m * s.okReads.length) (hok : s'.okReads = s.okReads ++ [p])
    (hd : s'.dumps = s.dumps ++ ds) (hds : ds.length = m) {j : ℕ} {d : List UInt8 × UInt32} (hj : ds[j]? = some d) :
    Names p j d := by
  rw [Sys.Labelled, hok, hd, grouped_append_iff hlen hds] at hg
  exact (hg.2 j d hj).2

end Endless

/-! ## One sector -/

/-- The offset of a sector or of a page. -/
theorem unat_mul_mod (a : Int64) {b : Int64} (h : 512 ∣ unat b) : unat (a * b) % 512 = 0 := by
  rw [unat_mul, Nat.mod_mod_of_dvd _ (by decide)]
  exact Nat.mod_eq_zero_of_dvd (h.mul_left _)

theorem toNat_dumpOffset (a : Int64) : a.toUInt64.toUInt32.toNat = unat a % 2 ^ 32 := UInt64.toNat_toUInt32 _

theorem oneSect_names_iff (sectOff : Int64) : (DumpCmd.oneSect sectOff).NamesSectors ↔
    unat (sectOff * 512) < 2 ^ 32 ∨ 2 ^ 63 ≤ unat (sectOff * 512) := by
  have hmod := unat_mul_mod sectOff (b := 512) (by decide)
  have hd := toNat_dumpOffset (sectOff * 512)
  have hnames (p : Pread) (hp : p.offset = sectOff * 512) (data : List UInt8) (hlen : data.length = 512) :
      Names p 0 (data, (sectOff * 512).toUInt64.toUInt32) ↔
        (0 < p.data.length → unat (sectOff * 512) % 2 ^ 32 = unat (sectOff * 512)) := by
    rw [names_iff (by rw [hp, hmod]) (by simp only [hd]; omega) (by simp [hlen]), hp]
    simp only [hd, hlen, Nat.zero_mul, Nat.add_zero]
    exact forall_prop_of_true (by decide)
  constructor
  · intro h
    by_contra hcon
    let s : Sys := ⟨endless, [], [], []⟩
    have hrun := doReadOneSect_ok (by decide : ¬ (512 : Int64) < 0) sectOff (fun _ => 0) [] s
    have hp : Pread.Valid ⟨sectOff * 512, SECTOR_SIZE, 512, s.got (sectOff * 512) 512⟩ :=
      valid_endless (n := 512) rfl (by omega) rfl (by decide) (by decide)
    have hg := h (doReadOneSect sectOff (some fun _ => 0) [512] s).2 ⟨_, _, _, rfl⟩ (by
      rw [hrun]
      exact List.forall_mem_singleton.mpr hp)
    rw [hrun] at hg
    have hname := names_of_grouped hg (s := s) rfl (pread_okReads (by decide) (fun _ => 0) _)
      (dump_dumps _ _ _ _) rfl (j := 0) rfl
    have hlen : (s.got (sectOff * 512) 512).length = 512 := got_endless rfl (by omega) rfl (by decide)
    have heq := (hnames _ rfl _ (by simp)).mp hname (by rw [hlen]; decide)
    omega
  · rintro hu s ⟨mem, rs, f, rfl⟩ hv
    refine (oneSect_readsOnce sectOff mem rs _).grouped .nil (fun _ => rfl) hv fun r buf hr hp j d hj => ?_
    obtain ⟨rfl, rfl⟩ : j = 0 ∧ _ = d := by
      cases j with
      | zero => exact ⟨rfl, Option.some.inj hj⟩
      | succ j => simp at hj
    refine ⟨shows_pread_zero _ _ _, (hnames _ rfl _ (by simp)).mpr fun _ => ?_⟩
    have hpos : unat (sectOff * 512) < 2 ^ 63 := nonneg_iff_unat.mp (hp.resolve_left hr).1
    omega

/-! ## Pages -/

/-- A page that cannot be read is not dumped. -/
theorem onePage_grouped {pageOff : Int64} (h : 2 ^ 63 ≤ unat (pageOff * 4096)) {R : Pread → ℕ → List UInt8 × UInt32 → Prop}
    {mem : Option Mem} {rs : List Int64} {s : Sys} (hg : Grouped 8 R s.okReads s.dumps)
    (hv : ∀ p ∈ (doReadOnePage pageOff mem rs s).2.reads, p.Valid) :
    Grouped 8 R (doReadOnePage pageOff mem rs s).2.okReads (doReadOnePage pageOff mem rs s).2.dumps := by
  refine (onePage_readsOnce pageOff mem rs s).grouped hg (fun _ => rfl) hv fun r buf hr hp => ?_
  exact absurd (nonneg_iff_unat.mp (hp.resolve_left hr).1) (Nat.not_lt.mpr h)

theorem onePage_valid {pageOff : Int64} (h : unat (pageOff * 4096) < 2 ^ 63) {s : Sys} (hs : s.file = endless)
    (hv : ∀ p ∈ s.reads, p.Valid) :
    ∀ p ∈ (doReadOnePage pageOff (some fun _ => 0) [0, 4096] s).2.reads, p.Valid := by
  rw [doReadOnePage_ok (by decide) (by decide), dumpPage_reads]
  have hp : Pread.Valid ⟨pageOff * 4096, 4096, 4096, s.got (pageOff * 4096) 4096⟩ :=
    valid_endless (n := 4096) hs h rfl (by decide) (by decide)
  exact List.forall_mem_append.mpr ⟨hv, List.forall_mem_singleton.mpr hp⟩

/-- The second dump of a page that can be read has the header of the first. -/
theorem page_misnamed {pageOff : Int64} (h : unat (pageOff * 4096) < 2 ^ 63) {s s' : Sys} (hs : s.file = endless)
    (hlen : s.dumps.length = 8 * s.okReads.length)
    (hok : s'.okReads = (doReadOnePage pageOff (some fun _ => 0) [0, 4096] s).2.okReads)
    (hd : s'.dumps = (doReadOnePage pageOff (some fun _ => 0) [0, 4096] s).2.dumps) :
    ¬ s'.Labelled 8 := by
  intro hg
  rw [doReadOnePage_ok (by decide) (by decide)] at hok hd
  simp only [dumpPage_dumps, pread_dumps] at hd
  have hok' : s'.okReads = s.okReads ++ [⟨pageOff * 4096, 4096, 4096, s.got (pageOff * 4096) 4096⟩] := by
    rw [hok, ← pread_okReads (by decide) (fun _ => 0)]
    exact congrArg (List.filter _) (dumpPage_reads _ _ _)
  have hname := names_of_grouped hg hlen hok' hd rfl (j := 1) rfl
  have hgot : (s.got (pageOff * 4096) 4096).length = 4096 := got_endless hs h rfl (by decide)
  have hmod := unat_mul_mod pageOff (b := 4096) (by decide)
  have hoff := toNat_dumpOffset (pageOff * 4096)
  rw [names_iff hmod (by simp only [hoff]; omega) (by simp)] at hname
  have heq := hname (by simp) (by rw [hgot]; decide)
  simp only [hoff] at heq
  omega

theorem onePage_names_iff (pageOff : Int64) :
    (DumpCmd.onePage pageOff).NamesSectors ↔ 2 ^ 63 ≤ unat (pageOff * 4096) := by
  constructor
  · intro h
    by_contra hu
    let s : Sys := ⟨endless, [], [], []⟩
    exact page_misnamed (s := s) (Nat.not_le.mp hu) rfl rfl rfl rfl
      (h _ ⟨_, _, _, rfl⟩ (onePage_valid (Nat.not_le.mp hu) rfl (List.forall_mem_nil _)))
  · rintro hu s ⟨mem, rs, f, rfl⟩ hv
    exact onePage_grouped hu .nil hv

section Loop

variable {pageOff pageCnt : Int64} {i : Int32} {s : Sys}

/-- One turn of the loop of `do_read_pages`. -/
def pageTurn (pageOff : Int64) (i : Int32) (s : Sys) (x : Option Mem × Int64 × Int64) : Sys :=
  (doReadOnePage (pageOff + i.toInt64) x.1 [x.2.1, x.2.2] (s.print (.printingPage i))).2.print .blankLines

theorem doReadPages_cons (hi : i.toInt64 < pageCnt) (s : Sys) (x : Option Mem × Int64 × Int64)
    (answers : List (Option Mem × Int64 × Int64)) : doReadPages pageOff pageCnt i s (x :: answers) =
      doReadPages pageOff pageCnt (i + 1) (pageTurn pageOff i s x) answers :=
  if_pos hi

theorem doReadPages_of_le (hi : ¬ i.toInt64 < pageCnt) (s : Sys) (answers : List (Option Mem × Int64 × Int64)) :
    doReadPages pageOff pageCnt i s answers = s := by
  cases answers with
  | nil => rfl
  | cons x answers => exact if_neg hi

theorem pageTurn_dumps (x : Option Mem × Int64 × Int64) : (pageTurn pageOff i s x).dumps =
    (doReadOnePage (pageOff + i.toInt64) x.1 [x.2.1, x.2.2] (s.print (.printingPage i))).2.dumps :=
  print_dumps _ rfl

theorem pageTurn_reads (x : Option Mem × Int64 × Int64) : (pageTurn pageOff i s x).reads =
    (doReadOnePage (pageOff + i.toInt64) x.1 [x.2.1, x.2.2] (s.print (.printingPage i))).2.reads := rfl

theorem pageTurn_okReads (x : Option Mem × Int64 × Int64) : (pageTurn pageOff i s x).okReads =
    (doReadOnePage (pageOff + i.toInt64) x.1 [x.2.1, x.2.2] (s.print (.printingPage i))).2.okReads := rfl

theorem doReadPages_reads (answers : List (Option Mem × Int64 × Int64)) (i : Int32) (s : Sys) :
    s.reads <+: (doReadPages pageOff pageCnt i s answers).reads := by
  induction answers generalizing i s with
  | nil => exact List.prefix_rfl
  | cons x answers ih =>
    by_cases hi : i.toInt64 < pageCnt
    · rw [doReadPages_cons hi]
      exact (onePage_readsOnce _ _ _ (s.print (.printingPage i))).reads.trans (ih (i + 1) (pageTurn pageOff i s x))
    · rw [doReadPages_of_le hi]

/-- The pages that the loop can come to: an `int` counts them. -/
def Reached (pageCnt : Int64) (n : ℕ) : Prop := ∀ m ≤ n, (Int32.ofNat m).toInt64 < pageCnt

theorem doReadPages_grouped {R : Pread → ℕ → List UInt8 × UInt32 → Prop}
    (h : ∀ n, Reached pageCnt n → 2 ^ 63 ≤ unat ((pageOff + (Int32.ofNat n).toInt64) * 4096))
    (answers : List (Option Mem × Int64 × Int64)) (n : ℕ) (s : Sys) (hn : ∀ m < n, (Int32.ofNat m).toInt64 < pageCnt)
    (hg : Grouped 8 R s.okReads s.dumps)
    (hv : ∀ p ∈ (doReadPages pageOff pageCnt (Int32.ofNat n) s answers).reads, p.Valid) :
    Grouped 8 R (doReadPages pageOff pageCnt (Int32.ofNat n) s answers).okReads
      (doReadPages pageOff pageCnt (Int32.ofNat n) s answers).dumps := by
  induction answers generalizing n s with
  | nil => exact hg
  | cons x answers ih =>
    by_cases hi : (Int32.ofNat n).toInt64 < pageCnt
    · have hreached : Reached pageCnt n := fun m hm => hm.lt_or_eq.elim (hn m) fun hm => hm ▸ hi
      rw [doReadPages_cons hi, ofNat_add_one] at hv ⊢
      have hturn : Grouped 8 R (pageTurn pageOff (Int32.ofNat n) s x).okReads
          (pageTurn pageOff (Int32.ofNat n) s x).dumps := by
        rw [pageTurn_dumps]
        refine onePage_grouped (h n hreached) ?_ fun p hp => hv p ((doReadPages_reads _ _ _).subset hp)
        rwa [print_dumps _ rfl]
      exact ih (n + 1) _ (fun m hm => hreached m (Nat.lt_succ_iff.mp hm)) hturn hv
    · rwa [doReadPages_of_le hi]

/-- The answers for a page that `lseek` does not find. -/
def noPage : Option Mem × Int64 × Int64 := (some fun _ => 0, -1, 0)

theorem doReadPages_skip (pageOff : Int64) (rest : List (Option Mem × Int64 × Int64)) (k n : ℕ) (s : Sys)
    (hn : ∀ m < n + k, (Int32.ofNat m).toInt64 < pageCnt) :
    ∃ s', doReadPages pageOff pageCnt (Int32.ofNat n) s (List.replicate k noPage ++ rest) =
        doReadPages pageOff pageCnt (Int32.ofNat (n + k)) s' rest ∧
      s'.file = s.file ∧ s'.reads = s.reads ∧ s'.dumps = s.dumps := by
  induction k generalizing n s with
  | zero => exact ⟨s, rfl, rfl, rfl, rfl⟩
  | succ k ih =>
    obtain ⟨s', heq, hfile, hreads, hdumps⟩ := ih (n + 1) (pageTurn pageOff (Int32.ofNat n) s noPage)
      fun m hm => hn m (by omega)
    refine ⟨s', ?_, hfile, hreads, ?_⟩
    · rw [List.replicate_succ, List.cons_append, doReadPages_cons (hn n (by omega)), ofNat_add_one, heq, Nat.add_right_comm,
        Nat.add_assoc]
    · rw [hdumps, pageTurn_dumps]
      exact (print_dumps _ rfl).trans (print_dumps _ rfl)

theorem pages_names_iff (pageOff pageCnt : Int64) : (DumpCmd.pages pageOff pageCnt).NamesSectors ↔
    ∀ n, Reached pageCnt n → 2 ^ 63 ≤ unat ((pageOff + (Int32.ofNat n).toInt64) * 4096) := by
  constructor
  · intro h n hn
    by_contra hu
    let s : Sys := ⟨endless, [], [], []⟩
    let page : Option Mem × Int64 × Int64 := (some fun _ => 0, 0, 4096)
    obtain ⟨s', heq, hfile, hreads, hdumps⟩ := doReadPages_skip pageOff [page] n 0 s
      fun m hm => hn m (by omega)
    rw [Nat.zero_add, doReadPages_cons (hn n le_rfl)] at heq
    have hfile' : (s'.print (.printingPage (Int32.ofNat n))).file = endless := hfile
    refine page_misnamed (Nat.not_le.mp hu) hfile' ?_ (pageTurn_okReads page) (pageTurn_dumps page)
      (h _ ⟨_, endless, heq.symm⟩ ?_)
    · rw [print_dumps _ rfl, hdumps, print_okReads, Sys.okReads, hreads]
      rfl
    · rw [pageTurn_reads]
      refine onePage_valid (Nat.not_le.mp hu) hfile' ?_
      rw [Sys.print, hreads]
      exact List.forall_mem_nil _
  · rintro h s ⟨answers, f, rfl⟩ hv
    exact doReadPages_grouped h answers 0 _ (by simp) .nil hv

end Loop

end CppNotes.Iotool
