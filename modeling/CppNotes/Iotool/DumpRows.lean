import CppNotes.Iotool.Dump

/-!
# The rows of a dump

A row of a dump shows its 32 bytes twice, as numbers and behind them as characters.  `prt_sect_data` prints the
characters in the turn of the row's last byte, the 32-nd, so a last row that is not full has its numbers only.
-/

namespace CppNotes.Iotool

open CppNotes.Lib

/-- What is shown of a byte: its number or its character. -/
inductive Cell where
  | hex (b : UInt8)
  | char (c : UInt8)
  deriving DecidableEq

/-- The cell that a piece is; a character that is not printed itself is a star or a full stop. -/
def Piece.cell? : Piece → Option Cell
  | hex b => some (.hex b)
  | char c => some (.char c)
  | text s => if s = "*" then some (.char '*'.toUInt8) else if s = "." then some (.char '.'.toUInt8) else none
  | _ => none

/-! ## What a dump is for -/

/-- The character for a byte. -/
def shownAs (b : UInt8) : UInt8 := if isPrintable b then b else if b ≠ 0 then '*'.toUInt8 else '.'.toUInt8

def dumpRow (data : List UInt8) (r : ℕ) : List UInt8 := (data.drop (32 * r)).take 32

/-- The numbers of a row and behind them its characters. -/
def rowCells (row : List UInt8) : List Cell := row.map Cell.hex ++ row.map fun b => Cell.char (shownAs b)

/-- All rows; the last one has less than 32 bytes, or none. -/
def dumpCells (data : List UInt8) : List Cell :=
  (List.range (data.length / 32 + 1)).flatMap fun r => rowCells (dumpRow data r)

/-- The dump shows every byte in both columns of its row. -/
def ShowsRows (data : List UInt8) (offset : UInt32) : Prop :=
  (prtSectData data offset).filterMap Piece.cell? = dumpCells data

/-! ## The cells of a turn -/

section Turn

variable {data : List UInt8} {offset : UInt32} {i : ℕ}

theorem prtGap_cells : (prtGap i).filterMap Piece.cell? = [] := by
  unfold prtGap
  split_ifs <;> rfl

theorem prtChar_cells (k : ℕ) : (prtChar data k).filterMap Piece.cell? = [.char (shownAs (data.getD k 0))] := by
  unfold prtChar shownAs
  simp only
  split_ifs <;> rfl

theorem prtByte_cells : (prtByte data offset i).filterMap Piece.cell? =
    rowTurn 32 (fun k => .hex (data.getD k 0)) (fun k => .char (shownAs (data.getD k 0))) i := by
  have hsector : (prtSector offset i).filterMap Piece.cell? = [] := by
    unfold prtSector
    split_ifs <;> rfl
  have hposition : (prtPosition i).filterMap Piece.cell? = [] := by
    unfold prtPosition
    split_ifs <;> rfl
  have hchars : (prtChars data i).filterMap Piece.cell? =
      if (i + 1) % 32 = 0 then (List.range' (i + 1 - 32) 32).map fun k => .char (shownAs (data.getD k 0)) else [] := by
    unfold prtChars
    split_ifs
    · simp only [List.filterMap_flatMap, prtChar_cells, List.map_eq_flatMap]
    · rfl
  rw [prtByte, List.filterMap_append, List.filterMap_append, List.filterMap_append, List.filterMap_append, hsector,
    hposition, prtGap_cells, hchars]
  rfl

end Turn

/-! ## The cells of a dump -/

theorem rowCells_dumpRow {data : List UInt8} {r : ℕ} (h : 32 * r + 32 ≤ data.length) :
    rowCells (dumpRow data r) = (List.range' (32 * r) 32).map (fun k => Cell.hex (data.getD k 0)) ++
      (List.range' (32 * r) 32).map fun k => Cell.char (shownAs (data.getD k 0)) := by
  rw [dumpRow, ← map_getD_range' data 0 h, rowCells, List.map_map, List.map_map]
  rfl

/-- The cells that are printed: the full rows, and the numbers of the last one. -/
theorem prtSectData_cells (data : List UInt8) (offset : UInt32) : (prtSectData data offset).filterMap Piece.cell? =
    ((List.range (data.length / 32)).flatMap fun r => rowCells (dumpRow data r)) ++
      (dumpRow data (data.length / 32)).map .hex := by
  have hrows : (List.range (data.length / 32)).flatMap (fun r => rowCells (dumpRow data r)) = _ :=
    List.flatMap_congr fun r hr => rowCells_dumpRow (by have := List.mem_range.mp hr; omega)
  have hlast : dumpRow data (data.length / 32) = (List.range' (32 * (data.length / 32)) (data.length % 32)).map
      fun i => data.getD i 0 := by
    rw [map_getD_range' data 0 (by omega), dumpRow, List.take_of_length_le (by rw [List.length_drop]; omega),
      List.take_of_length_le (by rw [List.length_drop]; omega)]
  have hframe : [Piece.text ruleText, .text columnsText].filterMap Piece.cell? = [] := rfl
  rw [prtSectData, List.filterMap_append, List.filterMap_append, hframe, List.nil_append, List.filterMap_flatMap]
  simp only [prtByte_cells]
  rw [range_flatMap_rowTurn (by decide), hrows, hlast, List.map_map]
  exact List.append_nil _

theorem dumpCells_eq (data : List UInt8) : dumpCells data =
    ((List.range (data.length / 32)).flatMap fun r => rowCells (dumpRow data r)) ++
      rowCells (dumpRow data (data.length / 32)) := by
  rw [dumpCells, List.range_succ, List.flatMap_append, List.flatMap_singleton]

/-- The characters of the last row are missing, unless there are none. -/
theorem showsRows_iff_last (data : List UInt8) (offset : UInt32) :
    ShowsRows data offset ↔ dumpRow data (data.length / 32) = [] := by
  rw [ShowsRows, prtSectData_cells, dumpCells_eq, List.append_cancel_left_eq, rowCells]
  constructor
  · intro h
    have hlen := congrArg List.length h
    rw [List.length_append, List.length_map, List.length_map] at hlen
    exact List.length_eq_zero_iff.mp (by omega)
  · intro h
    rw [h]
    rfl

/-- **Every byte has its character** if the bytes fill their rows, and only then. -/
theorem dump_shows_rows_iff (data : List UInt8) (offset : UInt32) : ShowsRows data offset ↔ 32 ∣ data.length := by
  rw [showsRows_iff_last, dumpRow, List.take_eq_nil_iff, List.drop_eq_nil_iff]
  omega

/-- The character of a single byte is not printed. -/
theorem dump_single_byte_not_shown : ¬ ∀ data offset, ShowsRows data offset := by
  intro h
  have hrow := (showsRows_iff_last [0x41] 0).mp (h [0x41] 0)
  exact absurd hrow (by decide)

end CppNotes.Iotool
