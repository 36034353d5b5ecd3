import CppNotes.Iotool.Dump
import CppNotes.Lib.Hex
import Mathlib.Data.Set.Function

/-!
# The text of a dump

The pieces of `prt_sect_data` as characters.  All that is printed for byte `i` is as long for one byte as for another, so
the place of its two hex digits in the text depends on `i` and the offset only, and the bytes can be read back from the
text, whatever the character column shows.
-/

namespace CppNotes.Iotool

open CppNotes.Lib

/-! ## The text -/

/-- A piece as it is printed; `%d` shows the number of a sector as an `int`. -/
def Piece.chars : Piece → List Char
  | .text s => s.toList
  | .sector n => "sector:".toList ++ (toString n.toInt32.toInt).toList ++ ['\n']
  | .address i => ['0', 'x'] ++ padHex 4 i ++ [' ', ' ', ' ']
  | .addressOdd i => ['0', 'x'] ++ padHex 4 i ++ ['*', ' ', ' ']
  | .hex b => padHex 2 b.toNat
  | .char c => [Char.ofNat c.toNat]

/-- The output of `prt_sect_data`. -/
def prtSectText (data : List UInt8) (offset : UInt32) : List Char := (prtSectData data offset).flatMap Piece.chars

/-- What is printed for byte `i`. -/
def byteText (data : List UInt8) (offset : UInt32) (i : ℕ) : List Char := (prtByte data offset i).flatMap Piece.chars

variable {data data' : List UInt8} {offset : UInt32} {i : ℕ}

theorem byteText_eq (data : List UInt8) (offset : UInt32) (i : ℕ) : byteText data offset i =
    (prtSector offset i ++ prtPosition i).flatMap Piece.chars ++ (hexDigits 2 (data.getD i 0).toNat ++
      ((prtGap i).flatMap Piece.chars ++ (prtChars data i).flatMap Piece.chars)) := by
  have hhex : (Piece.hex (data.getD i 0)).chars = hexDigits 2 (data.getD i 0).toNat :=
    padHex_of_lt (by decide) (UInt8.toNat_lt _)
  rw [byteText, prtByte, List.flatMap_append, List.flatMap_append, List.flatMap_append, List.flatMap_singleton, hhex,
    List.append_assoc, List.append_assoc]

theorem prtSectText_eq (data : List UInt8) (offset : UInt32) : prtSectText data offset =
    [Piece.text ruleText, .text columnsText].flatMap Piece.chars ++
      ((List.range data.length).flatMap (byteText data offset) ++ [Piece.text "\n"].flatMap Piece.chars) := by
  rw [prtSectText, prtSectData, List.flatMap_append, List.flatMap_append, List.flatMap_assoc, List.append_assoc]
  rfl

/-- A byte takes one place in the character column, however it is shown. -/
theorem prtChar_length (data data' : List UInt8) (k : ℕ) :
    ((prtChar data k).flatMap Piece.chars).length = ((prtChar data' k).flatMap Piece.chars).length := by
  have hone (data : List UInt8) : ((prtChar data k).flatMap Piece.chars).length = 1 +
      (((if (k + 1) % 16 = 0 then [Piece.text " "] else []) ++
        if (k + 1) % 32 = 0 then [Piece.text "\n"] else []).flatMap Piece.chars).length := by
    unfold prtChar
    rw [List.cons_append, List.flatMap_cons, List.length_append]
    congr 1
    split_ifs <;> rfl
  rw [hone, hone]

theorem prtChars_length (data data' : List UInt8) (i : ℕ) :
    ((prtChars data i).flatMap Piece.chars).length = ((prtChars data' i).flatMap Piece.chars).length := by
  unfold prtChars
  split_ifs
  · rw [List.flatMap_assoc, List.flatMap_assoc]
    exact length_flatMap_congr fun k _ => prtChar_length data data' k
  · rfl

theorem byteText_length (data data' : List UInt8) (offset : UInt32) (i : ℕ) :
    (byteText data offset i).length = (byteText data' offset i).length := by
  simp only [byteText_eq, List.length_append, hexDigits_length, prtChars_length data data' i]

theorem byteText_pos (data : List UInt8) (offset : UInt32) (i : ℕ) : 0 < (byteText data offset i).length := by
  rw [byteText_eq, List.length_append, List.length_append, hexDigits_length]
  omega

/-- The digits of byte `i` stand behind what does not depend on the bytes. -/
theorem byteText_inj (h : byteText data offset i = byteText data' offset i) : data.getD i 0 = data'.getD i 0 := by
  rw [byteText_eq, byteText_eq] at h
  have hhex := (List.append_inj (List.append_cancel_left h) (by rw [hexDigits_length, hexDigits_length])).1
  exact UInt8.toNat_inj.mp (hexDigits_inj (UInt8.toNat_lt _) (UInt8.toNat_lt _) hhex)

/-- **A dump loses nothing**: with one offset, different bytes make different texts. -/
theorem dump_text_injOn (offset : UInt32) :
    Set.InjOn (fun data => prtSectText data offset) {data | data.length < 2 ^ 31} := by
  intro data _ data' _ h
  simp only [prtSectText_eq] at h
  obtain ⟨hlen, hbytes⟩ := flatMap_range_inj (byteText_length data data' offset) (byteText_pos data offset)
    (List.append_cancel_right (List.append_cancel_left h))
  refine List.ext_getElem hlen fun i hi hi' => ?_
  rw [← List.getD_eq_getElem _ 0 hi, ← List.getD_eq_getElem _ 0 hi']
  exact byteText_inj (hbytes i hi)

end CppNotes.Iotool
