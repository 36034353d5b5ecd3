import Mathlib.Data.UInt
import Mathlib.Data.List.Basic

/-!
# Byte files

A file is a size and its bytes; a read past the end finds nothing, and the hole that a write past the end
leaves is zero.  The bytes are a function that vanishes beyond the size, so that the file after a write can
be described byte by byte.

* `File.write f off n src` — the file after `n` bytes of the memory `src` were written at `off`;
* `File.fill f off n c` — the same with every byte `c`;
* `File.read f off n` — the bytes that a read of up to `n` bytes at `off` returns.
-/

namespace CppNotes.Lib

@[ext] structure File where
  size : ℕ
  byte : ℕ → UInt8
  beyond : ∀ i, size ≤ i → byte i = 0

namespace File

def empty : File := ⟨0, fun _ => 0, fun _ _ => rfl⟩

/-- Writing no byte leaves the size alone. -/
def write (f : File) (off n : ℕ) (src : ℕ → UInt8) : File where
  size := if n = 0 then f.size else max f.size (off + n)
  byte i := if off ≤ i ∧ i < off + n then src (i - off) else f.byte i
  beyond i hi := by
    split at hi
    · rw [if_neg (by omega)]
      exact f.beyond i hi
    · rw [if_neg (by omega)]
      exact f.beyond i (by omega)

def fill (f : File) (off n : ℕ) (c : UInt8) : File := f.write off n fun _ => c

def read (f : File) (off n : ℕ) : List UInt8 := (List.range (min n (f.size - off))).map fun i => f.byte (off + i)

variable {f : File} {off n m i : ℕ} {src src' : ℕ → UInt8}

theorem write_byte_of_mem (h₁ : off ≤ i) (h₂ : i < off + n) : (f.write off n src).byte i = src (i - off) :=
  if_pos ⟨h₁, h₂⟩

theorem write_byte_of_not_mem (h : ¬ (off ≤ i ∧ i < off + n)) : (f.write off n src).byte i = f.byte i :=
  if_neg h

theorem write_zero : f.write off 0 src = f := by
  ext i
  · simp [write]
  · exact congrArg _ (write_byte_of_not_mem (by omega))

/-- Only the bytes that are written matter. -/
theorem write_congr (h : ∀ i < n, src i = src' i) : f.write off n src = f.write off n src' := by
  ext i
  · rfl
  · by_cases hi : off ≤ i ∧ i < off + n
    · rw [write_byte_of_mem hi.1 hi.2, write_byte_of_mem hi.1 hi.2, h (i - off) (by omega)]
    · rw [write_byte_of_not_mem hi, write_byte_of_not_mem hi]

/-- Two adjacent writes are one. -/
theorem write_write : (f.write off n src).write (off + n) m src' =
    f.write off (n + m) fun i => if i < n then src i else src' (i - n) := by
  ext i
  · simp only [write]
    split <;> split <;> split <;> omega
  · by_cases h₁ : off + n ≤ i ∧ i < off + n + m
    · rw [write_byte_of_mem h₁.1 h₁.2, write_byte_of_mem (by omega) (by omega), if_neg (by omega), Nat.sub_sub]
    · rw [write_byte_of_not_mem h₁]
      by_cases h₂ : off ≤ i ∧ i < off + n
      · rw [write_byte_of_mem h₂.1 h₂.2, write_byte_of_mem (by omega) (by omega), if_pos (by omega)]
      · rw [write_byte_of_not_mem h₂, write_byte_of_not_mem (by omega)]

theorem fill_fill (c : UInt8) : (f.fill off n c).fill (off + n) m c = f.fill off (n + m) c := by
  unfold fill
  rw [write_write]
  exact write_congr fun i _ => ite_self c

/-- Writes to disjoint ranges commute. -/
theorem write_comm {off' : ℕ} (h : ∀ i, ¬ ((off ≤ i ∧ i < off + n) ∧ off' ≤ i ∧ i < off' + m)) :
    (f.write off n src).write off' m src' = (f.write off' m src').write off n src := by
  ext i
  · simp only [write]
    split <;> split <;> omega
  · by_cases h₁ : off ≤ i ∧ i < off + n
    · have h₂ : ¬ (off' ≤ i ∧ i < off' + m) := fun h₂ => h i ⟨h₁, h₂⟩
      rw [write_byte_of_not_mem h₂, write_byte_of_mem h₁.1 h₁.2, write_byte_of_mem h₁.1 h₁.2]
    · rw [write_byte_of_not_mem h₁]
      by_cases h₂ : off' ≤ i ∧ i < off' + m
      · rw [write_byte_of_mem h₂.1 h₂.2, write_byte_of_mem h₂.1 h₂.2]
      · rw [write_byte_of_not_mem h₂, write_byte_of_not_mem h₂, write_byte_of_not_mem h₁]

end File

end CppNotes.Lib
