import Mathlib.Data.List.Basic
import Mathlib.Data.List.GetD

/-!
# A buffer between two pointers

A buffer of `cap` cells is filled at `iptr` and emptied at `optr`; what it holds stands between the two.  The pointers only
move on; when they meet, both go back to the start (`Window.rewind`).

* `Window.put` — more cells behind the others, if there is room for them;
* `Window.take` — cells are taken off the front;
* `Window.content` — what the buffer holds, and how each operation changes it.
-/

namespace CppNotes.Lib

structure Window (α : Type) (cap : ℕ) where
  mem : ℕ → α
  iptr : ℕ
  optr : ℕ
  le : optr ≤ iptr
  fits : iptr ≤ cap

namespace Window

variable {α : Type} {cap : ℕ}

def content (w : Window α cap) : List α := (List.range (w.iptr - w.optr)).map fun i => w.mem (w.optr + i)

def room (w : Window α cap) : ℕ := cap - w.iptr

def start (mem : ℕ → α) : Window α cap := ⟨mem, 0, 0, Nat.le_refl 0, Nat.zero_le _⟩

theorem put_fits {w : Window α cap} {bs : List α} (h : bs.length ≤ w.room) : w.iptr + bs.length ≤ cap := by
  have := w.fits
  unfold room at h
  omega

def put (w : Window α cap) (bs : List α) (h : bs.length ≤ w.room) : Window α cap where
  mem i := if w.iptr ≤ i then bs.getD (i - w.iptr) (w.mem i) else w.mem i
  iptr := w.iptr + bs.length
  optr := w.optr
  le := Nat.le_trans w.le (Nat.le_add_right _ _)
  fits := put_fits h

theorem take_le {w : Window α cap} {n : ℕ} (h : n ≤ w.iptr - w.optr) : w.optr + n ≤ w.iptr := by
  have := w.le
  omega

def take (w : Window α cap) (n : ℕ) (h : n ≤ w.iptr - w.optr) : Window α cap where
  mem := w.mem
  iptr := w.iptr
  optr := w.optr + n
  le := take_le h
  fits := w.fits

/-- Back to the start, if the pointers have met. -/
def rewind (w : Window α cap) : Window α cap := if w.optr = w.iptr then start w.mem else w

variable {w : Window α cap} {bs : List α} {n : ℕ}

@[simp]
theorem content_length : w.content.length = w.iptr - w.optr := by
  simp [content]

theorem content_eq_nil : w.content = [] ↔ w.optr = w.iptr := by
  have := w.le
  rw [← List.length_eq_zero_iff, content_length]
  omega

@[simp]
theorem content_start (mem : ℕ → α) : (start mem : Window α cap).content = [] := rfl

theorem content_put (h : bs.length ≤ w.room) : (w.put bs h).content = w.content ++ bs := by
  have hle := w.le
  refine List.ext_getElem ?_ fun i h₁ h₂ => ?_
  · simp only [content_length, put, List.length_append]
    omega
  · simp only [content_length, put, List.length_append] at h₁ h₂
    by_cases hi : i < w.iptr - w.optr
    · have hlt : ¬ w.iptr ≤ w.optr + i := by omega
      rw [List.getElem_append_left (by simpa using hi)]
      simp [content, put, hlt]
    · have hge : w.iptr ≤ w.optr + i := by omega
      have hsub : w.optr + i - w.iptr = i - (w.iptr - w.optr) := by omega
      rw [List.getElem_append_right (by simpa using hi)]
      simp only [content, put, List.getElem_map, List.getElem_range, if_pos hge, List.length_map, List.length_range, hsub]
      rw [List.getD_eq_getElem]

theorem put_nil (h : [].length ≤ w.room) : w.put [] h = w := by
  simp [put]

theorem content_take (h : n ≤ w.iptr - w.optr) : (w.take n h).content = w.content.drop n := by
  refine List.ext_getElem ?_ fun i h₁ h₂ => ?_
  · simp only [content_length, take, List.length_drop]
    omega
  · simp [content, take, Nat.add_assoc]

@[simp]
theorem content_rewind : w.rewind.content = w.content := by
  unfold rewind
  split
  · rename_i h
    rw [content_start, content_eq_nil.mpr h]
  · rfl

/-- A buffer that is always rewound is at its start when it is empty. -/
theorem iptr_rewind (h : w.rewind.content = []) : w.rewind.iptr = 0 := by
  rw [content_rewind, content_eq_nil] at h
  simp [rewind, h, start]

theorem rewind_iptr_le : w.rewind.iptr ≤ w.iptr := by
  unfold rewind
  split
  · exact Nat.zero_le _
  · exact Nat.le_refl _

theorem content_put_ne_nil (h : bs.length ≤ w.room) (hbs : bs ≠ []) : (w.put bs h).content ≠ [] := by
  rw [content_put]
  simp [hbs]

end Window

end CppNotes.Lib
