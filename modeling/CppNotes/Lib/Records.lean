import Mathlib.Data.List.Basic
import Mathlib.Data.List.Nodup

/-!
# Files made of records

A file whose bytes are the encodings of a list of records, one after the other.  A record is named by the offset at which it
starts, as a file that points into itself does.

* `splice z l off s` — the file after `s` was written at `off`; the hole that a write past the end leaves holds `z`.
* `offs enc base es` — where the records start, the first of them at `base`.
* `recAt enc base es o` — the record that starts at `o`.
* `setAt enc base es o e` — the records after the one at `o` was replaced by `e`.

A record may only be replaced by one of the same length; then no other record moves.
-/

namespace CppNotes.Lib

variable {α ε : Type}

def splice (z : α) (l : List α) (off : ℕ) (s : List α) : List α :=
  l.take off ++ List.replicate (off - l.length) z ++ s ++ l.drop (off + s.length)

/-- A part is replaced by one of the same length. -/
theorem splice_mid (z : α) (a c : List α) {b s : List α} (h : s.length = b.length) :
    splice z (a ++ b ++ c) a.length s = a ++ s ++ c := by
  have hr : a.length - (a ++ b ++ c).length = 0 := by
    simp only [List.length_append]
    omega
  have hd : (a ++ b ++ c).drop (a.length + s.length) = c := by
    rw [h, ← List.length_append, List.drop_left]
  rw [splice, hr, hd, List.append_assoc a b c, List.take_left]
  simp

/-- A part is added at the end. -/
theorem splice_end (z : α) (l s : List α) : splice z l l.length s = l ++ s := by
  simp [splice]

section Offsets

variable (enc : ε → List α)

def offs : ℕ → List ε → List ℕ
  | _, [] => []
  | base, e :: es => base :: offs (base + (enc e).length) es

def recAt : ℕ → List ε → ℕ → Option ε
  | _, [], _ => none
  | base, e :: es, o => if o = base then some e else recAt (base + (enc e).length) es o

def setAt : ℕ → List ε → ℕ → ε → List ε
  | _, [], _, _ => []
  | base, e :: es, o, e' => if o = base then e' :: es else e :: setAt (base + (enc e).length) es o e'

variable {enc} {base o o' : ℕ} {e e' : ε} {es es₁ es₂ : List ε}

theorem offs_append : offs enc base (es₁ ++ es₂) =
    offs enc base es₁ ++ offs enc (base + (es₁.flatMap enc).length) es₂ := by
  induction es₁ generalizing base with
  | nil => simp [offs]
  | cons e es ih =>
    simp only [List.cons_append, offs, ih, List.flatMap_cons, List.length_append]
    rw [Nat.add_assoc]

theorem length_offs : (offs enc base es).length = es.length := by
  induction es generalizing base with
  | nil => rfl
  | cons e es ih => simp [offs, ih]

theorem recAt_append : recAt enc base (es₁ ++ es₂) o =
    (recAt enc base es₁ o).or (recAt enc (base + (es₁.flatMap enc).length) es₂ o) := by
  induction es₁ generalizing base with
  | nil => simp [recAt]
  | cons e es ih =>
    simp only [List.cons_append, recAt, ih, List.flatMap_cons, List.length_append]
    split
    · rfl
    · rw [Nat.add_assoc]

theorem recAt_isSome : (recAt enc base es o).isSome = true ↔ o ∈ offs enc base es := by
  induction es generalizing base with
  | nil => simp [recAt, offs]
  | cons e es ih =>
    simp only [recAt, offs, List.mem_cons]
    split
    · rename_i h
      simp [h]
    · rename_i h
      rw [ih]
      simp [h]

theorem mem_of_recAt (h : recAt enc base es o = some e) : e ∈ es := by
  induction es generalizing base with
  | nil => simp [recAt] at h
  | cons f es ih =>
    simp only [recAt] at h
    split at h
    · obtain rfl := Option.some.inj h
      exact List.mem_cons_self
    · exact List.mem_cons_of_mem _ (ih h)

/-- What stands before and after the record. -/
theorem recAt_split (h : recAt enc base es o = some e) :
    ∃ es₁ es₂, es = es₁ ++ e :: es₂ ∧ o = base + (es₁.flatMap enc).length ∧
      ∀ e', setAt enc base es o e' = es₁ ++ e' :: es₂ := by
  induction es generalizing base with
  | nil => simp [recAt] at h
  | cons f es ih =>
    simp only [recAt] at h
    split at h
    · rename_i ho
      obtain rfl := Option.some.inj h
      exact ⟨[], es, rfl, by simp [ho], fun e' => by simp [setAt, ho]⟩
    · rename_i ho
      obtain ⟨es₁, es₂, rfl, hoff, hset⟩ := ih h
      refine ⟨f :: es₁, es₂, rfl, ?_, fun e' => ?_⟩
      · rw [List.flatMap_cons, List.length_append, hoff]
        omega
      · simp [setAt, ho, hset e']

theorem recAt_bounds (h : recAt enc base es o = some e) :
    base ≤ o ∧ o + (enc e).length ≤ base + (es.flatMap enc).length := by
  obtain ⟨es₁, es₂, rfl, rfl, -⟩ := recAt_split h
  simp only [List.flatMap_append, List.flatMap_cons, List.length_append]
  omega

/-! ### Replacing a record -/

section Replace

variable (h : recAt enc base es o = some e)

include h

variable (hlen : (enc e').length = (enc e).length)

include hlen

theorem offs_setAt : offs enc base (setAt enc base es o e') = offs enc base es := by
  obtain ⟨es₁, es₂, rfl, -, hset⟩ := recAt_split h
  rw [hset, offs_append, offs_append]
  simp only [offs, hlen]

theorem recAt_setAt (o' : ℕ) : recAt enc base (setAt enc base es o e') o' = if o' = o then some e' else recAt enc base es o' := by
  induction es generalizing base with
  | nil => simp [recAt] at h
  | cons f es ih =>
    simp only [recAt, setAt] at h ⊢
    by_cases ho : o = base
    · rw [if_pos ho] at h ⊢
      obtain rfl := Option.some.inj h
      simp only [recAt, hlen, ho]
      split <;> rfl
    · rw [if_neg ho] at h ⊢
      simp only [recAt]
      rw [ih h]
      by_cases h' : o' = base
      · rw [if_pos h', if_pos h', if_neg (by omega)]
      · rw [if_neg h', if_neg h']

end Replace

/-! ### Records that are not empty -/

section Nonempty

variable (hpos : ∀ e ∈ es, 0 < (enc e).length)

include hpos

theorem offs_nodup : (offs enc base es).Nodup := by
  induction es generalizing base with
  | nil => exact List.nodup_nil
  | cons e es ih =>
    have he := hpos e List.mem_cons_self
    refine List.nodup_cons.mpr ⟨fun hmem => ?_, ih fun f hf => hpos f (List.mem_cons_of_mem _ hf)⟩
    obtain ⟨f, hf⟩ := Option.isSome_iff_exists.mp (recAt_isSome.mpr hmem)
    have := (recAt_bounds hf).1
    omega

theorem length_le_flatMap : es.length ≤ (es.flatMap enc).length := by
  induction es with
  | nil => simp
  | cons e es ih =>
    have he := hpos e List.mem_cons_self
    have hes := ih fun f hf => hpos f (List.mem_cons_of_mem _ hf)
    rw [List.flatMap_cons, List.length_append, List.length_cons]
    omega

/-- No record starts where the last one ends. -/
theorem recAt_end : recAt enc base es (base + (es.flatMap enc).length) = none := by
  refine Option.eq_none_iff_forall_ne_some.mpr fun e he => ?_
  have h₁ := (recAt_bounds he).2
  have h₂ := hpos e (mem_of_recAt he)
  omega

/-- A record that is added at the end. -/
theorem recAt_concat (e : ε) (o : ℕ) : recAt enc base (es ++ [e]) o =
    if o = base + (es.flatMap enc).length then some e else recAt enc base es o := by
  rw [recAt_append]
  simp only [recAt]
  split
  · rename_i ho
    rw [ho, recAt_end hpos]
    rfl
  · simp

end Nonempty

end Offsets

end CppNotes.Lib
