import Mathlib.Algebra.GroupWithZero.Nat
import Mathlib.Data.Finset.Card

/-!
# Intervals that cover a range

A list of intervals, each given by its start and its length, that covers a range has at least its length in all.
-/

namespace CppNotes.Lib

/-- The cells of the interval of length `b.2` from `b.1` on. -/
def cells (b : ℤ × ℕ) : Finset ℤ := (Finset.range b.2).image fun k : ℕ => b.1 + (k : ℤ)

theorem mem_cells {b : ℤ × ℕ} {x : ℤ} : x ∈ cells b ↔ b.1 ≤ x ∧ x < b.1 + b.2 := by
  rw [cells, Finset.mem_image]
  constructor
  · rintro ⟨k, hk, rfl⟩
    have := Finset.mem_range.mp hk
    omega
  · rintro ⟨hlo, hhi⟩
    exact ⟨(x - b.1).toNat, Finset.mem_range.mpr (by omega), by omega⟩

theorem card_cells (b : ℤ × ℕ) : (cells b).card = b.2 := by
  rw [cells, Finset.card_image_of_injective _ fun k k' h => Int.natCast_inj.mp (Int.add_left_cancel h),
    Finset.card_range]

theorem card_le_sum_of_cover {bs : List (ℤ × ℕ)} {S : Finset ℤ} (h : ∀ x ∈ S, ∃ b ∈ bs, x ∈ cells b) :
    S.card ≤ (bs.map Prod.snd).sum := by
  induction bs generalizing S with
  | nil =>
    have hS : S = ∅ := Finset.eq_empty_of_forall_notMem fun x hx => by simpa using h x hx
    rw [hS]
    rfl
  | cons b bs ih =>
    -- what lies in `b` is at most its length, the remaining cells are covered by the others
    have hrest : (S \ cells b).card ≤ (bs.map Prod.snd).sum := by
      refine ih fun x hx => ?_
      obtain ⟨hxS, hxb⟩ := Finset.mem_sdiff.mp hx
      obtain ⟨b', hb', hx'⟩ := h x hxS
      rcases List.mem_cons.mp hb' with rfl | hb'
      · exact absurd hx' hxb
      · exact ⟨b', hb', hx'⟩
    have hcard := Finset.card_le_card_sdiff_add_card (s := S) (t := cells b)
    rw [card_cells] at hcard
    rw [List.map_cons, List.sum_cons]
    omega

/-- **The length of a cover.** -/
theorem le_sum_of_cover {bs : List (ℤ × ℕ)} (lo : ℤ) {n : ℕ}
    (h : ∀ x, lo ≤ x → x < lo + n → ∃ b ∈ bs, b.1 ≤ x ∧ x < b.1 + b.2) : n ≤ (bs.map Prod.snd).sum := by
  refine (card_cells (lo, n)).symm.trans_le (card_le_sum_of_cover fun x hx => ?_)
  obtain ⟨hlo, hhi⟩ := mem_cells.mp hx
  obtain ⟨b, hb, hxb⟩ := h x hlo hhi
  exact ⟨b, hb, mem_cells.mpr hxb⟩

end CppNotes.Lib
