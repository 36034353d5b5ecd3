import Mathlib.Data.List.InsertIdx
import Mathlib.Order.Nat
import Mathlib.Order.RelClasses

/-!
# Insertion into a sorted vector (`insert_sorted`)

`insert_sorted` puts a value at the first position whose element is not less than it.  The order is any strict weak one,
so equivalent elements may be different, and those of the vector keep their order.
-/

namespace CppNotes.Misc

variable {α : Type*} (lt : α → α → Prop) [DecidableRel lt]

/-- `std::ranges::lower_bound(vec, v)` -/
def lowerBound (vec : List α) (v : α) : ℕ := vec.findIdx fun x => !decide (lt x v)

def insertSorted (vec : List α) (v : α) : List α := vec.insertIdx (lowerBound lt vec v) v

/-- No element is less than one before it. -/
def IsSorted (vec : List α) : Prop := vec.Pairwise fun a b => ¬ lt b a

section Insert

variable {lt} {vec vs : List α} {v x : α}

theorem lowerBound_le (vec : List α) (v : α) : lowerBound lt vec v ≤ vec.length := List.findIdx_le_length

theorem insertSorted_cons_of_lt (h : lt x v) : insertSorted lt (x :: vec) v = x :: insertSorted lt vec v := by
  rw [insertSorted, lowerBound, List.findIdx_cons, decide_eq_true h]
  rfl

theorem insertSorted_cons_of_not_lt (h : ¬ lt x v) : insertSorted lt (x :: vec) v = v :: x :: vec := by
  rw [insertSorted, lowerBound, List.findIdx_cons, decide_eq_false h]
  rfl

theorem insertSorted_perm (vec : List α) (v : α) : (insertSorted lt vec v).Perm (v :: vec) :=
  List.perm_insertIdx v vec (lowerBound_le vec v)

theorem sublist_insertSorted (vec : List α) (v : α) : vec.Sublist (insertSorted lt vec v) :=
  List.sublist_insertIdx vec _ v

variable [IsStrictWeakOrder α lt]

omit [DecidableRel lt] in
/-- What is not less than something that is not less than `v` is not less than `v`. -/
theorem not_lt_trans {a b : α} (hba : ¬ lt b a) (hav : ¬ lt a v) : ¬ lt b v := by
  intro hbv
  have hab : ¬ lt a b := fun hab => hav (Trans.trans hab hbv)
  have hva : ¬ lt v a := fun hva => hba (Trans.trans hbv hva)
  exact (IsStrictWeakOrder.incomp_trans b a v ⟨hba, hab⟩ ⟨hav, hva⟩).1 hbv

theorem IsSorted.insert (h : IsSorted lt vec) (v : α) : IsSorted lt (insertSorted lt vec v) := by
  induction vec with
  | nil => exact List.pairwise_singleton _ v
  | cons x vec ih =>
    obtain ⟨hx, hvec⟩ := List.pairwise_cons.mp h
    by_cases hlt : lt x v
    · rw [insertSorted_cons_of_lt hlt]
      refine List.pairwise_cons.mpr ⟨fun y hy => ?_, ih hvec⟩
      rcases List.mem_cons.mp ((insertSorted_perm vec v).mem_iff.mp hy) with rfl | hy
      · exact asymm hlt
      · exact hx y hy
    · rw [insertSorted_cons_of_not_lt hlt]
      refine List.pairwise_cons.mpr ⟨fun y hy => ?_, h⟩
      rcases List.mem_cons.mp hy with rfl | hy
      · exact hlt
      · exact not_lt_trans (hx y hy) hlt

end Insert

/-! ## Several values -/

section Values

variable {lt} {vec : List α}

theorem foldl_insertSorted_perm (vec vs : List α) : (vs.foldl (insertSorted lt) vec).Perm (vec ++ vs) := by
  induction vs generalizing vec with
  | nil => rw [List.foldl_nil, List.append_nil]
  | cons v vs ih =>
    calc (vs.foldl (insertSorted lt) (insertSorted lt vec v)).Perm (insertSorted lt vec v ++ vs) := ih _
      _ |>.Perm ((v :: vec) ++ vs) := (insertSorted_perm vec v).append_right vs
      _ |>.Perm (vec ++ v :: vs) := List.perm_middle.symm

theorem sublist_foldl_insertSorted (vec vs : List α) : vec.Sublist (vs.foldl (insertSorted lt) vec) := by
  induction vs generalizing vec with
  | nil => exact List.Sublist.refl vec
  | cons v vs ih => exact (sublist_insertSorted vec v).trans (ih _)

variable [IsStrictWeakOrder α lt]

theorem IsSorted.foldl (h : IsSorted lt vec) (vs : List α) :
    IsSorted lt (vs.foldl (insertSorted lt) vec) := by
  induction vs generalizing vec with
  | nil => exact h
  | cons v vs ih => exact ih (h.insert v)

/-- **Insertions keep a vector sorted**, they lose nothing and leave the elements that were there in their order. -/
theorem insert_sorted_sorts (h : IsSorted lt vec) (vs : List α) :
    (∀ us, us <+: vs → IsSorted lt (us.foldl (insertSorted lt) vec)) ∧
      (vs.foldl (insertSorted lt) vec).Perm (vec ++ vs) ∧ vec.Sublist (vs.foldl (insertSorted lt) vec) :=
  ⟨fun us _ => h.foldl us, foldl_insertSorted_perm vec vs, sublist_foldl_insertSorted vec vs⟩

end Values

/-- Values at both ends and one that is there already. -/
theorem insert_sorted_sorts_nats : IsSorted (· < ·) [1, 3, 4, 5, 8] ∧
    IsSorted (· < ·) ([6, 0, 9, 4].foldl (insertSorted (· < ·)) [1, 3, 4, 5, 8]) := by
  have hsorted : IsSorted (· < ·) [1, 3, 4, 5, 8] := by unfold IsSorted; decide
  have : IsStrictWeakOrder ℕ (· < ·) := isStrictWeakOrder_of_isOrderConnected
  exact ⟨hsorted, (insert_sorted_sorts hsorted [6, 0, 9, 4]).1 _ List.prefix_rfl⟩

end CppNotes.Misc
