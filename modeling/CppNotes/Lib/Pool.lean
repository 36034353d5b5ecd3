import Mathlib.Data.List.GetD
import Mathlib.Data.List.Perm.Basic
import Mathlib.Algebra.BigOperators.Group.List.Basic
import Mathlib.Algebra.GroupWithZero.Nat

/-!
# Pools

A pool is a list whose entries are updated in place; a pointer to an entry is its index.  The lemmas say what an
update does to counts and sums over the pool, and that the pointers to the entries with a property are as many as
those entries.
-/

namespace CppNotes.Lib

variable {α : Type}

/-! ## Updates of one entry -/

theorem getD_set (l : List α) (i j : ℕ) (a d : α) :
    (l.set i a).getD j d = if i = j ∧ j < l.length then a else l.getD j d := by
  simp only [List.getD_eq_getElem?_getD, List.getElem?_set]
  split_ifs with hij hi hj hj
  · rfl
  · omega
  · omega
  · rw [List.getElem?_eq_none (by omega)]
  · omega
  · rfl

theorem set_perm (l : List α) {i : ℕ} (h : i < l.length) (a d : α) : (l.getD i d :: l.set i a).Perm (a :: l) := by
  have hp := List.getD_set_perm_cons l i a
  rwa [List.getElem?_eq_getElem h, Option.getD_some, ← List.getD_eq_getElem l d h] at hp

theorem countP_set (l : List α) {i : ℕ} (h : i < l.length) (a d : α) (p : α → Bool) :
    (l.set i a).countP p + (if p (l.getD i d) then 1 else 0) = l.countP p + (if p a then 1 else 0) := by
  have hc := (set_perm l h a d).countP_eq p
  rwa [List.countP_cons, List.countP_cons] at hc

theorem sum_map_set (l : List α) {i : ℕ} (h : i < l.length) (a d : α) (f : α → ℕ) :
    ((l.set i a).map f).sum + f (l.getD i d) = (l.map f).sum + f a := by
  have hs := ((set_perm l h a d).map f).sum_eq
  rw [List.map_cons, List.map_cons, List.sum_cons, List.sum_cons] at hs
  omega

theorem map_set_of_eq {β : Type} (l : List α) (i : ℕ) (a d : α) (f : α → β) (h : f a = f (l.getD i d)) :
    (l.set i a).map f = l.map f := by
  apply List.ext_getElem?
  intro j
  rw [List.getElem?_map, List.getElem?_map, List.getElem?_set]
  split_ifs with hij hi
  · subst hij
    rw [List.getD_eq_getElem l d hi] at h
    rw [List.getElem?_eq_getElem hi, Option.map_some, Option.map_some, h]
  · subst hij
    rw [List.getElem?_eq_none (by omega)]
  · rfl

/-! ## Pointers -/

/-- The entries at consecutive pointers. -/
theorem map_getD_range' (l : List α) (d : α) {a k : ℕ} (h : a + k ≤ l.length) :
    (List.range' a k).map (fun i => l.getD i d) = (l.drop a).take k := by
  refine List.ext_getElem (by simp; omega) fun i hi _ => ?_
  have hik : i < k := by simpa using hi
  simp [List.getElem?_eq_getElem (show a + i < l.length by omega)]

theorem map_getD_range (l : List α) (d : α) : (List.range l.length).map (fun i => l.getD i d) = l := by
  rw [List.range_eq_range', map_getD_range' l d (by omega), List.drop_zero, List.take_length]

/-- Distinct pointers to exactly the entries with `p` are as many as those entries. -/
theorem length_pointers (l : List α) (d : α) (p : α → Bool) {ids : List ℕ} (hn : ids.Nodup)
    (h : ∀ k, k ∈ ids ↔ k < l.length ∧ p (l.getD k d) = true) : ids.length = l.countP p := by
  have hp : ids.Perm ((List.range l.length).filter fun k => p (l.getD k d)) := by
    rw [List.perm_ext_iff_of_nodup hn (List.nodup_range.filter _)]
    intro k
    rw [h k, List.mem_filter, List.mem_range]
  calc ids.length = ((List.range l.length).filter fun k => p (l.getD k d)).length := hp.length_eq
    _ = ((List.range l.length).map fun k => l.getD k d).countP p := by
      rw [List.countP_map, List.countP_eq_length_filter]
      rfl
    _ = l.countP p := by rw [map_getD_range]

end CppNotes.Lib
