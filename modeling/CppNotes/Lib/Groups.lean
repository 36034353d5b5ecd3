import Mathlib.Data.List.Basic

/-!
# Lists in groups

`Grouped m R xs ys`: the list `ys` consists of groups of `m` entries, one group for each entry of `xs` in order, and entry
`j` of the group of `x` is related to it by `R x j`.

The parts of a list that is put together from parts of known lengths can be found again (`flatMap_range_inj`).

A loop that prints two columns in rows of `m` (`rowTurn`) completes the second column in the rows that are full.
-/

namespace CppNotes.Lib

variable {α β : Type*} {m : ℕ} {R : α → ℕ → β → Prop} {xs : List α} {ys zs : List β} {x : α}

structure Grouped (m : ℕ) (R : α → ℕ → β → Prop) (xs : List α) (ys : List β) : Prop where
  length_eq : ys.length = m * xs.length
  related : ∀ k x y, xs[k / m]? = some x → ys[k]? = some y → R x (k % m) y

theorem Grouped.nil : Grouped m R [] [] := ⟨rfl, by simp⟩

/-- A list of groups with one group more. -/
theorem grouped_append_iff (hlen : ys.length = m * xs.length) (hz : zs.length = m) :
    Grouped m R (xs ++ [x]) (ys ++ zs) ↔ Grouped m R xs ys ∧ ∀ j z, zs[j]? = some z → R x j z := by
  constructor
  · intro h
    refine ⟨⟨hlen, fun k x' y hx hy => ?_⟩, fun j z hj => ?_⟩
    · exact h.related k x' y (List.getElem?_append_left (List.getElem?_eq_some_iff.mp hx).1 ▸ hx)
        (List.getElem?_append_left (List.getElem?_eq_some_iff.mp hy).1 ▸ hy)
    · have hjm : j < m := hz ▸ (List.getElem?_eq_some_iff.mp hj).1
      have hrel := h.related (m * xs.length + j) x z
      rw [Nat.mul_add_div (by omega), Nat.div_eq_of_lt hjm, Nat.mul_add_mod, Nat.mod_eq_of_lt hjm, Nat.add_zero,
        List.getElem?_concat_length, List.getElem?_append_right (by omega), hlen, Nat.add_sub_cancel_left] at hrel
      exact hrel rfl hj
  · rintro ⟨h, hR⟩
    refine ⟨by rw [List.length_append, List.length_append, hlen, hz, Nat.mul_add, List.length_singleton, Nat.mul_one],
      fun k x' y hx hy => ?_⟩
    rcases Nat.lt_or_ge k ys.length with hk | hk
    · have hkm : k / m < xs.length := Nat.div_lt_of_lt_mul (hlen ▸ hk)
      rw [List.getElem?_append_left hk] at hy
      rw [List.getElem?_append_left hkm] at hx
      exact h.related k x' y hx hy
    · rw [List.getElem?_append_right hk] at hy
      have hkm : k - ys.length < m := hz ▸ (List.getElem?_eq_some_iff.mp hy).1
      obtain ⟨j, rfl⟩ : ∃ j, k = m * xs.length + j := ⟨k - ys.length, by omega⟩
      have hj : j < m := by omega
      rw [hlen, Nat.add_sub_cancel_left] at hy
      rw [Nat.mul_add_div (by omega), Nat.div_eq_of_lt hj, Nat.add_zero, List.getElem?_concat_length] at hx
      rw [Nat.mul_add_mod, Nat.mod_eq_of_lt hj, ← Option.some.inj hx]
      exact hR j y hy

theorem Grouped.append (h : Grouped m R xs ys) (hz : zs.length = m) (hR : ∀ j z, zs[j]? = some z → R x j z) :
    Grouped m R (xs ++ [x]) (ys ++ zs) :=
  (grouped_append_iff h.length_eq hz).mpr ⟨h, hR⟩

/-! ## Parts of known lengths -/

theorem length_flatMap_congr {l : List α} {f g : α → List β} (h : ∀ a ∈ l, (f a).length = (g a).length) :
    (l.flatMap f).length = (l.flatMap g).length := by
  induction l with
  | nil => rfl
  | cons a l ih =>
    rw [List.flatMap_cons, List.flatMap_cons, List.length_append, List.length_append, h a List.mem_cons_self,
      ih fun b hb => h b (List.mem_cons_of_mem a hb)]

/-- Two lists of parts, of which part `i` is as long in both and not empty. -/
theorem flatMap_range_inj {f g : ℕ → List β} (hlen : ∀ i, (f i).length = (g i).length) (hpos : ∀ i, 0 < (f i).length)
    {m n : ℕ} (h : (List.range m).flatMap f = (List.range n).flatMap g) : m = n ∧ ∀ i < m, f i = g i := by
  induction m generalizing n f g with
  | zero =>
    cases n with
    | zero => exact ⟨rfl, fun i hi => absurd hi (Nat.not_lt_zero i)⟩
    | succ n =>
      have hnil := congrArg List.length h
      have := hlen 0 ▸ hpos 0
      rw [List.range_succ_eq_map, List.flatMap_cons, List.length_append] at hnil
      simp only [List.range_zero, List.flatMap_nil, List.length_nil] at hnil
      omega
  | succ m ih =>
    rw [List.range_succ_eq_map, List.flatMap_cons, List.flatMap_map] at h
    cases n with
    | zero =>
      have hnil := congrArg List.length h
      have := hpos 0
      simp only [List.length_append, List.range_zero, List.flatMap_nil, List.length_nil] at hnil
      omega
    | succ n =>
      rw [List.range_succ_eq_map, List.flatMap_cons, List.flatMap_map] at h
      obtain ⟨hfirst, hrest⟩ := List.append_inj h (hlen 0)
      obtain ⟨rfl, hall⟩ := ih (fun i => hlen (i + 1)) (fun i => hpos (i + 1)) hrest
      refine ⟨rfl, fun i hi => ?_⟩
      cases i with
      | zero => exact hfirst
      | succ i => exact hall i (Nat.lt_of_succ_lt_succ hi)

/-! ## Two columns -/

section Rows

variable {h c : ℕ → β} {j r : ℕ}

/-- A turn of a loop that prints in rows of `m`: an entry in the first column, and in the last turn of a row the entries of
the row in the second one. -/
def rowTurn (m : ℕ) (h c : ℕ → β) (i : ℕ) : List β :=
  h i :: if (i + 1) % m = 0 then (List.range' (i + 1 - m) m).map c else []

theorem flatMap_rowTurn_of_lt (hr : r < m) :
    (List.range' (m * j) r).flatMap (rowTurn m h c) = (List.range' (m * j) r).map h := by
  rw [List.map_eq_flatMap]
  refine List.flatMap_congr fun i hi => ?_
  obtain ⟨k, hk, rfl⟩ := List.mem_range'.mp hi
  have hmod : (m * j + 1 * k + 1) % m ≠ 0 := by
    rw [Nat.add_assoc, Nat.mul_add_mod, Nat.mod_eq_of_lt (by omega)]
    omega
  rw [rowTurn, if_neg hmod]

theorem flatMap_rowTurn (hm : 0 < m) : (List.range' (m * j) m).flatMap (rowTurn m h c) =
    (List.range' (m * j) m).map h ++ (List.range' (m * j) m).map c := by
  obtain ⟨k, rfl⟩ : ∃ k, m = k + 1 := ⟨m - 1, by omega⟩
  have hlast : rowTurn (k + 1) h c ((k + 1) * j + k) =
      h ((k + 1) * j + k) :: (List.range' ((k + 1) * j) (k + 1)).map c := by
    rw [rowTurn, Nat.add_assoc, Nat.add_sub_cancel, if_pos (by rw [Nat.mul_add_mod, Nat.mod_self])]
  have hsplit : List.range' ((k + 1) * j) (k + 1) = List.range' ((k + 1) * j) k ++ [(k + 1) * j + k] := by
    rw [List.range'_concat, Nat.one_mul]
  calc (List.range' ((k + 1) * j) (k + 1)).flatMap (rowTurn (k + 1) h c)
    _ = (List.range' ((k + 1) * j) k).map h ++ (h ((k + 1) * j + k) :: (List.range' ((k + 1) * j) (k + 1)).map c) := by
        rw [hsplit, List.flatMap_append, flatMap_rowTurn_of_lt (Nat.lt_succ_self k), List.flatMap_singleton, hlast,
          hsplit]
    _ = (List.range' ((k + 1) * j) k ++ [(k + 1) * j + k]).map h ++ (List.range' ((k + 1) * j) (k + 1)).map c := by
        rw [List.map_append, List.append_assoc, List.map_singleton, List.singleton_append]
    _ = _ := by rw [← hsplit]

theorem range_add_mul (m q r : ℕ) : List.range (m * q + r) =
    ((List.range q).flatMap fun j => List.range' (m * j) m) ++ List.range' (m * q) r := by
  induction q generalizing r with
  | zero => rw [Nat.mul_zero, Nat.zero_add, List.range_eq_range', List.range_zero, List.flatMap_nil, List.nil_append]
  | succ q ih =>
    rw [Nat.mul_succ, Nat.add_assoc, ih, List.range_succ, List.flatMap_append, List.flatMap_singleton, List.append_assoc,
      List.range'_append_1]

/-- The second column has the rows that are full. -/
theorem range_flatMap_rowTurn (hm : 0 < m) (n : ℕ) : (List.range n).flatMap (rowTurn m h c) =
    ((List.range (n / m)).flatMap fun j => (List.range' (m * j) m).map h ++ (List.range' (m * j) m).map c) ++
      (List.range' (m * (n / m)) (n % m)).map h := by
  conv_lhs => rw [← Nat.div_add_mod n m, range_add_mul, List.flatMap_append, List.flatMap_assoc]
  rw [flatMap_rowTurn_of_lt (Nat.mod_lt n hm)]
  simp only [flatMap_rowTurn hm]

end Rows
end CppNotes.Lib
