import CppNotes.Lib.Word
import Mathlib.Data.Finmap
import Mathlib.Logic.Equiv.Basic

/-!
# Maps

`node_swap` exchanges the values of two keys by taking their nodes out of the map and putting them back with their keys
exchanged.  It takes both nodes out before it looks whether there are two, and when there are not it returns without the
one that it has taken.

`hash<MyKey>` packs the two coordinates of a key into one word.  The second one is extended with its sign, and when it is
negative the sign covers the first.
-/

namespace CppNotes.Misc

open CppNotes.Lib

/-! ## `node_swap` -/

section Swap

variable {K V : Type*} [DecidableEq K]

/-- A `std::map` or a `std::unordered_map`. -/
abbrev Map (K V : Type*) := Finmap fun _ : K => V

/-- An entry that was taken out of a map, if there was one. -/
abbrev Node (K V : Type*) := Option (K × V)

/-- `m.extract(k)` -/
def extract (m : Map K V) (k : K) : Node K V × Map K V :=
  ((m.lookup k).map fun v => (k, v), m.erase k)

/-- `m.insert(std::move(node))`, with whether it has inserted something: it replaces no entry. -/
def insertNode (m : Map K V) : Node K V → Bool × Map K V
  | none => (false, m)
  | some (k, v) => if k ∈ m then (false, m) else (true, m.insert k v)

/-- The result of `node_swap`, the map that it leaves and the one that it prints. -/
structure Swapped (K V : Type*) where
  result : Bool
  map : Map K V
  printed : Map K V

def nodeSwap (m : Map K V) (k1 k2 : K) : Swapped K V :=
  let e1 := extract m k1
  let e2 := extract e1.2 k2
  match e1.1, e2.1 with
  | some node1, some node2 =>
    -- `std::swap` has exchanged the keys
    let i1 := insertNode e2.2 (some (node2.1, node1.2))
    if !i1.1 then ⟨false, i1.2, e2.2⟩
    else
      let i2 := insertNode i1.2 (some (node1.1, node2.2))
      if !i2.1 then ⟨false, i2.2, e2.2⟩ else ⟨true, i2.2, e2.2⟩
  | _, _ => ⟨false, e2.2, e2.2⟩

/-- `node_swap` exchanges two values, or it returns `false` and leaves the map as it was. -/
def AllOrNothing (m : Map K V) (k1 k2 : K) : Prop :=
  if k1 ∈ m ∧ k2 ∈ m ∧ k1 ≠ k2 then
    (nodeSwap m k1 k2).result = true ∧ ∀ k, (nodeSwap m k1 k2).map.lookup k = m.lookup (Equiv.swap k1 k2 k)
  else (nodeSwap m k1 k2).result = false ∧ (nodeSwap m k1 k2).map = m

variable {m : Map K V} {k1 k2 : K} {v1 v2 : V}

/-- Both nodes are there. -/
theorem nodeSwap_of_some (h1 : m.lookup k1 = some v1) (h2 : m.lookup k2 = some v2) (hne : k1 ≠ k2) :
    nodeSwap m k1 k2 = ⟨true, (((m.erase k1).erase k2).insert k2 v1).insert k1 v2, (m.erase k1).erase k2⟩ := by
  have hnode : (m.erase k1).lookup k2 = some v2 := by rw [Finmap.lookup_erase_ne hne.symm, h2]
  have hin2 : k2 ∉ (m.erase k1).erase k2 := fun h => (Finmap.mem_erase.mp h).1 rfl
  have hin1 : k1 ∉ ((m.erase k1).erase k2).insert k2 v1 := by
    simp [Finmap.mem_insert, Finmap.mem_erase, hne]
  simp [nodeSwap, extract, h1, hnode, insertNode, hin2, hin1]

/-- One is missing, and the other one is lost. -/
theorem nodeSwap_of_not (h : ¬ (k1 ∈ m ∧ k2 ∈ m ∧ k1 ≠ k2)) :
    nodeSwap m k1 k2 = ⟨false, (m.erase k1).erase k2, (m.erase k1).erase k2⟩ := by
  have hnone : m.lookup k1 = none ∨ (m.erase k1).lookup k2 = none := by
    rw [Finmap.lookup_eq_none, Finmap.lookup_eq_none, Finmap.mem_erase]
    tauto
  rcases hnone with hnone | hnone
  · simp only [nodeSwap, extract, hnone, Option.map_none]
  · cases h1 : m.lookup k1 <;> simp only [nodeSwap, extract, h1, hnone, Option.map_none, Option.map_some]

theorem lookup_nodeSwap (h1 : m.lookup k1 = some v1) (h2 : m.lookup k2 = some v2) (hne : k1 ≠ k2) (k : K) :
    (nodeSwap m k1 k2).map.lookup k = m.lookup (Equiv.swap k1 k2 k) := by
  rw [nodeSwap_of_some h1 h2 hne]
  by_cases hk1 : k = k1
  · rw [hk1, Finmap.lookup_insert, Equiv.swap_apply_left, h2]
  by_cases hk2 : k = k2
  · rw [hk2, Finmap.lookup_insert_of_ne _ hne.symm, Finmap.lookup_insert, Equiv.swap_apply_right, h1]
  · rw [Finmap.lookup_insert_of_ne _ hk1, Finmap.lookup_insert_of_ne _ hk2, Finmap.lookup_erase_ne hk2,
      Finmap.lookup_erase_ne hk1, Equiv.swap_apply_of_ne_of_ne hk1 hk2]

theorem erase_erase_eq_iff : (m.erase k1).erase k2 = m ↔ k1 ∉ m ∧ k2 ∉ m := by
  constructor
  · intro h
    rw [← h]
    simp [Finmap.mem_erase]
  · rintro ⟨h1, h2⟩
    refine Finmap.ext_lookup fun k => ?_
    by_cases hk2 : k = k2
    · rw [hk2, Finmap.lookup_erase, Finmap.lookup_eq_none.mpr h2]
    by_cases hk1 : k = k1
    · rw [Finmap.lookup_erase_ne hk2, hk1, Finmap.lookup_erase, Finmap.lookup_eq_none.mpr h1]
    · rw [Finmap.lookup_erase_ne hk2, Finmap.lookup_erase_ne hk1]

theorem allOrNothing_of_not (h : ¬ (k1 ∈ m ∧ k2 ∈ m ∧ k1 ≠ k2)) : AllOrNothing m k1 k2 ↔ k1 ∉ m ∧ k2 ∉ m := by
  rw [AllOrNothing, if_neg h, nodeSwap_of_not h]
  exact (and_iff_right rfl).trans erase_erase_eq_iff

/-- **`node_swap` is all or nothing** for two entries of the map and for two keys that it does not have. -/
theorem node_swap_all_or_nothing_iff (m : Map K V) (k1 k2 : K) :
    AllOrNothing m k1 k2 ↔ (k1 ∈ m ∧ k2 ∈ m ∧ k1 ≠ k2) ∨ (k1 ∉ m ∧ k2 ∉ m) := by
  by_cases h : k1 ∈ m ∧ k2 ∈ m ∧ k1 ≠ k2
  · obtain ⟨v1, h1⟩ := Option.isSome_iff_exists.mp (Finmap.lookup_isSome.mpr h.1)
    obtain ⟨v2, h2⟩ := Option.isSome_iff_exists.mp (Finmap.lookup_isSome.mpr h.2.1)
    rw [AllOrNothing, if_pos h]
    refine iff_of_true ⟨?_, lookup_nodeSwap h1 h2 h.2.2⟩ (.inl h)
    rw [nodeSwap_of_some h1 h2 h.2.2]
  · rw [allOrNothing_of_not h]
    exact (or_iff_right h).symm

/-- With the second key missing the entry of the first is lost. -/
theorem node_swap_loses_entry :
    ¬ ∀ (m : Map Int32 String) (k1 k2 : Int32), AllOrNothing m k1 k2 := by
  intro h
  have hkept := (allOrNothing_of_not (by simp)).mp (h (Finmap.singleton 1 "Mario") 1 2)
  exact hkept.1 (by simp)

end Swap

/-! ## `hash<MyKey>` -/

structure MyKey where
  x : Int32
  y : Int32
  deriving DecidableEq

namespace MyKey

/-- `operator==` -/
def eq (l r : MyKey) : Bool := l.x == r.x && l.y == r.y

/-- `hash<MyKey>`: the coordinates are converted to `size_t`. -/
def hash (mk : MyKey) : UInt64 :=
  let h := mk.x.toInt64.toUInt64
  (h <<< 32) ||| mk.y.toInt64.toUInt64

theorem eq_iff (l r : MyKey) : eq l r = true ↔ l.x = r.x ∧ l.y = r.y := by
  rw [eq, Bool.and_eq_true, beq_iff_eq, beq_iff_eq]

theorem hash_toBitVec (mk : MyKey) : mk.hash.toBitVec = packSigned mk.x.toBitVec mk.y.toBitVec := by
  simp only [hash, UInt64.toBitVec_or, UInt64.toBitVec_shiftLeft, Int64.toBitVec_toUInt64, Int32.toBitVec_toInt64]
  rfl

theorem hash_inj (l r : MyKey) : l.hash = r.hash ↔ l.y = r.y ∧ (l.y < 0 ∨ l.x = r.x) := by
  rw [← UInt64.toBitVec_inj, hash_toBitVec, hash_toBitVec, packSigned_inj, msb_iff_neg, Int32.toBitVec_inj, Int32.toBitVec_inj]

end MyKey

/-- **The hash separates two keys** unless only their first coordinates differ and the second one is negative. -/
theorem hash_separates_iff (l r : MyKey) :
    (l.hash = r.hash ↔ MyKey.eq l r = true) ↔ l.x = r.x ∨ l.y ≠ r.y ∨ 0 ≤ l.y := by
  rw [MyKey.hash_inj, MyKey.eq_iff, ← Int32.not_lt]
  tauto

theorem hash_negative_collision : ¬ ∀ l r : MyKey, l.hash = r.hash ↔ MyKey.eq l r = true := by
  intro h
  exact absurd ((h ⟨0, -1⟩ ⟨1, -1⟩).mp (by decide)) (by decide)

end CppNotes.Misc
