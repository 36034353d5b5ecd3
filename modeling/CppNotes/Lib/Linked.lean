import Mathlib.Data.List.Nodup
import Mathlib.Logic.Function.Basic

/-!
# Linked lists through a store of pointers

`cell : L → Option N` reads the pointer that is stored at a location, `loc n` is the location of the pointer in the node `n`.
`Linked loc cell p l` says that the pointers lead from the location `p` through the nodes `l` to the null pointer.

A list that ends has no node twice (`Linked.nodup`), so that the two ways of changing one pointer need no more than what the
list is: `Linked.push` puts a node in front, `Linked.unlink` takes one out by changing the pointer in front of it, whose
location is `before`.  All of them are stated for a second store `cell'` and say where it has to agree with the first.
-/

namespace CppNotes.Lib

variable {L N : Type} {loc : N → L} {cell cell' : L → Option N} {p : L} {n : N} {l l₁ l₂ : List N}

def Linked (loc : N → L) (cell : L → Option N) : L → List N → Prop
  | p, [] => cell p = none
  | p, n :: l => cell p = some n ∧ Linked loc cell (loc n) l

/-- The location of the last pointer on the way through `l`. -/
def before (loc : N → L) : L → List N → L
  | p, [] => p
  | _, n :: l => before loc (loc n) l

/-- The list from the last pointer of a first part on. -/
theorem Linked.rest (h : Linked loc cell p (l₁ ++ l₂)) : Linked loc cell (before loc p l₁) l₂ := by
  induction l₁ generalizing p with
  | nil => exact h
  | cons m l ih => exact ih h.2

theorem before_append : before loc p (l₁ ++ l₂) = before loc (before loc p l₁) l₂ := by
  induction l₁ generalizing p with
  | nil => rfl
  | cons m l ih => exact ih

theorem before_mem (loc : N → L) (p : L) (l : List N) : before loc p l ∈ p :: l.map loc := by
  induction l generalizing p with
  | nil => simp [before]
  | cons m l ih => exact List.mem_cons_of_mem _ (ih _)

/-- The pointers lead to one list only. -/
theorem Linked.unique (h₁ : Linked loc cell p l₁) (h₂ : Linked loc cell p l₂) : l₁ = l₂ := by
  induction l₁ generalizing p l₂ with
  | nil =>
    cases l₂ with
    | nil => rfl
    | cons m l => exact absurd (h₁.symm.trans h₂.1) (by simp)
  | cons n l ih =>
    cases l₂ with
    | nil => exact absurd (h₂.symm.trans h₁.1) (by simp)
    | cons m l' =>
      obtain rfl := Option.some.inj (h₁.1.symm.trans h₂.1)
      rw [ih h₁.2 h₂.2]

/-- The rest of a list, from any of the locations on the way. -/
theorem Linked.drop {q : L} (h : Linked loc cell p l) (hq : q ∈ p :: l.map loc) :
    ∃ a b, l = a ++ b ∧ before loc p a = q ∧ Linked loc cell q b := by
  induction l generalizing p with
  | nil =>
    obtain rfl : q = p := by simpa using hq
    exact ⟨[], [], rfl, rfl, h⟩
  | cons n l ih =>
    rcases List.mem_cons.mp hq with rfl | hq
    · exact ⟨[], n :: l, rfl, rfl, h⟩
    · obtain ⟨a, b, rfl, hb, hl⟩ := ih h.2 hq
      exact ⟨n :: a, b, rfl, hb, hl⟩

theorem Linked.head (h : Linked loc cell p l) : cell p = l.head? := by
  cases l with
  | nil => exact h
  | cons n l => exact h.1

/-- **A list that ends goes through no location twice.** -/
theorem Linked.nodup (h : Linked loc cell p l) : (p :: l.map loc).Nodup := by
  induction l generalizing p with
  | nil => simp
  | cons n l ih =>
    refine List.nodup_cons.mpr ⟨fun hp => ?_, ih h.2⟩
    -- otherwise the list from `p` on would be a proper part of itself
    obtain ⟨a, b, rfl, -, hb⟩ := Linked.drop h.2 hp
    have := congrArg List.length (Linked.unique h hb)
    simp only [List.length_cons, List.length_append] at this
    omega

/-- Pointers that are not on the way do not matter. -/
theorem Linked.congr (h : Linked loc cell p l) (heq : ∀ q ∈ p :: l.map loc, cell' q = cell q) :
    Linked loc cell' p l := by
  induction l generalizing p with
  | nil => exact (heq p (by simp)).trans h
  | cons n l ih =>
    exact ⟨(heq p (by simp)).trans h.1, ih h.2 fun q hq => heq q (List.mem_cons_of_mem _ hq)⟩

/-- A node is put in front: it takes over the pointer at `p`. -/
theorem Linked.push (h : Linked loc cell p l) (hp : cell' p = some n) (hn : cell' (loc n) = cell p)
    (heq : ∀ q ∈ l.map loc, cell' q = cell q) : Linked loc cell' p (n :: l) := by
  refine ⟨hp, ?_⟩
  cases l with
  | nil => exact hn.trans h
  | cons m l => exact ⟨hn.trans h.1, h.2.congr heq⟩

/-- A node is taken out: the pointer in front of it takes over its pointer. -/
theorem Linked.unlink (h : Linked loc cell p (l₁ ++ n :: l₂)) (hb : cell' (before loc p l₁) = cell (loc n))
    (heq : ∀ q ∈ p :: (l₁ ++ l₂).map loc, q ≠ before loc p l₁ → cell' q = cell q) :
    Linked loc cell' p (l₁ ++ l₂) := by
  have hnd := h.nodup
  induction l₁ generalizing p with
  | nil =>
    have hp : p ∉ l₂.map loc := fun hm => (List.nodup_cons.mp hnd).1 (List.mem_cons_of_mem _ hm)
    have hrest : ∀ q ∈ l₂.map loc, cell' q = cell q := fun q hq =>
      heq q (List.mem_cons_of_mem _ hq) fun hqp => hp ((show q = p from hqp) ▸ hq)
    cases l₂ with
    | nil => exact hb.trans h.2
    | cons m l => exact ⟨hb.trans h.2.1, h.2.2.congr hrest⟩
  | cons m l ih =>
    have hpm : p ≠ before loc (loc m) l := fun hpm =>
      (List.nodup_cons.mp hnd).1 (by
        rw [hpm, List.cons_append, List.map_cons, List.map_append, List.mem_cons, List.mem_append]
        have := before_mem loc (loc m) l
        rw [List.mem_cons] at this
        tauto)
    refine ⟨(heq p (by simp) hpm).trans h.1, ih h.2 hb (fun q hq hne => heq q (List.mem_cons_of_mem _ hq) hne)
      (List.nodup_cons.mp hnd).2⟩

end CppNotes.Lib
