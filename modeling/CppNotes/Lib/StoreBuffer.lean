import Mathlib.Logic.Function.Basic
import Mathlib.Data.List.Basic

/-!
# Memory behind store buffers

Every thread has a queue of stores between itself and the memory: a store goes to the end of the queue of its thread, and
stores leave the queues one by one, the oldest of a thread first, at any time.  A load sees the youngest store of its own
thread to that location, and the memory if there is none in the queue.  So the stores of a thread stay in order, and the only
thing that can be overtaken is a store, by a later load of another location.

* `Tso.store`, `Tso.load`, `Tso.flush` — the plain operations;
* `Tso.swap` — a store with a lock on the memory, for a thread whose queue is empty.
-/

set_option linter.unusedSectionVars false

namespace CppNotes.Lib

structure Tso (T L V : Type) where
  mem : L → V
  /-- the stores on their way, oldest first -/
  buf : T → List (L × V)

namespace Tso

variable {T L V : Type} [DecidableEq T] [DecidableEq L] (m : Tso T L V)

def store (t : T) (l : L) (v : V) : Tso T L V := { m with buf := Function.update m.buf t (m.buf t ++ [(l, v)]) }

def load (t : T) (l : L) : V := ((m.buf t).reverse.lookup l).getD (m.mem l)

def flush (t : T) : Option (Tso T L V) :=
  match m.buf t with
  | [] => none
  | (l, v) :: ws => some ⟨Function.update m.mem l v, Function.update m.buf t ws⟩

def swap (l : L) (v : V) : Tso T L V := { m with mem := Function.update m.mem l v }

variable {m} {t u : T} {l k : L} {v : V}

theorem load_of_drained (h : m.buf t = []) : m.load t l = m.mem l := by
  simp [load, h]

/-- What a load gives depends on the queue of its thread and the memory at its location. -/
theorem load_congr {m' : Tso T L V} (hb : m'.buf t = m.buf t) (hm : m'.mem l = m.mem l) : m'.load t l = m.load t l := by
  simp [load, hb, hm]

theorem load_of_singleton (h : m.buf t = [(l, v)]) : m.load t l = v := by
  simp [load, h]

theorem flush_eq_some {m' : Tso T L V} (h : m.flush t = some m') :
    ∃ l v ws, m.buf t = (l, v) :: ws ∧ m' = ⟨Function.update m.mem l v, Function.update m.buf t ws⟩ := by
  unfold flush at h
  split at h
  · simp at h
  · rename_i l v ws hb
    exact ⟨l, v, ws, hb, (Option.some.inj h).symm⟩

@[simp]
theorem mem_store : (m.store t l v).mem = m.mem := rfl

@[simp]
theorem buf_store : (m.store t l v).buf t = m.buf t ++ [(l, v)] := Function.update_self ..

theorem buf_store_of_ne (h : u ≠ t) : (m.store t l v).buf u = m.buf u := Function.update_of_ne h ..

@[simp]
theorem buf_swap : (m.swap l v).buf = m.buf := rfl

@[simp]
theorem mem_swap : (m.swap l v).mem l = v := Function.update_self ..

theorem mem_swap_of_ne (h : k ≠ l) : (m.swap l v).mem k = m.mem k := Function.update_of_ne h ..

end Tso

end CppNotes.Lib
