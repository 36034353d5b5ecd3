import CppNotes.Lib.Chunk

/-!
# Writes from buffers of their own

`File.writeAll f ws` is the file after a list of writes, each from a buffer of its own.  Writes to disjoint ranges can be
taken in any order, and each of them can be read back.

A chain whose chunks are all as long as was asked for, at most `n` bytes at a time, is a single write in which the buffer
is repeated every `n` bytes.
-/

namespace CppNotes.Lib

/-- A write of `len` bytes of `src` at `off`. -/
structure Block where
  off : ℕ
  len : ℕ
  src : ℕ → UInt8

namespace Block

/-- The ranges have no byte in common. -/
def Apart (a b : Block) : Prop := ∀ x, ¬ ((a.off ≤ x ∧ x < a.off + a.len) ∧ b.off ≤ x ∧ x < b.off + b.len)

theorem Apart.symm {a b : Block} (h : Apart a b) : Apart b a := fun x hx => h x hx.symm

/-- The same bytes are written to the same range. -/
def Same (a b : Block) : Prop := a.off = b.off ∧ a.len = b.len ∧ ∀ i < a.len, a.src i = b.src i

end Block

def File.writeAll (f : File) (ws : List Block) : File := ws.foldl (fun f w => f.write w.off w.len w.src) f

variable {f : File} {ws ws' : List Block}

theorem File.writeAll_cons (w : Block) : f.writeAll (w :: ws) = (f.write w.off w.len w.src).writeAll ws := rfl

theorem File.writeAll_append : f.writeAll (ws ++ ws') = (f.writeAll ws).writeAll ws' := List.foldl_append

/-- **The order of disjoint writes does not matter.** -/
theorem File.writeAll_perm (h : ws.Perm ws') (hd : ws.Pairwise Block.Apart) : f.writeAll ws = f.writeAll ws' := by
  induction h generalizing f with
  | nil => rfl
  | cons w _ ih => exact ih hd.of_cons
  | swap a b l =>
    have hab : Block.Apart b a := List.rel_of_pairwise_cons hd List.mem_cons_self
    rw [writeAll_cons, writeAll_cons, writeAll_cons, writeAll_cons, File.write_comm hab]
  | trans h₁ _ ih₁ ih₂ => exact (ih₁ hd).trans (ih₂ (hd.perm h₁ fun hab => hab.symm))

theorem File.writeAll_byte_of_not_mem {x : ℕ} (h : ∀ w ∈ ws, ¬ (w.off ≤ x ∧ x < w.off + w.len)) :
    (f.writeAll ws).byte x = f.byte x := by
  induction ws generalizing f with
  | nil => rfl
  | cons w ws ih =>
    rw [writeAll_cons, ih fun v hv => h v (List.mem_cons_of_mem w hv)]
    exact File.write_byte_of_not_mem (h w List.mem_cons_self)

/-- What disjoint writes leave of each of them. -/
theorem File.writeAll_byte (hd : ws.Pairwise Block.Apart) {w : Block} (hw : w ∈ ws) {i : ℕ} (hi : i < w.len) :
    (f.writeAll ws).byte (w.off + i) = w.src i := by
  induction ws generalizing f with
  | nil => simp at hw
  | cons v ws ih =>
    rw [writeAll_cons]
    rcases List.mem_cons.mp hw with rfl | hw
    · rw [writeAll_byte_of_not_mem, File.write_byte_of_mem (by omega) (by omega), Nat.add_sub_cancel_left]
      intro u hu hin
      exact List.rel_of_pairwise_cons hd hu (w.off + i) ⟨by omega, hin⟩
    · exact ih hd.of_cons hw

/-- Only the bytes that are written matter. -/
theorem File.writeAll_same (h : List.Forall₂ Block.Same ws ws') : f.writeAll ws = f.writeAll ws' := by
  induction h generalizing f with
  | nil => rfl
  | cons hab _ ih =>
    obtain ⟨hoff, hlen, hsrc⟩ := hab
    rw [writeAll_cons, writeAll_cons, ih, File.write_congr hsrc, hoff, hlen]

/-! ## Chains of full chunks -/

theorem Chain.writes_full {stop n lo hi : ℕ} {req : ℕ → ℕ} {bs : List (ℕ × ℕ)} {buf : ℕ → UInt8}
    (h : Chain stop req lo bs hi) (hstop : stop ≤ hi) (hlo : lo ≤ stop)
    (hreq : ∀ w, lo ≤ w → w < stop → req w = min (stop - w) n) (hfull : ∀ b ∈ bs, b.2 = req b.1) :
    f.writes buf bs = f.write lo (stop - lo) fun i => buf (i % n) := by
  induction h generalizing f with
  | done w =>
    obtain rfl : w = stop := by omega
    rw [Nat.sub_self, File.write_zero]
    rfl
  | @chunk w r hi bs hw hr hle hc ih =>
    have hr' : r = min (stop - w) n := (hfull _ List.mem_cons_self).trans (hreq w le_rfl hw)
    have hrest := ih (f := f.write w r buf) hstop (by omega) (fun v hv => hreq v (by omega))
      fun b hb => hfull b (List.mem_cons_of_mem _ hb)
    calc f.writes buf ((w, r) :: bs) = (f.write w r buf).writes buf bs := rfl
      _ = f.write w (r + (stop - (w + r))) fun i => if i < r then buf i else buf ((i - r) % n) := by
        rw [hrest, File.write_write]
      _ = f.write w (stop - w) fun i => if i < r then buf i else buf ((i - r) % n) := by
        congr 1
        omega
      _ = f.write w (stop - w) fun i => buf (i % n) := by
        refine File.write_congr fun i hi => ?_
        by_cases hir : i < r
        · rw [if_pos hir, Nat.mod_eq_of_lt (by omega)]
        · rw [if_neg hir, show r = n by omega, ← Nat.mod_eq_sub_mod (by omega)]

end CppNotes.Lib
