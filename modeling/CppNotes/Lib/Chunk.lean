import CppNotes.Lib.ByteFile
import Mathlib.Data.Nat.Init

/-!
# Transfers in chunks

`Tiles lo bs hi` says that the blocks `(offset, length)` of `bs` lie end to end from `lo` to `hi`.

`Chain stop req lo bs hi` are the blocks of a loop that starts at `lo` and, while it is below `stop`, asks for
`req w` bytes at its position `w` and moves on by what it gets: at least one byte, at most what it asked for.  The
blocks tile `[lo, hi)`, and `File.writes` is what they leave of a file when each is written from the start of one
buffer.
-/

namespace CppNotes.Lib

/-! ## Tilings -/

/-- The blocks lie end to end from `lo` to `hi`, and none is empty. -/
def Tiles : ℕ → List (ℕ × ℕ) → ℕ → Prop
  | lo, [], hi => lo = hi
  | lo, b :: bs, hi => b.1 = lo ∧ 0 < b.2 ∧ Tiles (lo + b.2) bs hi

variable {lo hi : ℕ} {bs : List (ℕ × ℕ)}

theorem Tiles.append (h : Tiles lo bs hi) {n : ℕ} (hn : 0 < n) : Tiles lo (bs ++ [(hi, n)]) (hi + n) := by
  induction bs generalizing lo with
  | nil =>
    obtain rfl : lo = hi := h
    exact ⟨rfl, hn, rfl⟩
  | cons b bs ih => exact ⟨h.1, h.2.1, ih h.2.2⟩

theorem Tiles.length_le (h : Tiles lo bs hi) : lo + bs.length ≤ hi := by
  induction bs generalizing lo with
  | nil => exact Nat.le_of_eq h
  | cons b bs ih =>
    obtain ⟨-, hpos, ht⟩ := h
    have := ih ht
    rw [List.length_cons]
    omega

theorem Tiles.bounds (h : Tiles lo bs hi) : lo ≤ hi ∧ ∀ b ∈ bs, lo ≤ b.1 ∧ b.1 + b.2 ≤ hi ∧ 0 < b.2 := by
  induction bs generalizing lo with
  | nil => exact ⟨Nat.le_of_eq h, by simp⟩
  | cons b bs ih =>
    obtain ⟨hb, hpos, ht⟩ := h
    obtain ⟨hle, hbs⟩ := ih ht
    refine ⟨by omega, ?_⟩
    intro c hc
    rcases List.mem_cons.mp hc with rfl | hc
    · omega
    · have := hbs c hc
      omega

/-- Blocks of a tiling do not overlap: each ends before the next ones start. -/
theorem Tiles.pairwise (h : Tiles lo bs hi) : bs.Pairwise fun a b => a.1 + a.2 ≤ b.1 := by
  induction bs generalizing lo with
  | nil => exact List.Pairwise.nil
  | cons b bs ih =>
    obtain ⟨hb, -, ht⟩ := h
    refine List.Pairwise.cons ?_ (ih ht)
    intro c hc
    have := ht.bounds.2 c hc
    omega

/-- The blocks of a tiling cover exactly the interval. -/
theorem Tiles.covers (h : Tiles lo bs hi) (x : ℕ) : (lo ≤ x ∧ x < hi) ↔ ∃ b ∈ bs, b.1 ≤ x ∧ x < b.1 + b.2 := by
  induction bs generalizing lo with
  | nil =>
    obtain rfl : lo = hi := h
    simp
  | cons b bs ih =>
    obtain ⟨hb, hpos, ht⟩ := h
    have hle := ht.bounds.1
    rw [List.exists_mem_cons_iff, ← ih ht]
    omega

/-- Blocks of one length. -/
theorem Tiles.uniform (lo m : ℕ) {n : ℕ} (hn : 0 < n) :
    Tiles lo ((List.range m).map fun k => (lo + n * k, n)) (lo + n * m) := by
  induction m with
  | zero => rfl
  | succ m ih =>
    rw [List.range_succ, List.map_append, Nat.mul_succ, ← Nat.add_assoc]
    exact ih.append hn

/-! ## Chains of transfers -/

inductive Chain (stop : ℕ) (req : ℕ → ℕ) : ℕ → List (ℕ × ℕ) → ℕ → Prop
  | done (w : ℕ) : Chain stop req w [] w
  | chunk {w r hi : ℕ} {bs : List (ℕ × ℕ)} : w < stop → 0 < r → r ≤ req w → Chain stop req (w + r) bs hi →
      Chain stop req w ((w, r) :: bs) hi

variable {stop : ℕ} {req : ℕ → ℕ}

theorem Chain.tiles (h : Chain stop req lo bs hi) : Tiles lo bs hi := by
  induction h with
  | done => rfl
  | chunk _ hr _ _ ih => exact ⟨rfl, hr, ih⟩

theorem Chain.trans {top : ℕ} {cs : List (ℕ × ℕ)} (h : Chain stop req lo bs hi) (h' : Chain stop req hi cs top) :
    Chain stop req lo (bs ++ cs) top := by
  induction h with
  | done w => exact h'
  | chunk hw hr hreq _ ih => exact .chunk hw hr hreq (ih h')

theorem Chain.snoc (h : Chain stop req lo bs hi) {r : ℕ} (hs : hi < stop) (hr : 0 < r) (hreq : r ≤ req hi) :
    Chain stop req lo (bs ++ [(hi, r)]) (hi + r) :=
  h.trans (.chunk hs hr hreq (.done _))

/-- A chain that gets somewhere has a last chunk. -/
theorem Chain.last (h : Chain stop req lo bs hi) :
    lo = hi ∨ ∃ w, lo ≤ w ∧ w < stop ∧ w < hi ∧ hi ≤ w + req w := by
  induction h with
  | done => exact .inl rfl
  | @chunk w r hi bs hw hr hreq hc ih =>
    right
    rcases ih with heq | ⟨v, hv, hstop, hlt, hend⟩
    · exact ⟨w, le_rfl, hw, by omega, by omega⟩
    · exact ⟨v, by omega, hstop, hlt, hend⟩

/-- If no request goes past `top`, the chain does not either. -/
theorem Chain.le_top (h : Chain stop req lo bs hi) {top : ℕ} (hlo : lo ≤ top)
    (hreq : ∀ w, lo ≤ w → w < stop → w + req w ≤ top) : hi ≤ top := by
  rcases h.last with rfl | ⟨w, hle, hw, -, hend⟩
  · exact hlo
  · exact hend.trans (hreq w hle hw)

/-- Every block of the chain is at most as long as the longest request. -/
theorem Chain.length_le (h : Chain stop req lo bs hi) {n : ℕ} (hreq : ∀ w, lo ≤ w → w < stop → req w ≤ n) :
    ∀ b ∈ bs, b.2 ≤ n := by
  induction h with
  | done => simp
  | chunk hw _ hr _ ih =>
    intro b hb
    rcases List.mem_cons.mp hb with rfl | hb
    · exact hr.trans (hreq _ le_rfl hw)
    · exact ih (fun v hv => hreq v (by omega)) b hb

/-- Byte by byte, a loop can get anywhere below `stop`. -/
theorem Chain.byBytes (stop : ℕ) (req : ℕ → ℕ) (lo hi : ℕ) (hle : lo ≤ hi) (hs : hi ≤ stop)
    (hreq : ∀ w, lo ≤ w → w < hi → 0 < req w) : ∃ bs, Chain stop req lo bs hi := by
  induction hi with
  | zero =>
    obtain rfl : lo = 0 := by omega
    exact ⟨[], .done _⟩
  | succ hi ih =>
    by_cases heq : lo = hi + 1
    · subst heq
      exact ⟨[], .done _⟩
    · obtain ⟨bs, h⟩ := ih (by omega) (by omega) fun w h₁ h₂ => hreq w h₁ (by omega)
      exact ⟨_, h.snoc (by omega) Nat.one_pos (hreq hi (by omega) (by omega))⟩

/-- On its way a loop can get to any position `w` and have a call of its own there. -/
theorem Chain.byBytes_mem (stop : ℕ) (req : ℕ → ℕ) {lo w : ℕ} (hlo : lo ≤ w) (hw : w < stop)
    (hreq : ∀ v, lo ≤ v → v < stop → 0 < req v) : ∃ bs, Chain stop req lo bs stop ∧ (w, 1) ∈ bs := by
  obtain ⟨bs, h⟩ := Chain.byBytes stop req lo w hlo hw.le fun v h₁ h₂ => hreq v h₁ (by omega)
  obtain ⟨cs, h'⟩ := Chain.byBytes stop req (w + 1) stop hw le_rfl fun v h₁ h₂ => hreq v (by omega) h₂
  exact ⟨_, h.trans (.chunk hw Nat.one_pos (hreq w hlo hw) h'), by simp⟩

/-- A loop that never asks past `stop` can get there with full chunks only. -/
theorem Chain.byFull (stop : ℕ) (req : ℕ → ℕ) (lo : ℕ) (hlo : lo ≤ stop)
    (hreq : ∀ w, lo ≤ w → w < stop → 0 < req w ∧ w + req w ≤ stop) :
    ∃ bs, Chain stop req lo bs stop ∧ ∀ b ∈ bs, b.2 = req b.1 := by
  obtain ⟨k, hk⟩ := Nat.exists_eq_add_of_le hlo
  induction k using Nat.strong_induction_on generalizing lo with
  | _ k ih =>
    by_cases hlt : lo < stop
    · obtain ⟨hpos, hle⟩ := hreq lo le_rfl hlt
      obtain ⟨bs, hc, hfull⟩ := ih (k - req lo) (by omega) (lo + req lo) hle (fun w hw => hreq w (by omega)) (by omega)
      exact ⟨_, .chunk hlt hpos le_rfl hc, List.forall_mem_cons.mpr ⟨rfl, hfull⟩⟩
    · obtain rfl : lo = stop := by omega
      exact ⟨[], .done _, by simp⟩

/-! ## What a chain writes -/

/-- The file after each block was written from the start of the buffer. -/
def File.writes (f : File) (buf : ℕ → UInt8) (bs : List (ℕ × ℕ)) : File := bs.foldl (fun f b => f.write b.1 b.2 buf) f

theorem File.writes_byte_of_not_mem {f : File} {buf : ℕ → UInt8} {x : ℕ}
    (h : ∀ b ∈ bs, ¬ (b.1 ≤ x ∧ x < b.1 + b.2)) : (f.writes buf bs).byte x = f.byte x := by
  induction bs generalizing f with
  | nil => rfl
  | cons b bs ih =>
    calc (f.writes buf (b :: bs)).byte x = (f.write b.1 b.2 buf).byte x :=
          ih fun c hc => h c (List.mem_cons_of_mem b hc)
      _ = f.byte x := File.write_byte_of_not_mem (h b List.mem_cons_self)

/-- No block of a tiling is overwritten by a later one. -/
theorem Tiles.writes_byte (h : Tiles lo bs hi) {f : File} {buf : ℕ → UInt8} {b : ℕ × ℕ} (hb : b ∈ bs) {i : ℕ}
    (hi' : i < b.2) : (f.writes buf bs).byte (b.1 + i) = buf i := by
  induction bs generalizing lo f with
  | nil => simp at hb
  | cons c bs ih =>
    obtain ⟨hc, -, ht⟩ := h
    rcases List.mem_cons.mp hb with rfl | hb
    · have hlater : ∀ c ∈ bs, ¬ (c.1 ≤ b.1 + i ∧ b.1 + i < c.1 + c.2) := by
        intro c hc'
        have := ht.bounds.2 c hc'
        omega
      calc (f.writes buf (b :: bs)).byte (b.1 + i) = (f.write b.1 b.2 buf).byte (b.1 + i) :=
            File.writes_byte_of_not_mem hlater
        _ = buf (b.1 + i - b.1) := File.write_byte_of_mem (by omega) (by omega)
        _ = buf i := by rw [Nat.add_sub_cancel_left]
    · exact ih ht hb

/-- Blocks no longer than a buffer that holds one byte only fill their range with it. -/
theorem Tiles.writes_eq_fill (h : Tiles lo bs hi) {f : File} {buf : ℕ → UInt8} {n : ℕ} {c : UInt8}
    (hbs : ∀ b ∈ bs, b.2 ≤ n) (hbuf : ∀ i < n, buf i = c) : f.writes buf bs = f.fill lo (hi - lo) c := by
  induction bs generalizing lo f with
  | nil =>
    obtain rfl : lo = hi := h
    rw [Nat.sub_self]
    exact File.write_zero.symm
  | cons b bs ih =>
    obtain ⟨rfl, -, ht⟩ := h
    have hb := hbs b List.mem_cons_self
    have hle := ht.bounds.1
    have hfirst : f.write b.1 b.2 buf = f.fill b.1 b.2 c := File.write_congr fun i hi => hbuf i (by omega)
    calc f.writes buf (b :: bs) = (f.fill b.1 b.2 c).writes buf bs := by rw [← hfirst]; rfl
      _ = (f.fill b.1 b.2 c).fill (b.1 + b.2) (hi - (b.1 + b.2)) c :=
        ih ht fun b' hb' => hbs b' (List.mem_cons_of_mem b hb')
      _ = f.fill b.1 (hi - b.1) c := by
        rw [File.fill_fill]
        congr 1
        omega

end CppNotes.Lib
