import CppNotes.Lib.Loop
import Mathlib.Data.Finset.Card
import Mathlib.Data.Int.GCD
import Mathlib.Data.Nat.Find
import Mathlib.Data.Nat.ModEq
import Mathlib.Tactic.Ring

/-!
# Loops that count in equal steps

A loop `while (pos + len <= top) pos += len` visits the multiples of `len` up to `top` (`Stride`).

When the position is kept modulo `M` and its sum with `len` can wrap around, the loop goes round the multiples of `len`
modulo `M` (`Rotates`).  These are the multiples of the greatest common divisor of both, so it ends exactly if the largest
of them, `M` less the divisor, is beyond the bound.
-/

namespace CppNotes.Lib

variable {σ : Type} {cond : σ → Bool} {body : σ → σ} {pos : σ → ℕ} {len top : ℕ} {s₀ : σ}

/-! ## Without a wrap -/

structure Stride (cond : σ → Bool) (body : σ → σ) (pos : σ → ℕ) (len top : ℕ) : Prop where
  test : ∀ s, pos s ≤ top → (cond s = true ↔ pos s + len ≤ top)
  move : ∀ s, pos s ≤ top → cond s = true → pos (body s) = pos s + len

theorem Stride.visits (h : Stride cond body pos len top) (h₀ : pos s₀ = 0) {s : σ} (hv : Visits cond body s₀ s) :
    ∃ k, pos s = k * len ∧ k * len ≤ top := by
  induction hv with
  | init => exact ⟨0, by rw [h₀, Nat.zero_mul], by omega⟩
  | @next s _ hc ih =>
    obtain ⟨k, hk, hle⟩ := ih
    have hstep := (h.test s (by omega)).mp hc
    refine ⟨k + 1, ?_, ?_⟩
    · rw [h.move s (by omega) hc, hk, Nat.add_one_mul]
    · rw [Nat.add_one_mul]
      omega

theorem Stride.exists_visit (h : Stride cond body pos len top) (h₀ : pos s₀ = 0) (k : ℕ) (hk : k * len ≤ top) :
    ∃ s, Visits cond body s₀ s ∧ pos s = k * len := by
  induction k with
  | zero => exact ⟨s₀, .init, by rw [h₀, Nat.zero_mul]⟩
  | succ k ih =>
    rw [Nat.add_one_mul] at hk ⊢
    obtain ⟨s, hv, hs⟩ := ih (by omega)
    have hc := (h.test s (by omega)).mpr (by omega)
    exact ⟨body s, hv.next hc, by rw [h.move s (by omega) hc, hs]⟩

/-- The positions at which the loop makes a turn. -/
theorem Stride.turns_iff (h : Stride cond body pos len top) (s₀ : σ) (h₀ : pos s₀ = 0) (p : ℕ) :
    (∃ s, Visits cond body s₀ s ∧ cond s = true ∧ pos s = p) ↔ ∃ k, p = k * len ∧ (k + 1) * len ≤ top := by
  constructor
  · rintro ⟨s, hv, hc, rfl⟩
    obtain ⟨k, hk, hle⟩ := h.visits h₀ hv
    have := (h.test s (by omega)).mp hc
    exact ⟨k, hk, by rw [Nat.add_one_mul]; omega⟩
  · rintro ⟨k, rfl, hle⟩
    rw [Nat.add_one_mul] at hle
    obtain ⟨s, hv, hs⟩ := h.exists_visit h₀ k (by omega)
    exact ⟨s, hv, (h.test s (by omega)).mpr (by omega), hs⟩

/-- **The loop makes as many turns as steps fit**; `inv k` is what `k` turns leave. -/
theorem Stride.ends (h : Stride cond body pos len top) (hlen : 0 < len) (s₀ : σ) {fuel : ℕ} (hfuel : top < fuel)
    (inv : ℕ → σ → Prop) (h₀ : pos s₀ = 0) (hinv₀ : inv 0 s₀)
    (hinv : ∀ k s, inv k s → pos s = k * len → (k + 1) * len ≤ top → inv (k + 1) (body s)) :
    ∃ s, loop cond body fuel s₀ = some s ∧ inv (top / len) s := by
  have hsome : (loop cond body fuel s₀).isSome = true := by
    refine loop_isSome (fun s => pos s ≤ top) (fun s => top - pos s) ?_ ?_ (by omega) (by omega)
    · intro s hs hc
      rw [h.move s hs hc]
      exact (h.test s hs).mp hc
    · intro s hs hc
      have := (h.test s hs).mp hc
      rw [h.move s hs hc]
      omega
  obtain ⟨s, hs⟩ := Option.isSome_iff_exists.mp hsome
  obtain ⟨⟨k, hk, hle, hI⟩, hc⟩ := loop_spec (fun s => ∃ k, pos s = k * len ∧ k * len ≤ top ∧ inv k s)
    (fun s hs hc => by
      obtain ⟨k, hk, hle, hI⟩ := hs
      have hstep := (h.test s (by omega)).mp hc
      have hle' : (k + 1) * len ≤ top := by
        rw [Nat.add_one_mul]
        omega
      exact ⟨k + 1, by rw [h.move s (by omega) hc, hk, Nat.add_one_mul], hle', hinv k s hI hk hle'⟩)
    ⟨0, by rw [h₀, Nat.zero_mul], by omega, hinv₀⟩ hs
  have hend : ¬ pos s + len ≤ top := fun hle' => by simp [(h.test s (by omega)).mpr hle'] at hc
  have hturns : top / len = k := Nat.div_eq_of_lt_le hle (by rw [Nat.add_one_mul]; omega)
  exact ⟨s, hs, hturns ▸ hI⟩

/-! ## With a wrap -/

variable {M n : ℕ} {view : ℕ → ℕ}

/-- The position goes round modulo `M`; what is compared with `n` is a view of it. -/
structure Rotates (cond : σ → Bool) (body : σ → σ) (pos : σ → ℕ) (len M : ℕ) (view : ℕ → ℕ) (n : ℕ) : Prop where
  test : ∀ s, cond s = true ↔ view ((pos s + len) % M) ≤ n
  move : ∀ s, pos (body s) = (pos s + len) % M

theorem Rotates.iterate (h : Rotates cond body pos len M view n) (h₀ : pos s₀ = 0) (k : ℕ) :
    pos (body^[k] s₀) = k * len % M := by
  induction k with
  | zero => simp [h₀]
  | succ k ih => rw [Function.iterate_succ_apply', h.move, ih, Nat.mod_add_mod, Nat.add_one_mul]

/-- The first position beyond the bound comes before any position comes twice. -/
theorem first_beyond_le (hview : ∀ x < M, ∀ y < M, view x = view y → x = y) (hM : 0 < M) {k : ℕ}
    (hk : n < view (k * len % M)) (hmin : ∀ j < k, view (j * len % M) ≤ n) : k ≤ n + 1 := by
  have hinj : Set.InjOn (fun j => view (j * len % M)) (Finset.range k : Set ℕ) := by
    -- if turns `i < j` were at one position, turn `k - (j - i)` would be where turn `k` is
    have hlt {i j : ℕ} (hij : i < j) (hj : j < k) (heq : view (i * len % M) = view (j * len % M)) : False := by
      have hpos := hview _ (Nat.mod_lt _ hM) _ (Nat.mod_lt _ hM) heq
      have hmod : (k - (j - i)) * len ≡ k * len [MOD M] := by
        have hsum : (k - (j - i)) * len + j * len = k * len + i * len := by
          rw [← Nat.add_mul, ← Nat.add_mul]
          congr 1
          omega
        refine Nat.ModEq.add_right_cancel (c := j * len) (d := i * len) ?_ (hsum ▸ rfl)
        exact hpos.symm
      have := hmin (k - (j - i)) (by omega)
      rw [show (k - (j - i)) * len % M = k * len % M from hmod] at this
      omega
    intro i hi j hj heq
    rcases lt_trichotomy i j with hij | hij | hij
    · exact (hlt hij (by simpa using hj) heq).elim
    · exact hij
    · exact (hlt hij (by simpa using hi) heq.symm).elim
  have hcard := Finset.card_le_card_of_injOn (s := Finset.range k) (t := Finset.range (n + 1)) _
    (fun j hj => by
      have := hmin j (by simpa using hj)
      simp only [Finset.coe_range, Set.mem_Iio]
      omega) hinj
  simpa using hcard

theorem Rotates.beyond_of_isSome (h : Rotates cond body pos len M view n) (h₀ : pos s₀ = 0) {fuel : ℕ}
    (hsome : (loop cond body fuel s₀).isSome = true) : ∃ k, n < view (k * len % M) := by
  by_contra hnone
  rw [not_exists] at hnone
  have hloop : loop cond body fuel s₀ = none :=
    loop_eq_none (fun s => ∃ k, pos s = k * len % M) (fun s hs => by
      obtain ⟨k, hk⟩ := hs
      have hnext : (pos s + len) % M = (k + 1) * len % M := by rw [hk, Nat.mod_add_mod, Nat.add_one_mul]
      refine ⟨(h.test s).mpr ?_, k + 1, by rw [h.move, hnext]⟩
      rw [hnext]
      exact Nat.not_lt.mp (hnone (k + 1))) fuel ⟨0, by simp [h₀]⟩
  simp [hloop] at hsome

/-- **When a loop that goes round ends**: some position that it comes to is beyond the bound.  It then needs no more turns
than there are numbers up to the bound. -/
theorem Rotates.isSome_iff (h : Rotates cond body pos len M view n) (hM : 0 < M)
    (hview : ∀ x < M, ∀ y < M, view x = view y → x = y) (hzero : view 0 ≤ n) (h₀ : pos s₀ = 0) {fuel : ℕ}
    (hfuel : n < fuel) : (loop cond body fuel s₀).isSome = true ↔ ∃ k, n < view (k * len % M) := by
  refine ⟨h.beyond_of_isSome h₀, fun hex => ?_⟩
  classical
  have hk := Nat.find_spec hex
  have hmin (j : ℕ) (hj : j < Nat.find hex) : view (j * len % M) ≤ n := Nat.not_lt.mp (Nat.find_min hex hj)
  generalize Nat.find hex = k at hk hmin
  have hle := first_beyond_le hview hM hk hmin
  cases k with
  | zero =>
    rw [Nat.zero_mul, Nat.zero_mod] at hk
    omega
  | succ k =>
    refine loop_isSome_of_iterate k (by omega) ?_
    have htest := h.test (body^[k] s₀)
    rw [h.iterate h₀, Nat.mod_add_mod, ← Nat.add_one_mul] at htest
    exact Bool.eq_false_of_not_eq_true fun hc => absurd (htest.mp hc) (Nat.not_le.mpr hk)

theorem Rotates.ends_iff (h : Rotates cond body pos len M view n) (hM : 0 < M)
    (hview : ∀ x < M, ∀ y < M, view x = view y → x = y) (hzero : view 0 ≤ n) (h₀ : pos s₀ = 0) :
    (∃ fuel, (loop cond body fuel s₀).isSome = true) ↔ ∃ k, n < view (k * len % M) := by
  refine ⟨fun hex => ?_, fun hex => ⟨n + 1, (h.isSome_iff hM hview hzero h₀ (Nat.lt_succ_self n)).mpr hex⟩⟩
  obtain ⟨fuel, hsome⟩ := hex
  exact h.beyond_of_isSome h₀ hsome

/-! ## The multiples of a number modulo another -/

/-- The largest multiple. -/
theorem exists_mul_mod_eq_sub_gcd (len : ℕ) {M : ℕ} (h : Nat.gcd len M < M) : ∃ k, k * len % M = M - Nat.gcd len M := by
  obtain ⟨m, -, hm⟩ := Nat.exists_mul_mod_eq_gcd h
  obtain ⟨q, hq⟩ := Nat.gcd_dvd_right len M
  have hpos : 0 < q := Nat.pos_of_ne_zero fun h0 => by
    rw [h0, Nat.mul_zero] at hq
    omega
  refine ⟨m * (q - 1), ?_⟩
  have hmod : m * (q - 1) * len ≡ Nat.gcd len M * (q - 1) [MOD M] := by
    have : len * m ≡ Nat.gcd len M [MOD M] := by
      rw [Nat.ModEq, hm, Nat.mod_eq_of_lt h]
    calc m * (q - 1) * len = len * m * (q - 1) := by ring
      _ ≡ Nat.gcd len M * (q - 1) [MOD M] := this.mul_right _
  have hval : Nat.gcd len M * (q - 1) = M - Nat.gcd len M := by
    rw [Nat.mul_sub_one, ← hq]
  have hg : 0 < Nat.gcd len M := Nat.gcd_pos_of_pos_right _ (by omega)
  rw [show m * (q - 1) * len % M = _ from hmod, hval, Nat.mod_eq_of_lt (by omega)]

theorem mul_mod_le_sub_gcd (hM : 0 < M) (len k : ℕ) : k * len % M ≤ M - Nat.gcd len M := by
  have hlt := Nat.mod_lt (k * len) hM
  have hdvd : Nat.gcd len M ∣ M - k * len % M :=
    Nat.dvd_sub (Nat.gcd_dvd_right _ _) ((Nat.dvd_mod_iff (Nat.gcd_dvd_right _ _)).mpr ((Nat.gcd_dvd_left _ _).mul_left _))
  have := Nat.le_of_dvd (by omega) hdvd
  omega

theorem exists_lt_mul_mod_iff (hM : 0 < M) : (∃ k, n < k * len % M) ↔ n + Nat.gcd len M < M := by
  constructor
  · rintro ⟨k, hk⟩
    have := mul_mod_le_sub_gcd hM len k
    omega
  · intro h
    obtain ⟨k, hk⟩ := exists_mul_mod_eq_sub_gcd len (show Nat.gcd len M < M by omega)
    exact ⟨k, by omega⟩

end CppNotes.Lib
