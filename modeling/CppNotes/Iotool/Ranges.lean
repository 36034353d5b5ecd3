import CppNotes.Iotool.Calls

/-!
# What a write engine that returns 0 has written

The end of the range is computed modulo `2 ^ 64` and compared as an unsigned word.  If it wraps around, the loop runs
zero times and the engine reports success.  `Covers` states over natural numbers that every way of the loop to its end
covers a range, and `Engine.honest_of_covers` and `Engine.covers_of_honest` lead from the engines to it and back.
-/

namespace CppNotes.Iotool

open CppNotes.Lib

/-- If the engine returns 0, then it has written all of `[lo, hi)`. -/
def Engine.Honest (e : Engine) (lo hi : ℤ) : Prop :=
  ∀ mem rs f, (e.run mem rs f).1 = .ret 0 → (∀ p ∈ (e.run mem rs f).2.calls, p.Ok) →
    ∀ x, lo ≤ x → x < hi → (e.run mem rs f).2.Written x

/-- Every way from `u` to `stop` covers `[lo, hi)`. -/
def Covers (stop : ℕ) (req : ℕ → ℕ) (u : ℕ) (lo hi : ℤ) : Prop :=
  ∀ bs top, Chain (min stop (2 ^ 63)) req u bs top → stop ≤ top → ∀ x : ℤ, lo ≤ x → x < hi → (u : ℤ) ≤ x ∧ x < top

theorem Engine.honest_of_covers (e : Engine) {lo hi : ℤ} (h : Covers e.stop.toNat e.req (unat e.start) lo hi) :
    e.Honest lo hi := by
  intro mem rs f h0 hok x hlo hhi
  cases mem with
  | none => exact absurd h0 (e.run_of_hang (by simp) rs f)
  | some heap =>
    cases hfill : e.fill (bufLen e.dataLen) heap with
    | none => exact absurd h0 (e.run_of_hang (by simp [hfill]) rs f)
    | some buf =>
      obtain ⟨top, hchain, -, hexit⟩ := e.run_chain hfill rs f hok
      have hstop : e.stop.toNat ≤ top := by
        rcases hexit with h' | h' | h'
        · exact h'.2
        · simp [h'.1] at h0
        · simp [h'.1] at h0
      rw [written_iff hok hchain.tiles]
      exact h _ top hchain hstop x hlo hhi

theorem Engine.covers_of_honest (e : Engine) {lo hi : ℤ} {heap buf : Mem}
    (hfill : e.fill (bufLen e.dataLen) heap = some buf) (h : e.Honest lo hi) :
    Covers e.stop.toNat e.req (unat e.start) lo hi := by
  intro bs top hchain hstop x hlo hhi
  obtain ⟨rs, hrun⟩ := e.realize heap hfill hchain hstop File.empty
  obtain ⟨h0, hall, hext⟩ := hrun []
  have hok : ∀ p ∈ (e.run (some heap) (rs ++ []) File.empty).2.calls, p.Ok := fun p hp => .inr (hall p hp)
  have hw := h (some heap) (rs ++ []) File.empty h0 hok x hlo hhi
  rwa [written_iff hok (by rw [hext]; exact hchain.tiles)] at hw

/-! ## Ranges over natural numbers -/

section Covers

variable {req : ℕ → ℕ} {u d : ℕ}

/-- The byte engines: the range is covered unless its end wraps around. -/
theorem covers_bytes_iff (off : Int64) (cnt : UInt64) :
    Covers ((cnt.toNat + unat off) % 2 ^ 64) req (unat off) off.toInt (off.toInt + cnt.toNat) ↔
      unat off + cnt.toNat < 2 ^ 64 := by
  have hu := unat_lt off
  have hd := cnt.toNat_lt
  constructor
  · intro h
    by_contra hwrap
    have := h [] (unat off) (.done _) (by omega) off.toInt le_rfl (by omega)
    omega
  · intro hlt bs top hchain hstop x hlo hhi
    rw [Nat.mod_eq_of_lt (by omega)] at hchain hstop
    rcases unat_cases off with ⟨hpos, heq⟩ | ⟨hneg, heq⟩
    · omega
    · rcases hchain.last with rfl | ⟨w, hw, hlt', -, -⟩
      · omega
      · omega

/-- The sector engines start at `u` and stop at `u + d`, both modulo `2 ^ 64`; `most` is what a call can write. -/
theorem covers_sects_iff {a : ℤ} {l : ℕ} {most : ℕ → ℕ} (ha : a % 2 ^ 64 = u) (hl : l % 2 ^ 64 = d)
    (hreq : u + d < 2 ^ 64 → ∀ w, w < u + d → w < 2 ^ 63 → req w = most w) (hmost : 0 < d → ∀ w < u + d, 0 < most w) :
    Covers ((d + u) % 2 ^ 64) req u a (a + l) ↔
      l = 0 ∨ 0 < d ∧ u + d < 2 ^ 64 ∧
        (a = u ∧ l = d ∨ ¬ ∃ w, u ≤ w ∧ w < u + d ∧ w < 2 ^ 63 ∧ u + d ≤ w + most w) := by
  constructor
  · intro h
    by_cases hl0 : l = 0
    · exact .inl hl0
    have hfirst := h [] u (.done _)
    have hd : 0 < d := by
      by_contra hd
      have := hfirst (by omega) a le_rfl (by omega)
      omega
    have hlt : u + d < 2 ^ 64 := by
      by_contra hwrap
      have := hfirst (by omega) a le_rfl (by omega)
      omega
    refine .inr ⟨hd, hlt, ?_⟩
    by_contra! hcon
    obtain ⟨hne, w, hw, hwd, hw63, hend⟩ := hcon
    rw [Nat.mod_eq_of_lt (by omega)] at h
    -- byte by byte to `w`, and from there to the end in one call
    obtain ⟨bs, hchain⟩ := Chain.byBytes (min (d + u) (2 ^ 63)) req u w hw (by omega) fun v _ hv => by
      rw [hreq hlt v (by omega) (by omega)]
      exact hmost hd v (by omega)
    rw [← hreq hlt w hwd hw63] at hend
    have hcov := h _ _ (hchain.snoc (r := u + d - w) (by omega) (by omega) (by omega)) (by omega)
    have h1 := hcov a le_rfl (by omega)
    have h2 := hcov (a + l - 1) (by omega) (by omega)
    exact hne (by omega) (by omega)
  · rintro (rfl | ⟨hd, hlt, hcase⟩) bs top hchain hstop x hlo hhi
    · omega
    · rw [Nat.mod_eq_of_lt (by omega)] at hchain hstop
      rcases hcase with ⟨rfl, rfl⟩ | hno
      · omega
      · rcases hchain.last with rfl | ⟨w, hw, hlt', htop, hend⟩
        · omega
        · rw [hreq hlt w (by omega) (by omega)] at hend
          exact absurd ⟨w, hw, by omega, by omega, by omega⟩ hno

end Covers

/-! ## The four engines -/

/-- From `u` a sector engine can get to `u + d` although it writes at offsets below `2 ^ 63` only: by calls for a whole
buffer; by one call for the `u` bytes that are left at offset `d`; or by one call at the last offset. -/
def InReach (u d : ℕ) : Prop :=
  u < 2 ^ 63 ∧ (u + d < 2 ^ 63 + min d 4194304 ∨ u ≤ d ∧ d < 2 ^ 63 ∨ 2 ^ 63 ≤ d ∧ d < 2 ^ 63 + 4194304)

theorem inReach_iff {u d : ℕ} (hd : 0 < d) (hlt : u + d < 2 ^ 64) (hu : 512 ∣ u) (hd' : 512 ∣ d) :
    (∃ w, u ≤ w ∧ w < u + d ∧ w < 2 ^ 63 ∧ u + d ≤ w + sectsMost u d w) ↔ InReach u d := by
  constructor
  · rintro ⟨w, huw, hwd, hw, hend⟩
    refine ⟨by omega, ?_⟩
    unfold sectsMost at hend
    split at hend
    · omega
    · omega
  · rintro ⟨hu63, hbuf | ⟨hud, hd63⟩ | ⟨hd63, hd4⟩⟩
    · refine ⟨max u (u + d - min d 4194304), by omega, by omega, by omega, ?_⟩
      unfold sectsMost
      split <;> omega
    · rcases Nat.eq_zero_or_pos u with rfl | hpos
      · have := sectsMost_pos (u := 0) (w := d - 1) hd (by omega)
        exact ⟨d - 1, by omega, by omega, by omega, by omega⟩
      · refine ⟨d, hud, by omega, hd63, ?_⟩
        unfold sectsMost
        rw [if_neg (by omega)]
        omega
    · refine ⟨2 ^ 63 - 1, by omega, by omega, by omega, ?_⟩
      unfold sectsMost
      rw [if_neg (by omega)]
      omega

/-- The arguments for which a sector engine that returns 0 has written its range; `u` and `d` are the start and the
length of the range modulo `2 ^ 64`.  There is nothing to write; or nothing overflows; or, with an overflow, the range
that is left is not empty and its end is out of reach, so that the engine does not return 0. -/
def SectsRange (off : Int64) (cnt : UInt64) : Prop :=
  let u : ℕ := (512 * off.toInt % 2 ^ 64).toNat
  let d : ℕ := 512 * cnt.toNat % 2 ^ 64
  cnt.toNat = 0 ∨ 0 < d ∧ u + d < 2 ^ 64 ∧ (512 * off.toInt = u ∧ 512 * cnt.toNat = d ∨ ¬ InReach u d)

theorem bytes_covers_iff (e : Engine) (off : Int64) (cnt : UInt64) (hstart : e.start = off)
    (hstop : e.stop = cnt + off.toUInt64) :
    Covers e.stop.toNat e.req (unat e.start) off.toInt (off.toInt + cnt.toNat) ↔ unat off + cnt.toNat < 2 ^ 64 := by
  rw [hstart, hstop, UInt64.toNat_add]
  exact covers_bytes_iff off cnt

/-- The start and the length of the range of a sector engine, as words. -/
theorem sects_range (off : Int64) (cnt : UInt64) : 512 * off.toInt % 2 ^ 64 = unat (off * SECTOR_SIZE.toInt64) ∧
    512 * cnt.toNat % 2 ^ 64 = (SECTOR_SIZE * cnt).toNat := by
  refine ⟨?_, (UInt64.toNat_mul SECTOR_SIZE cnt).symm⟩
  have h512 : SECTOR_SIZE.toInt64.toInt = 512 := rfl
  have hb : (off.toInt * 512).bmod (2 ^ 64) % ((2 ^ 64 : ℕ) : ℤ) = off.toInt * 512 % ((2 ^ 64 : ℕ) : ℤ) :=
    Int.bmod_emod
  rw [← toInt_emod, Int64.toInt_mul, h512, Int.mul_comm]
  exact_mod_cast hb.symm

theorem sects_covers_iff (e : Engine) (off : Int64) (cnt : UInt64) (hlen : e.dataLen = SECTOR_SIZE * cnt)
    (hstart : e.start = off * SECTOR_SIZE.toInt64)
    (hstop : e.stop = SECTOR_SIZE * cnt + (off * SECTOR_SIZE.toInt64).toUInt64)
    (hone : e.oneWrLen = sectsLen (SECTOR_SIZE * cnt) off) :
    Covers e.stop.toNat e.req (unat e.start) (512 * off.toInt) (512 * (off.toInt + cnt.toNat)) ↔
      SectsRange off cnt := by
  obtain ⟨hu, hd⟩ := sects_range off cnt
  have hend : 512 * (off.toInt + cnt.toNat) = 512 * off.toInt + ((512 * cnt.toNat : ℕ) : ℤ) := by omega
  have hreq (hlt : unat (off * SECTOR_SIZE.toInt64) + (SECTOR_SIZE * cnt).toNat < 2 ^ 64) (w : ℕ)
      (hw : w < unat (off * SECTOR_SIZE.toInt64) + (SECTOR_SIZE * cnt).toNat) (_ : w < 2 ^ 63) :
      e.req w = sectsMost (unat (off * SECTOR_SIZE.toInt64)) (SECTOR_SIZE * cnt).toNat w := by
    unfold Engine.req
    rw [hone, hlen]
    exact request_sects off cnt _ rfl rfl (toNat_bufLen _) hlt hw
  rw [hstart, hstop, UInt64.toNat_add, hend]
  refine (covers_sects_iff hu hd hreq fun hpos w hw => sectsMost_pos hpos hw).trans ?_
  have hu' : unat (off * SECTOR_SIZE.toInt64) = (512 * off.toInt % 2 ^ 64).toNat := by omega
  rw [hu', ← hd, SectsRange]
  refine or_congr (by omega) (and_congr_right fun hpos => and_congr_right fun hlt => or_congr_right (not_congr ?_))
  exact inReach_iff hpos hlt (by omega) (by omega)

/-- A family of engines that differ in what they write. -/
theorem honest_family_iff {ι : Type} (e : ι → Engine) {lo hi : ℤ} {C : Prop}
    (hcov : ∀ i, Covers (e i).stop.toNat (e i).req (unat (e i).start) lo hi ↔ C) (i : ι) (heap : Mem) {buf : Mem}
    (hfill : (e i).fill (bufLen (e i).dataLen) heap = some buf) : (∀ i, (e i).Honest lo hi) ↔ C := by
  constructor
  · intro h
    exact (hcov i).mp ((e i).covers_of_honest hfill (h i))
  · intro hC i
    exact (e i).honest_of_covers ((hcov i).mpr hC)

theorem fillStr_letterA (n : UInt64) : ∃ buf, fillStr letterA (bufLen n) (fun _ => 0) = some buf :=
  Option.isSome_iff_exists.mp (fillStr_bufLen_isSome (by decide) n _)

/-- **When success means that the range was written.**  For all values that the arguments can have: the byte engines
are honest unless the end of the range wraps around `2 ^ 64`, the sector engines as `SectsRange` says. -/
theorem engines_honest_iff (off : Int64) (cnt : UInt64) :
    ((∀ c, (doWrBytesChar off cnt c).Honest off.toInt (off.toInt + cnt.toNat)) ↔ unat off + cnt.toNat < 2 ^ 64) ∧
    ((∀ str, (doWrBytesStr off cnt str).Honest off.toInt (off.toInt + cnt.toNat)) ↔ unat off + cnt.toNat < 2 ^ 64) ∧
    ((∀ c, (doWrSectsChar off cnt c).Honest (512 * off.toInt) (512 * (off.toInt + cnt.toNat))) ↔ SectsRange off cnt) ∧
    ((∀ str, (doWrSectsStr off cnt str).Honest (512 * off.toInt) (512 * (off.toInt + cnt.toNat))) ↔
      SectsRange off cnt) := by
  obtain ⟨buf, hbuf⟩ := fillStr_letterA cnt
  obtain ⟨buf', hbuf'⟩ := fillStr_letterA (SECTOR_SIZE * cnt)
  refine ⟨?_, ?_, ?_, ?_⟩
  · exact honest_family_iff (doWrBytesChar off cnt) (fun c => bytes_covers_iff _ off cnt rfl rfl) 0 (fun _ => 0) rfl
  · exact honest_family_iff (doWrBytesStr off cnt) (fun str => bytes_covers_iff _ off cnt rfl rfl) letterA _ hbuf
  · exact honest_family_iff (doWrSectsChar off cnt) (fun c => sects_covers_iff _ off cnt rfl rfl rfl rfl) 0 (fun _ => 0)
      rfl
  · exact honest_family_iff (doWrSectsStr off cnt) (fun str => sects_covers_iff _ off cnt rfl rfl rfl rfl) letterA _
      hbuf'

/-- Twenty bytes from offset `-10`: nothing is written and 0 is returned. -/
theorem wrapped_range_not_written : ¬ ∀ (off : Int64) (cnt : UInt64),
    (∀ c, (doWrBytesChar off cnt c).Honest off.toInt (off.toInt + cnt.toNat)) ∧
    (∀ str, (doWrBytesStr off cnt str).Honest off.toInt (off.toInt + cnt.toNat)) ∧
    (∀ c, (doWrSectsChar off cnt c).Honest (512 * off.toInt) (512 * (off.toInt + cnt.toNat))) ∧
    (∀ str, (doWrSectsStr off cnt str).Honest (512 * off.toInt) (512 * (off.toInt + cnt.toNat))) := by
  intro h
  have hrun : (((doWrBytesChar (-10) 20 65).run (some fun _ => 0) [] File.empty).1 = .ret 0) ∧
      ((doWrBytesChar (-10) 20 65).run (some fun _ => 0) [] File.empty).2.calls = [] := by decide
  obtain ⟨p, hp, -⟩ := (h (-10) 20).1 65 (some fun _ => 0) [] File.empty hrun.1 (by simp [hrun.2]) 0
    (by decide) (by decide)
  simp [hrun.2] at hp

end CppNotes.Iotool
