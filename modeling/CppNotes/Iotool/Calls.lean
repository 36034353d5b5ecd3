import CppNotes.Iotool.Engines
import CppNotes.Lib.Counter

/-!
# The calls of a write engine

With answers as a kernel gives them (`Pwrite.Ok`), the calls of the write loop are a `Chain`: they start at `wr_offset`
and each starts where the one before ended (`wrLoop_run`).  Conversely every chain that gets to the end is a run of the
loop that returns 0 (`wrLoop_realize`).  No position on the way is negative, so the loop over words and the chain over
natural numbers agree although `wr_offset` is compared as an unsigned word.
-/

namespace CppNotes.Iotool

open CppNotes.Lib

/-- The call has written at least one byte and at most what was asked for. -/
def Pwrite.Wrote (p : Pwrite) : Prop := 1 ≤ p.res ∧ unat p.res ≤ p.count.toNat

/-- The call has failed, or has written at least one byte and at most what was asked for. -/
def Pwrite.FailedOrWrote (p : Pwrite) : Prop := p.res < 0 ∨ p.Wrote

/-- An error for a negative offset; otherwise an error, or some bytes are written. -/
def Pwrite.Ok (p : Pwrite) : Prop := p.res < 0 ∨ 0 ≤ p.offset ∧ p.Wrote

instance (p : Pwrite) : Decidable p.Wrote := inferInstanceAs (Decidable (_ ∧ _))

instance (p : Pwrite) : Decidable p.FailedOrWrote := inferInstanceAs (Decidable (_ ∨ _))

instance (p : Pwrite) : Decidable p.Ok := inferInstanceAs (Decidable (_ ∨ _))

/-- The ranges that the calls have written. -/
def extents (calls : List Pwrite) : List (ℕ × ℕ) :=
  calls.filterMap fun p => if p.res < 0 then none else some (unat p.offset, unat p.res)

/-- The most that a call at position `w` can write: a result is a signed word. -/
def request (oneWrLen : Int64 → Int64) (w : ℕ) : ℕ := min (unat (oneWrLen (Int64.ofNat w))) (2 ^ 63 - 1)

variable {stop : UInt64} {oneWrLen : Int64 → Int64} {buf : Mem}

theorem Pwrite.Wrote.unat_pos {p : Pwrite} (h : p.Wrote) : 0 < unat p.res ∧ unat p.res < 2 ^ 63 := by
  have h1 := Int64.le_iff_toInt_le.mp h.1
  rw [Int64.toInt_one] at h1
  rcases unat_cases p.res with hc | hc
  · omega
  · have := unat_lt p.res
    omega

theorem Pwrite.wrote_of_unat {p : Pwrite} (hpos : 0 < unat p.res) (hlt : unat p.res < 2 ^ 63)
    (hle : unat p.res ≤ p.count.toNat) : p.Wrote := by
  refine ⟨?_, hle⟩
  rw [Int64.le_iff_toInt_le, Int64.toInt_one, toInt_of_nonneg hlt]
  omega

theorem Pwrite.Wrote.not_neg {p : Pwrite} (h : p.Wrote) : ¬ p.res < 0 := by
  rw [neg_iff_unat]
  have := h.unat_pos
  omega

theorem extents_cons_of_not_neg {p : Pwrite} {calls : List Pwrite} (h : ¬ p.res < 0) :
    extents (p :: calls) = (unat p.offset, unat p.res) :: extents calls := by
  simp [extents, h]

theorem extents_cons_wrote {p : Pwrite} {calls : List Pwrite} (h : p.Wrote) :
    extents (p :: calls) = (unat p.offset, unat p.res) :: extents calls :=
  extents_cons_of_not_neg h.not_neg

theorem pwrite_file_failed {r : Int64} (h : r < 0) (s : Sys) (n : UInt64) (w : Int64) :
    (s.pwrite buf n w r).file = s.file := by
  have hr : r.toInt.toNat = 0 := by
    have := Int64.lt_iff_toInt_lt.mp h
    rw [Int64.toInt_zero] at this
    omega
  simp only [Sys.pwrite, hr, File.write_zero]

theorem pwrite_file_wrote {r : Int64} (h : unat r < 2 ^ 63) (s : Sys) (n : UInt64) (w : Int64) :
    (s.pwrite buf n w r).file = s.file.write (unat w) (unat r) buf := by
  simp only [Sys.pwrite, toInt_of_nonneg h, Int.toNat_natCast]

/-- From a position that is not negative a call does not wrap around. -/
theorem unat_add_wrote {w : Int64} {n : UInt64} {r : Int64} (hw : 0 ≤ w) (h : (⟨w, n, r⟩ : Pwrite).Wrote) :
    unat (w + r) = unat w + unat r := by
  have hw := nonneg_iff_unat.mp hw
  have hr : unat r < 2 ^ 63 := h.unat_pos.2
  rw [unat_add, Nat.mod_eq_of_lt (by omega)]

theorem wrote_le_request {w : Int64} {r : Int64} (h : (⟨w, (oneWrLen w).toUInt64, r⟩ : Pwrite).Wrote) :
    unat r ≤ request oneWrLen (unat w) := by
  have hr : unat r < 2 ^ 63 := h.unat_pos.2
  rw [request, ofNat_unat]
  exact le_min h.2 (by omega)

/-- What is called: below `stop`, and for the length that the loop computes. -/
theorem wrLoop_calls (rs : List Int64) (w : Int64) (s : Sys) {x : Exit} {s' : Sys}
    (h : wrLoop stop oneWrLen buf rs w s = (x, s')) :
    ∃ calls, s'.calls = s.calls ++ calls ∧
      ∀ p ∈ calls, p.offset.toUInt64 < stop ∧ p.count = (oneWrLen p.offset).toUInt64 := by
  induction rs generalizing w s with
  | nil =>
    obtain ⟨-, rfl⟩ := Prod.mk.inj h
    exact ⟨[], by simp⟩
  | cons r rs ih =>
    unfold wrLoop at h
    split at h
    · rename_i hw
      split at h
      · obtain ⟨-, rfl⟩ := Prod.mk.inj h
        exact ⟨_, rfl, by simpa using hw⟩
      · obtain ⟨calls, heq, hall⟩ := ih _ _ h
        refine ⟨⟨w, (oneWrLen w).toUInt64, r⟩ :: calls, ?_, ?_⟩
        · rw [heq]
          simp [Sys.print, Sys.pwrite]
        · intro p hmem
          rcases List.mem_cons.mp hmem with rfl | hmem
          · exact ⟨hw, rfl⟩
          · exact hall p hmem
    · obtain ⟨-, rfl⟩ := Prod.mk.inj h
      exact ⟨[], by simp⟩

/-- **The loop runs along a chain.** -/
theorem wrLoop_run (rs : List Int64) (w : Int64) (s : Sys) {x : Exit} {s' : Sys}
    (h : wrLoop stop oneWrLen buf rs w s = (x, s')) :
    ∃ calls, s'.calls = s.calls ++ calls ∧ ((∀ p ∈ calls, p.Ok) → ∃ hi,
      Chain (min stop.toNat (2 ^ 63)) (request oneWrLen) (unat w) (extents calls) hi ∧
      s'.file = s.file.writes buf (extents calls) ∧
      (x = .ret 0 ∧ stop.toNat ≤ hi ∨ x = .pending ∧ calls.length = rs.length ∧ hi < stop.toNat ∨
        x = .ret (-1) ∧ ∃ p ∈ calls, p.res < 0)) := by
  induction rs generalizing w s with
  | nil =>
    obtain ⟨rfl, rfl⟩ := Prod.mk.inj h
    refine ⟨[], by simp, fun _ => ⟨unat w, .done _, rfl, ?_⟩⟩
    split
    · rename_i hw
      exact .inr (.inl ⟨rfl, rfl, UInt64.lt_iff_toNat_lt.mp hw⟩)
    · rename_i hw
      exact .inl ⟨rfl, Nat.le_of_not_lt fun hlt => hw (UInt64.lt_iff_toNat_lt.mpr hlt)⟩
  | cons r rs ih =>
    unfold wrLoop at h
    split at h
    · rename_i hw
      split at h
      · rename_i hr
        obtain ⟨rfl, rfl⟩ := Prod.mk.inj h
        refine ⟨[⟨w, (oneWrLen w).toUInt64, r⟩], rfl, fun _ => ⟨unat w, ?_, ?_, ?_⟩⟩
        · simpa [extents, hr] using Chain.done (unat w)
        · simpa [extents, hr, File.writes, Sys.print] using pwrite_file_failed hr s (oneWrLen w).toUInt64 w
        · exact .inr (.inr ⟨rfl, _, List.mem_singleton.mpr rfl, hr⟩)
      · rename_i hr
        obtain ⟨calls, heq, hrun⟩ := ih _ _ h
        refine ⟨⟨w, (oneWrLen w).toUInt64, r⟩ :: calls, ?_, ?_⟩
        · rw [heq]
          simp [Sys.print, Sys.pwrite]
        · intro hok
          obtain ⟨hpos, hwrote⟩ := (hok _ List.mem_cons_self).resolve_left hr
          obtain ⟨hi, hchain, hfile, hexit⟩ := hrun fun p hp => hok p (List.mem_cons_of_mem _ hp)
          have hstop := UInt64.lt_iff_toNat_lt.mp hw
          have hneg := nonneg_iff_unat.mp hpos
          rw [unat_add_wrote hpos hwrote] at hchain
          rw [extents_cons_wrote hwrote]
          refine ⟨hi, .chunk (lt_min hstop hneg) hwrote.unat_pos.1 (wrote_le_request hwrote) hchain, ?_, ?_⟩
          · rw [hfile]
            exact congrArg (fun f => File.writes f buf (extents calls))
              (pwrite_file_wrote hwrote.unat_pos.2 s (oneWrLen w).toUInt64 w)
          · rcases hexit with h0 | ⟨hp, hlen, hlt⟩ | ⟨hx, p, hp, hneg⟩
            · exact .inl h0
            · exact .inr (.inl ⟨hp, by rw [List.length_cons, List.length_cons, hlen], hlt⟩)
            · exact .inr (.inr ⟨hx, p, List.mem_cons_of_mem _ hp, hneg⟩)
    · rename_i hw
      obtain ⟨rfl, rfl⟩ := Prod.mk.inj h
      refine ⟨[], by simp, fun _ => ⟨unat w, .done _, rfl, .inl ⟨rfl, ?_⟩⟩⟩
      exact Nat.le_of_not_lt fun hlt => hw (UInt64.lt_iff_toNat_lt.mpr hlt)

/-- **Every chain is run by the loop**, whatever answers would come after it. -/
theorem wrLoop_realize (buf : Mem) {lo hi : ℕ} {bs : List (ℕ × ℕ)}
    (h : Chain (min stop.toNat (2 ^ 63)) (request oneWrLen) lo bs hi) (hstop : stop.toNat ≤ hi) {w : Int64}
    (hw : unat w = lo) (s : Sys) : ∃ rs calls, extents calls = bs ∧ (∀ p ∈ calls, 0 ≤ p.offset ∧ p.Wrote) ∧
      ∀ more, (wrLoop stop oneWrLen buf (rs ++ more) w s).1 = .ret 0 ∧
        (wrLoop stop oneWrLen buf (rs ++ more) w s).2.calls = s.calls ++ calls := by
  induction h generalizing w s with
  | done lo =>
    refine ⟨[], [], rfl, by simp, fun more => ?_⟩
    have hge : ¬ w.toUInt64 < stop := by
      rw [UInt64.lt_iff_toNat_lt]
      exact Nat.not_lt.mpr (hstop.trans hw.ge)
    cases more with
    | nil => simp [wrLoop, hge]
    | cons r more => simp [wrLoop, hge]
  | @chunk lo r hi bs hlt hr hreq hc ih =>
    subst hw
    obtain ⟨hlt, hneg⟩ := lt_min_iff.mp hlt
    rw [request, ofNat_unat] at hreq
    have hur : unat (Int64.ofNat r) = r := unat_ofNat (by omega)
    have hwrote : (⟨w, (oneWrLen w).toUInt64, Int64.ofNat r⟩ : Pwrite).Wrote := by
      have hreq : r ≤ unat (oneWrLen w) := by omega
      exact Pwrite.wrote_of_unat (by rw [hur]; exact hr) (by rw [hur]; omega) (by rw [hur]; exact hreq)
    have hpos := nonneg_iff_unat.mpr hneg
    obtain ⟨rs, calls, hext, hall, hrun⟩ := ih hstop (w := w + Int64.ofNat r)
      (by rw [unat_add_wrote hpos hwrote, hur])
      ((s.pwrite buf (oneWrLen w).toUInt64 w (Int64.ofNat r)).print (.pwriteOk w (oneWrLen w)))
    refine ⟨Int64.ofNat r :: rs, ⟨w, (oneWrLen w).toUInt64, Int64.ofNat r⟩ :: calls, ?_, ?_, fun more => ?_⟩
    · rw [extents_cons_wrote hwrote, hext, hur]
    · intro p hp
      rcases List.mem_cons.mp hp with rfl | hp
      · exact ⟨hpos, hwrote⟩
      · exact hall p hp
    · rw [List.cons_append, wrLoop, if_pos (UInt64.lt_iff_toNat_lt.mpr hlt), if_neg hwrote.not_neg]
      refine ⟨(hrun more).1, ?_⟩
      rw [(hrun more).2]
      simp [Sys.print, Sys.pwrite]

/-! ## What was written -/

/-- Every byte of the `n` bytes from `lo` on was written by some call. -/
def AllWritten (calls : List Pwrite) (lo : ℤ) (n : ℕ) : Prop :=
  ∀ x, lo ≤ x → x < lo + n → ∃ p ∈ calls, p.offset.toInt ≤ x ∧ x < p.offset.toInt + p.res.toInt

/-- An error or any length up to the one asked for. -/
def Pwrite.Answered (p : Pwrite) : Prop := p.res < 0 ∨ p.res.toInt ≤ p.count.toNat

/-- What an exit code is for: the run returns, and it returns 0 only if all is done. -/
def Exit.Honest (e : Exit) (done : Prop) : Prop := ∃ v, e = .ret v ∧ (v = 0 → done)

def Sys.Written (s : Sys) (x : ℤ) : Prop :=
  ∃ p ∈ s.calls, 0 ≤ p.res ∧ p.offset.toInt ≤ x ∧ x < p.offset.toInt + p.res.toInt

theorem written_iff_extents {s : Sys} (h : ∀ p ∈ s.calls, p.Ok) (x : ℤ) :
    s.Written x ↔ ∃ b ∈ extents s.calls, (b.1 : ℤ) ≤ x ∧ x < b.1 + b.2 := by
  have hwrote {p : Pwrite} (hp : p ∈ s.calls) (hres : ¬ p.res < 0) :
      p.offset.toInt = unat p.offset ∧ p.res.toInt = unat p.res := by
    obtain ⟨hpos, hw⟩ := (h p hp).resolve_left hres
    exact ⟨toInt_eq_unat hpos, toInt_of_nonneg hw.unat_pos.2⟩
  constructor
  · rintro ⟨p, hp, hres, hlo, hhi⟩
    have hres : ¬ p.res < 0 := Int64.not_lt.mpr hres
    obtain ⟨ho, hr⟩ := hwrote hp hres
    rw [ho] at hlo hhi
    rw [hr] at hhi
    exact ⟨(unat p.offset, unat p.res), List.mem_filterMap.mpr ⟨p, hp, if_neg hres⟩, hlo, hhi⟩
  · rintro ⟨b, hb, hlo, hhi⟩
    obtain ⟨p, hp, heq⟩ := List.mem_filterMap.mp hb
    split at heq
    · simp at heq
    · rename_i hres
      obtain rfl := Option.some.inj heq
      obtain ⟨ho, hr⟩ := hwrote hp hres
      exact ⟨p, hp, Int64.not_lt.mp hres, by rwa [ho], by rwa [ho, hr]⟩

theorem written_iff {s : Sys} {lo hi : ℕ} (h : ∀ p ∈ s.calls, p.Ok) (ht : Tiles lo (extents s.calls) hi) (x : ℤ) :
    s.Written x ↔ (lo : ℤ) ≤ x ∧ x < hi := by
  rw [written_iff_extents h]
  constructor
  · rintro ⟨b, hb, hlo, hhi⟩
    have := ht.bounds.2 b hb
    omega
  · rintro ⟨hlo, hhi⟩
    obtain ⟨b, hb, h₁, h₂⟩ := (ht.covers x.toNat).mp (by omega)
    exact ⟨b, hb, by omega, by omega⟩

/-! ## The engines -/

theorem toNat_bufLen (n : UInt64) : (bufLen n).toNat = min n.toNat 4194304 := by
  have hmax : MAX_BUF_LEN.toNat = 4194304 := rfl
  unfold bufLen
  split
  · rename_i h
    have := UInt64.lt_iff_toNat_lt.mp h
    omega
  · rename_i h
    have := UInt64.lt_iff_toNat_lt.not.mp h
    omega

/-- The most that a call of the engine at position `w` can write. -/
def Engine.req (e : Engine) : ℕ → ℕ := request fun w => (e.oneWrLen (bufLen e.dataLen) w).toInt64

theorem Engine.run_of_fill (e : Engine) {heap : Mem} (hfill : e.fill (bufLen e.dataLen) heap = some buf)
    (rs : List Int64) (f : File) :
    ∃ r, wrLoop e.stop (fun w => (e.oneWrLen (bufLen e.dataLen) w).toInt64) buf rs e.start
        ⟨f, [], [], [e.hello (bufLen e.dataLen)]⟩ = r ∧
      (e.run (some heap) rs f).1 = r.1 ∧ (e.run (some heap) rs f).2.calls = r.2.calls ∧
      (e.run (some heap) rs f).2.file = r.2.file := by
  refine ⟨_, rfl, ?_⟩
  simp only [Engine.run, hfill]
  split
  · exact ⟨rfl, rfl, rfl⟩
  · exact ⟨rfl, rfl, rfl⟩

theorem Engine.run_calls (e : Engine) {heap : Mem} (hfill : e.fill (bufLen e.dataLen) heap = some buf)
    (rs : List Int64) (f : File) : ∀ p ∈ (e.run (some heap) rs f).2.calls,
      p.offset.toUInt64 < e.stop ∧ p.count = e.oneWrLen (bufLen e.dataLen) p.offset := by
  intro p hp
  obtain ⟨⟨x, s⟩, hr, -, hc, -⟩ := e.run_of_fill hfill rs f
  obtain ⟨calls, hcalls, hall⟩ := wrLoop_calls rs e.start _ hr
  rw [hc, hcalls] at hp
  simpa using hall p hp

/-- **A run of an engine** that has got its buffer. -/
theorem Engine.run_chain (e : Engine) {heap : Mem} (hfill : e.fill (bufLen e.dataLen) heap = some buf)
    (rs : List Int64) (f : File) (hok : ∀ p ∈ (e.run (some heap) rs f).2.calls, p.Ok) :
    ∃ hi, Chain (min e.stop.toNat (2 ^ 63)) e.req (unat e.start) (extents (e.run (some heap) rs f).2.calls) hi ∧
      (e.run (some heap) rs f).2.file = f.writes buf (extents (e.run (some heap) rs f).2.calls) ∧
      ((e.run (some heap) rs f).1 = .ret 0 ∧ e.stop.toNat ≤ hi ∨
        (e.run (some heap) rs f).1 = .pending ∧ (e.run (some heap) rs f).2.calls.length = rs.length ∧
          hi < e.stop.toNat ∨
        (e.run (some heap) rs f).1 = .ret (-1) ∧ ∃ p ∈ (e.run (some heap) rs f).2.calls, p.res < 0) := by
  obtain ⟨⟨x, s⟩, hr, hx, hc, hf⟩ := e.run_of_fill hfill rs f
  obtain ⟨calls, hcalls, hrun⟩ := wrLoop_run rs e.start _ hr
  have hcalls : s.calls = calls := hcalls
  rw [hx, hf, hc, hcalls]
  exact hrun (by rw [← hcalls, ← hc]; exact hok)

/-- **A chain of an engine** is a run of it that returns 0. -/
theorem Engine.realize (e : Engine) (heap : Mem) (hfill : e.fill (bufLen e.dataLen) heap = some buf) {hi : ℕ}
    {bs : List (ℕ × ℕ)} (h : Chain (min e.stop.toNat (2 ^ 63)) e.req (unat e.start) bs hi) (hstop : e.stop.toNat ≤ hi)
    (f : File) : ∃ rs, ∀ more, (e.run (some heap) (rs ++ more) f).1 = .ret 0 ∧
      (∀ p ∈ (e.run (some heap) (rs ++ more) f).2.calls, 0 ≤ p.offset ∧ p.Wrote) ∧
      extents (e.run (some heap) (rs ++ more) f).2.calls = bs := by
  obtain ⟨rs, calls, hext, hall, hrun⟩ :=
    wrLoop_realize buf h hstop rfl ⟨f, [], [], [e.hello (bufLen e.dataLen)]⟩
  refine ⟨rs, fun more => ?_⟩
  obtain ⟨h0, hcalls⟩ := hrun more
  obtain ⟨r, rfl, hx, hc, -⟩ := e.run_of_fill hfill (rs ++ more) f
  have hcalls : (e.run (some heap) (rs ++ more) f).2.calls = calls := hc.trans hcalls
  rw [hcalls]
  exact ⟨hx.trans h0, hall, hext⟩

theorem Engine.run_of_hang (e : Engine) {mem : Option Mem}
    (h : ∀ heap, mem = some heap → e.fill (bufLen e.dataLen) heap = none)
    (rs : List Int64) (f : File) : (e.run mem rs f).1 ≠ .ret 0 := by
  cases mem with
  | none => simp [Engine.run]
  | some heap => simp [Engine.run, h heap rfl]

/-! ## The lengths that are asked for -/

/-- The most that a call of a sector engine at `w` can write, for a range that starts at `u` and is `d` long. -/
def sectsMost (u d w : ℕ) : ℕ :=
  min (if min d 4194304 < (2 ^ 64 - w + d) % 2 ^ 64 then min d 4194304 else u + d - w) (2 ^ 63 - 1)

theorem toNat_sectsLen (off : Int64) (cnt n : UInt64) {u d : ℕ} (hu : unat (off * SECTOR_SIZE.toInt64) = u)
    (hd : (SECTOR_SIZE * cnt).toNat = d) (hn : n.toNat = min d 4194304) (hlt : u + d < 2 ^ 64) {w : Int64}
    (hw : unat w < u + d) : (sectsLen (SECTOR_SIZE * cnt) off n w).toNat =
      if min d 4194304 < (2 ^ 64 - unat w + d) % 2 ^ 64 then min d 4194304 else u + d - unat w := by
  have hw' : w.toUInt64.toNat = unat w := rfl
  have hu' : (off * SECTOR_SIZE.toInt64).toUInt64.toNat = u := hu
  have hsub : (SECTOR_SIZE * cnt - w.toUInt64).toNat = (2 ^ 64 - unat w + d) % 2 ^ 64 := by
    rw [UInt64.toNat_sub, hw', hd]
  have hrest : (SECTOR_SIZE * cnt + (off * SECTOR_SIZE.toInt64).toUInt64 - w.toUInt64).toNat = u + d - unat w := by
    rw [UInt64.toNat_sub, UInt64.toNat_add, hw', hd, hu']
    omega
  unfold sectsLen
  by_cases h : min d 4194304 < (2 ^ 64 - unat w + d) % 2 ^ 64
  · rw [if_pos h, if_pos (UInt64.lt_iff_toNat_lt.mpr (by rw [hsub, hn]; exact h)), hn]
  · rw [if_neg h, if_neg (fun hc => h (by have := UInt64.lt_iff_toNat_lt.mp hc; rwa [hsub, hn] at this)), hrest]

theorem request_sects (off : Int64) (cnt n : UInt64) {u d w : ℕ} (hu : unat (off * SECTOR_SIZE.toInt64) = u)
    (hd : (SECTOR_SIZE * cnt).toNat = d) (hn : n.toNat = min d 4194304) (hlt : u + d < 2 ^ 64) (hw : w < u + d) :
    request (fun w => (sectsLen (SECTOR_SIZE * cnt) off n w).toInt64) w = sectsMost u d w := by
  have hw' : unat (Int64.ofNat w) = w := unat_ofNat (by omega)
  unfold request sectsMost
  rw [unat_toInt64, toNat_sectsLen off cnt n hu hd hn hlt (by omega), hw']

theorem sectsMost_pos {u d w : ℕ} (hd : 0 < d) (hw : w < u + d) : 0 < sectsMost u d w := by
  unfold sectsMost
  split <;> omega

theorem toNat_bytesLen (off : Int64) (cnt n : UInt64) {stop : ℕ} (hstop : (cnt + off.toUInt64).toNat = stop)
    {w : Int64} (hw : unat w < stop) : (bytesLen cnt off n w).toNat = min (stop - unat w) n.toNat := by
  have hlt := (cnt + off.toUInt64).toNat_lt
  have hw' : w.toUInt64.toNat = unat w := rfl
  have hrest : (cnt + off.toUInt64 - w.toUInt64).toNat = stop - unat w := by
    rw [UInt64.toNat_sub, hw', hstop]
    omega
  unfold bytesLen
  by_cases h : n < cnt + off.toUInt64 - w.toUInt64
  · rw [if_pos h]
    have := UInt64.lt_iff_toNat_lt.mp h
    omega
  · rw [if_neg h, hrest]
    have := UInt64.lt_iff_toNat_lt.not.mp h
    omega

theorem request_bytes (off : Int64) (cnt n : UInt64) {w stop : ℕ} (hstop : (cnt + off.toUInt64).toNat = stop)
    (hn : n.toNat ≤ 4194304) (hw : w < stop) :
    request (fun w => (bytesLen cnt off n w).toInt64) w = min (stop - w) n.toNat := by
  have hlt := (cnt + off.toUInt64).toNat_lt
  have hw' : unat (Int64.ofNat w) = w := unat_ofNat (by omega)
  unfold request
  rw [unat_toInt64, toNat_bytesLen off cnt n hstop (by omega), hw']
  omega

/-! ## Filling the buffer -/

theorem memset_of_lt (buf : Mem) (c : UInt8) (n : UInt64) : ∀ i < n.toNat, memset buf c n i = c :=
  fun _ hi => if_pos hi

theorem toNat_strlen (str : CStr) : str.strlen.toNat = str.bytes.length := by
  have := str.fits
  rw [CStr.strlen, UInt64.toNat_ofNat', Nat.mod_eq_of_lt (by omega)]

/-- The test of the fill loop. -/
def fillCond (str : CStr) (n : UInt64) (s : Int64 × Mem) : Bool := decide (s.1.toUInt64 + str.strlen ≤ n)

/-- The body of the fill loop. -/
def fillBody (str : CStr) (s : Int64 × Mem) : Int64 × Mem :=
  ((s.1.toUInt64 + str.strlen).toInt64, strcpy s.2 (unat s.1) str)

theorem fillStr_loop (str : CStr) (n : UInt64) (buf : Mem) :
    fillStr str n buf = (loop (fillCond str n) (fillBody str) (n.toNat + 2) (0, buf)).map Prod.snd := rfl

theorem fill_rotates (str : CStr) (n : UInt64) : Rotates (fillCond str n) (fillBody str) (fun s => unat s.1)
    str.bytes.length (2 ^ 64) id n.toNat where
  test s := by
    rw [fillCond, decide_eq_true_iff, UInt64.le_iff_toNat_le, UInt64.toNat_add, toNat_strlen]
    rfl
  move s := by
    rw [fillBody, unat_toInt64, UInt64.toNat_add, toNat_strlen]
    rfl

/-- In a buffer that can be allocated the position does not wrap around. -/
theorem fill_stride (str : CStr) {n : UInt64} (hn : n.toNat < 2 ^ 63) :
    Stride (fillCond str n) (fillBody str) (fun s => unat s.1) str.bytes.length n.toNat where
  test s hs := by
    have := str.fits
    rw [(fill_rotates str n).test, Nat.mod_eq_of_lt (by omega), id]
  move s hs _ := by
    have := str.fits
    rw [(fill_rotates str n).move, Nat.mod_eq_of_lt (by omega)]

/-- The fill loop ends if the string is not empty. -/
theorem fillStr_isSome {str : CStr} (h : str.bytes ≠ []) {n : UInt64} (hn : n.toNat < 2 ^ 63) (buf : Mem) :
    (fillStr str n buf).isSome = true := by
  obtain ⟨s, hs, -⟩ := (fill_stride str hn).ends (List.length_pos_iff.mpr h) (0, buf)
    (show n.toNat < n.toNat + 2 by omega) (fun _ _ => True) rfl trivial (fun _ _ _ _ _ => trivial)
  rw [fillStr_loop, hs]
  rfl

theorem fillStr_bufLen_isSome {str : CStr} (h : str.bytes ≠ []) (n : UInt64) (buf : Mem) :
    (fillStr str (bufLen n) buf).isSome = true := by
  refine fillStr_isSome h ?_ buf
  rw [toNat_bufLen]
  omega

/-- With the empty string the fill loop never ends, whatever the fuel. -/
theorem fillLoop_empty {str : CStr} (h : str.bytes = []) (n : UInt64) (buf : Mem) (fuel : ℕ) :
    loop (fun s : Int64 × Mem => decide (s.1.toUInt64 + str.strlen ≤ n))
      (fun s => ((s.1.toUInt64 + str.strlen).toInt64, strcpy s.2 (unat s.1) str)) fuel (0, buf) = none := by
  have hlen : str.strlen = 0 := by rw [CStr.strlen, h]; rfl
  refine loop_eq_none (fun s => s.1 = 0) ?_ fuel rfl
  intro s hs
  rw [hs, hlen]
  exact ⟨decide_eq_true (UInt64.le_iff_toNat_le.mpr (Nat.zero_le _)), rfl⟩

theorem fillStr_empty {str : CStr} (h : str.bytes = []) (n : UInt64) (buf : Mem) : fillStr str n buf = none := by
  rw [fillStr, fillLoop_empty h, Option.map_none]

def letterA : CStr := ⟨[65], by decide, by decide⟩

end CppNotes.Iotool
