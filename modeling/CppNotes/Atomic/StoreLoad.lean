import CppNotes.Lib.Run
import CppNotes.Lib.StoreBuffer

/-!
# Stores that are overtaken by loads (`gostoreloadreorder/storeloadreorder.go`, `goatomic/goatomic.go`)

Two racers each store to a variable of their own and then load the other's; the checker clears both variables, starts the
racers, waits for both, and prints the round if both have loaded a zero.  The two programs differ in the store, plain or
`atomic.StoreInt64`, and in the number of rounds.

The memory is behind store buffers, as on the machines the notes beside the programs are about: a plain store waits in the
buffer of its goroutine, and everything with a lock prefix has to wait until that buffer is empty.  That is the atomic store,
and every operation on a channel; a send on an unbuffered channel and its receive are one step of both sides.

In a round that is printed some racer has loaded the other's variable while its own store was still in its buffer
(`Fenced`).  Otherwise the variable of a racer that has done its load is `1` in the memory, so the later one of the two loads
finds a `1` there (`Inv.both`).
-/

namespace CppNotes.StoreLoad

open CppNotes.Lib

inductive Loc where
  | x | y | a | b
  deriving DecidableEq

/-- The goroutines; `racer false` is `racer1` of the source. -/
inductive Who where
  | checker
  | racer (r : Bool)
  deriving DecidableEq

/-- The variable that a racer stores to. -/
def own : Bool → Loc
  | false => .x
  | true => .y

/-- The variable that it keeps the value of the other's in. -/
def result : Bool → Loc
  | false => .b
  | true => .a

/-- Where a racer is: at `<-startChan[r]` (or, after the last round, at its end), at the store, at the load of the other's
variable, at the assignment of what it has loaded, or at `finishChan <-`. -/
inductive RacerPc where
  | recv | store | load
  | assign (v : ℤ)
  | send
  deriving DecidableEq

/-- Where the checker is: at the head of its loop and `x = 0`, at `y = 0`, at the two sends, at the two receives, or at the two
tests. -/
inductive CheckerPc where
  | head | clearY
  | start (r : Bool)
  | wait (again : Bool)
  | testA | testB
  | exited
  deriving DecidableEq

structure Program where
  atomic : Bool
  loopcnt : ℕ

def storeloadreorder : Program := ⟨false, 100000⟩
def goatomic : Program := ⟨true, 1000000⟩

/-- `finish` is the number of elements in `finishChan`. -/
structure St where
  m : Tso Who Loc ℤ
  checker : CheckerPc
  i : ℕ
  racer : Bool → RacerPc
  loops : Bool → ℕ
  finish : ℕ
  printed : List ℕ

def St.init : St := ⟨⟨fun _ => 0, fun _ => []⟩, .head, 0, fun _ => .recv, fun _ => 0, 0, []⟩

/-- The capacity of `finishChan`. -/
def finishCap : ℕ := 2

inductive Act where
  | run (w : Who)
  | flush (w : Who)
  deriving DecidableEq

def St.nextRound (s : St) : St := { s with checker := .head, i := s.i + 1 }

def checkerStep (p : Program) (s : St) : Option St :=
  match s.checker with
  | .head =>
    some (if s.i < p.loopcnt then { s with m := s.m.store .checker .x 0, checker := .clearY }
      else { s with checker := .exited })
  | .clearY => some { s with m := s.m.store .checker .y 0, checker := .start false }
  | .start r =>
    if s.m.buf .checker = [] ∧ s.m.buf (.racer r) = [] ∧ s.racer r = .recv ∧ s.loops r < p.loopcnt then
      some { s with
        racer := Function.update s.racer r .store
        checker := if r then .wait false else .start true }
    else none
  | .wait again =>
    if s.m.buf .checker = [] ∧ 0 < s.finish then
      some { s with finish := s.finish - 1, checker := if again then .testA else .wait true }
    else none
  | .testA => some (if s.m.load .checker .a = 0 then { s with checker := .testB } else s.nextRound)
  | .testB => some (if s.m.load .checker .b = 0 then { s.nextRound with printed := s.printed ++ [s.i] } else s.nextRound)
  | .exited => none

def racerStep (p : Program) (s : St) (r : Bool) : Option St :=
  match s.racer r with
  | .recv => none
  | .store =>
    if p.atomic then
      if s.m.buf (.racer r) = [] then
        some { s with m := s.m.swap (own r) 1, racer := Function.update s.racer r .load }
      else none
    else some { s with m := s.m.store (.racer r) (own r) 1, racer := Function.update s.racer r .load }
  | .load => some { s with racer := Function.update s.racer r (.assign (s.m.load (.racer r) (own (!r)))) }
  | .assign v => some { s with m := s.m.store (.racer r) (result r) v, racer := Function.update s.racer r .send }
  | .send =>
    if s.m.buf (.racer r) = [] ∧ s.finish < finishCap then
      some { s with
        finish := s.finish + 1
        loops := Function.update s.loops r (s.loops r + 1)
        racer := Function.update s.racer r .recv }
    else none

def step (p : Program) (s : St) : Act → Option St
  | .run .checker => checkerStep p s
  | .run (.racer r) => racerStep p s r
  | .flush w => (s.m.flush w).map fun m => { s with m := m }

/-! ## What a round needs to be printed -/

/-- After a plain store, the racer loads only when the store has left its buffer. -/
def Fenced (p : Program) (s : St) : Act → Prop
  | .run (.racer r) => p.atomic = false → s.racer r = .load → s.m.buf (.racer r) = []
  | _ => True

/-- The racers that the checker has started in this round. -/
def CheckerPc.sent (r : Bool) : CheckerPc → Bool
  | .head | .clearY | .start false | .exited => false
  | .start true => !r
  | .wait _ | .testA | .testB => true

/-- How many of them it has heard of again. -/
def CheckerPc.heard : CheckerPc → ℕ
  | .wait true => 1
  | .testA | .testB => 2
  | _ => 0

/-- What is in the buffer of a racer, and what the memory holds for it. -/
def Local (p : Program) (m : Tso Who Loc ℤ) (r : Bool) : RacerPc → Prop
  | .recv | .store => m.buf (.racer r) = []
  | .load => m.buf (.racer r) = [] ∧ m.mem (own r) = 1 ∨ p.atomic = false ∧ m.buf (.racer r) = [(own r, 1)]
  | .assign _ => m.buf (.racer r) = [] ∧ m.mem (own r) = 1
  | .send => (m.buf (.racer r) = [] ∨ ∃ v, m.buf (.racer r) = [(result r, v)]) ∧ m.mem (own r) = 1

/-- The racer has done its load in this round. -/
def St.Past (s : St) (r : Bool) : Prop :=
  match s.racer r with
  | .recv => s.loops r = s.i + 1
  | .store | .load => False
  | .assign _ | .send => True

/-- What it has loaded. -/
def St.loaded (s : St) (r : Bool) : ℤ :=
  match s.racer r with
  | .assign v => v
  | _ => s.m.load (.racer r) (result r)

structure Inv (p : Program) (s : St) : Prop where
  racers : ∀ r, Local p s.m r (s.racer r)
  rounds : ∀ r, s.loops r = s.i ∧ (s.checker.sent r = true ↔ s.racer r ≠ .recv) ∨
    s.loops r = s.i + 1 ∧ s.checker.sent r = true ∧ s.racer r = .recv
  tokens : s.finish + s.checker.heard = (s.loops false - s.i) + (s.loops true - s.i)
  past : ∀ r, s.Past r → s.m.mem (own r) = 1
  both : (∀ r, s.Past r) → ∃ r, s.loaded r = 1
  cleared : s.checker.sent false = true → s.m.buf .checker = []
  clearing : ∀ w ∈ s.m.buf .checker, w.1 = .x ∨ w.1 = .y
  second : s.checker = .testB → s.m.mem .a = 0
  silent : s.printed = []

theorem inv_init (p : Program) : Inv p St.init where
  racers _ := rfl
  rounds _ := .inl ⟨rfl, by simp [St.init, CheckerPc.sent]⟩
  tokens := rfl
  past := by simp [St.Past, St.init]
  both h := by simpa [St.Past, St.init] using h false
  cleared := by simp [St.init, CheckerPc.sent]
  clearing := by simp [St.init]
  second := by simp [St.init]
  silent := rfl

variable {p : Program} {s : St} {r : Bool}

theorem Local.congr {m m' : Tso Who Loc ℤ} {pc : RacerPc} (h : Local p m r pc) (hb : m'.buf (.racer r) = m.buf (.racer r))
    (hm : m'.mem (own r) = m.mem (own r)) : Local p m' r pc := by
  unfold Local at h ⊢
  rw [hb, hm]
  exact h

theorem own_ne {r r' : Bool} (h : r' ≠ r) : own r' ≠ own r := by
  cases r <;> cases r' <;> simp_all [own]

theorem own_ne_result (r r' : Bool) : own r' ≠ result r := by
  cases r <;> cases r' <;> simp [own, result]

theorem result_ne {r r' : Bool} (h : r' ≠ r) : result r' ≠ result r := by
  cases r <;> cases r' <;> simp_all [result]

/-- Before the first send of a round both racers are at their receive, and none has been heard of. -/
theorem Inv.idle (h : Inv p s) (hs : s.checker.sent false = false) (r : Bool) : s.racer r = .recv ∧ s.loops r = s.i := by
  have hr : s.checker.sent r = false := by
    cases hc : s.checker with
    | start b => cases b <;> cases r <;> simp_all [CheckerPc.sent]
    | _ => simp_all [CheckerPc.sent]
  rcases h.rounds r with ⟨hl, hsent⟩ | ⟨-, hsent, -⟩
  · refine ⟨?_, hl⟩
    by_contra hne
    simp [hsent.mpr hne] at hr
  · simp [hsent] at hr

/-- At the tests both racers are through. -/
theorem Inv.through (h : Inv p s) (hc : s.checker.heard = 2) (r : Bool) :
    s.racer r = .recv ∧ s.loops r = s.i + 1 ∧ s.finish = 0 := by
  have hb (r : Bool) : s.loops r = s.i ∨ s.loops r = s.i + 1 ∧ s.racer r = .recv := by
    rcases h.rounds r with ⟨hl, -⟩ | ⟨hl, -, hr⟩
    · exact .inl hl
    · exact .inr ⟨hl, hr⟩
  have htok := h.tokens
  rcases hb false with h₀ | ⟨h₀, hr₀⟩
  · rcases hb true with h₁ | ⟨h₁, -⟩ <;> omega
  · rcases hb true with h₁ | ⟨h₁, hr₁⟩
    · omega
    · cases r
      · exact ⟨hr₀, h₀, by omega⟩
      · exact ⟨hr₁, h₁, by omega⟩

theorem Inv.not_past (h : Inv p s) (hs : s.checker.sent false = false) (r : Bool) : ¬ s.Past r := by
  obtain ⟨hr, hl⟩ := h.idle hs r
  simp [St.Past, hr, hl]

/-! ## Steps of the checker -/

/-- The checker moves on within a round. -/
theorem Inv.goto (h : Inv p s) {c : CheckerPc} {n : ℕ} (hsent : ∀ r, c.sent r = s.checker.sent r)
    (htok : n + c.heard = s.finish + s.checker.heard) (htest : c = .testB → s.m.mem .a = 0) :
    Inv p { s with checker := c, finish := n } where
  racers := h.racers
  rounds r := by
    rw [show ({ s with checker := c, finish := n } : St).checker.sent r = s.checker.sent r from hsent r]
    exact h.rounds r
  tokens := htok.trans h.tokens
  past := h.past
  both := h.both
  cleared hc := h.cleared ((hsent false).symm.trans hc)
  clearing := h.clearing
  second := htest
  silent := h.silent

theorem Inv.clear (h : Inv p s) (hs : s.checker.sent false = false) {l : Loc} (hl : l = .x ∨ l = .y) :
    Inv p { s with m := s.m.store .checker l 0 } where
  racers r := (h.racers r).congr (Tso.buf_store_of_ne (by simp)) rfl
  rounds := h.rounds
  tokens := h.tokens
  past := h.past
  both hp := absurd (hp false) (h.not_past hs false)
  cleared hc := by simp [hs] at hc
  clearing w hw := by
    rw [Tso.buf_store, List.mem_append, List.mem_singleton] at hw
    rcases hw with hw | rfl
    · exact h.clearing w hw
    · exact hl
  second := h.second
  silent := h.silent

theorem Inv.start (h : Inv p s) (hc : s.checker = .start r) (hb : s.m.buf .checker = []) (hr : s.racer r = .recv)
    (hbr : s.m.buf (.racer r) = []) :
    Inv p { s with racer := Function.update s.racer r .store, checker := if r then .wait false else .start true } := by
  have hself : Function.update s.racer r .store r = .store := Function.update_self ..
  have hother {r' : Bool} (hne : r' ≠ r) : Function.update s.racer r .store r' = s.racer r' := Function.update_of_ne hne ..
  have hnew : (if r then CheckerPc.wait false else .start true).sent r = true := by cases r <;> rfl
  have hold : s.checker.sent r = false := by rw [hc]; cases r <;> rfl
  have hkeep {r' : Bool} (hne : r' ≠ r) :
      (if r then CheckerPc.wait false else .start true).sent r' = s.checker.sent r' := by
    rw [hc]
    cases r <;> cases r' <;> simp_all [CheckerPc.sent]
  have hl : s.loops r = s.i := by
    rcases h.rounds r with ⟨hl, -⟩ | ⟨-, hsent, -⟩
    · exact hl
    · simp [hold] at hsent
  have hnp : ¬ St.Past { s with racer := Function.update s.racer r .store } r := by simp [St.Past]
  refine ⟨fun r' => ?_, fun r' => ?_, ?_, fun r' hp => ?_, fun hp => absurd (hp r) hnp, fun _ => hb, h.clearing, ?_, h.silent⟩
  · by_cases hne : r' = r
    · subst hne
      simpa [hself, Local] using hbr
    · simp only [hother hne]
      exact h.racers r'
  · by_cases hne : r' = r
    · subst hne
      simp [hnew, hl]
    · simp only [hother hne, hkeep hne]
      exact h.rounds r'
  · have htok := h.tokens
    have hh : (if r then CheckerPc.wait false else .start true).heard = s.checker.heard := by
      rw [hc]
      cases r <;> rfl
    simpa only [hh] using htok
  · by_cases hne : r' = r
    · subst hne
      exact absurd hp hnp
    · refine h.past r' ?_
      simpa only [St.Past, hother hne] using hp
  · cases r <;> simp

theorem Inv.nextRound (h : Inv p s) (hc : s.checker.heard = 2) : Inv p s.nextRound := by
  have hr (r : Bool) : s.racer r = .recv := (h.through hc r).1
  have hl (r : Bool) : s.loops r = s.i + 1 := (h.through hc r).2.1
  have hp (r : Bool) : ¬ s.nextRound.Past r := by simp [St.Past, St.nextRound, hr, hl]
  refine ⟨h.racers, fun r => .inl ⟨hl r, ?_⟩, ?_, fun r hpr => absurd hpr (hp r), fun hpr => absurd (hpr false) (hp false),
    ?_, h.clearing, ?_, h.silent⟩
  · simp [St.nextRound, CheckerPc.sent, hr r]
  · simp [St.nextRound, CheckerPc.heard, hl, (h.through hc false).2.2]
  · simp [St.nextRound, CheckerPc.sent]
  · simp [St.nextRound]

/-! ## Steps of a racer -/

/-- Racer `r` moves on within its round, from `s` to `s'`: what it has to show, given what the other keeps. -/
theorem Inv.race {s' : St} (h : Inv p s) (hc : s'.checker = s.checker) (hi : s'.i = s.i) (hl : s'.loops = s.loops)
    (hf : s'.finish = s.finish) (hpr : s'.printed = s.printed) (hck : s'.m.buf .checker = s.m.buf .checker)
    (hother : ∀ r', r' ≠ r → s'.racer r' = s.racer r' ∧ s'.m.buf (.racer r') = s.m.buf (.racer r') ∧
      s'.m.mem (own r') = s.m.mem (own r') ∧ s'.m.mem (result r') = s.m.mem (result r'))
    (hfrom : s.racer r ≠ .recv) (hto : s'.racer r ≠ .recv) (hlocal : Local p s'.m r (s'.racer r))
    (hpast : s'.Past r → s'.m.mem (own r) = 1) (hboth : (∀ r', s'.Past r') → ∃ r', s'.loaded r' = 1) : Inv p s' := by
  -- at the tests no racer is within its round
  have hnot : s.checker ≠ .testB := by
    intro htest
    exact hfrom (h.through (by rw [htest]; rfl) r).1
  refine ⟨fun r' => ?_, fun r' => ?_, ?_, fun r' hp => ?_, hboth, ?_, ?_, ?_, hpr.trans h.silent⟩
  · by_cases hne : r' = r
    · subst hne
      exact hlocal
    · obtain ⟨hr, hb, hm, -⟩ := hother r' hne
      rw [hr]
      exact (h.racers r').congr hb hm
  · rw [hl, hi, hc]
    by_cases hne : r' = r
    · subst hne
      have hr := h.rounds r'
      simp only [hfrom, hto, ne_eq, not_false_eq_true, iff_true, and_false, or_false] at hr ⊢
      exact hr
    · rw [(hother r' hne).1]
      exact h.rounds r'
  · rw [hf, hc, hl, hi]
    exact h.tokens
  · by_cases hne : r' = r
    · subst hne
      exact hpast hp
    · obtain ⟨hr, -, hm, -⟩ := hother r' hne
      rw [hm]
      refine h.past r' ?_
      simpa only [St.Past, hr, hl, hi] using hp
  · rw [hc, hck]
    exact h.cleared
  · rw [hck]
    exact h.clearing
  · rw [hc]
    exact fun htest => absurd htest hnot

theorem racer_ne {r r' : Bool} (h : r' ≠ r) : Who.racer r' ≠ Who.racer r := fun he => h (Who.racer.inj he)

theorem Inv.store (h : Inv p s) (hr : s.racer r = .store) {m' : Tso Who Loc ℤ}
    (hm : p.atomic = true ∧ m' = s.m.swap (own r) 1 ∨ p.atomic = false ∧ m' = s.m.store (.racer r) (own r) 1) :
    Inv p { s with m := m', racer := Function.update s.racer r .load } := by
  have hbuf : s.m.buf (.racer r) = [] := by
    have := h.racers r
    rwa [hr] at this
  have hnp : ¬ St.Past { s with m := m', racer := Function.update s.racer r .load } r := by simp [St.Past]
  refine h.race (r := r) rfl rfl rfl rfl rfl ?_ (fun r' hne => ⟨Function.update_of_ne hne .., ?_⟩) (by simp [hr]) (by simp)
    ?_ (fun hp => absurd hp hnp) (fun hp => absurd (hp r) hnp)
  · rcases hm with ⟨-, rfl⟩ | ⟨-, rfl⟩
    · rfl
    · exact Tso.buf_store_of_ne (by simp)
  · rcases hm with ⟨-, rfl⟩ | ⟨-, rfl⟩
    · exact ⟨rfl, Tso.mem_swap_of_ne (own_ne hne), Tso.mem_swap_of_ne (own_ne_result r' r).symm⟩
    · exact ⟨Tso.buf_store_of_ne (racer_ne hne), rfl, rfl⟩
  · rcases hm with ⟨-, rfl⟩ | ⟨ha, rfl⟩
    · simp [Local, hbuf]
    · simp [Local, hbuf, ha]

/-- The step that matters: the racer's own store is in the memory, so if the other has loaded before, this load finds a `1`. -/
theorem Inv.load (h : Inv p s) (hr : s.racer r = .load) (hf : p.atomic = false → s.m.buf (.racer r) = []) :
    Inv p { s with racer := Function.update s.racer r (.assign (s.m.load (.racer r) (own (!r)))) } := by
  obtain ⟨hbuf, hown⟩ : s.m.buf (.racer r) = [] ∧ s.m.mem (own r) = 1 := by
    have hl := h.racers r
    rw [hr] at hl
    rcases hl with hl | ⟨ha, hl⟩
    · exact hl
    · simp [hf ha] at hl
  refine h.race (r := r) rfl rfl rfl rfl rfl rfl (fun r' hne => ⟨Function.update_of_ne hne .., rfl, rfl, rfl⟩) (by simp [hr])
    (by simp) (by simp [Local, hbuf, hown]) (fun _ => hown) fun hp => ⟨r, ?_⟩
  have hne : (!r) ≠ r := by simp
  have hother : s.Past (!r) := by
    have := hp (!r)
    simpa [St.Past, Function.update_of_ne hne] using this
  simp [St.loaded, Tso.load_of_drained hbuf, h.past _ hother]

theorem Inv.assign (h : Inv p s) {v : ℤ} (hr : s.racer r = .assign v) :
    Inv p { s with m := s.m.store (.racer r) (result r) v, racer := Function.update s.racer r .send } := by
  obtain ⟨hbuf, hown⟩ : s.m.buf (.racer r) = [] ∧ s.m.mem (own r) = 1 := by
    have hl := h.racers r
    rwa [hr] at hl
  refine h.race (r := r) rfl rfl rfl rfl rfl (Tso.buf_store_of_ne (by simp))
    (fun r' hne => ⟨Function.update_of_ne hne .., Tso.buf_store_of_ne (racer_ne hne), rfl, rfl⟩) (by simp [hr]) (by simp)
    (by simp [Local, hbuf, hown]) (fun _ => hown) fun hp => ?_
  obtain ⟨r', hone⟩ := h.both fun r' => by
    by_cases hne : r' = r
    · subst hne
      simp [St.Past, hr]
    · have := hp r'
      simpa [St.Past, Function.update_of_ne hne] using this
  refine ⟨r', ?_⟩
  by_cases hne : r' = r
  · subst hne
    have hload : (s.m.store (.racer r') (result r') v).load (.racer r') (result r') = v :=
      Tso.load_of_singleton (by simp [hbuf])
    simpa [St.loaded, hr, hload] using hone
  · have hload : (s.m.store (.racer r) (result r) v).load (.racer r') (result r') = s.m.load (.racer r') (result r') :=
      Tso.load_congr (Tso.buf_store_of_ne (racer_ne hne)) rfl
    simpa [St.loaded, Function.update_of_ne hne, hload] using hone

theorem Inv.send (h : Inv p s) (hr : s.racer r = .send) (hbuf : s.m.buf (.racer r) = []) :
    Inv p { s with
      finish := s.finish + 1, loops := Function.update s.loops r (s.loops r + 1),
      racer := Function.update s.racer r .recv } := by
  obtain ⟨hl, hsent⟩ : s.loops r = s.i ∧ s.checker.sent r = true := by
    rcases h.rounds r with ⟨hl, hsent⟩ | ⟨-, -, hrecv⟩
    · exact ⟨hl, hsent.mpr (by simp [hr])⟩
    · simp [hr] at hrecv
  have hpast {r' : Bool} (hp : St.Past { s with
      finish := s.finish + 1, loops := Function.update s.loops r (s.loops r + 1),
      racer := Function.update s.racer r .recv } r') : s.Past r' := by
    by_cases hne : r' = r
    · subst hne
      simp [St.Past, hr]
    · simpa [St.Past, Function.update_of_ne hne] using hp
  refine ⟨fun r' => ?_, fun r' => ?_, ?_, fun r' hp => h.past r' (hpast hp), fun hp => ?_, h.cleared, h.clearing, h.second,
    h.silent⟩
  · by_cases hne : r' = r
    · subst hne
      simpa [Local] using hbuf
    · simpa [Function.update_of_ne hne] using h.racers r'
  · by_cases hne : r' = r
    · subst hne
      exact .inr ⟨by simp [hl], hsent, by simp⟩
    · simpa [Function.update_of_ne hne] using h.rounds r'
  · have htok := h.tokens
    cases r <;> simp [hl] at htok ⊢ <;> omega
  · obtain ⟨r', hone⟩ := h.both fun r' => hpast (hp r')
    refine ⟨r', ?_⟩
    by_cases hne : r' = r
    · subst hne
      simpa [St.loaded, hr] using hone
    · simpa [St.loaded, Function.update_of_ne hne] using hone

/-! ## Stores that reach the memory -/

theorem Inv.flushChecker (h : Inv p s) {m' : Tso Who Loc ℤ} (hm : s.m.flush .checker = some m') : Inv p { s with m := m' } := by
  obtain ⟨l, v, ws, hb, rfl⟩ := Tso.flush_eq_some hm
  have hs : s.checker.sent false = false := by
    rw [Bool.eq_false_iff]
    exact fun hs => by simp [h.cleared hs] at hb
  have hidle := h.idle hs
  have hbuf (r : Bool) : s.m.buf (.racer r) = [] := by
    have := h.racers r
    rwa [(hidle r).1] at this
  refine ⟨fun r => ?_, h.rounds, h.tokens, fun r hp => absurd hp (h.not_past hs r),
    fun hp => absurd (hp false) (h.not_past hs false), fun hc => ?_, fun w hw => ?_, fun ht => ?_, h.silent⟩
  · simpa [(hidle r).1, Local] using hbuf r
  · exact absurd hc (by simp [hs])
  · refine h.clearing w ?_
    rw [hb]
    simp only [Function.update_self] at hw
    exact List.mem_cons_of_mem _ hw
  · have ht : s.checker = .testB := ht
    simp [ht, CheckerPc.sent] at hs

theorem Inv.flushRacer (h : Inv p s) {m' : Tso Who Loc ℤ} (hm : s.m.flush (.racer r) = some m') : Inv p { s with m := m' } := by
  obtain ⟨l, v, ws, hb, rfl⟩ := Tso.flush_eq_some hm
  have hl := h.racers r
  have hself : Function.update s.m.buf (.racer r) ws (.racer r) = ws := Function.update_self ..
  have hbother {r' : Bool} (hne : r' ≠ r) : Function.update s.m.buf (.racer r) ws (.racer r') = s.m.buf (.racer r') :=
    Function.update_of_ne (racer_ne hne) ..
  have hmother {k : Loc} (hk : k ≠ l) : Function.update s.m.mem l v k = s.m.mem k := Function.update_of_ne hk ..
  have hck : Function.update s.m.buf (.racer r) ws .checker = s.m.buf .checker := Function.update_of_ne (by simp) ..
  cases hr : s.racer r with
  | recv | store =>
    rw [hr] at hl
    simp [Local, hb] at hl
  | assign v' =>
    rw [hr] at hl
    simp [Local, hb] at hl
  | load =>
    -- its own variable becomes `1` in the memory
    rw [hr] at hl
    obtain ⟨-, ⟨rfl, rfl⟩, rfl⟩ : p.atomic = false ∧ (l = own r ∧ v = 1) ∧ ws = [] := by simpa [Local, hb] using hl
    have hnp : ¬ St.Past { s with m := ⟨Function.update s.m.mem (own r) 1, Function.update s.m.buf (.racer r) []⟩ } r := by
      simp [St.Past, hr]
    refine h.race (r := r) rfl rfl rfl rfl rfl hck (fun r' hne => ⟨rfl, hbother hne, hmother (own_ne hne),
      hmother (own_ne_result r' r).symm⟩) (by simp [hr]) (by simp [hr]) ?_ (fun hp => absurd hp hnp)
      (fun hp => absurd (hp r) hnp)
    simp [hr, Local]
  | send =>
    rw [hr] at hl
    obtain ⟨⟨rfl, rfl⟩, hown⟩ : (l = result r ∧ ws = []) ∧ s.m.mem (own r) = 1 := by simpa [Local, hb] using hl
    refine h.race (r := r) rfl rfl rfl rfl rfl hck (fun r' hne => ⟨rfl, hbother hne, hmother (own_ne_result r r'),
      hmother (result_ne hne)⟩) (by simp [hr]) (by simp [hr]) ?_ (fun _ => ?_) fun hp => ?_
    · simp [hr, Local, hmother (own_ne_result r r), hown]
    · exact (hmother (own_ne_result r r)).trans hown
    · obtain ⟨r', hone⟩ := h.both hp
      refine ⟨r', ?_⟩
      by_cases hne : r' = r
      · subst hne
        have hload : s.m.load (.racer r') (result r') = v := Tso.load_of_singleton hb
        have hload' : Tso.load ⟨Function.update s.m.mem (result r') v, Function.update s.m.buf (.racer r') []⟩ (.racer r')
            (result r') = v := by
          rw [Tso.load_of_drained hself]
          exact Function.update_self ..
        simpa [St.loaded, hr, hload, hload'] using hone
      · have hload : Tso.load ⟨Function.update s.m.mem (result r) v, Function.update s.m.buf (.racer r) []⟩ (.racer r')
            (result r') = s.m.load (.racer r') (result r') := Tso.load_congr (hbother hne) (hmother (result_ne hne))
        simpa only [St.loaded, hload] using hone

/-! ## Steps and runs -/

/-- At the tests what the racers have loaded is in the memory. -/
theorem Inv.tested (h : Inv p s) (hc : s.checker.heard = 2) : s.m.mem .a = 1 ∨ s.m.mem .b = 1 := by
  have hpast (r : Bool) : s.Past r := by
    obtain ⟨hr, hl, -⟩ := h.through hc r
    simp [St.Past, hr, hl]
  obtain ⟨r, hone⟩ := h.both hpast
  have hr := (h.through hc r).1
  have hbuf : s.m.buf (.racer r) = [] := by
    have := h.racers r
    rwa [hr] at this
  simp only [St.loaded, hr, Tso.load_of_drained hbuf] at hone
  cases r
  · exact .inr hone
  · exact .inl hone

theorem Inv.checkerStep {s' : St} (h : Inv p s) (hs : checkerStep p s = some s') : Inv p s' := by
  unfold StoreLoad.checkerStep at hs
  cases hc : s.checker with
  | head =>
    simp only [hc, Option.some.injEq] at hs
    subst hs
    split
    · exact (h.clear (by rw [hc]; rfl) (.inl rfl)).goto (by simp [hc, CheckerPc.sent]) (by simp [hc, CheckerPc.heard]) (by simp)
    · exact h.goto (by simp [hc, CheckerPc.sent]) (by simp [hc, CheckerPc.heard]) (by simp)
  | clearY =>
    simp only [hc, Option.some.injEq] at hs
    subst hs
    exact (h.clear (by rw [hc]; rfl) (.inr rfl)).goto (by simp [hc, CheckerPc.sent]) (by simp [hc, CheckerPc.heard]) (by simp)
  | start r =>
    simp only [hc] at hs
    obtain ⟨⟨hb, hbr, hr, -⟩, hs⟩ := Option.ite_none_right_eq_some.mp hs
    obtain rfl := Option.some.inj hs
    exact h.start hc hb hr hbr
  | wait again =>
    simp only [hc] at hs
    obtain ⟨⟨-, hpos⟩, hs⟩ := Option.ite_none_right_eq_some.mp hs
    obtain rfl := Option.some.inj hs
    cases again
    · exact h.goto (by simp [hc, CheckerPc.sent]) (by simp [hc, CheckerPc.heard]; omega) (by simp)
    · exact h.goto (by simp [hc, CheckerPc.sent]) (by simp [hc, CheckerPc.heard]; omega) (by simp)
  | testA =>
    simp only [hc, Option.some.injEq] at hs
    subst hs
    split
    · rename_i hz
      rw [Tso.load_of_drained (h.cleared (by rw [hc]; rfl))] at hz
      exact h.goto (by simp [hc, CheckerPc.sent]) (by simp [hc, CheckerPc.heard]) fun _ => hz
    · exact h.nextRound (by rw [hc]; rfl)
  | testB =>
    simp only [hc, Option.some.injEq] at hs
    subst hs
    split
    · rename_i hz
      rw [Tso.load_of_drained (h.cleared (by rw [hc]; rfl))] at hz
      have ha := h.second hc
      rcases h.tested (by rw [hc]; rfl) with hone | hone <;> omega
    · exact h.nextRound (by rw [hc]; rfl)
  | exited => simp [hc] at hs

theorem Inv.racerStep {s' : St} (h : Inv p s) (hok : Fenced p s (.run (.racer r))) (hs : racerStep p s r = some s') :
    Inv p s' := by
  unfold StoreLoad.racerStep at hs
  cases hr : s.racer r with
  | recv => simp [hr] at hs
  | store =>
    simp only [hr] at hs
    split at hs
    · rename_i ha
      obtain ⟨-, hs⟩ := Option.ite_none_right_eq_some.mp hs
      obtain rfl := Option.some.inj hs
      exact h.store hr (.inl ⟨ha, rfl⟩)
    · rename_i ha
      obtain rfl := Option.some.inj hs
      exact h.store hr (.inr ⟨by simpa using ha, rfl⟩)
  | load =>
    simp only [hr, Option.some.injEq] at hs
    subst hs
    exact h.load hr fun ha => hok ha hr
  | assign v =>
    simp only [hr, Option.some.injEq] at hs
    subst hs
    exact h.assign hr
  | send =>
    simp only [hr] at hs
    obtain ⟨⟨hb, -⟩, hs⟩ := Option.ite_none_right_eq_some.mp hs
    obtain rfl := Option.some.inj hs
    exact h.send hr hb

theorem inv_reach (h : Reach (step p) (Fenced p) .init s) : Inv p s := by
  refine h.invariant (Inv p) (inv_init p) ?_
  rintro s s' a - hi hok hs
  cases a with
  | run w =>
    cases w with
    | checker => exact hi.checkerStep hs
    | racer r => exact hi.racerStep hok hs
  | flush w =>
    obtain ⟨m', hm, rfl⟩ := Option.map_eq_some_iff.mp hs
    cases w with
    | checker => exact hi.flushChecker hm
    | racer r => exact hi.flushRacer hm

/-- **Atomic stores are not overtaken**: whatever the schedule, `goatomic` prints no round. -/
theorem goatomic_never_reorders (h : Reach (step goatomic) Any .init s) : s.printed = [] := by
  refine (inv_reach (h.mono fun s a _ => ?_)).silent
  cases a with
  | run w =>
    cases w with
    | checker => trivial
    | racer r => exact fun ha => Bool.noConfusion ha
  | flush w => trivial

/-- The checker clears the variables, and starts the racers when that has reached the memory. -/
def starting : List Act :=
  [.run .checker, .run .checker, .flush .checker, .flush .checker, .run .checker, .run .checker]

/-- The racers run one after the other. -/
def inTurn : List Act :=
  [.run (.racer false), .run (.racer false), .run (.racer false), .flush (.racer false), .run (.racer false),
    .run (.racer true), .run (.racer true), .run (.racer true), .flush (.racer true), .run (.racer true),
    .run .checker, .run .checker, .run .checker]

theorem goatomic_first_round : ∃ s, Reach (step goatomic) Any .init s ∧ s.i = 1 ∧ s.printed = [] := by
  obtain ⟨s, hr, hs⟩ := reach_of_runs (step goatomic) Any .init (starting ++ inTurn) (fun s => decide (s.i = 1)) (by decide)
  exact ⟨s, hr, of_decide_eq_true hs, goatomic_never_reorders hr⟩

/-! ## A schedule that prints every round -/

/-- All are at the head of round `n`, and every round before has been printed. -/
structure Quiet (n : ℕ) (s : St) : Prop where
  drained : ∀ w, s.m.buf w = []
  head : s.checker = .head
  round : s.i = n
  idle : ∀ r, s.racer r = .recv ∧ s.loops r = n
  empty : s.finish = 0
  printed : s.printed = List.range n

/-- Round `n` with the two variables cleared and both racers started. -/
def started (n : ℕ) (mem : Loc → ℤ) : St :=
  ⟨⟨Function.update (Function.update mem .x 0) .y 0, fun _ => []⟩, .wait false, n, fun _ => .store, fun _ => n, 0, List.range n⟩

/-- Both racers store and load before either store has left its buffer. -/
def overtaking : List Act :=
  [.run (.racer false), .run (.racer true), .run (.racer false), .run (.racer true), .run (.racer false), .run (.racer true),
    .flush (.racer false), .flush (.racer false), .flush (.racer true), .flush (.racer true),
    .run (.racer false), .run (.racer true), .run .checker, .run .checker, .run .checker, .run .checker]

theorem runs_overtaking (k n : ℕ) (mem : Loc → ℤ) :
    ∃ s', runs (step ⟨false, k⟩) Any (started n mem) overtaking = some s' ∧ Quiet (n + 1) s' := by
  refine ⟨_, rfl, ⟨fun w => ?_, rfl, rfl, fun r => ?_, rfl, List.range_succ.symm⟩⟩
  · rcases w with _ | _ | _ <;> rfl
  · cases r <;> exact ⟨rfl, rfl⟩

theorem Quiet.eq {n : ℕ} (h : Quiet n s) :
    s = ⟨⟨s.m.mem, fun _ => []⟩, .head, n, fun _ => .recv, fun _ => n, 0, List.range n⟩ := by
  obtain ⟨⟨mem, buf⟩, checker, i, racer, loops, finish, printed⟩ := s
  obtain rfl : buf = fun _ => [] := funext h.drained
  obtain rfl : racer = fun _ => .recv := funext fun r => (h.idle r).1
  obtain rfl : loops = fun _ => n := funext fun r => (h.idle r).2
  obtain rfl : checker = .head := h.head
  obtain rfl : i = n := h.round
  obtain rfl : finish = 0 := h.empty
  obtain rfl : printed = List.range i := h.printed
  rfl

theorem runs_starting {n : ℕ} (hn : n < p.loopcnt) (h : Quiet n s) :
    runs (step p) Any s starting = some (started n s.m.mem) := by
  have hracers : Function.update (Function.update (fun _ => RacerPc.recv) false .store) true .store = fun _ => .store := by
    funext r
    cases r <;> rfl
  rw [h.eq]
  simp [starting, runs, step, checkerStep, Any, hn, Tso.store, Tso.flush, started, hracers]

theorem quiet_init : Quiet 0 St.init := ⟨fun _ => rfl, rfl, rfl, fun _ => ⟨rfl, rfl⟩, rfl, rfl⟩

theorem reach_quiet {k n : ℕ} (hn : n ≤ k) : ∃ s, Reach (step ⟨false, k⟩) Any .init s ∧ Quiet n s := by
  induction n with
  | zero => exact ⟨.init, .init, quiet_init⟩
  | succ n ih =>
    obtain ⟨s, hr, hq⟩ := ih (Nat.le_of_succ_le hn)
    obtain ⟨s', hs', hq'⟩ := runs_overtaking k n s.m.mem
    exact ⟨s', (hr.runs (runs_starting hn hq)).runs hs', hq'⟩

/-- **Plain stores are overtaken, and only out of the buffer**: `storeloadreorder` can print any number of its rounds, from the
first one on without a gap; but a run in which every racer's store has left its buffer before its load prints none. -/
theorem storeloadreorder_reorders :
    (∀ n ≤ storeloadreorder.loopcnt, ∃ s, Reach (step storeloadreorder) Any .init s ∧ s.printed = List.range n) ∧
    ∀ s, Reach (step storeloadreorder) (Fenced storeloadreorder) .init s → s.printed = [] := by
  refine ⟨fun n hn => ?_, fun s h => (inv_reach h).silent⟩
  obtain ⟨s, hr, hq⟩ := reach_quiet hn
  exact ⟨s, hr, hq.printed⟩

end CppNotes.StoreLoad
