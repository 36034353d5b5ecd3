import CppNotes.Chan.Close
import Mathlib.Data.List.Perm.Subperm

/-!
# What the consumer prints

`operator>>` has a return that leaves its argument untouched: it finds `done` set after the wait.  The
consumer cannot tell and prints `*data` all the same, which is then the item of an earlier turn, or the
null pointer in the first one.

In a run without that return (`NotStale`) every turn of a consumer moves one item out and prints it:

* `PrintInv` — what a consumer took is what it printed, followed by the item in its hand;
* `ItemInv` — the items pushed are pairwise different, since each producer makes its own.
-/

set_option linter.unusedSectionVars false

namespace CppNotes.Chan

open CppNotes.Lib

variable {T α : Type} [DecidableEq T]

/-- The items that thread `t` moved out of the queue. -/
def removedBy (s : St T α) (t : T) : List α := (s.removed.filter fun r => r.1 = t).map Prod.snd

/-- What thread `t` printed. -/
def printedBy (s : St T α) (t : T) : List (Option α) := (s.printed.filter fun p => p.thread = t).map Print.data

/-- What a consumer holds between its return from `operator>>` and its print. -/
def inHand (s : St T α) (t : T) : List (Option α) :=
  match s.pc t with
  | .recvExit | .print => [s.data t]
  | _ => []

/-- The step is not the return of a consumer from `operator>>` that leaves `data` untouched. -/
def NotStale (c : Config T α) (s : St T α) : Act T α → Prop
  | .run t _ => c.role t = .consumer → s.pc t = .recvDone → s.done = false
  | _ => True

instance [DecidableEq α] (c : Config T α) (s : St T α) : (a : Act T α) → Decidable (NotStale c s a)
  | .run t _ => inferInstanceAs (Decidable (c.role t = .consumer → s.pc t = .recvDone → s.done = false))
  | .spurious _ | .send _ _ | .recv _ | .close => .isTrue trivial

structure PrintInv (c : Config T α) (s : St T α) : Prop where
  /-- Between the return from `operator>>` and the print, `data` is the item just moved out. -/
  hand : ∀ t, c.role t = .consumer → s.pc t = .recvExit ∨ s.pc t = .print → s.fresh t = true ∧ s.data t ≠ none
  seq : ∀ t, c.role t = .consumer → (removedBy s t).map some = printedBy s t ++ inHand s t
  prints : ∀ t, s.pc t = .print → c.role t = .consumer
  good : ∀ p ∈ s.printed, c.role p.thread = .consumer ∧ p.data ≠ none ∧ p.fresh = true

theorem printInv_init (c : Config T α) : PrintInv c (St.init : St T α) where
  hand t _ h := by simp [St.init] at h
  seq t _ := rfl
  prints t h := by simp [St.init] at h
  good p h := by simp [St.init] at h

/-! ## A step that neither takes an item nor prints one -/

/-- The places from `recvExit` to `print` are entered only by the pop. -/
def Pc.handed : Pc α → Bool
  | .recvExit | .print => true
  | _ => false

theorem inHand_of_not_handed {s : St T α} {t : T} (h : (s.pc t).handed = false) : inHand s t = [] := by
  unfold inHand
  cases hp : s.pc t <;> simp_all [Pc.handed]

theorem handed_iff {p : Pc α} : p.handed = true ↔ p = .recvExit ∨ p = .print := by
  cases p <;> simp [Pc.handed]

/-- Thread `t` moves and takes or prints nothing. -/
theorem PrintInv.quiet {c : Config T α} {s s' : St T α} {t : T} (hi : PrintInv c s)
    (hpc : ∀ w, w ≠ t → s'.pc w = s.pc w) (hdata : s'.data = s.data)
    (hfresh : ∀ w, w ≠ t → s'.fresh w = s.fresh w) (hrem : s'.removed = s.removed)
    (hpr : s'.printed = s.printed)
    (ht : c.role t = .consumer → (s.pc t).handed = (s'.pc t).handed ∧ ((s'.pc t).handed = true → s'.fresh t = s.fresh t))
    (hp : s'.pc t = .print → c.role t = .consumer) : PrintInv c s' where
  hand w hr hw := by
    by_cases hwt : w = t
    · subst hwt
      obtain ⟨h₁, h₂⟩ := ht hr
      have hh : (s'.pc w).handed = true := handed_iff.2 hw
      rw [h₂ hh, hdata]
      exact hi.hand w hr (handed_iff.1 (h₁.trans hh))
    · rw [hpc w hwt] at hw
      rw [hfresh w hwt, hdata]
      exact hi.hand w hr hw
  seq w hr := by
    have hsame : inHand s' w = inHand s w := by
      by_cases hwt : w = t
      · subst hwt
        have h₁ := (ht hr).1
        cases hb : (s.pc w).handed with
        | false => rw [inHand_of_not_handed hb, inHand_of_not_handed (h₁ ▸ hb)]
        | true =>
          unfold inHand
          rcases handed_iff.1 hb with e | e <;> rcases handed_iff.1 (h₁ ▸ hb) with e' | e' <;> rw [e, e', hdata]
      · unfold inHand
        rw [hpc w hwt, hdata]
    have := hi.seq w hr
    unfold removedBy printedBy at *
    rw [hrem, hpr, hsame]
    exact this
  prints w hw := by
    by_cases hwt : w = t
    · exact hwt ▸ hp (hwt ▸ hw)
    · exact hi.prints w (hpc w hwt ▸ hw)
  good p hpm := hi.good p (hpr ▸ hpm)

/-! ## Taking and printing -/

theorem removedBy_append (s : St T α) (t w : T) (v : α) :
    ((s.removed ++ [(t, v)]).filter fun r => r.1 = w).map Prod.snd =
      removedBy s w ++ if t = w then [v] else [] := by
  by_cases h : t = w <;> simp [removedBy, h]

theorem printedBy_append (s : St T α) (t w : T) (p : Print T α) (hp : p.thread = t) :
    ((s.printed ++ [p]).filter fun p => p.thread = w).map Print.data =
      printedBy s w ++ if t = w then [p.data] else [] := by
  by_cases h : t = w <;> simp [printedBy, h, hp]

theorem PrintInv.pop {c : Config T α} {s : St T α} {t : T} (hi : PrintInv c s) (hq : s.q ≠ [])
    (hp : s.pc t = .recvPop) : PrintInv c (s.pop t) := by
  obtain ⟨v, q, hvq⟩ := List.exists_cons_of_ne_nil hq
  have hpc := pop_pc s t
  have hd : (s.pop t).data = Function.update s.data t (some v) := by simp [St.pop, hvq]
  have hf : (s.pop t).fresh = Function.update s.fresh t true := by simp [St.pop, hvq]
  have hrem : (s.pop t).removed = s.removed ++ [(t, v)] := by simp [St.pop, hvq]
  have hpr : (s.pop t).printed = s.printed := by simp [St.pop, hvq, St.goto]
  refine ⟨fun w hr hw => ?_, fun w hr => ?_, fun w hw => ?_, fun p hpm => hi.good p (hpr ▸ hpm)⟩
  · by_cases hwt : w = t
    · subst hwt
      simp [hf, hd]
    · rw [hpc, Function.update_of_ne hwt] at hw
      rw [hf, hd, Function.update_of_ne hwt, Function.update_of_ne hwt]
      exact hi.hand w hr hw
  · have hseq := hi.seq w hr
    unfold removedBy printedBy
    rw [hrem, hpr, removedBy_append]
    by_cases hwt : t = w
    · subst hwt
      have h₁ : inHand s t = [] := by simp [inHand, hp]
      have h₂ : inHand (s.pop t) t = [some v] := by simp [inHand, hd]
      rw [h₂]
      rw [h₁, List.append_nil] at hseq
      simp [hseq, printedBy]
    · have h₁ : inHand (s.pop t) w = inHand s w := by
        unfold inHand
        rw [hpc, hd, Function.update_of_ne (Ne.symm hwt), Function.update_of_ne (Ne.symm hwt)]
      rw [h₁]
      simpa [hwt, printedBy] using hseq
  · by_cases hwt : w = t
    · subst hwt
      simp at hw
    · rw [hpc, Function.update_of_ne hwt] at hw
      exact hi.prints w hw

theorem PrintInv.print {c : Config T α} {s : St T α} {t : T} (hi : PrintInv c s) (hp : s.pc t = .print) :
    PrintInv c (s.print t) := by
  have hr := hi.prints t hp
  obtain ⟨hf, hd⟩ := hi.hand t hr (Or.inr hp)
  have hpc : (s.print t).pc = Function.update s.pc t .idle := rfl
  have hpr : (s.print t).printed = s.printed ++ [⟨t, s.data t, s.fresh t⟩] := rfl
  refine ⟨fun w hrw hw => ?_, fun w hrw => ?_, fun w hw => ?_, fun p hpm => ?_⟩
  · by_cases hwt : w = t
    · subst hwt
      simp [hpc] at hw
    · rw [hpc, Function.update_of_ne hwt] at hw
      exact hi.hand w hrw hw
  · have hseq := hi.seq w hrw
    have hrem : removedBy (s.print t) w = removedBy s w := rfl
    rw [hrem, hseq]
    unfold printedBy
    rw [hpr, printedBy_append s t w _ rfl]
    by_cases hwt : t = w
    · subst hwt
      have h₁ : inHand s t = [s.data t] := by simp [inHand, hp]
      have h₂ : inHand (s.print t) t = [] := by simp [inHand, hpc]
      simp [h₁, h₂, printedBy]
    · have h₁ : inHand (s.print t) w = inHand s w := by
        unfold inHand
        rw [hpc, Function.update_of_ne (Ne.symm hwt)]
        rfl
      simp [h₁, hwt, printedBy]
  · by_cases hwt : w = t
    · exact hwt ▸ hr
    · rw [hpc, Function.update_of_ne hwt] at hw
      exact hi.prints w hw
  · rw [hpr] at hpm
    rcases List.mem_append.1 hpm with hpm | hpm
    · exact hi.good p hpm
    · rw [List.mem_singleton] at hpm
      subst hpm
      exact ⟨hr, hd, hf⟩

/-! ## Every step but the stale return -/

variable [Fintype T] {c : Config T α}

theorem move_print {s s' : St T α} {t : T} (hI : Inv s) (hi : PrintInv c s)
    (hok : c.role t = .consumer → s.pc t = .recvDone → s.done = false) (h : Move c s t s') : PrintInv c s' := by
  have hpc := h.frame.pc
  have hfr := h.frame.fresh
  cases h with
  | quit hp _ => exact hi.quiet hpc rfl hfr rfl rfl (fun _ => by simp [hp, St.goto, Pc.handed]) (by simp [St.goto])
  | produce hp _ _ =>
    exact hi.quiet hpc rfl hfr rfl rfl (fun _ => by simp [hp, St.goto, Pc.handed]) (by simp [St.goto])
  | consume hp _ _ =>
    exact hi.quiet hpc rfl hfr rfl rfl (fun _ => by simp [hp, St.goto, Pc.handed]) (by simp [St.goto])
  | lock hp he _ =>
    refine hi.quiet hpc rfl hfr rfl rfl (fun _ => ?_) ?_
    · cases he <;> simp [hp, St.goto, Pc.handed]
    · cases he <;> simp [St.goto]
  | unlock hp he =>
    refine hi.quiet hpc rfl hfr rfl rfl (fun hr => ?_) ?_
    · cases he with
      | returned hne => exact absurd hr hne
      | _ => simp [hp, St.release, St.goto, Pc.handed]
    · cases he with
      | received hr => exact fun _ => hr
      | _ => simp [St.release, St.goto]
  | test hp he =>
    refine hi.quiet hpc rfl hfr rfl rfl (fun hr => ?_) ?_
    · cases he with
      | stale hd =>
        -- the return that leaves `data` untouched
        have := hok hr hp
        simp [hd] at this
      | _ => simp [hp, St.goto, Pc.handed]
    · cases he <;> simp [St.goto]
  | push v hp => exact hi.quiet hpc rfl hfr rfl rfl (fun _ => by simp [hp, St.push, St.goto, Pc.handed]) (by simp [St.push, St.goto])
  | notify w hp _ => exact hi.quiet hpc rfl hfr rfl rfl (fun _ => by simp [hp, St.goto, Pc.handed]) (by simp [St.goto])
  | silent hp _ => exact hi.quiet hpc rfl hfr rfl rfl (fun _ => by simp [hp, St.goto, Pc.handed]) (by simp [St.goto])
  | wake hp _ => exact hi.quiet hpc rfl hfr rfl rfl (fun _ => by simp [hp, St.wake, St.goto, Pc.handed]) (by simp [St.wake, St.goto])
  | pop hp =>
    have hr := hI.ready t
    rw [hp] at hr
    exact hi.pop hr hp
  | print hp => exact hi.print hp

theorem step_print {s s' : St T α} {a : Act T α} (hI : Inv s) (hi : PrintInv c s) (hok : NotStale c s a)
    (h : step c s a = some s') : PrintInv c s' := by
  rcases step_cases h with ⟨t, u, rfl, hm⟩ | ⟨t, -, hp, rfl⟩ | ⟨t, v, -, hcl, hp, rfl⟩ | ⟨t, -, hcl, hp, rfl⟩ | ⟨-, rfl⟩
  · exact move_print hI hi hok hm
  · refine hi.quiet (t := t) (fun w hw => ?_) rfl (fun _ _ => rfl) rfl rfl (fun _ => ?_) ?_
    · simp [St.wake, St.goto, Function.update_of_ne hw]
    · simp [hp, St.wake, St.goto, Pc.handed]
    · simp [St.wake, St.goto]
  · exact hi.quiet (frame_goto s t _).pc rfl (fun _ _ => rfl) rfl rfl (fun hr => by simp [hcl] at hr) (by simp [St.goto])
  · exact hi.quiet (frame_goto s t _).pc rfl (fun _ _ => rfl) rfl rfl (fun hr => by simp [hcl] at hr) (by simp [St.goto])
  · exact ⟨hi.hand, hi.seq, hi.prints, hi.good⟩

theorem reach_print {s : St T α} (h : Reach (step c) (NotStale c) .init s) : PrintInv c s :=
  h.invariant (PrintInv c) (printInv_init c) fun _ _ _ hr hi hok hs => step_print (reach_inv hr) hi hok hs

/-! ## The items are pairwise different -/

/-- The item that a thread inside `operator<<` has not pushed yet. -/
def Pc.carries : Pc α → Option α
  | .sendLock v | .sendTest v | .sendSize v | .sendUnlock v | .sendRelock v | .sendDone v | .sendPush v => some v
  | _ => none

structure ItemInv (c : Config T α) (s : St T α) : Prop where
  made : ∀ v ∈ s.pushed, ∃ t n, n < s.i t ∧ v = c.make t n
  carried : ∀ t v, (s.pc t).carries = some v → ∃ n, s.i t = n + 1 ∧ v = c.make t n ∧ v ∉ s.pushed
  nodup : s.pushed.Nodup

theorem itemInv_init (c : Config T α) : ItemInv c (St.init : St T α) where
  made v h := by simp [St.init] at h
  carried t v h := by simp [St.init, Pc.carries] at h
  nodup := List.nodup_nil

/-- Thread `t` moves, makes no item and pushes none. -/
theorem ItemInv.quiet {s s' : St T α} {t : T} (hi : ItemInv c s) (hpc : ∀ w, w ≠ t → s'.pc w = s.pc w)
    (hi' : s'.i = s.i) (hpu : s'.pushed = s.pushed)
    (ht : ∀ v, (s'.pc t).carries = some v → (s.pc t).carries = some v) : ItemInv c s' := by
  refine ⟨fun v hv => ?_, fun w v hw => ?_, hpu ▸ hi.nodup⟩
  · rw [hi']
    exact hi.made v (hpu ▸ hv)
  · rw [hi', hpu]
    by_cases hwt : w = t
    · subst hwt
      exact hi.carried w v (ht v hw)
    · exact hi.carried w v (hpc w hwt ▸ hw)

theorem ItemInv.produce {s : St T α} {t : T} (hi : ItemInv c s) (hm : Function.Injective2 c.make) :
    ItemInv c { s.goto t (.sendLock (c.make t (s.i t))) with i := Function.update s.i t (s.i t + 1) } := by
  refine ⟨fun v hv => ?_, fun w v hw => ?_, hi.nodup⟩
  · obtain ⟨u, n, hn, rfl⟩ := hi.made v hv
    refine ⟨u, n, ?_, rfl⟩
    by_cases hu : u = t
    · subst hu
      simp only [Function.update_self]
      omega
    · simpa [Function.update_of_ne hu] using hn
  · by_cases hwt : w = t
    · subst hwt
      simp only [St.goto, Function.update_self, Pc.carries, Option.some.injEq] at hw
      refine ⟨s.i w, by simp, hw.symm, fun hmem => ?_⟩
      -- everything pushed was made from a smaller counter
      obtain ⟨u, n, hn, hv⟩ := hi.made v hmem
      obtain ⟨rfl, rfl⟩ := hm (hw.trans hv)
      omega
    · simp only [St.goto, Function.update_of_ne hwt] at hw ⊢
      exact hi.carried w v hw

theorem ItemInv.push {s : St T α} {t : T} {v : α} (hi : ItemInv c s) (hm : Function.Injective2 c.make)
    (hp : s.pc t = .sendPush v) : ItemInv c (s.push t v) := by
  obtain ⟨n, hn, hv, hnot⟩ := hi.carried t v (by rw [hp]; rfl)
  refine ⟨fun x hx => ?_, fun w x hw => ?_, ?_⟩
  · rcases List.mem_append.1 hx with hx | hx
    · exact hi.made x hx
    · rw [List.mem_singleton] at hx
      refine ⟨t, n, ?_, hx.trans hv⟩
      show n < s.i t
      omega
  · by_cases hwt : w = t
    · subst hwt
      simp [St.push, St.goto, Pc.carries] at hw
    · have hw' : (s.pc w).carries = some x := by
        simpa [St.push, St.goto, Function.update_of_ne hwt] using hw
      obtain ⟨k, hk, hx, hxnot⟩ := hi.carried w x hw'
      refine ⟨k, hk, hx, fun hmem => ?_⟩
      rcases List.mem_append.1 hmem with hmem | hmem
      · exact hxnot hmem
      · rw [List.mem_singleton] at hmem
        exact hwt (hm (hx.symm.trans (hmem.trans hv))).1
  · show (s.pushed ++ [v]).Nodup
    refine List.nodup_append.2 ⟨hi.nodup, List.nodup_singleton v, fun x hx y hy => ?_⟩
    rw [List.mem_singleton] at hy
    subst hy
    exact fun e => hnot (e ▸ hx)

theorem move_item {s s' : St T α} {t : T} (hm : Function.Injective2 c.make) (hi : ItemInv c s)
    (h : Move c s t s') : ItemInv c s' := by
  have hpc := h.frame.pc
  cases h with
  | produce => exact hi.produce hm
  | push v hp => exact hi.push hm hp
  | lock hp he _ =>
    refine hi.quiet hpc rfl rfl fun v hv => ?_
    cases he <;> simp_all [St.goto, Pc.carries]
  | unlock hp he =>
    refine hi.quiet hpc rfl rfl fun v hv => ?_
    cases he <;> simp_all [St.release, St.goto, Pc.carries]
  | test hp he =>
    refine hi.quiet hpc rfl rfl fun v hv => ?_
    cases he <;> simp_all [St.goto, Pc.carries]
  | pop hp => exact hi.quiet hpc (pop_i s t) (pop_pushed s t) fun v hv => by simp [Pc.carries] at hv
  | wake hp _ => exact hi.quiet hpc rfl rfl fun v hv => by simp [St.wake, St.goto, Pc.carries] at hv
  | print hp => exact hi.quiet hpc rfl rfl fun v hv => by simp [St.print, St.goto, Pc.carries] at hv
  | _ => exact hi.quiet hpc rfl rfl fun v hv => by simp [St.goto, Pc.carries] at hv

theorem step_item {s s' : St T α} {a : Act T α} (hc : ∀ t, c.role t ≠ .client) (hm : Function.Injective2 c.make)
    (hi : ItemInv c s) (h : step c s a = some s') : ItemInv c s' := by
  rcases step_cases h with ⟨t, u, rfl, hmv⟩ | ⟨t, -, hp, rfl⟩ | ⟨t, v, -, hcl, -⟩ | ⟨t, -, hcl, -⟩ | ⟨-, rfl⟩
  · exact move_item hm hi hmv
  · refine hi.quiet (t := t) (fun w hw => ?_) rfl rfl fun v hv => ?_
    · simp [St.wake, St.goto, Function.update_of_ne hw]
    · simp [St.wake, St.goto, Pc.carries] at hv
  · exact absurd hcl (hc t)
  · exact absurd hcl (hc t)
  · exact ⟨hi.made, hi.carried, hi.nodup⟩

/-- Producers take nothing. -/
theorem reach_takers {ok : St T α → Act T α → Prop} {s : St T α} (h : Reach (step c) ok .init s) :
    ∀ r ∈ s.removed, c.role r.1 ≠ .producer := by
  refine h.invariant (fun s => ∀ r ∈ s.removed, c.role r.1 ≠ .producer) (by simp [St.init]) ?_
  intro s s' a hr hs _ hst r hrm
  rcases step_cases hst with ⟨t, u, -, hm⟩ | ⟨t, -, -, rfl⟩ | ⟨t, v, -, -, -, rfl⟩ | ⟨t, -, -, -, rfl⟩ | ⟨-, rfl⟩
  · cases hm with
    | pop hp =>
      have hst := reach_strays hr t
      unfold St.pop at hrm
      split at hrm
      · exact hs r hrm
      · rcases List.mem_append.1 hrm with hrm | hrm
        · exact hs r hrm
        · rw [List.mem_singleton] at hrm
          subst hrm
          intro hp'
          simp [strays, hp', hp, Pc.receives] at hst
    | _ => exact hs r hrm
  all_goals exact hs r hrm

/-! ## The printed sequence -/

/-- A relation that holds between any two entries of one thread and between entries of different threads
holds along the whole list. -/
theorem pairwise_of_filter {β : Type} {R : β → β → Prop} {f : β → T} {l : List β}
    (h : ∀ t, (l.filter fun x => f x = t).Pairwise R) (hx : ∀ x ∈ l, ∀ y ∈ l, f x ≠ f y → R x y) :
    l.Pairwise R := by
  induction l with
  | nil => exact List.Pairwise.nil
  | cons a l ih =>
    refine List.pairwise_cons.2 ⟨fun b hb => ?_, ih (fun t => ?_) fun x hxm y hym =>
      hx x (List.mem_cons_of_mem _ hxm) y (List.mem_cons_of_mem _ hym)⟩
    · by_cases hab : f a = f b
      · have hf := h (f a)
        rw [List.filter_cons_of_pos (by simp)] at hf
        exact (List.pairwise_cons.1 hf).1 b (List.mem_filter.2 ⟨hb, by simp [hab]⟩)
      · exact hx a List.mem_cons_self b (List.mem_cons_of_mem _ hb) hab
    · exact (h t).sublist ((List.sublist_cons_self a l).filter _)

/-- What was printed was taken by the same thread. -/
theorem PrintInv.taken {s : St T α} (hi : PrintInv c s) {p : Print T α} (hp : p ∈ s.printed) :
    ∃ v, p.data = some v ∧ (p.thread, v) ∈ s.removed := by
  have hmem : p.data ∈ printedBy s p.thread :=
    List.mem_map.2 ⟨p, List.mem_filter.2 ⟨hp, by simp⟩, rfl⟩
  have hm : p.data ∈ (removedBy s p.thread).map some := by
    rw [hi.seq p.thread (hi.good p hp).1]
    exact List.mem_append_left _ hmem
  obtain ⟨v, hv, hpv⟩ := List.mem_map.1 hm
  obtain ⟨⟨t, w⟩, hr, rfl⟩ := List.mem_map.1 hv
  obtain ⟨hr, ht⟩ := List.mem_filter.1 hr
  simp only [decide_eq_true_eq] at ht
  exact ⟨w, hpv.symm, ht ▸ hr⟩

theorem PrintInv.nodup {s : St T α} (hi : PrintInv c s) (hr : (s.removed.map Prod.snd).Nodup) :
    (s.printed.map Print.data).Nodup := by
  refine List.pairwise_map.2 (pairwise_of_filter (f := Print.thread) (fun t => ?_) fun x hx y hy hne he => ?_)
  · refine List.pairwise_map.1 (?_ : (printedBy s t).Nodup)
    by_cases ht : c.role t = .consumer
    · have hsub : (removedBy s t).Sublist (s.removed.map Prod.snd) := List.filter_sublist.map _
      have hnd : ((removedBy s t).map some).Nodup := (hsub.nodup hr).map (Option.some_injective _)
      rw [hi.seq t ht] at hnd
      exact hnd.of_append_left
    · have hnil : printedBy s t = [] := by
        refine List.map_eq_nil_iff.2 (List.filter_eq_nil_iff.2 fun p hp hpt => ht ?_)
        exact of_decide_eq_true hpt ▸ (hi.good p hp).1
      rw [hnil]
      exact List.nodup_nil
  · obtain ⟨v, hv, hvm⟩ := hi.taken hx
    obtain ⟨w, hw, hwm⟩ := hi.taken hy
    have hvw : v = w := Option.some.inj (hv.symm.trans (he.trans hw))
    exact hne (congrArg Prod.fst (List.inj_on_of_nodup_map hr hvm hwm hvw))

/-- **The consumer prints what it takes**: in every run of producers and consumers in which no consumer is sent
back from `operator>>` with `data` untouched, every `cout << *data` finds a non-null `data` that
`operator>>` moved out in the same turn of the loop; what a consumer printed, followed by the item in its
hand, is what it took, and with a single consumer that is the sequence of all items removed from the
queue; and nothing is printed twice. -/
theorem consumer_prints_taken (c : Config T α) (hc : ∀ t, c.role t ≠ .client) (hm : Function.Injective2 c.make)
    {s : St T α} (h : Reach (step c) (NotStale c) .init s) :
    (∀ p ∈ s.printed, p.data ≠ none ∧ p.fresh = true) ∧
    (∀ t, c.role t = .consumer → (removedBy s t).map some = printedBy s t ++ inHand s t) ∧
    (∀ t, c.role t = .consumer → (∀ w, c.role w = .consumer → w = t) →
      s.removed.map (fun r => some r.2) = s.printed.map Print.data ++ inHand s t) ∧
    (s.printed.map Print.data).Nodup := by
  have hi := reach_print h
  have hI := reach_inv h
  have hitem : ItemInv c s := h.invariant (ItemInv c) (itemInv_init c) fun _ _ _ _ hi _ hs => step_item hc hm hi hs
  refine ⟨fun p hp => (hi.good p hp).2, hi.seq, fun t ht honly => ?_, hi.nodup ?_⟩
  · have h₁ : s.removed.filter (fun r => r.1 = t) = s.removed := by
      refine List.filter_eq_self.2 fun r hr => ?_
      have hne := reach_takers h r hr
      have hnc := hc r.1
      have hcon : c.role r.1 = .consumer := by
        cases hrole : c.role r.1 with
        | client => exact absurd hrole hnc
        | producer => exact absurd hrole hne
        | consumer => rfl
      simp [honly r.1 hcon]
    have h₂ : s.printed.filter (fun p => p.thread = t) = s.printed :=
      List.filter_eq_self.2 fun p hp => by simp [honly p.thread (hi.good p hp).1]
    have hseq := hi.seq t ht
    unfold removedBy printedBy at hseq
    rw [h₁, h₂, List.map_map] at hseq
    exact hseq
  · have hnd := hitem.nodup
    rw [← hI.fifo] at hnd
    exact hnd.of_append_left

/-- The demo with items that remember their producer. -/
def demoItems : Config (Fin 2) (Fin 2 × ℕ) := demoOf fun t n => (t, n)

/-- The producer sends one item, the consumer takes it and prints it. -/
theorem consumer_prints_first_item : ∃ s, Reach (step demoItems) (NotStale demoItems) .init s ∧
    s.removed = [(0, (1, 0))] ∧ s.printed.map Print.data = [some (1, 0)] ∧
    ∀ p ∈ s.printed, p.data ≠ none ∧ p.fresh = true := by
  obtain ⟨s, hs, hp⟩ := reach_of_runs (step demoItems) (NotStale demoItems) .init
    (List.replicate 8 (Act.run 1 none) ++ List.replicate 7 (Act.run 0 none))
    (fun s => decide (s.removed = [(0, (1, 0))] ∧ s.printed.map Print.data = [some (1, 0)])) (by decide)
  obtain ⟨h₁, h₂⟩ := of_decide_eq_true hp
  have hinj : Function.Injective2 demoItems.make := fun _ _ _ _ e => Prod.mk.inj e
  exact ⟨s, hs, h₁, h₂, (consumer_prints_taken demoItems (by decide) hinj hs).1⟩

/-- **The stale return**: the channel is closed after the consumer's loop test; `operator>>` returns without an
item, and the consumer dereferences the null pointer. -/
theorem stale_return_prints_null :
    ¬ ∀ s, Reach (step demoItems) Any .init s → ∀ p ∈ s.printed, p.data ≠ none ∧ p.fresh = true := by
  intro h
  obtain ⟨s, hs, hp⟩ := reach_of_runs (step demoItems) Any .init
    ([Act.run 0 none, .close] ++ List.replicate 6 (Act.run 0 none))
    (fun s => decide (s.printed.map Print.data = [none])) (by decide)
  have hp := of_decide_eq_true hp
  obtain ⟨p, hpm, hpd⟩ := List.mem_map.1 (hp ▸ List.mem_singleton.2 rfl : none ∈ s.printed.map Print.data)
  exact (h s hs p hpm).1 hpd

end CppNotes.Chan
