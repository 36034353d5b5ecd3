import CppNotes.Threads.RefCountStep

/-!
# Reference counts are safe

Whatever the threads call, and in whatever order their steps fall, as long as an object has no more than `INT_MAX` references
(`Fits`):

* no thread touches an object that was freed (`no_use_after_free`);
* the count of an object is the number of references to it, and the object is freed with the last one
  (`count_is_references`);
* `foo_find` misses no object that is in the table (`find_misses_nothing`);
* the threads do not wait for each other for ever (`calls_return`).  The owner of an `f_lock` waits for nothing, the owner of
  `hashlock` waits at most for an `f_lock`, and a walk along a chain ends, because the chain does not change meanwhile.
-/

set_option linter.unusedSectionVars false

namespace CppNotes.Threads

open CppNotes.Lib

variable {T P : Type} [DecidableEq T] [DecidableEq P] [Fintype T] {s s' : St T P} {ch : ℕ → List P}

/-- One thread makes an object and another one finds it, each of them through its whole call. -/
def allocFind : List (Act Bool ℕ) :=
  [.alloc false 7 3, .run false, .run false, .run false, .run false, .run false,
    .find true 7, .run true, .run true, .run true, .run true, .run true, .run true]

/-- Both release it: the first one finds a count of 2, the second one frees it. -/
def releBoth : List (Act Bool ℕ) :=
  [.rele false 3, .rele true 3, .run false, .run false, .run false, .run false, .run true, .run true, .run true, .run true,
    .run true, .run true, .run true, .run true, .run true, .run true]

theorem no_use_after_free (h : Reach step Fits (St.init : St T P) s) : s.ub = false := by
  obtain ⟨ch, hI⟩ := inv_reach h
  exact hI.ub

theorem freed_once : ∃ s : St Bool ℕ, Reach step Fits St.init s ∧ (s.heap 3).isNone = true ∧ s.pc true = .idle ∧
    s.ub = false := by
  obtain ⟨s, hs, hp⟩ := reach_of_runs step Fits (St.init : St Bool ℕ) (allocFind ++ releBoth)
    (fun s => decide ((s.heap 3).isNone = true ∧ s.pc true = .idle)) (by decide)
  obtain ⟨hnone, hidle⟩ := of_decide_eq_true hp
  exact ⟨s, hs, hnone, hidle, no_use_after_free hs⟩

theorem count_is_references (h : Reach step Fits (St.init : St T P) s) (fp : P) :
    (∀ o, s.heap fp = some o → o.fCount.toInt = references s fp) ∧ (s.heap fp ≠ none ↔ 0 < references s fp) := by
  obtain ⟨ch, hI⟩ := inv_reach h
  have hcount := hI.count fp
  constructor
  · intro o ho
    have hpos := hI.pos fp o ho
    rw [ho] at hcount
    change o.fCount.toInt.toNat = references s fp at hcount
    omega
  · cases ho : s.heap fp with
    | none =>
      rw [ho] at hcount
      simp [← hcount, counted]
    | some o =>
      have hpos := hI.pos fp o ho
      rw [ho] at hcount
      change o.fCount.toInt.toNat = references s fp at hcount
      simp only [ne_eq, reduceCtorEq, not_false_eq_true, true_iff]
      omega

theorem two_references : ∃ s : St Bool ℕ, Reach step Fits St.init s ∧ (s.heap 3).map Foo.fCount = some 2 ∧
    references s 3 = 2 := by
  obtain ⟨s, hs, hp⟩ := reach_of_runs step Fits (St.init : St Bool ℕ) allocFind
    (fun s => decide ((s.heap 3).map Foo.fCount = some 2)) (by decide)
  have hp := of_decide_eq_true hp
  obtain ⟨o, ho, hc⟩ := Option.map_eq_some_iff.mp hp
  have hrefs := (count_is_references hs 3).1 o ho
  rw [hc] at hrefs
  exact ⟨s, hs, hp, Int.ofNat.inj hrefs.symm⟩

/-- At the end of its loop, `foo_find` has found nothing: an object with the id is about to be put in the table, or has been
taken out. -/
theorem find_misses_nothing (h : Reach step Fits (St.init : St T P) s) {t : T} {id : Int32}
    (ht : s.pc t = .findLoop id none) {fp : P} {o : Foo T P} (ho : s.heap fp = some o) (hid : o.fId = id) :
    ∃ u, (s.pc u).off = some fp := by
  obtain ⟨ch, hI⟩ := inv_reach h
  have hpl := hI.place t
  rw [ht] at hpl
  obtain ⟨l₁, l₂, hch, hhead, hne⟩ := hpl
  rw [List.head?_eq_none_iff.mp hhead, List.append_nil] at hch
  by_contra hoff
  have hmem : fp ∈ ch (HASH id) := (hI.mem _ fp).mpr ⟨o, ho, by rw [hid], fun u hu => hoff ⟨u, hu⟩⟩
  rw [hch] at hmem
  exact hne fp hmem o ho hid

theorem missed_before_push : ∃ s : St Bool ℕ, Reach step Fits St.init s ∧ s.pc true = .findLoop 7 none ∧
    (s.heap 3).map Foo.fId = some 7 ∧ ∃ u, (s.pc u).off = some 3 := by
  obtain ⟨s, hs, hp⟩ := reach_of_runs step Fits (St.init : St Bool ℕ) [.alloc false 7 3, .find true 7, .run true]
    (fun s => decide (s.pc true = .findLoop 7 none ∧ (s.heap 3).map Foo.fId = some 7)) (by decide)
  obtain ⟨hpc, hid⟩ := of_decide_eq_true hp
  obtain ⟨o, ho, ho'⟩ := Option.map_eq_some_iff.mp hid
  exact ⟨s, hs, hpc, hid, find_misses_nothing hs hpc ho ho'⟩

/-! ## Nobody waits for ever -/

section Blocked

variable {t : T} {fp : P} {p : Pc P}

@[simp]
theorem lockHash_eq_none : s.lockHash t p = none ↔ s.hashlock ≠ none := by
  simp [St.lockHash]

theorem access_eq_none {k : Foo T P → Option (St T P)} :
    s.access fp k = none ↔ ∃ o, s.heap fp = some o ∧ k o = none := by
  unfold St.access
  cases s.heap fp <;> simp

@[simp]
theorem lock_eq_none : s.lock t fp p = none ↔ ∃ o, s.heap fp = some o ∧ o.fLock ≠ none := by
  simp [St.lock, access_eq_none]

@[simp]
theorem unlock_ne_none : s.unlock t fp p ≠ none := by
  simp [St.unlock, access_eq_none]

@[simp]
theorem count_ne_none {f : Int32 → Int32} : s.count t fp f p ≠ none := by
  simp [St.count, access_eq_none]

@[simp]
theorem push_ne_none : s.push t fp p ≠ none := by
  simp [St.push, access_eq_none]

/-- A thread that cannot step has returned, or it waits for `hashlock` or for an `f_lock`, and owns no `f_lock`. -/
theorem blocked (h : threadStep s t = none) :
    (s.pc t).lock = none ∧ (s.pc t = .idle ∨ ((s.pc t).hash = false ∧ s.hashlock ≠ none) ∨
      ∃ fp o, s.heap fp = some o ∧ o.fLock ≠ none) := by
  rw [threadStep] at h
  cases hp : s.pc t with
  | idle => exact ⟨rfl, .inl rfl⟩
  | allocHash fp =>
    rw [hp] at h
    exact ⟨rfl, .inr (.inl ⟨rfl, lockHash_eq_none.mp h⟩)⟩
  | find id =>
    rw [hp] at h
    exact ⟨rfl, .inr (.inl ⟨rfl, lockHash_eq_none.mp h⟩)⟩
  | releHash fp =>
    rw [hp] at h
    exact ⟨rfl, .inr (.inl ⟨rfl, lockHash_eq_none.mp h⟩)⟩
  | allocLock fp =>
    rw [hp] at h
    exact ⟨rfl, .inr (.inr ⟨fp, lock_eq_none.mp h⟩)⟩
  | hold fp =>
    rw [hp] at h
    exact ⟨rfl, .inr (.inr ⟨fp, lock_eq_none.mp h⟩)⟩
  | findHold fp =>
    rw [hp] at h
    exact ⟨rfl, .inr (.inr ⟨fp, lock_eq_none.mp h⟩)⟩
  | rele fp =>
    rw [hp] at h
    exact ⟨rfl, .inr (.inr ⟨fp, lock_eq_none.mp h⟩)⟩
  | releRelock fp =>
    rw [hp] at h
    exact ⟨rfl, .inr (.inr ⟨fp, lock_eq_none.mp h⟩)⟩
  | findLoop id q => cases q <;> simp [hp, access_eq_none] at h
  | findUnhash q => cases q <;> simp [hp] at h
  | releHead fp =>
    rw [hp] at h
    obtain ⟨o, -, h⟩ := access_eq_none.mp h
    split at h
    · simp at h
    · split at h <;> simp at h
  | releWalk fp tfp =>
    rw [hp] at h
    obtain ⟨o', -, h⟩ := access_eq_none.mp h
    split at h
    · simp [access_eq_none] at h
    · split at h <;> simp at h
  | releFree fp =>
    rw [hp] at h
    obtain ⟨o, -, h⟩ := access_eq_none.mp h
    split at h <;> simp at h
  | _ => simp [hp, access_eq_none] at h

end Blocked

/-- Mutexes that are waited for have owners that do not wait. -/
theorem Inv.all_idle (h : Inv s ch) (hb : ∀ t, threadStep s t = none) (t : T) : s.pc t = .idle := by
  have hfree : ∀ fp o, s.heap fp = some o → o.fLock = none := by
    intro fp o ho
    by_contra hne
    obtain ⟨u, hu⟩ := Option.ne_none_iff_exists'.mp hne
    have hl := (h.lock u fp).mpr ⟨o, ho, hu⟩
    rw [(blocked (hb u)).1] at hl
    simp at hl
  have hcases : ∀ u, s.pc u = .idle ∨ ((s.pc u).hash = false ∧ s.hashlock ≠ none) := by
    intro u
    rcases (blocked (hb u)).2 with hi | hh | ⟨fp, o, ho, hne⟩
    · exact .inl hi
    · exact .inr hh
    · exact absurd (hfree fp o ho) hne
  rcases hcases t with hi | ⟨-, hne⟩
  · exact hi
  · -- the owner of `hashlock` would not be waiting
    obtain ⟨u, hu⟩ := Option.ne_none_iff_exists'.mp hne
    have hh := (h.hash u).mpr hu
    rcases hcases u with hi | ⟨hf, -⟩
    · rw [hi] at hh
      simp [Pc.hash] at hh
    · rw [hf] at hh
      simp at hh

/-! ## Every call ends -/

/-- How many steps a call still makes, loops aside. -/
def Pc.rank : Pc P → ℕ
  | idle => 0
  | allocHash _ => 5 | allocPush _ => 4 | allocLock _ => 3 | allocUnhash _ => 2 | allocUnlock _ => 1
  | hold _ => 3 | holdInc _ => 2 | holdUnlock _ => 1
  | find _ => 6 | findLoop _ _ => 5 | findHold _ => 4 | findInc _ => 3 | findUnlock _ => 2 | findUnhash _ => 1
  | rele _ => 12 | releTest _ => 11 | releLast _ => 10 | releHash _ => 9 | releRelock _ => 8 | releRetest _ => 7
  | releDec _ => 2 | releUnlock _ => 1
  | releKeep _ => 3 | releKeepUnlock _ => 2 | releKeepUnhash => 1
  | releHead _ => 6 | releWalk _ _ => 5 | releUnhash _ => 4 | releFreeUnlock _ => 3 | releFree _ => 2

/-- What a walk along a chain has in front of it. -/
def Ahead (s : St T P) : Pc P → List P → Prop
  | .findLoop _ none, l => l = []
  | .findLoop _ (some fp), l => ∃ l', l = fp :: l' ∧ Linked Loc.node s.cell (.node fp) l'
  | .releWalk _ tfp, l => Linked Loc.node s.cell (.node tfp) l
  | _, l => l = []

theorem Inv.exists_ahead (h : Inv s ch) (t : T) : ∃ l, Ahead s (s.pc t) l := by
  have hpl := h.place t
  cases hp : s.pc t with
  | findLoop id q =>
    cases q with
    | none => exact ⟨[], rfl⟩
    | some fp =>
      rw [hp] at hpl
      obtain ⟨l₁, l₂, hch, hhead, -⟩ := hpl
      obtain ⟨l₃, rfl⟩ := List.head?_eq_some_iff.mp hhead
      have hlink := h.linked (HASH id)
      rw [hch] at hlink
      exact ⟨fp :: l₃, l₃, rfl, hlink.rest.2⟩
  | releWalk fp tfp =>
    rw [hp] at hpl
    obtain ⟨-, i, l₁, l₂, l₃, hch⟩ := hpl
    have hlink := h.linked i
    rw [hch, List.append_assoc] at hlink
    exact ⟨l₂ ++ fp :: l₃, hlink.rest.2⟩
  | _ => exact ⟨[], rfl⟩

section Rank

variable {t : T} {fp : P} {p : Pc P}

theorem access_cases {k : Foo T P → Option (St T P)} (hs : s.access fp k = some s') :
    s'.ub = true ∨ ∃ o, s.heap fp = some o ∧ k o = some s' := by
  unfold St.access at hs
  cases ho : s.heap fp with
  | none =>
    rw [ho] at hs
    exact .inl (Option.some.inj hs ▸ rfl)
  | some o =>
    rw [ho] at hs
    exact .inr ⟨o, rfl, hs⟩

/-- The call comes closer to its end, or nothing is said after an access that failed. -/
def Sinks (s : St T P) (t : T) (s' : St T P) : Prop :=
  s'.ub = true ∨ ∃ p, s'.pc = Function.update s.pc t p ∧ p.rank < (s.pc t).rank

theorem sinks_lockHash (hs : s.lockHash t p = some s') (hp : p.rank < (s.pc t).rank) : Sinks s t s' := by
  obtain ⟨-, hs⟩ := Option.ite_none_right_eq_some.mp hs
  obtain rfl := Option.some.inj hs
  exact .inr ⟨p, rfl, hp⟩

theorem sinks_lock (hs : s.lock t fp p = some s') (hp : p.rank < (s.pc t).rank) : Sinks s t s' := by
  rcases access_cases hs with hub | ⟨o, -, hs⟩
  · exact .inl hub
  · obtain ⟨-, hs⟩ := Option.ite_none_right_eq_some.mp hs
    obtain rfl := Option.some.inj hs
    exact .inr ⟨p, rfl, hp⟩

/-- The steps that change an object and do not wait. -/
theorem sinks_access {f : Foo T P → St T P} (hs : s.access fp (fun o => some (f o)) = some s')
    (hf : ∀ o, ∃ p, (f o).pc = Function.update s.pc t p ∧ p.rank < (s.pc t).rank) : Sinks s t s' := by
  rcases access_cases hs with hub | ⟨o, -, hs⟩
  · exact .inl hub
  · obtain rfl := Option.some.inj hs
    exact .inr (hf o)

theorem sinks_return (hs : (s.unlock t fp .idle).map (·.gain t fp) = some s') (hp : 0 < (s.pc t).rank) : Sinks s t s' := by
  obtain ⟨s₁, hs₁, rfl⟩ := Option.map_eq_some_iff.mp hs
  have h₁ : Sinks s t s₁ := sinks_access hs₁ fun o => ⟨.idle, rfl, hp⟩
  exact h₁

/-- One turn of a loop. -/
def Walks (s : St T P) (t : T) (s' : St T P) : Prop :=
  ∃ p, s' = s.goto t p ∧ p.rank = (s.pc t).rank ∧ (s.pc t).hash = true ∧
    ∀ l, Ahead s (s.pc t) l → ∃ l', Ahead s' p l' ∧ l'.length < l.length

theorem sinks_or_walks (hs : threadStep s t = some s') : Sinks s t s' ∨ Walks s t s' := by
  rw [threadStep] at hs
  cases hp : s.pc t with
  | idle => simp [hp] at hs
  | allocHash fp | find id | releHash fp =>
    rw [hp] at hs
    exact .inl (sinks_lockHash hs (by rw [hp]; simp [Pc.rank]))
  | allocLock fp | hold fp | findHold fp | rele fp | releRelock fp =>
    rw [hp] at hs
    exact .inl (sinks_lock hs (by rw [hp]; simp [Pc.rank]))
  | allocUnlock fp | holdUnlock fp =>
    rw [hp] at hs
    exact .inl (sinks_return hs (by rw [hp]; simp [Pc.rank]))
  | allocPush fp | holdInc fp | findInc fp | findUnlock fp | releDec fp | releUnlock fp | releLast fp | releKeep fp
  | releKeepUnlock fp | releFreeUnlock fp =>
    rw [hp] at hs
    exact .inl (sinks_access hs fun o => ⟨_, rfl, by rw [hp]; simp [Pc.rank]⟩)
  | allocUnhash fp | releKeepUnhash | releUnhash fp =>
    rw [hp] at hs
    obtain rfl := Option.some.inj hs
    exact .inl (.inr ⟨_, rfl, by rw [hp]; simp [Pc.rank]⟩)
  | findUnhash q =>
    rw [hp] at hs
    cases q <;> obtain rfl := Option.some.inj hs <;> exact .inl (.inr ⟨.idle, rfl, by rw [hp]; simp [Pc.rank]⟩)
  | releTest fp | releRetest fp =>
    rw [hp] at hs
    refine .inl (sinks_access hs fun o => ⟨_, rfl, ?_⟩)
    rw [hp]
    split <;> simp [Pc.rank]
  | releFree fp =>
    rw [hp] at hs
    rcases access_cases hs with hub | ⟨o, -, hs⟩
    · exact .inl (.inl hub)
    · split at hs <;> obtain rfl := Option.some.inj hs
      · exact .inl (.inr ⟨.idle, rfl, by rw [hp]; simp [Pc.rank]⟩)
      · exact .inl (.inl rfl)
  | releHead fp =>
    rw [hp] at hs
    rcases access_cases hs with hub | ⟨o, -, hs⟩
    · exact .inl (.inl hub)
    · cases hh : s.fh (HASH o.fId) with
      | none =>
        rw [hh] at hs
        exact .inl (.inl (Option.some.inj hs ▸ rfl))
      | some tfp =>
        rw [hh] at hs
        dsimp only at hs
        split at hs <;> obtain rfl := Option.some.inj hs <;> exact .inl (.inr ⟨_, rfl, by rw [hp]; simp [Pc.rank]⟩)
  | findLoop id q =>
    rw [hp] at hs
    cases q with
    | none =>
      obtain rfl := Option.some.inj hs
      exact .inl (.inr ⟨_, rfl, by rw [hp]; simp [Pc.rank]⟩)
    | some fp =>
      rcases access_cases hs with hub | ⟨o, ho, hs⟩
      · exact .inl (.inl hub)
      · obtain rfl := Option.some.inj hs
        by_cases hid : o.fId = id
        · exact .inl (.inr ⟨_, rfl, by rw [hp, if_pos hid]; simp [Pc.rank]⟩)
        · rw [if_neg hid]
          refine .inr ⟨_, rfl, by rw [hp]; rfl, by rw [hp]; rfl, ?_⟩
          rw [hp]
          rintro l ⟨l', rfl, hl⟩
          refine ⟨l', ?_, by simp⟩
          have hnext : o.fNext = l'.head? := by simpa [St.cell, ho] using hl.head
          cases l' with
          | nil =>
            rw [hnext]
            exact rfl
          | cons m l' =>
            rw [hnext]
            exact ⟨l', rfl, hl.2⟩
  | releWalk fp tfp =>
    rw [hp] at hs
    rcases access_cases hs with hub | ⟨o', ho', hs⟩
    · exact .inl (.inl hub)
    · split at hs
      · exact .inl (sinks_access hs fun o => ⟨_, rfl, by rw [hp]; simp [Pc.rank]⟩)
      · cases hn : o'.fNext with
        | none =>
          rw [hn] at hs
          exact .inl (.inl (Option.some.inj hs ▸ rfl))
        | some q =>
          rw [hn] at hs
          obtain rfl := Option.some.inj hs
          refine .inr ⟨_, rfl, by rw [hp]; rfl, by rw [hp]; rfl, ?_⟩
          rw [hp]
          intro l hl
          have hnext : some q = l.head? := by simpa [St.cell, ho', hn] using Linked.head hl
          obtain ⟨l', rfl⟩ := List.head?_eq_some_iff.mp hnext.symm
          exact ⟨l', hl.2, by simp⟩

/-- The steps that the calls still make, loops aside. -/
def rankSum (s : St T P) : ℕ := ∑ t, (s.pc t).rank

theorem rankSum_lt (hpc : s'.pc = Function.update s.pc t p) (hp : p.rank < (s.pc t).rank) : rankSum s' < rankSum s := by
  have := sum_change (f := fun u => (s.pc u).rank) (g := fun u => (s'.pc u).rank) t fun u hu => by
    rw [hpc, Function.update_of_ne hu]
  rw [hpc, Function.update_self, ← hpc] at this
  unfold rankSum
  omega

theorem rankSum_goto (hp : p.rank = (s.pc t).rank) : rankSum (s.goto t p) = rankSum s := by
  refine Finset.sum_congr rfl fun u _ => ?_
  by_cases hu : u = t
  · simp [St.goto, hu, hp]
  · simp [St.goto, hu]

end Rank

/-- Who does not own `hashlock` is in no loop. -/
theorem ahead_nil {p : Pc P} (h : p.hash = false) : Ahead s p [] := by
  cases p <;> first | rfl | simp [Pc.hash] at h

/-- **Every schedule ends.**  By induction on what the calls still do, and then on what the loop has in front of it. -/
theorem Inv.acc (h : Inv s ch) : Acc (fun s' s => ∃ t, Fits s (.run t) ∧ threadStep s t = some s') s := by
  induction hn : rankSum s using Nat.strong_induction_on generalizing s ch with
  | _ n ihn =>
    obtain ⟨k, hk⟩ : ∃ k, ∀ t, ∃ l, Ahead s (s.pc t) l ∧ l.length ≤ k := by
      choose f hf using h.exists_ahead
      exact ⟨∑ t, (f t).length, fun t => ⟨f t, hf t, Finset.single_le_sum (f := fun t => (f t).length)
        (fun _ _ => Nat.zero_le _) (Finset.mem_univ t)⟩⟩
    induction k using Nat.strong_induction_on generalizing s ch with
    | _ k ihk =>
      refine Acc.intro _ ?_
      rintro s' ⟨t, hok, hs⟩
      obtain ⟨ch', h'⟩ := h.run hok hs
      rcases sinks_or_walks hs with (hub | ⟨p, hpc, hp⟩) | ⟨p, rfl, hrank, hhash, hwalk⟩
      · rw [h'.ub] at hub
        simp at hub
      · exact ihn _ (hn ▸ rankSum_lt hpc hp) h' rfl
      · obtain ⟨l, hl, hlk⟩ := hk t
        obtain ⟨l', hl', hlt⟩ := hwalk l hl
        refine ihk l'.length (by omega) h' ((rankSum_goto hrank).trans hn) fun u => ?_
        by_cases hu : u = t
        · refine ⟨l', ?_, le_rfl⟩
          simpa [St.goto, hu] using hl'
        · refine ⟨[], ?_, Nat.zero_le _⟩
          have hpc : (s.goto t p).pc u = s.pc u := Function.update_of_ne hu ..
          rw [hpc]
          exact ahead_nil (h.alone_hash hhash hu)

/-- When no more calls are made, no schedule goes on for ever, and where no thread can step all calls have returned. -/
theorem calls_return (h : Reach step Fits (St.init : St T P) s) :
    (∀ f : ℕ → St T P, f 0 = s → ¬ ∀ n, ∃ t, Fits (f n) (.run t) ∧ threadStep (f n) t = some (f (n + 1))) ∧
      ((∀ t, threadStep s t = none) → ∀ t, s.pc t = .idle) := by
  obtain ⟨ch, hI⟩ := inv_reach h
  refine ⟨?_, hI.all_idle⟩
  have hacc := hI.acc
  clear h hI
  induction hacc with
  | intro s _ ih =>
    intro f hf hsteps
    exact ih (f 1) (hf ▸ hsteps 0) (fun n => f (n + 1)) rfl fun n => hsteps (n + 1)

theorem waiting_finder_returns : ∃ s : St Bool ℕ, Reach step Fits St.init s ∧ s.pc true = .find 7 ∧
    s.hashlock = some false ∧
    ∀ f : ℕ → St Bool ℕ, f 0 = s → ¬ ∀ n, ∃ t, Fits (f n) (.run t) ∧ threadStep (f n) t = some (f (n + 1)) := by
  obtain ⟨s, hs, hp⟩ := reach_of_runs step Fits (St.init : St Bool ℕ) [.alloc false 7 3, .run false, .find true 7]
    (fun s => decide (s.pc true = .find 7 ∧ s.hashlock = some false)) (by decide)
  obtain ⟨hpc, hlock⟩ := of_decide_eq_true hp
  exact ⟨s, hs, hpc, hlock, (calls_return hs).1⟩

end CppNotes.Threads
