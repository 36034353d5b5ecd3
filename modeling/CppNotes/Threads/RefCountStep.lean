import CppNotes.Threads.RefCountInv

/-!
# Every step keeps the counts

One lemma for each kind of step: a thread moves on, with or without `hashlock` changing hands (`Inv.move`); an object changes
its owner or its count (`Inv.object`); the pointers of a chain change (`Inv.chain`), for an object that is put on it or taken
off; an object is allocated or freed (`Inv.memory`).  All of them go through `Inv.thread`.
-/

set_option linter.unusedSectionVars false

namespace CppNotes.Threads

open CppNotes.Lib

variable {T P : Type} [DecidableEq T] [DecidableEq P] [Fintype T] {s s' : St T P} {ch ch' : ℕ → List P}

theorem inv_init : Inv (St.init : St T P) fun _ => [] := by
  refine ⟨rfl, ?_, ?_, ?_, ?_, ?_, ?_, ?_, ?_⟩
  · intro t
    simp [St.init, Pc.hash]
  · intro t fp
    simp [St.init, Pc.lock]
  · intro fp
    simp [St.init, counted, references, weight, Pc.ref]
  · intro fp o ho
    simp [St.init] at ho
  · intro i
    exact rfl
  · intro i fp
    simp [St.init]
  · intro t
    trivial
  · intro t fp ho
    simp [St.init, Pc.off] at ho

/-! ## One thread moves -/

/-- The thread `t` moves to the place `p` and then has the references `r`. -/
structure Moved (s s' : St T P) (t : T) (p : Pc P) (r : P → ℕ) : Prop where
  pc : s'.pc = Function.update s.pc t p
  refs : s'.refs = Function.update s.refs t r
  ub : s'.ub = s.ub

/-- `hashlock` is taken or given back by `t` alone, as its place says. -/
structure HashGoes (s s' : St T P) (t : T) (p : Pc P) : Prop where
  self : p.hash = true ↔ s'.hashlock = some t
  others : ∀ u, u ≠ t → (s'.hashlock = some u ↔ s.hashlock = some u)

/-- An `f_lock` is taken or given back by `t` alone, as its place says. -/
structure LockGoes (s s' : St T P) (t : T) (p : Pc P) : Prop where
  self : ∀ fp, p.lock = some fp ↔ ∃ o, s'.heap fp = some o ∧ o.fLock = some t
  others : ∀ u, u ≠ t → ∀ fp,
    (∃ o, s'.heap fp = some o ∧ o.fLock = some u) ↔ ∃ o, s.heap fp = some o ∧ o.fLock = some u

/-- The chains after the move. -/
structure Chained (s s' : St T P) (ch' : ℕ → List P) (t : T) (p : Pc P) : Prop where
  linked : ∀ i, Linked Loc.node s'.cell (.slot i) (ch' i)
  mem : ∀ i fp, fp ∈ ch' i ↔ ∃ o, s'.heap fp = some o ∧ HASH o.fId = i ∧ p.off ≠ some fp ∧
    ∀ u, u ≠ t → (s.pc u).off ≠ some fp

/-- The new place of `t` has what it needs, and the other threads still have what theirs need. -/
structure Stands (s s' : St T P) (ch ch' : ℕ → List P) (t : T) (p : Pc P) (r : P → ℕ) : Prop where
  place : Placed s'.heap ch' r p
  others : ∀ u, u ≠ t → Placed s.heap ch (s.refs u) (s.pc u) → Placed s'.heap ch' (s.refs u) (s.pc u)
  sole : ∀ fp, p.off = some fp → ∀ u, u ≠ t → fp ∉ (s.pc u).on
  on : ∀ fp ∈ p.on, ∀ u, u ≠ t → (s.pc u).off ≠ some fp

section Moved

variable {t u : T} {p : Pc P} {r : P → ℕ}

theorem Moved.keep (hpc : s'.pc = Function.update s.pc t p) (hrefs : s'.refs = s.refs) (hub : s'.ub = s.ub) :
    Moved s s' t p (s.refs t) :=
  ⟨hpc, by rw [hrefs, Function.update_eq_self], hub⟩

variable (hm : Moved s s' t p r)
include hm

theorem Moved.pc_self : s'.pc t = p := by rw [hm.pc, Function.update_self]

theorem Moved.pc_of_ne (hu : u ≠ t) : s'.pc u = s.pc u := by rw [hm.pc, Function.update_of_ne hu]

theorem Moved.refs_self : s'.refs t = r := by rw [hm.refs, Function.update_self]

theorem Moved.refs_of_ne (hu : u ≠ t) : s'.refs u = s.refs u := by rw [hm.refs, Function.update_of_ne hu]

omit hm in
/-- What has to be shown when the thread `t` moves. -/
theorem Inv.thread (h : Inv s ch) (hm : Moved s s' t p r) (hhash : HashGoes s s' t p) (hlock : LockGoes s s' t p)
    (hcount : ∀ fp, counted (s'.heap fp) + weight (s.pc t) (s.refs t) fp = counted (s.heap fp) + weight p r fp)
    (hpos : ∀ fp o, s'.heap fp = some o → 0 < o.fCount.toInt) (hchain : Chained s s' ch' t p)
    (hstand : Stands s s' ch ch' t p r) : Inv s' ch' := by
  refine ⟨hm.ub.trans h.ub, ?_, ?_, ?_, hpos, hchain.linked, ?_, ?_, ?_⟩
  · intro u
    by_cases hu : u = t
    · rw [hu, hm.pc_self, hhash.self]
    · rw [hm.pc_of_ne hu, h.hash u, hhash.others u hu]
  · intro u fp
    by_cases hu : u = t
    · rw [hu, hm.pc_self, hlock.self]
    · rw [hm.pc_of_ne hu, h.lock u fp, hlock.others u hu]
  · intro fp
    have hsum : references s' fp + _ = references s fp + _ :=
      sum_change (f := fun u => weight (s.pc u) (s.refs u) fp) (g := fun u => weight (s'.pc u) (s'.refs u) fp) t
        fun u hu => by rw [hm.pc_of_ne hu, hm.refs_of_ne hu]
    rw [hm.pc_self, hm.refs_self, ← h.count fp] at hsum
    have := hcount fp
    omega
  · intro i fp
    rw [hchain.mem]
    refine exists_congr fun o => and_congr_right fun _ => and_congr_right fun _ => ?_
    constructor
    · rintro ⟨ht, hu⟩ u
      by_cases hut : u = t
      · rwa [hut, hm.pc_self]
      · rw [hm.pc_of_ne hut]
        exact hu u hut
    · intro hall
      refine ⟨hm.pc_self ▸ hall t, fun u hu => ?_⟩
      rw [← hm.pc_of_ne hu]
      exact hall u
  · intro u
    by_cases hu : u = t
    · rw [hu, hm.pc_self, hm.refs_self]
      exact hstand.place
    · rw [hm.pc_of_ne hu, hm.refs_of_ne hu]
      exact hstand.others u hu (h.place u)
  · intro u fp hoff v hv hmem'
    by_cases hu : u = t
    · subst hu
      rw [hm.pc_self] at hoff
      rw [hm.pc_of_ne hv] at hmem'
      exact hstand.sole fp hoff v hv hmem'
    · rw [hm.pc_of_ne hu] at hoff
      by_cases hvt : v = t
      · subst hvt
        rw [hm.pc_self] at hmem'
        exact hstand.on fp hmem' u hu hoff
      · rw [hm.pc_of_ne hvt] at hmem'
        exact h.sole u fp hoff v hv hmem'

end Moved

/-- What a thread may turn to: what it is at work on, what it has a reference to, what is in the table. -/
theorem Inv.off_ne (h : Inv s ch) {t u : T} (hu : u ≠ t) {fp : P}
    (hfp : fp ∈ (s.pc t).on ∨ 0 < s.refs t fp ∨ ∃ i, fp ∈ ch i) : (s.pc u).off ≠ some fp := by
  intro hoff
  rcases hfp with hon | hr | ⟨i, hi⟩
  · exact h.sole u fp hoff t hu.symm hon
  · have := h.refs_of_off hoff hu.symm
    omega
  · obtain ⟨o, -, -, hne⟩ := (h.mem i fp).mp hi
    exact hne u hoff

theorem off_iff {t : T} {p : Pc P} {q : P} (h : p.off = some q ↔ (s.pc t).off = some q) :
    (∀ u, (s.pc u).off ≠ some q) ↔ p.off ≠ some q ∧ ∀ u, u ≠ t → (s.pc u).off ≠ some q := by
  constructor
  · intro hall
    exact ⟨fun hp => hall t (h.mp hp), fun u _ => hall u⟩
  · rintro ⟨ht, hall⟩ u
    by_cases hu : u = t
    · rw [hu]
      exact fun hp => ht (h.mpr hp)
    · exact hall u hu

theorem HASH_congr {heap heap' : P → Option (Foo T P)} {q : P} {i : ℕ} {C : Prop}
    (h : (heap' q).map Foo.fId = (heap q).map Foo.fId) :
    (∃ o, heap' q = some o ∧ HASH o.fId = i ∧ C) ↔ ∃ o, heap q = some o ∧ HASH o.fId = i ∧ C := by
  cases h₁ : heap q with
  | none =>
    rw [h₁] at h
    simp [Option.map_eq_none_iff.mp h]
  | some o =>
    rw [h₁] at h
    obtain ⟨o', ho', hid⟩ := Option.map_eq_some_iff.mp h
    simp [ho', hid]

/-- A thread moves on, and no object changes. -/
theorem Inv.move (h : Inv s ch) {t : T} {p : Pc P} {r : P → ℕ} (hm : Moved s s' t p r) (hheap : s'.heap = s.heap)
    (hfh : s'.fh = s.fh) (hhash : HashGoes s s' t p) (hlock : p.lock = (s.pc t).lock) (hoff : p.off = (s.pc t).off)
    (hweight : ∀ fp, weight p r fp = weight (s.pc t) (s.refs t) fp) (hplace : Placed s.heap ch r p)
    (hon : ∀ fp ∈ p.on, fp ∈ (s.pc t).on ∨ 0 < s.refs t fp ∨ ∃ i, fp ∈ ch i) : Inv s' ch := by
  have hcell : s'.cell = s.cell := by
    funext q
    cases q with
    | slot i => exact congrFun hfh i
    | node fp => exact congrArg (fun o : Option (Foo T P) => o.bind Foo.fNext) (congrFun hheap fp)
  refine h.thread hm hhash ⟨?_, ?_⟩ ?_ ?_ ⟨?_, ?_⟩ ⟨?_, ?_, ?_, ?_⟩
  · intro fp
    rw [hlock, hheap, h.lock t fp]
  · intro u hu fp
    rw [hheap]
  · intro fp
    rw [hheap, hweight fp]
  · rw [hheap]
    exact h.pos
  · rw [hcell]
    exact h.linked
  · intro i fp
    rw [h.mem i fp, hheap, off_iff (t := t) (p := p) (by rw [hoff])]
  · rw [hheap]
    exact hplace
  · intro u _ hpl
    rw [hheap]
    exact hpl
  · intro fp hfp u hu
    exact h.sole t fp (hoff ▸ hfp) u hu
  · intro fp hfp u hu
    exact h.off_ne hu (hon fp hfp)

theorem weight_congr {p p₀ : Pc P} (href : p.ref = p₀.ref) (r : P → ℕ) (fp : P) : weight p r fp = weight p₀ r fp := by
  rw [weight, weight, href]

theorem Inv.goto (h : Inv s ch) (t : T) (p : Pc P) {p₀ : Pc P} (hp : s.pc t = p₀) (hc : p.claim = p₀.claim)
    (hplace : Placed s.heap ch (s.refs t) p)
    (hon : ∀ fp ∈ p.on, fp ∈ p₀.on ∨ 0 < s.refs t fp ∨ ∃ i, fp ∈ ch i) : Inv (s.goto t p) ch := by
  subst hp
  have hhash : p.hash = (s.pc t).hash := congrArg Pc.Claim.hash hc
  have href : p.ref = (s.pc t).ref := congrArg Pc.Claim.ref hc
  exact h.move (.keep rfl rfl rfl) rfl rfl ⟨by rw [hhash]; exact h.hash t, fun u _ => Iff.rfl⟩
    (congrArg Pc.Claim.lock hc) (congrArg Pc.Claim.off hc) (weight_congr href _) hplace hon

theorem Inv.lockHash (h : Inv s ch) {t : T} {p p₀ : Pc P} (hp : s.pc t = p₀) (hs : s.lockHash t p = some s')
    (hc : p.claim = { p₀.claim with hash := true }) (hplace : Placed s.heap ch (s.refs t) p)
    (hon : ∀ fp ∈ p.on, fp ∈ p₀.on ∨ 0 < s.refs t fp ∨ ∃ i, fp ∈ ch i) : Inv s' ch := by
  subst hp
  obtain ⟨hfree, hs⟩ := Option.ite_none_right_eq_some.mp hs
  obtain rfl := Option.some.inj hs
  have hhash : p.hash = true := congrArg Pc.Claim.hash hc
  have href : p.ref = (s.pc t).ref := congrArg Pc.Claim.ref hc
  refine h.move (.keep rfl rfl rfl) rfl rfl ⟨by simp [hhash], fun u hu => ?_⟩ (congrArg Pc.Claim.lock hc)
    (congrArg Pc.Claim.off hc) (weight_congr href _) hplace hon
  simp [hfree, hu.symm]

/-- `hashlock` is given back, and the call returns its reference or keeps it. -/
theorem Inv.unlockHash (h : Inv s ch) {t : T} {p p₀ : Pc P} {r : P → ℕ} (hp : s.pc t = p₀) (h₀ : p₀.hash = true)
    (hm : Moved s s' t p r) (hs : s' = { s.unlockHash t p with refs := s'.refs }) (hhash : p.hash = false)
    (hlock : p.lock = p₀.lock) (hoff : p.off = p₀.off) (hweight : ∀ fp, weight p r fp = weight p₀ (s.refs t) fp)
    (hplace : Placed s.heap ch r p) (hon : ∀ fp ∈ p.on, fp ∈ p₀.on) : Inv s' ch := by
  subst hp
  have hfree : s'.hashlock = none := by rw [hs]; rfl
  refine h.move hm (by rw [hs]; rfl) (by rw [hs]; rfl) ⟨by simp [hhash, hfree], fun u hu => ?_⟩ hlock hoff hweight hplace
    fun fp hfp => .inl (hon fp hfp)
  rw [hfree, (h.hash t).mp h₀]
  simp [hu.symm]

theorem Inv.unlockHashKeep (h : Inv s ch) {t : T} {p p₀ : Pc P} (hp : s.pc t = p₀) (h₀ : p₀.hash = true)
    (hc : p.claim = { p₀.claim with hash := false }) (hplace : Placed s.heap ch (s.refs t) p)
    (hon : ∀ fp ∈ p.on, fp ∈ p₀.on) : Inv (s.unlockHash t p) ch := by
  have href : p.ref = p₀.ref := congrArg Pc.Claim.ref hc
  exact h.unlockHash hp h₀ (.keep rfl rfl rfl) rfl (congrArg Pc.Claim.hash hc) (congrArg Pc.Claim.lock hc)
    (congrArg Pc.Claim.off hc) (weight_congr href _) hplace hon

/-! ## An object changes -/

/-- The object `fp` is now `o'`, with the id and the pointer of `o`. -/
structure Rewritten (s s' : St T P) (fp : P) (o o' : Foo T P) : Prop where
  old : s.heap fp = some o
  heap : s'.heap = Function.update s.heap fp (some o')
  fh : s'.fh = s.fh
  hashlock : s'.hashlock = s.hashlock
  fId : o'.fId = o.fId
  fNext : o'.fNext = o.fNext

/-- The `f_lock` of the object `fp` is the only one that may go to `t` or come from it. -/
structure Relocked (s : St T P) (t : T) (p : Pc P) (fp : P) (o o' : Foo T P) : Prop where
  self : p.lock = some fp ↔ o'.fLock = some t
  elsewhere : ∀ q, q ≠ fp → (p.lock = some q ↔ (s.pc t).lock = some q)
  others : ∀ u, u ≠ t → (o'.fLock = some u ↔ o.fLock = some u)

/-- The owner or the count of an object changes, its id and its pointer do not. -/
theorem Inv.object (h : Inv s ch) {t : T} {p : Pc P} {r : P → ℕ} {fp : P} {o x : Foo T P} (hm : Moved s s' t p r)
    (ho : Rewritten s s' fp o x) (hhash : p.hash = (s.pc t).hash) (hoff : p.off = (s.pc t).off)
    (hlock : Relocked s t p fp o x)
    (hcount : counted (some x) + weight (s.pc t) (s.refs t) fp = counted (some o) + weight p r fp)
    (hweight : ∀ q, q ≠ fp → weight p r q = weight (s.pc t) (s.refs t) q) (hpos : 0 < x.fCount.toInt)
    (hown : x.fCount = o.fCount ∨ (s.pc t).lock = some fp) (hplace : Placed s'.heap ch r p)
    (hon : ∀ q ∈ p.on, q ∈ (s.pc t).on) : Inv s' ch := by
  have hself : s'.heap fp = some x := by rw [ho.heap, Function.update_self]
  have hother : ∀ q, q ≠ fp → s'.heap q = s.heap q := fun q hq => by rw [ho.heap, Function.update_of_ne hq]
  have hcell : s'.cell = s.cell := by
    funext q
    cases q with
    | slot i => exact congrFun ho.fh i
    | node q =>
      by_cases hq : q = fp
      · simp [St.cell, hq, hself, ho.old, ho.fNext]
      · simp [St.cell, hother q hq]
  have hids : ∀ q, (s'.heap q).map Foo.fId = (s.heap q).map Foo.fId := by
    intro q
    by_cases hq : q = fp
    · simp [hq, hself, ho.old, ho.fId]
    · rw [hother q hq]
  refine h.thread hm ⟨?_, ?_⟩ ⟨?_, ?_⟩ ?_ ?_ ⟨?_, ?_⟩ ⟨hplace, ?_, ?_, ?_⟩
  · rw [hhash, ho.hashlock]
    exact h.hash t
  · intro u _
    rw [ho.hashlock]
  · intro q
    by_cases hq : q = fp
    · rw [hq, hlock.self, hself]
      simp
    · rw [hlock.elsewhere q hq, hother q hq, h.lock t q]
  · intro u hu q
    by_cases hq : q = fp
    · rw [hq, hself, ho.old]
      simpa using hlock.others u hu
    · rw [hother q hq]
  · intro q
    by_cases hq : q = fp
    · rw [hq, hself, ho.old]
      exact hcount
    · rw [hother q hq, hweight q hq]
  · intro q x hx
    by_cases hq : q = fp
    · rw [hq, hself] at hx
      exact Option.some.inj hx ▸ hpos
    · rw [hother q hq] at hx
      exact h.pos q x hx
  · rw [hcell]
    exact h.linked
  · intro i q
    rw [h.mem i q, HASH_congr (hids q), off_iff (t := t) (p := p) (by rw [hoff])]
  · intro u hu hpl
    refine hpl.congr (fun q hq => ?_) (fun _ _ q _ => hids q) fun _ => rfl
    by_cases hqf : q = fp
    · rcases hown with hc | hl
      · simp [hqf, hself, ho.old, hc]
      · exact absurd (hqf ▸ hq) (h.alone_counts hl hu)
    · rw [hother q hqf]
  · intro q hq u hu
    exact h.sole t q (hoff ▸ hq) u hu
  · intro q hq u hu
    exact h.off_ne hu (.inl (hon q hq))

/-- A field that does not change. -/
theorem map_update {β : Type} (f : Foo T P → β) {heap : P → Option (Foo T P)} {fp : P} {o o' : Foo T P}
    (ho : heap fp = some o) (hf : f o' = f o) (q : P) :
    (Function.update heap fp (some o') q).map f = (heap q).map f := by
  by_cases hq : q = fp
  · simp [hq, ho, hf]
  · rw [Function.update_of_ne hq]

/-- What a place needs does not depend on who owns an `f_lock`. -/
theorem Placed.relock {heap : P → Option (Foo T P)} {r : P → ℕ} {p : Pc P} {fp : P} {o : Foo T P} (h : Placed heap ch r p)
    (ho : heap fp = some o) (owner : Option T) :
    Placed (Function.update heap fp (some { o with fLock := owner })) ch r p :=
  h.congr (fun q _ => map_update Foo.fCount ho (by rfl) q) (fun _ _ q _ => map_update Foo.fId ho (by rfl) q) fun _ => rfl

/-- An access by a thread that is at work on the object does not fail. -/
theorem Inv.access (h : Inv s ch) {t : T} {fp : P} (hon : fp ∈ (s.pc t).on) {k : Foo T P → Option (St T P)}
    (hs : s.access fp k = some s') : ∃ o, s.heap fp = some o ∧ k o = some s' := by
  obtain ⟨o, ho⟩ := h.live hon
  rw [St.access, ho] at hs
  exact ⟨o, ho, hs⟩

/-- The owner of an `f_lock` finds itself in it. -/
theorem Inv.owner (h : Inv s ch) {t : T} {fp : P} {o : Foo T P} (hl : (s.pc t).lock = some fp) (ho : s.heap fp = some o) :
    o.fLock = some t := by
  obtain ⟨o', ho', hl⟩ := (h.lock t fp).mp hl
  rw [ho] at ho'
  exact Option.some.inj ho' ▸ hl

theorem weight_gain (p p' : Pc P) (r : P → ℕ) {fp : P} (hp : p.ref = some fp) (hp' : p'.ref = none) (q : P) :
    weight p' (Function.update r fp (r fp + 1)) q = weight p r q := by
  by_cases hq : q = fp
  · simp [weight, hq, hp, hp']
  · simp [weight, hq, hp, hp', Ne.symm hq]

theorem Inv.lockFoo (h : Inv s ch) {t : T} {fp : P} {p p₀ : Pc P} (hp : s.pc t = p₀) (hs : s.lock t fp p = some s')
    (h₀ : p₀.lock = none) (hc : p.claim = { p₀.claim with lock := some fp }) (hon : fp ∈ p₀.on)
    (hplace : Placed s.heap ch (s.refs t) p) (hon' : ∀ q ∈ p.on, q ∈ p₀.on) : Inv s' ch := by
  subst hp
  obtain ⟨o, ho, hs⟩ := h.access hon hs
  obtain ⟨hfree, hs⟩ := Option.ite_none_right_eq_some.mp hs
  obtain rfl := Option.some.inj hs
  have hlock : p.lock = some fp := congrArg Pc.Claim.lock hc
  have hweight := weight_congr (congrArg Pc.Claim.ref hc : p.ref = (s.pc t).ref) (s.refs t)
  refine h.object (x := { o with fLock := some t }) (.keep rfl rfl rfl) ⟨ho, rfl, rfl, rfl, rfl, rfl⟩
    (congrArg Pc.Claim.hash hc) (congrArg Pc.Claim.off hc) ⟨by simp [hlock], fun q hq => ?_, fun u hu => ?_⟩ ?_
    (fun q _ => hweight q) (h.pos fp o ho) (.inl rfl) (hplace.relock ho _) hon'
  · simp [hlock, h₀, hq.symm]
  · simp [hfree, hu.symm]
  · rw [hweight]
    rfl

/-- The mutex of the object is given back, and the call returns the reference or keeps it. -/
theorem Inv.unlockFoo (h : Inv s ch) {t : T} {fp : P} {p p₀ : Pc P} {s₁ : St T P} {r : P → ℕ} (hp : s.pc t = p₀)
    (hs : s.unlock t fp p = some s₁) (hs' : s' = { s₁ with refs := Function.update s.refs t r }) (h₀ : p₀.lock = some fp)
    (hlock : p.lock = none) (hhash : p.hash = p₀.hash) (hoff : p.off = p₀.off)
    (hweight : ∀ q, weight p r q = weight p₀ (s.refs t) q) (hplace : Placed s.heap ch r p)
    (hon' : ∀ q ∈ p.on, q ∈ p₀.on) : Inv s' ch := by
  subst hp hs'
  obtain ⟨o, ho, hs⟩ := h.access (Pc.on_of_lock h₀) hs
  obtain rfl := Option.some.inj hs
  have hown := h.owner h₀ ho
  refine h.object (x := { o with fLock := none }) ⟨rfl, rfl, rfl⟩ ⟨ho, rfl, rfl, rfl, rfl, rfl⟩ hhash hoff
    ⟨by simp [hlock], fun q hq => ?_, fun u hu => ?_⟩ ?_ (fun q _ => hweight q) (h.pos fp o ho) (.inl rfl)
    (hplace.relock ho _) hon'
  · simp [hlock, h₀, hq.symm]
  · simp [hown, hu.symm]
  · rw [hweight]
    rfl

/-- The count changes under the `f_lock`, and the reference of the call with it. -/
theorem Inv.countFoo (h : Inv s ch) {t : T} {fp : P} {p p₀ : Pc P} {f : Int32 → Int32} {ref : Option P} (hp : s.pc t = p₀)
    (hs : s.count t fp f p = some s') (h₀ : p₀.lock = some fp) (hc : p.claim = { p₀.claim with ref := ref })
    (hcount : ∀ o, s.heap fp = some o → counted (some { o with fCount := f o.fCount }) + weight p₀ (s.refs t) fp =
      counted (some o) + weight p (s.refs t) fp ∧ 0 < (f o.fCount).toInt)
    (hweight : ∀ q, q ≠ fp → weight p (s.refs t) q = weight p₀ (s.refs t) q)
    (hplace : ∀ heap : P → Option (Foo T P), Placed heap ch (s.refs t) p)
    (hon' : ∀ q ∈ p.on, q ∈ p₀.on) : Inv s' ch := by
  subst hp
  obtain ⟨o, ho, hs⟩ := h.access (Pc.on_of_lock h₀) hs
  obtain rfl := Option.some.inj hs
  have hlock : p.lock = some fp := (congrArg Pc.Claim.lock hc).trans h₀
  obtain ⟨hcnt, hpos⟩ := hcount o ho
  exact h.object (x := { o with fCount := f o.fCount }) (.keep rfl rfl rfl) ⟨ho, rfl, rfl, rfl, rfl, rfl⟩
    (congrArg Pc.Claim.hash hc) (congrArg Pc.Claim.off hc)
    ⟨by simp [hlock, h.owner h₀ ho], fun q _ => by rw [hlock, h₀], fun u _ => Iff.rfl⟩ hcnt hweight hpos (.inr h₀)
    (hplace _) hon'

/-- The call keeps its reference. -/
theorem Inv.unlockKeep (h : Inv s ch) {t : T} {fp : P} {p p₀ : Pc P} (hp : s.pc t = p₀) (hs : s.unlock t fp p = some s')
    (h₀ : p₀.lock = some fp) (hc : p.claim = { p₀.claim with lock := none }) (hplace : Placed s.heap ch (s.refs t) p)
    (hon' : ∀ q ∈ p.on, q ∈ p₀.on) : Inv s' ch := by
  have hrefs : s'.refs = s.refs := by
    obtain ⟨o, -, hs⟩ := h.access (Pc.on_of_lock (hp ▸ h₀)) hs
    obtain rfl := Option.some.inj hs
    rfl
  refine h.unlockFoo hp hs (r := s.refs t) ?_ h₀ (congrArg Pc.Claim.lock hc) (congrArg Pc.Claim.hash hc)
    (congrArg Pc.Claim.off hc) (weight_congr (congrArg Pc.Claim.ref hc : p.ref = p₀.ref) _) hplace hon'
  rw [Function.update_eq_self, ← hrefs]

/-- The call returns, and the thread has its reference. -/
theorem Inv.unlockReturn (h : Inv s ch) {t : T} {fp : P} {p₀ : Pc P} (hp : s.pc t = p₀)
    (hs : (s.unlock t fp .idle).map (·.gain t fp) = some s') (hc : p₀.claim = ⟨false, some fp, some fp, none⟩) :
    Inv s' ch := by
  obtain ⟨s₁, hs₁, hs'⟩ := Option.map_eq_some_iff.mp hs
  have h₀ : p₀.lock = some fp := congrArg Pc.Claim.lock hc
  have hrefs : s₁.refs = s.refs := by
    obtain ⟨o, -, hs₁⟩ := h.access (Pc.on_of_lock (hp ▸ h₀)) hs₁
    obtain rfl := Option.some.inj hs₁
    rfl
  refine h.unlockFoo hp hs₁ (r := Function.update (s.refs t) fp (s.refs t fp + 1)) ?_ h₀ rfl
    (congrArg Pc.Claim.hash hc).symm (congrArg Pc.Claim.off hc).symm
    (weight_gain p₀ .idle (s.refs t) (congrArg Pc.Claim.ref hc) rfl) trivial (by simp [Pc.on])
  rw [← hs', St.gain, hrefs]

theorem toInt_add_one {c : Int32} (hpos : 0 < c.toInt) (hlt : c.toInt.toNat < INT_MAX) : (c + 1).toInt = c.toInt + 1 := by
  unfold INT_MAX at hlt
  rw [Int32.toInt_add, Int32.toInt_one, Int.bmod_def]
  split <;> omega

theorem toInt_sub_one {c : Int32} (hpos : 0 < c.toInt) : (c - 1).toInt = c.toInt - 1 := by
  have hlt := c.toInt_lt
  rw [Int32.toInt_sub, Int32.toInt_one, Int.bmod_def]
  split <;> omega

/-- `fp->f_count++`, which does not overflow -/
theorem Inv.incFoo (h : Inv s ch) {t : T} {fp : P} {p p₀ : Pc P} (hp : s.pc t = p₀)
    (hs : s.count t fp (· + 1) p = some s') (hfit : references s fp < INT_MAX) (h₀ : p₀.lock = some fp)
    (href₀ : p₀.ref = none) (hc : p.claim = { p₀.claim with ref := some fp })
    (hplace : ∀ heap : P → Option (Foo T P), Placed heap ch (s.refs t) p) (hon' : ∀ q ∈ p.on, q ∈ p₀.on) : Inv s' ch := by
  have href : p.ref = some fp := congrArg Pc.Claim.ref hc
  refine h.countFoo hp hs h₀ hc ?_ ?_ hplace hon'
  · intro o ho
    have hpos := h.pos fp o ho
    rw [← h.count fp, ho] at hfit
    have hinc := toInt_add_one hpos hfit
    have hnat : (o.fCount.toInt + 1).toNat = o.fCount.toInt.toNat + 1 := by omega
    refine ⟨?_, by rw [hinc]; omega⟩
    simp only [counted, weight, href, href₀, Option.map_some, Option.getD_some, hinc, hnat, reduceCtorEq, if_false, if_true]
    omega
  · intro q hq
    simp [weight, href, href₀, Ne.symm hq]

/-- `fp->f_count--`, when the count was not 1 -/
theorem Inv.decFoo (h : Inv s ch) {t : T} {fp : P} {p p₀ : Pc P} (hp : s.pc t = p₀)
    (hs : s.count t fp (· - 1) p = some s') (h₀ : p₀.lock = some fp) (href₀ : p₀.ref = some fp)
    (hc : p.claim = { p₀.claim with ref := none }) (hne : Foo.HasCount (s.heap fp) (· ≠ 1))
    (hplace : ∀ heap : P → Option (Foo T P), Placed heap ch (s.refs t) p) (hon' : ∀ q ∈ p.on, q ∈ p₀.on) : Inv s' ch := by
  have href : p.ref = none := congrArg Pc.Claim.ref hc
  refine h.countFoo hp hs h₀ hc ?_ ?_ hplace hon'
  · intro o ho
    have hpos := h.pos fp o ho
    have hone : o.fCount.toInt ≠ 1 := fun he => hne o ho (Int32.toInt_inj.mp he)
    have hdec := toInt_sub_one hpos
    refine ⟨?_, by rw [hdec]; omega⟩
    simp only [counted, weight, href, href₀, Option.map_some, Option.getD_some, hdec, reduceCtorEq, if_false, if_true]
    omega
  · intro q hq
    simp [weight, href, href₀, Ne.symm hq]

/-! ## A chain changes -/

theorem lock_congr {heap heap' : P → Option (Foo T P)} {q : P} {u : T}
    (h : (heap' q).map Foo.fLock = (heap q).map Foo.fLock) :
    (∃ o, heap' q = some o ∧ o.fLock = some u) ↔ ∃ o, heap q = some o ∧ o.fLock = some u := by
  cases h₁ : heap q with
  | none =>
    rw [h₁] at h
    simp [Option.map_eq_none_iff.mp h]
  | some o =>
    rw [h₁] at h
    obtain ⟨o', ho', hl⟩ := Option.map_eq_some_iff.mp h
    simp [ho', hl]

/-- Pointers change, and nothing else. -/
structure Relinked (s s' : St T P) : Prop where
  locks : ∀ q, (s'.heap q).map Foo.fLock = (s.heap q).map Foo.fLock
  counts : ∀ q, (s'.heap q).map Foo.fCount = (s.heap q).map Foo.fCount
  ids : ∀ q, (s'.heap q).map Foo.fId = (s.heap q).map Foo.fId
  hashlock : s'.hashlock = s.hashlock

theorem Relinked.set {fp : P} {o : Foo T P} (ho : s.heap fp = some o) {next : Option P}
    (hheap : s'.heap = Function.update s.heap fp (some { o with fNext := next })) (hhl : s'.hashlock = s.hashlock) :
    Relinked s s' := by
  refine ⟨?_, ?_, ?_, hhl⟩ <;> rw [hheap]
  · exact map_update Foo.fLock ho rfl
  · exact map_update Foo.fCount ho rfl
  · exact map_update Foo.fId ho rfl

theorem counted_congr {o o' : Option (Foo T P)} (h : o'.map Foo.fCount = o.map Foo.fCount) : counted o' = counted o := by
  have hmap (o : Option (Foo T P)) : counted o = ((o.map Foo.fCount).map fun c => c.toInt.toNat).getD 0 := by
    rw [counted, Option.map_map]
    rfl
  rw [hmap, hmap, h]

/-- The owner of `hashlock` changes the pointers. -/
theorem Inv.chain (h : Inv s ch) {t : T} {p : Pc P} {x : Option P} (hm : Moved s s' t p (s.refs t)) (hl : Relinked s s')
    (hh : (s.pc t).hash = true) (hc : p.claim = { (s.pc t).claim with off := x })
    (hlinked : ∀ i, Linked Loc.node s'.cell (.slot i) (ch' i))
    (hmem : ∀ i fp, fp ∈ ch' i ↔ ∃ o, s.heap fp = some o ∧ HASH o.fId = i ∧ p.off ≠ some fp ∧
      ∀ u, u ≠ t → (s.pc u).off ≠ some fp)
    (hplace : Placed s.heap ch' (s.refs t) p) (hsole : ∀ fp, p.off = some fp → ∀ u, u ≠ t → fp ∉ (s.pc u).on)
    (hon : ∀ fp ∈ p.on, fp ∈ (s.pc t).on) : Inv s' ch' := by
  have hhash : p.hash = (s.pc t).hash := congrArg Pc.Claim.hash hc
  have hlock : p.lock = (s.pc t).lock := congrArg Pc.Claim.lock hc
  refine h.thread hm ⟨?_, ?_⟩ ⟨?_, ?_⟩ ?_ ?_ ⟨hlinked, ?_⟩ ⟨?_, ?_, hsole, ?_⟩
  · rw [hhash, hl.hashlock, ← h.hash t]
  · intro u _
    rw [hl.hashlock]
  · intro q
    rw [hlock, lock_congr (hl.locks q), h.lock t q]
  · intro u _ q
    rw [lock_congr (hl.locks q)]
  · intro q
    rw [counted_congr (hl.counts q), weight_congr (congrArg Pc.Claim.ref hc : p.ref = (s.pc t).ref)]
  · intro q x hx
    have heq := hl.counts q
    rw [hx] at heq
    obtain ⟨y, hy, hxy⟩ := Option.map_eq_some_iff.mp heq.symm
    exact hxy ▸ h.pos q y hy
  · intro i q
    rw [hmem i q, HASH_congr (hl.ids q)]
  · exact hplace.congr (fun q _ => hl.counts q) (fun _ _ q _ => hl.ids q) fun _ => rfl
  · intro u hu hpl
    refine hpl.congr (fun q _ => hl.counts q) (fun _ _ q _ => hl.ids q) fun hh' => ?_
    rw [h.alone_hash hh hu] at hh'
    simp at hh'
  · intro q hq u hu
    exact h.off_ne hu (.inl (hon q hq))

/-- An object that is off the table is on no chain. -/
theorem Inv.not_mem_of_off (h : Inv s ch) {t : T} {fp : P} (ho : (s.pc t).off = some fp) (i : ℕ) : fp ∉ ch i := by
  intro hmem
  obtain ⟨o, -, -, hne⟩ := (h.mem i fp).mp hmem
  exact hne t ho

/-- `fp->f_next = fh[idx]; fh[idx] = fp;` -/
theorem Inv.pushFoo (h : Inv s ch) {t : T} {fp : P} (hp : s.pc t = .allocPush fp)
    (hs : s.push t fp (.allocLock fp) = some s') : ∃ ch', Inv s' ch' := by
  have hoff : (s.pc t).off = some fp := by rw [hp]; rfl
  obtain ⟨o, ho, hs⟩ := h.access (Pc.on_of_off hoff) hs
  obtain rfl := Option.some.inj hs
  have hnot := h.not_mem_of_off hoff
  refine ⟨Function.update ch (HASH o.fId) (fp :: ch (HASH o.fId)), ?_⟩
  refine h.chain (p := .allocLock fp) (x := none) (.keep rfl rfl rfl) (.set ho rfl rfl) (by rw [hp]; rfl) (by rw [hp]; rfl)
    ?_ ?_ trivial (by simp [Pc.off]) ?_
  · intro i
    by_cases hi : i = HASH o.fId
    · rw [hi, Function.update_self]
      refine (h.linked (HASH o.fId)).push ?_ ?_ ?_
      · simp [St.cell]
      · simp [St.cell, St.goto, St.set]
      · intro q hq
        obtain ⟨x, hx, rfl⟩ := List.mem_map.mp hq
        have hne : x ≠ fp := fun he => hnot _ (he ▸ hx)
        simp [St.cell, St.goto, St.set, hne]
    · rw [Function.update_of_ne hi]
      refine (h.linked i).congr fun q hq => ?_
      rcases List.mem_cons.mp hq with rfl | hq
      · simp [St.cell, hi]
      · obtain ⟨x, hx, rfl⟩ := List.mem_map.mp hq
        have hne : x ≠ fp := fun he => hnot _ (he ▸ hx)
        simp [St.cell, St.goto, St.set, hne]
  · intro i q
    by_cases hq : q = fp
    · subst hq
      have hothers : ∀ u, u ≠ t → (s.pc u).off ≠ some q := fun u hu => h.off_ne hu (.inl (Pc.on_of_off hoff))
      by_cases hi : i = HASH o.fId
      · rw [hi, Function.update_self]
        exact ⟨fun _ => ⟨o, ho, rfl, by simp [Pc.off], hothers⟩, fun _ => List.mem_cons_self⟩
      · rw [Function.update_of_ne hi]
        simp [ho, Ne.symm hi, hnot i]
    · have hin : q ∈ Function.update ch (HASH o.fId) (fp :: ch (HASH o.fId)) i ↔ q ∈ ch i := by
        by_cases hi : i = HASH o.fId
        · rw [hi, Function.update_self, List.mem_cons]
          simp [hq]
        · rw [Function.update_of_ne hi]
      rw [hin, h.mem i q, off_iff (t := t) (p := .allocLock fp) (by rw [hoff]; simp [Pc.off, Ne.symm hq])]
  · intro q hq
    rw [hp]
    exact hq

/-- The object is taken out of its chain, by the pointer in front of it. -/
theorem Inv.unlinkFoo (h : Inv s ch) {t : T} {fp : P} {o : Foo T P} (ho : s.heap fp = some o) {l₁ l₂ : List P}
    (hch : ch (HASH o.fId) = l₁ ++ fp :: l₂) (hc : (s.pc t).claim = ⟨true, some fp, some fp, none⟩)
    (hone : Foo.HasCount (s.heap fp) (· = 1)) (hm : Moved s s' t (.releUnhash fp) (s.refs t)) (hre : Relinked s s')
    (hcell : s'.cell = Function.update s.cell (before Loc.node (.slot (HASH o.fId)) l₁) o.fNext) : ∃ ch', Inv s' ch' := by
  have hh : (s.pc t).hash = true := congrArg Pc.Claim.hash hc
  have hl : (s.pc t).lock = some fp := congrArg Pc.Claim.lock hc
  have hr : (s.pc t).ref = some fp := congrArg Pc.Claim.ref hc
  have hno : (s.pc t).off = none := congrArg Pc.Claim.off hc
  have hlink := h.linked (HASH o.fId)
  rw [hch] at hlink
  have hnd : (l₁ ++ fp :: l₂).Nodup := List.Nodup.of_map _ (List.nodup_cons.mp hlink.nodup).2
  -- the pointer in front belongs to this chain only
  have hapart : ∀ i, i ≠ HASH o.fId → ∀ q ∈ Loc.slot i :: (ch i).map Loc.node,
      q ≠ before Loc.node (.slot (HASH o.fId)) l₁ := by
    rintro i hi q hq rfl
    have hb := before_mem Loc.node (.slot (HASH o.fId)) l₁
    rcases List.mem_cons.mp hb with hb | hb
    · rw [hb] at hq
      simp [Ne.symm hi] at hq
    · obtain ⟨x, hx, hxb⟩ := List.mem_map.mp hb
      rw [← hxb] at hq
      have hxi : x ∈ ch i := by simpa using hq
      have hxo : x ∈ ch (HASH o.fId) := by rw [hch]; exact List.mem_append_left _ hx
      obtain ⟨y, hy, hyi, -⟩ := (h.mem i x).mp hxi
      obtain ⟨z, hz, hzi, -⟩ := (h.mem _ x).mp hxo
      rw [hy] at hz
      obtain rfl := Option.some.inj hz
      exact hi (hyi.symm.trans hzi)
  refine ⟨Function.update ch (HASH o.fId) (l₁ ++ l₂), ?_⟩
  refine h.chain (x := some fp) hm hre hh (by rw [hc]; rfl) ?_ ?_ hone ?_ ?_
  · intro i
    by_cases hi : i = HASH o.fId
    · rw [hi, Function.update_self]
      refine hlink.unlink ?_ ?_
      · rw [hcell, Function.update_self]
        simp [St.cell, ho]
      · intro q _ hq
        rw [hcell, Function.update_of_ne hq]
    · rw [Function.update_of_ne hi]
      refine (h.linked i).congr fun q hq => ?_
      rw [hcell, Function.update_of_ne (hapart i hi q hq)]
  · intro i q
    by_cases hq : q = fp
    · subst hq
      have hnot : q ∉ Function.update ch (HASH o.fId) (l₁ ++ l₂) i := by
        by_cases hi : i = HASH o.fId
        · rw [hi, Function.update_self]
          exact (List.nodup_cons.mp (List.nodup_middle.mp hnd)).1
        · rw [Function.update_of_ne hi]
          intro hmem
          obtain ⟨x, hx, hxi, -⟩ := (h.mem i q).mp hmem
          rw [ho] at hx
          exact hi (hxi.symm.trans (congrArg (fun x : Foo T P => HASH x.fId) (Option.some.inj hx).symm))
      constructor
      · intro hm
        exact absurd hm hnot
      · rintro ⟨x, -, -, hne, -⟩
        exact absurd rfl hne
    · have hin : q ∈ Function.update ch (HASH o.fId) (l₁ ++ l₂) i ↔ q ∈ ch i := by
        by_cases hi : i = HASH o.fId
        · rw [hi, Function.update_self, hch]
          simp [hq]
        · rw [Function.update_of_ne hi]
      rw [hin, h.mem i q, off_iff (t := t) (p := .releUnhash fp) (by rw [hno]; simp [Pc.off, Ne.symm hq])]
  · intro q hq u hu
    obtain rfl : fp = q := Option.some.inj hq
    exact h.sole_of_count_one hh hl hr hone hu
  · intro q hq
    obtain rfl := List.mem_singleton.mp hq
    exact Pc.on_of_lock hl

/-- The first test of `foo_rele` when it takes the object out: the object is the first of its chain, or `tfp` starts in
front of it. -/
theorem Inv.releHead (h : Inv s ch) {t : T} {fp : P} (hp : s.pc t = .releHead fp) (hs : threadStep s t = some s') :
    ∃ ch', Inv s' ch' := by
  have hone := h.place t
  rw [hp] at hone
  rw [threadStep, hp] at hs
  have hon : fp ∈ (s.pc t).on := by simp [hp, Pc.on]
  obtain ⟨o, ho, hs⟩ := h.access hon hs
  have hmem : fp ∈ ch (HASH o.fId) := by
    refine (h.mem _ fp).mpr ⟨o, ho, rfl, fun u => ?_⟩
    by_cases hu : u = t
    · simp [hu, hp, Pc.off]
    · exact h.off_ne hu (.inl hon)
  obtain ⟨l₁, l₂, hch⟩ := List.append_of_mem hmem
  have hlink := h.linked (HASH o.fId)
  rw [hch] at hlink
  cases l₁ with
  | nil =>
    have hhead : s.fh (HASH o.fId) = some fp := hlink.1
    simp only [hhead, if_true] at hs
    obtain rfl := Option.some.inj hs
    refine h.unlinkFoo ho hch (by rw [hp]; rfl) hone (.keep rfl rfl rfl)
      ⟨fun _ => rfl, fun _ => rfl, fun _ => rfl, rfl⟩ ?_
    funext q
    cases q with
    | slot i =>
      by_cases hi : i = HASH o.fId
      · simp [St.cell, before, hi]
      · simp [St.cell, before, hi]
    | node q => simp [St.cell, before, St.goto]
  | cons tfp l₁ =>
    have hhead : s.fh (HASH o.fId) = some tfp := hlink.1
    have hnd : (tfp :: (l₁ ++ fp :: l₂)).Nodup := List.Nodup.of_map _ (List.nodup_cons.mp hlink.nodup).2
    have hne : tfp ≠ fp := by
      rintro rfl
      simp at hnd
    simp only [hhead, if_neg hne] at hs
    obtain rfl := Option.some.inj hs
    refine ⟨ch, h.goto t _ hp rfl ⟨hone, HASH o.fId, [], l₁, l₂, hch⟩ ?_⟩
    intro q hq
    rcases List.mem_cons.mp hq with rfl | hq
    · exact .inl (by simp [Pc.on])
    · obtain rfl := List.mem_singleton.mp hq
      exact .inr (.inr ⟨HASH o.fId, by rw [hch]; simp⟩)

/-- The loop: `tfp` stays in front of the object, and its `f_next` is changed when that is the object. -/
theorem Inv.releWalk (h : Inv s ch) {t : T} {fp tfp : P} (hp : s.pc t = .releWalk fp tfp)
    (hs : threadStep s t = some s') : ∃ ch', Inv s' ch' := by
  have hpl := h.place t
  rw [hp] at hpl
  rw [threadStep, hp] at hs
  obtain ⟨hone, i, l₁, l₂, l₃, hch⟩ := hpl
  obtain ⟨o', ho', hs⟩ := h.access (t := t) (by simp [hp, Pc.on]) hs
  have hsplit : ch i = (l₁ ++ [tfp]) ++ (l₂ ++ fp :: l₃) := by simp [hch]
  have hlink := h.linked i
  have hnd : (ch i).Nodup := List.Nodup.of_map _ (List.nodup_cons.mp hlink.nodup).2
  rw [hsplit] at hlink hnd
  have hbefore : before Loc.node (Loc.slot i) (l₁ ++ [tfp]) = .node tfp := by rw [before_append]; rfl
  have hrest := hlink.rest
  rw [hbefore] at hrest
  cases l₂ with
  | nil =>
    have hnext : o'.fNext = some fp := by simpa [St.cell, ho'] using hrest.1
    rw [if_pos hnext] at hs
    obtain ⟨o, ho, hs⟩ := h.access (t := t) (by simp [hp, Pc.on]) hs
    obtain rfl := Option.some.inj hs
    obtain rfl : HASH o.fId = i := by
      obtain ⟨x, hx, hxi, -⟩ := (h.mem i fp).mp (by rw [hch]; simp)
      rw [ho] at hx
      exact Option.some.inj hx ▸ hxi
    refine h.unlinkFoo ho hsplit (by rw [hp]; rfl) hone (.keep rfl rfl rfl) (.set ho' rfl rfl) ?_
    rw [hbefore]
    funext q
    cases q with
    | slot i => simp [St.cell, St.goto, St.set]
    | node q =>
      by_cases hq : q = tfp
      · simp [St.cell, hq, St.goto, St.set]
      · simp [St.cell, hq, St.goto, St.set]
  | cons m l₂ =>
    have hnext : o'.fNext = some m := by simpa [St.cell, ho'] using hrest.1
    have hne : m ≠ fp := by
      rintro rfl
      simp [List.nodup_append] at hnd
    have hs : some (s.goto t (.releWalk fp m)) = some s' := by simpa [hnext, hne] using hs
    obtain rfl := Option.some.inj hs
    refine ⟨ch, h.goto t _ hp rfl ⟨hone, i, l₁ ++ [tfp], l₂, l₃, by simp [hch]⟩ ?_⟩
    intro q hq
    rcases List.mem_cons.mp hq with rfl | hq
    · exact .inl (by simp [Pc.on])
    · obtain rfl := List.mem_singleton.mp hq
      exact .inr (.inr ⟨i, by simp [hch]⟩)

/-! ## Memory -/

/-- The memory at `fp` is now `m`: it is on no chain, its mutex is free, and no thread but `t` is at work on it. -/
structure Aside (s s' : St T P) (ch : ℕ → List P) (t : T) (fp : P) (m : Option (Foo T P)) : Prop where
  heap : s'.heap = Function.update s.heap fp m
  fh : s'.fh = s.fh
  hashlock : s'.hashlock = s.hashlock
  free : ∀ o, s.heap fp = some o → o.fLock = none
  free' : ∀ o, m = some o → o.fLock = none
  unlisted : ∀ i, fp ∉ ch i
  sole : ∀ u, u ≠ t → fp ∉ (s.pc u).on

/-- Memory is allocated or freed, and at most its own thread knows of it. -/
theorem Inv.memory (h : Inv s ch) {t : T} {p p₀ : Pc P} {fp : P} {m : Option (Foo T P)} (hp : s.pc t = p₀)
    (hm : Moved s s' t p (s.refs t)) (ha : Aside s s' ch t fp m) (hhash : p.hash = p₀.hash) (hlock₀ : p₀.lock = none)
    (hlock : p.lock = none) (hoff : ∀ q, q ≠ fp → (p.off = some q ↔ p₀.off = some q)) (hout : m = none ∨ p.off = some fp)
    (hon : ∀ q ∈ p.on, q = fp)
    (hcount : counted m + weight p₀ (s.refs t) fp = counted (s.heap fp) + weight p (s.refs t) fp)
    (href : ∀ q, q ≠ fp → weight p (s.refs t) q = weight p₀ (s.refs t) q) (hpos : ∀ x, m = some x → 0 < x.fCount.toInt)
    (hplace : Placed s'.heap ch (s.refs t) p) : Inv s' ch := by
  subst hp
  have hself : s'.heap fp = m := by rw [ha.heap, Function.update_self]
  have hother : ∀ q, q ≠ fp → s'.heap q = s.heap q := fun q hq => by rw [ha.heap, Function.update_of_ne hq]
  have hfree : ∀ u o, s.heap fp = some o → o.fLock ≠ some u := by
    intro u o ho
    rw [ha.free o ho]
    simp
  have hfree' : ∀ u o, s'.heap fp = some o → o.fLock ≠ some u := by
    intro u o ho
    rw [ha.free' o (hself ▸ ho)]
    simp
  refine h.thread hm ⟨?_, ?_⟩ ⟨?_, ?_⟩ ?_ ?_ ⟨?_, ?_⟩ ⟨hplace, ?_, ?_, ?_⟩
  · rw [hhash, ha.hashlock]
    exact h.hash t
  · intro u _
    rw [ha.hashlock]
  · intro q
    rw [hlock, ← hlock₀]
    by_cases hq : q = fp
    · rw [hq, hlock₀]
      refine ⟨fun he => absurd he (by simp), ?_⟩
      rintro ⟨o, ho, hl⟩
      exact absurd hl (hfree' t o ho)
    · rw [hother q hq]
      exact h.lock t q
  · intro u _ q
    by_cases hq : q = fp
    · rw [hq]
      constructor
      · rintro ⟨o, ho, hl⟩
        exact absurd hl (hfree' u o ho)
      · rintro ⟨o, ho, hl⟩
        exact absurd hl (hfree u o ho)
    · rw [hother q hq]
  · intro q
    by_cases hq : q = fp
    · rw [hq, hself]
      exact hcount
    · rw [hother q hq, href q hq]
  · intro q x hx
    by_cases hq : q = fp
    · rw [hq, hself] at hx
      exact hpos x hx
    · rw [hother q hq] at hx
      exact h.pos q x hx
  · intro i
    refine (h.linked i).congr fun q hq => ?_
    rcases List.mem_cons.mp hq with rfl | hq
    · exact congrFun ha.fh i
    · obtain ⟨x, hx, rfl⟩ := List.mem_map.mp hq
      have hne : x ≠ fp := fun he => ha.unlisted i (he ▸ hx)
      simp [St.cell, hother x hne]
  · intro i q
    by_cases hq : q = fp
    · rw [hq, hself]
      refine ⟨fun hmem => absurd hmem (ha.unlisted i), ?_⟩
      rintro ⟨o, ho, -, hne, -⟩
      rcases hout with hnone | hp
      · simp [hnone] at ho
      · exact absurd hp hne
    · rw [h.mem i q, hother q hq, off_iff (t := t) (p := p) (hoff q hq)]
  · intro u hu hpl
    refine hpl.congr (fun q hq => ?_) (fun _ i q hq => by rw [hother q fun he => ha.unlisted i (he ▸ hq)]) fun _ => rfl
    have hne : q ≠ fp := by
      rintro rfl
      rcases Pc.lock_or_off_of_counts hq with hl | ho
      · exact ha.sole u hu (Pc.on_of_lock hl)
      · exact ha.sole u hu (Pc.on_of_off ho)
    rw [hother q hne]
  · intro q hq u hu
    rw [hon q (Pc.on_of_off hq)]
    exact ha.sole u hu
  · intro q hq u hu ho
    rw [hon q hq] at ho
    exact ha.sole u hu (Pc.on_of_off ho)

/-- `malloc` returns memory that no thread is at work on. -/
theorem Inv.allocFoo (h : Inv s ch) {t : T} {fp : P} (id : Int32) (hidle : s.pc t = .idle) (hnone : s.heap fp = none) :
    Inv ((s.set fp { fCount := 1, fLock := none, fId := id, fNext := none }).goto t (.allocHash fp)) ch := by
  have hno : ∀ o, s.heap fp ≠ some o := by
    intro o ho
    rw [hnone] at ho
    simp at ho
  have hsole : ∀ u, fp ∉ (s.pc u).on := by
    intro u hon
    obtain ⟨o, ho⟩ := h.live hon
    exact hno o ho
  have hunlisted : ∀ i, fp ∉ ch i := by
    intro i hmem
    obtain ⟨o, ho, -⟩ := (h.mem i fp).mp hmem
    exact hno o ho
  have href : s.refs t fp = 0 := by
    by_contra hne
    have hpos : 0 < weight (s.pc t) (s.refs t) fp := by
      simp only [weight]
      omega
    obtain ⟨o, ho⟩ := h.exists_of_weight hpos
    exact hno o ho
  refine h.memory hidle (.keep rfl rfl rfl)
    ⟨rfl, rfl, rfl, fun o ho => absurd ho (hno o), ?_, hunlisted, fun u _ => hsole u⟩ rfl rfl rfl ?_ (.inr rfl) ?_ ?_ ?_ ?_ ?_
  · intro o ho
    rw [← Option.some.inj ho]
  · intro q hq
    simp [Pc.off, Ne.symm hq]
  · intro q hq
    exact List.mem_singleton.mp hq
  · rw [hnone]
    simp [counted, weight, Pc.ref, href]
  · intro q hq
    simp [weight, Pc.ref, Ne.symm hq]
  · intro x hx
    obtain rfl := Option.some.inj hx
    exact (by decide : 0 < (1 : Int32).toInt)
  · intro x hx
    have hself : ((s.set fp { fCount := 1, fLock := none, fId := id, fNext := none }).goto t (.allocHash fp)).heap fp =
      some { fCount := 1, fLock := none, fId := id, fNext := none } := Function.update_self ..
    rw [hself] at hx
    exact Option.some.inj hx ▸ rfl

/-- `free`: nobody else is at work on the object, and its mutex is free. -/
theorem Inv.freeFoo (h : Inv s ch) {t : T} {fp : P} {o : Foo T P} (hp : s.pc t = .releFree fp) (ho : s.heap fp = some o) :
    o.fLock = none ∧ Inv { s.goto t .idle with heap := Function.update s.heap fp none } ch := by
  have hoff : (s.pc t).off = some fp := by rw [hp]; rfl
  have hsole := h.sole t fp hoff
  have hone : o.fCount = 1 := counts_one_of_off hoff (h.place t) o ho
  have hfree : o.fLock = none := by
    by_contra hne
    obtain ⟨u, hu⟩ := Option.ne_none_iff_exists'.mp hne
    have hl := (h.lock u fp).mpr ⟨o, ho, hu⟩
    by_cases hut : u = t
    · rw [hut, hp] at hl
      simp [Pc.lock] at hl
    · exact hsole u hut (Pc.on_of_lock hl)
  refine ⟨hfree, h.memory hp (.keep rfl rfl rfl) ⟨rfl, rfl, rfl, ?_, by simp, h.not_mem_of_off hoff, hsole⟩ rfl rfl rfl ?_
    (.inl rfl) (by simp [Pc.on]) ?_ ?_ (by simp) trivial⟩
  · intro x hx
    rw [ho] at hx
    rw [← Option.some.inj hx]
    exact hfree
  · intro q hq
    simp [Pc.off, Ne.symm hq]
  · rw [ho]
    simp only [counted, weight, Pc.ref, Option.map_some, Option.map_none, Option.getD_some, Option.getD_none, hone]
    simp
    omega
  · intro q hq
    simp [weight, Pc.ref, Ne.symm hq]

/-! ## Every step -/

theorem on_findLoop {id : Int32} {q : Option P} {fp : P} (h : fp ∈ (Pc.findLoop id q).on) : q = some fp := by
  cases q with
  | none => simp [Pc.on] at h
  | some q => rw [List.mem_singleton.mp h]

theorem hasCount_of (f : Int32 → Prop) {fp : P} {o : Foo T P} (ho : s.heap fp = some o) (hf : f o.fCount) :
    Foo.HasCount (s.heap fp) f := by
  intro x hx
  rw [ho] at hx
  exact Option.some.inj hx ▸ hf

/-- The loop of `foo_find`: no object in front has the id. -/
theorem Inv.findLoop (h : Inv s ch) {t : T} {id : Int32} {fp : P} (hp : s.pc t = .findLoop id (some fp))
    (hs : threadStep s t = some s') : ∃ ch', Inv s' ch' := by
  have hpl := h.place t
  rw [hp] at hpl
  rw [threadStep, hp] at hs
  obtain ⟨l₁, l₂, hch, hhead, hne⟩ := hpl
  obtain ⟨l₃, rfl⟩ : ∃ l₃, l₂ = fp :: l₃ := List.head?_eq_some_iff.mp hhead
  have hmem : fp ∈ ch (HASH id) := by rw [hch]; simp
  obtain ⟨o, ho, hs⟩ := h.access (t := t) (by simp [hp, Pc.on]) hs
  obtain rfl := Option.some.inj hs
  refine ⟨ch, ?_⟩
  by_cases hid : o.fId = id
  · rw [if_pos hid]
    exact h.goto t _ hp rfl ⟨_, hmem⟩ fun q hq => .inl hq
  · rw [if_neg hid]
    have hlink := h.linked (HASH id)
    rw [hch] at hlink
    have hnext : l₃.head? = o.fNext := by
      have := hlink.rest.2.head
      simpa [St.cell, ho] using this.symm
    refine h.goto t _ hp rfl ⟨l₁ ++ [fp], l₃, by simp [hch], hnext, ?_⟩ fun q hq => ?_
    · intro x hx y hy
      rcases List.mem_append.mp hx with hx | hx
      · exact hne x hx y hy
      · obtain rfl := List.mem_singleton.mp hx
        rw [ho] at hy
        exact Option.some.inj hy ▸ hid
    · refine .inr (.inr ⟨HASH id, ?_⟩)
      rw [hch]
      exact List.mem_append_right _ (List.mem_cons_of_mem _ (List.mem_of_mem_head? (hnext.trans (on_findLoop hq))))

theorem Inv.run (h : Inv s ch) {t : T} (hok : Fits s (.run t)) (hs : threadStep s t = some s') : ∃ ch', Inv s' ch' := by
  have hpl := h.place t
  cases hp : s.pc t with
  | idle =>
    rw [threadStep, hp] at hs
    simp at hs
  | allocHash fp =>
    rw [threadStep, hp] at hs
    rw [hp] at hpl
    exact ⟨ch, h.lockHash hp hs rfl hpl fun q hq => .inl hq⟩
  | allocPush fp =>
    rw [threadStep, hp] at hs
    exact h.pushFoo hp hs
  | allocLock fp =>
    rw [threadStep, hp] at hs
    exact ⟨ch, h.lockFoo hp hs rfl rfl (by simp [Pc.on]) trivial fun q hq => hq⟩
  | allocUnhash fp =>
    rw [threadStep, hp] at hs
    obtain rfl := Option.some.inj hs
    exact ⟨ch, h.unlockHashKeep hp rfl rfl trivial fun q hq => hq⟩
  | allocUnlock fp =>
    rw [threadStep, hp] at hs
    exact ⟨ch, h.unlockReturn hp hs rfl⟩
  | hold fp =>
    rw [threadStep, hp] at hs
    rw [hp] at hpl
    exact ⟨ch, h.lockFoo hp hs rfl rfl (by simp [Pc.on]) hpl fun q hq => hq⟩
  | holdInc fp =>
    rw [threadStep, hp] at hs
    exact ⟨ch, h.incFoo hp hs (hok fp (by rw [hp]; rfl)) rfl rfl rfl (fun _ => trivial) fun q hq => hq⟩
  | holdUnlock fp =>
    rw [threadStep, hp] at hs
    exact ⟨ch, h.unlockReturn hp hs rfl⟩
  | find id =>
    rw [threadStep, hp] at hs
    have hhead : (ch (HASH id)).head? = s.fh (HASH id) := (h.linked (HASH id)).head.symm
    refine ⟨ch, h.lockHash hp hs rfl ⟨[], ch (HASH id), rfl, hhead, by simp⟩ fun q hq => ?_⟩
    exact .inr (.inr ⟨HASH id, List.mem_of_mem_head? (hhead.trans (on_findLoop hq))⟩)
  | findLoop id q =>
    cases q with
    | none =>
      rw [threadStep, hp] at hs
      obtain rfl := Option.some.inj hs
      exact ⟨ch, h.goto t _ hp rfl trivial (by simp [Pc.on])⟩
    | some fp => exact h.findLoop hp hs
  | findHold fp =>
    rw [threadStep, hp] at hs
    rw [hp] at hpl
    exact ⟨ch, h.lockFoo hp hs rfl rfl (by simp [Pc.on]) hpl fun q hq => hq⟩
  | findInc fp =>
    rw [threadStep, hp] at hs
    exact ⟨ch, h.incFoo hp hs (hok fp (by rw [hp]; rfl)) rfl rfl rfl (fun _ => trivial) fun q hq => hq⟩
  | findUnlock fp =>
    rw [threadStep, hp] at hs
    exact ⟨ch, h.unlockKeep hp hs rfl rfl trivial fun q hq => hq⟩
  | findUnhash q =>
    cases q with
    | none =>
      rw [threadStep, hp] at hs
      obtain rfl := Option.some.inj hs
      exact ⟨ch, h.unlockHashKeep hp rfl rfl trivial fun q hq => hq⟩
    | some fp =>
      rw [threadStep, hp] at hs
      obtain rfl := Option.some.inj hs
      exact ⟨ch, h.unlockHash hp rfl ⟨rfl, rfl, rfl⟩ rfl rfl rfl rfl
        (weight_gain (.findUnhash (some fp)) .idle (s.refs t) rfl rfl) trivial (by simp [Pc.on])⟩
  | rele fp =>
    rw [threadStep, hp] at hs
    exact ⟨ch, h.lockFoo hp hs rfl rfl (by simp [Pc.on]) trivial fun q hq => hq⟩
  | releTest fp =>
    rw [threadStep, hp] at hs
    obtain ⟨o, ho, hs⟩ := h.access (t := t) (by rw [hp]; simp [Pc.on]) hs
    obtain rfl := Option.some.inj hs
    refine ⟨ch, ?_⟩
    by_cases hone : o.fCount = 1
    · rw [if_pos hone]
      exact h.goto t _ hp rfl trivial fun q hq => .inl hq
    · rw [if_neg hone]
      exact h.goto t _ hp rfl (hasCount_of (· ≠ 1) ho hone) fun q hq => .inl hq
  | releDec fp =>
    rw [threadStep, hp] at hs
    rw [hp] at hpl
    exact ⟨ch, h.decFoo hp hs rfl rfl rfl hpl (fun _ => trivial) fun q hq => hq⟩
  | releUnlock fp =>
    rw [threadStep, hp] at hs
    exact ⟨ch, h.unlockKeep hp hs rfl rfl trivial (by simp [Pc.on])⟩
  | releLast fp =>
    rw [threadStep, hp] at hs
    exact ⟨ch, h.unlockKeep hp hs rfl rfl trivial fun q hq => hq⟩
  | releHash fp =>
    rw [threadStep, hp] at hs
    exact ⟨ch, h.lockHash hp hs rfl trivial fun q hq => .inl hq⟩
  | releRelock fp =>
    rw [threadStep, hp] at hs
    exact ⟨ch, h.lockFoo hp hs rfl rfl (by simp [Pc.on]) trivial fun q hq => hq⟩
  | releRetest fp =>
    rw [threadStep, hp] at hs
    obtain ⟨o, ho, hs⟩ := h.access (t := t) (by rw [hp]; simp [Pc.on]) hs
    obtain rfl := Option.some.inj hs
    refine ⟨ch, ?_⟩
    by_cases hone : o.fCount ≠ 1
    · rw [if_pos hone]
      exact h.goto t _ hp rfl (hasCount_of (· ≠ 1) ho hone) fun q hq => .inl hq
    · rw [if_neg hone]
      exact h.goto t _ hp rfl (hasCount_of (· = 1) ho (not_not.mp hone)) fun q hq => .inl hq
  | releKeep fp =>
    rw [threadStep, hp] at hs
    rw [hp] at hpl
    exact ⟨ch, h.decFoo hp hs rfl rfl rfl hpl (fun _ => trivial) fun q hq => hq⟩
  | releKeepUnlock fp =>
    rw [threadStep, hp] at hs
    exact ⟨ch, h.unlockKeep hp hs rfl rfl trivial (by simp [Pc.on])⟩
  | releKeepUnhash =>
    rw [threadStep, hp] at hs
    obtain rfl := Option.some.inj hs
    exact ⟨ch, h.unlockHashKeep hp rfl rfl trivial fun q hq => hq⟩
  | releHead fp => exact h.releHead hp hs
  | releWalk fp tfp => exact h.releWalk hp hs
  | releUnhash fp =>
    rw [threadStep, hp] at hs
    rw [hp] at hpl
    obtain rfl := Option.some.inj hs
    exact ⟨ch, h.unlockHashKeep hp rfl rfl hpl fun q hq => hq⟩
  | releFreeUnlock fp =>
    rw [threadStep, hp] at hs
    rw [hp] at hpl
    exact ⟨ch, h.unlockKeep hp hs rfl rfl hpl fun q hq => hq⟩
  | releFree fp =>
    rw [threadStep, hp] at hs
    obtain ⟨o, ho, hs⟩ := h.access (t := t) (by rw [hp]; simp [Pc.on]) hs
    obtain ⟨hfree, hinv⟩ := h.freeFoo hp ho
    rw [if_pos hfree] at hs
    obtain rfl := Option.some.inj hs
    exact ⟨ch, hinv⟩

theorem inv_step {a : Act T P} (h : ∃ ch, Inv s ch) (hok : Fits s a) (hs : step s a = some s') : ∃ ch, Inv s' ch := by
  obtain ⟨ch, h⟩ := h
  cases a with
  | run t => exact h.run hok hs
  | alloc t id fp =>
    obtain ⟨⟨hidle, hnone⟩, hs⟩ := Option.ite_none_right_eq_some.mp hs
    obtain rfl := Option.some.inj hs
    exact ⟨ch, h.allocFoo id hidle (Option.isNone_iff_eq_none.mp hnone)⟩
  | hold t fp =>
    obtain ⟨⟨hidle, hr⟩, hs⟩ := Option.ite_none_right_eq_some.mp hs
    obtain rfl := Option.some.inj hs
    refine ⟨ch, h.goto t _ hidle rfl hr fun q hq => ?_⟩
    obtain rfl := List.mem_singleton.mp hq
    exact .inr (.inl hr)
  | find t id =>
    obtain ⟨hidle, hs⟩ := Option.ite_none_right_eq_some.mp hs
    obtain rfl := Option.some.inj hs
    exact ⟨ch, h.goto t _ hidle rfl trivial (by simp [Pc.on])⟩
  | rele t fp =>
    obtain ⟨⟨hidle, hr⟩, hs⟩ := Option.ite_none_right_eq_some.mp hs
    obtain rfl := Option.some.inj hs
    have hhash := h.hash t
    rw [hidle] at hhash
    refine ⟨ch, h.move ⟨rfl, rfl, rfl⟩ rfl rfl ⟨hhash, fun u _ => Iff.rfl⟩ (by rw [hidle]; rfl) (by rw [hidle]; rfl) ?_
      trivial ?_⟩
    · intro q
      rw [hidle]
      by_cases hq : q = fp
      · simp [weight, Pc.ref, hq]
        omega
      · simp [weight, Pc.ref, hq, Ne.symm hq]
    · intro q hq
      obtain rfl := List.mem_singleton.mp hq
      exact .inr (.inl hr)

theorem inv_reach (h : Reach step Fits (St.init : St T P) s) : ∃ ch, Inv s ch :=
  h.invariant (fun s => ∃ ch, Inv s ch) ⟨_, inv_init⟩ fun _ _ _ _ hI hok hs => inv_step hI hok hs

end CppNotes.Threads
