import CppNotes.Threads.RefCount
import Mathlib.Algebra.Order.BigOperators.Group.Finset

/-!
# What the reference count keeps

`Inv` holds in every state that is reached:

* the two kinds of mutexes are owned by the threads whose places say so;
* the count of an object is the number of references to it, those that a running call has included, and it is not 0;
* the chains of the table end, and an object is on the chain of its `f_id` if it is allocated and no thread is about to
  put it there or has taken it out (`Pc.off`);
* nobody else is at work on such an object.

`Inv.thread` says what has to be shown when one thread moves; what the other threads rely on is then as before, because
`Placed` asks for a count only under the `f_lock` or off the table.
-/

set_option linter.unusedSectionVars false

namespace CppNotes.Threads

open CppNotes.Lib

/-! ## Places -/

namespace Pc

variable {P : Type}

/-- The thread owns `hashlock`. -/
def hash : Pc P → Bool
  | allocPush _ | allocLock _ | allocUnhash _ => true
  | findLoop _ _ | findHold _ | findInc _ | findUnlock _ | findUnhash _ => true
  | releRelock _ | releRetest _ | releKeep _ | releKeepUnlock _ | releKeepUnhash | releHead _ | releWalk _ _ | releUnhash _ =>
    true
  | _ => false

/-- The object whose `f_lock` the thread owns. -/
def lock : Pc P → Option P
  | allocUnhash fp | allocUnlock fp | holdInc fp | holdUnlock fp | findInc fp | findUnlock fp => some fp
  | releTest fp | releDec fp | releUnlock fp | releLast fp | releRetest fp | releKeep fp | releKeepUnlock fp => some fp
  | releHead fp | releWalk fp _ | releUnhash fp | releFreeUnlock fp => some fp
  | _ => none

/-- The reference that the call has, to be returned or released. -/
def ref : Pc P → Option P
  | allocHash fp | allocPush fp | allocLock fp | allocUnhash fp | allocUnlock fp | holdUnlock fp | findUnlock fp => some fp
  | findUnhash fp => fp
  | rele fp | releTest fp | releDec fp | releLast fp | releHash fp | releRelock fp | releRetest fp | releKeep fp => some fp
  | releHead fp | releWalk fp _ | releUnhash fp | releFreeUnlock fp | releFree fp => some fp
  | _ => none

/-- The object that is not yet or no longer in the table. -/
def off : Pc P → Option P
  | allocHash fp | allocPush fp | releUnhash fp | releFreeUnlock fp | releFree fp => some fp
  | _ => none

/-- The objects that the thread is at work on. -/
def on : Pc P → List P
  | idle | find _ | findLoop _ none | findUnhash none | releKeepUnhash => []
  | releWalk fp tfp => [fp, tfp]
  | allocHash fp | allocPush fp | allocLock fp | allocUnhash fp | allocUnlock fp | hold fp | holdInc fp | holdUnlock fp => [fp]
  | findLoop _ (some fp) | findHold fp | findInc fp | findUnlock fp | findUnhash (some fp) => [fp]
  | rele fp | releTest fp | releDec fp | releUnlock fp | releLast fp | releHash fp | releRelock fp | releRetest fp => [fp]
  | releKeep fp | releKeepUnlock fp | releHead fp | releUnhash fp | releFreeUnlock fp | releFree fp => [fp]

/-- What a place says about the mutexes, the reference of the call and the table. -/
structure Claim (P : Type) where
  hash : Bool
  lock : Option P
  ref : Option P
  off : Option P

def claim (p : Pc P) : Claim P := ⟨p.hash, p.lock, p.ref, p.off⟩

theorem ref_of_off {p : Pc P} {fp : P} (h : p.off = some fp) : p.ref = some fp := by
  cases p <;> simp_all [off, ref]

theorem on_of_off {p : Pc P} {fp : P} (h : p.off = some fp) : fp ∈ p.on := by
  cases p <;> simp_all [off, on]

theorem on_of_lock {p : Pc P} {fp : P} (h : p.lock = some fp) : fp ∈ p.on := by
  cases p <;> simp_all [lock, on]

/-- The object that the thread has reached through the table. -/
def via : Pc P → List P
  | findLoop _ (some fp) | findHold fp | findInc fp => [fp]
  | releWalk _ tfp => [tfp]
  | _ => []

/-- The object whose count the thread relies on. -/
def counts : Pc P → Option P
  | allocHash fp | allocPush fp | releDec fp | releKeep fp => some fp
  | releHead fp | releWalk fp _ | releUnhash fp | releFreeUnlock fp | releFree fp => some fp
  | _ => none

/-- What gives a thread access to an object: a reference, the `f_lock`, or `hashlock`. -/
theorem on_cases {p : Pc P} {fp : P} (h : fp ∈ p.on) :
    p.ref = some fp ∨ p.lock = some fp ∨ p = hold fp ∨ (p.hash = true ∧ fp ∈ p.via) := by
  cases p with
  | findLoop id q => cases q <;> simp_all [on, ref, lock, hash, via]
  | findUnhash q => cases q <;> simp_all [on, ref]
  | releWalk q r =>
    simp only [on, List.mem_cons, List.not_mem_nil, or_false] at h
    rcases h with rfl | rfl
    · exact .inl rfl
    · exact .inr (.inr (.inr ⟨rfl, List.mem_singleton.mpr rfl⟩))
  | _ => simp_all [on, ref, lock, hash, via]

theorem lock_or_off_of_counts {p : Pc P} {fp : P} (h : p.counts = some fp) : p.lock = some fp ∨ p.off = some fp := by
  cases p <;> simp_all [counts, lock, off]

end Pc

variable {T P : Type} [DecidableEq T] [DecidableEq P]

/-! ## The invariant -/

def Foo.HasCount (o : Option (Foo T P)) (f : Int32 → Prop) : Prop := ∀ x, o = some x → f x.fCount

/-- The references of a thread: its own ones, and the one that a call has. -/
def weight (p : Pc P) (r : P → ℕ) (fp : P) : ℕ := r fp + if p.ref = some fp then 1 else 0

/-- The references of the threads and of their calls. -/
def references [Fintype T] (s : St T P) (fp : P) : ℕ := ∑ t, weight (s.pc t) (s.refs t) fp

/-- The object whose count the thread is about to increment. -/
def Pc.counting : Pc P → Option P
  | .holdInc fp | .findInc fp => some fp
  | _ => none

/-- `f_count++` does not overflow. -/
def Fits [Fintype T] (s : St T P) : Act T P → Prop
  | .run t => ∀ fp ∈ (s.pc t).counting, references s fp < INT_MAX
  | _ => True

instance [Fintype T] (s : St T P) : (a : Act T P) → Decidable (Fits s a)
  | .run t => inferInstanceAs (Decidable (∀ fp ∈ (s.pc t).counting, references s fp < INT_MAX))
  | .alloc _ _ _ | .hold _ _ | .find _ _ | .rele _ _ => isTrue trivial

/-- The count of an object, as a number; 0 if there is none. -/
def counted (o : Option (Foo T P)) : ℕ := (o.map fun o => o.fCount.toInt.toNat).getD 0

theorem counted_of_one {o : Foo T P} (h : o.fCount = 1) : counted (some o) = 1 := by simp [counted, h]

/-- The pointers of the table and of the objects. -/
def St.cell (s : St T P) : Loc P → Option P
  | .slot i => s.fh i
  | .node fp => (s.heap fp).bind Foo.fNext

/-- What the place of a thread needs. -/
def Placed (heap : P → Option (Foo T P)) (ch : ℕ → List P) (r : P → ℕ) : Pc P → Prop
  | .allocHash fp | .allocPush fp | .releHead fp | .releUnhash fp | .releFreeUnlock fp | .releFree fp =>
    Foo.HasCount (heap fp) (· = 1)
  | .hold fp | .holdInc fp => 0 < r fp
  | .findLoop id q => ∃ l₁ l₂, ch (HASH id) = l₁ ++ l₂ ∧ l₂.head? = q ∧ ∀ x ∈ l₁, ∀ o, heap x = some o → o.fId ≠ id
  | .findHold fp | .findInc fp => ∃ i, fp ∈ ch i
  | .releDec fp | .releKeep fp => Foo.HasCount (heap fp) (· ≠ 1)
  | .releWalk fp tfp => Foo.HasCount (heap fp) (· = 1) ∧ ∃ i l₁ l₂ l₃, ch i = l₁ ++ tfp :: l₂ ++ fp :: l₃
  | _ => True

structure Inv [Fintype T] (s : St T P) (ch : ℕ → List P) : Prop where
  ub : s.ub = false
  hash : ∀ t, (s.pc t).hash = true ↔ s.hashlock = some t
  lock : ∀ t fp, (s.pc t).lock = some fp ↔ ∃ o, s.heap fp = some o ∧ o.fLock = some t
  count : ∀ fp, counted (s.heap fp) = references s fp
  pos : ∀ fp o, s.heap fp = some o → 0 < o.fCount.toInt
  linked : ∀ i, Linked Loc.node s.cell (.slot i) (ch i)
  mem : ∀ i fp, fp ∈ ch i ↔ ∃ o, s.heap fp = some o ∧ HASH o.fId = i ∧ ∀ t, (s.pc t).off ≠ some fp
  place : ∀ t, Placed s.heap ch (s.refs t) (s.pc t)
  sole : ∀ t fp, (s.pc t).off = some fp → ∀ u, u ≠ t → fp ∉ (s.pc u).on

section Places

variable {heap heap' : P → Option (Foo T P)} {ch ch' : ℕ → List P} {r : P → ℕ} {p : Pc P} {fp : P}

theorem via_listed (hv : fp ∈ p.via) (h : Placed heap ch r p) : ∃ i, fp ∈ ch i := by
  cases p with
  | findLoop id q =>
    cases q with
    | none => simp [Pc.via] at hv
    | some q =>
      obtain rfl := List.mem_singleton.mp hv
      obtain ⟨l₁, l₂, hl, hq, -⟩ := h
      exact ⟨HASH id, by rw [hl]; exact List.mem_append_right _ (List.mem_of_mem_head? hq)⟩
  | findHold q =>
    obtain rfl := List.mem_singleton.mp hv
    exact h
  | findInc q =>
    obtain rfl := List.mem_singleton.mp hv
    exact h
  | releWalk q q' =>
    obtain rfl := List.mem_singleton.mp hv
    obtain ⟨-, i, l₁, l₂, l₃, hi⟩ := h
    exact ⟨i, by rw [hi]; simp⟩
  | _ => simp [Pc.via] at hv

theorem counts_one_of_off (ho : p.off = some fp) (h : Placed heap ch r p) : Foo.HasCount (heap fp) (· = 1) := by
  cases p <;> simp_all [Pc.off, Placed]

/-- What a place needs of the counts, the ids, the chains and the references. -/
theorem Placed.congr (h : Placed heap ch r p)
    (hc : ∀ q, p.counts = some q → (heap' q).map Foo.fCount = (heap q).map Foo.fCount)
    (hid : p.hash = true → ∀ i, ∀ q ∈ ch i, (heap' q).map Foo.fId = (heap q).map Foo.fId)
    (hch : p.hash = true → ch' = ch) : Placed heap' ch' r p := by
  have hcount : ∀ (f : Int32 → Prop) {q}, p.counts = some q → Foo.HasCount (heap q) f → Foo.HasCount (heap' q) f := by
    intro f q hq hf x hx
    have heq := hc q hq
    rw [hx] at heq
    obtain ⟨y, hy, hxy⟩ := Option.map_eq_some_iff.mp heq.symm
    rw [← hxy]
    exact hf y hy
  cases p with
  | allocHash q => exact hcount (· = 1) rfl h
  | allocPush q => exact hcount (· = 1) rfl h
  | releHead q => exact hcount (· = 1) rfl h
  | releUnhash q => exact hcount (· = 1) rfl h
  | releFreeUnlock q => exact hcount (· = 1) rfl h
  | releFree q => exact hcount (· = 1) rfl h
  | releDec q => exact hcount (· ≠ 1) rfl h
  | releKeep q => exact hcount (· ≠ 1) rfl h
  | releWalk q q' => exact ⟨hcount (· = 1) rfl h.1, hch rfl ▸ h.2⟩
  | findLoop id q =>
    obtain ⟨l₁, l₂, hl, hq, hne⟩ := h
    refine ⟨l₁, l₂, by rw [hch rfl, hl], hq, fun x hx o ho => ?_⟩
    have heq := hid rfl (HASH id) x (by rw [hl]; exact List.mem_append_left _ hx)
    rw [ho] at heq
    obtain ⟨o', ho', ho''⟩ := Option.map_eq_some_iff.mp heq.symm
    exact ho'' ▸ hne x hx o' ho'
  | findHold q =>
    have hq : ∃ i, q ∈ ch i := h
    rw [← hch rfl] at hq
    exact hq
  | findInc q =>
    have hq : ∃ i, q ∈ ch i := h
    rw [← hch rfl] at hq
    exact hq
  | _ => exact h

end Places

/-! ## What follows at once -/

section Facts

variable [Fintype T] {s : St T P} {ch : ℕ → List P} (h : Inv s ch) {t u : T} {fp : P}

include h

theorem Inv.exists_of_weight (hw : 0 < weight (s.pc t) (s.refs t) fp) : ∃ o, s.heap fp = some o := by
  have hle := Finset.single_le_sum (f := fun t => weight (s.pc t) (s.refs t) fp) (fun _ _ => Nat.zero_le _)
    (Finset.mem_univ t)
  change _ ≤ references s fp at hle
  rw [← h.count fp] at hle
  cases hh : s.heap fp with
  | none =>
    rw [hh] at hle
    exact absurd (hw.trans_le hle) (by simp [counted])
  | some o => exact ⟨o, rfl⟩

theorem Inv.weights_le (htu : u ≠ t) (fp : P) :
    weight (s.pc t) (s.refs t) fp + weight (s.pc u) (s.refs u) fp ≤ counted (s.heap fp) := by
  rw [h.count fp, references, ← Finset.sum_pair (f := fun t => weight (s.pc t) (s.refs t) fp) htu.symm]
  exact Finset.sum_le_sum_of_subset (Finset.subset_univ _)

/-- What was reached through the table is there. -/
theorem Inv.exists_of_via (hv : fp ∈ (s.pc t).via) : ∃ o, s.heap fp = some o := by
  obtain ⟨i, hi⟩ := via_listed hv (h.place t)
  obtain ⟨o, ho, -⟩ := (h.mem i fp).mp hi
  exact ⟨o, ho⟩

/-- **Every object that a thread is at work on is allocated.** -/
theorem Inv.live (hon : fp ∈ (s.pc t).on) : ∃ o, s.heap fp = some o := by
  rcases Pc.on_cases hon with hr | hl | hp | ⟨-, hv⟩
  · apply h.exists_of_weight (t := t)
    simp [weight, hr]
  · obtain ⟨o, ho, -⟩ := (h.lock t fp).mp hl
    exact ⟨o, ho⟩
  · have hpl := h.place t
    rw [hp] at hpl
    apply h.exists_of_weight (t := t)
    exact Nat.add_pos_left hpl _
  · exact h.exists_of_via hv

theorem Inv.alone_hash (ht : (s.pc t).hash = true) (hu : u ≠ t) : (s.pc u).hash = false := by
  by_contra hne
  have h₁ := (h.hash t).mp ht
  have h₂ := (h.hash u).mp (by simpa using hne)
  rw [h₁] at h₂
  exact hu (Option.some.inj h₂).symm

theorem Inv.alone_lock (ht : (s.pc t).lock = some fp) (hu : u ≠ t) : (s.pc u).lock ≠ some fp := by
  intro hne
  obtain ⟨o, ho, hot⟩ := (h.lock t fp).mp ht
  obtain ⟨o', ho', hou⟩ := (h.lock u fp).mp hne
  rw [ho] at ho'
  obtain rfl := Option.some.inj ho'
  rw [hot] at hou
  exact hu (Option.some.inj hou).symm

/-- Nobody else relies on the count that the owner of the `f_lock` changes. -/
theorem Inv.alone_counts (ht : (s.pc t).lock = some fp) (hu : u ≠ t) : (s.pc u).counts ≠ some fp := by
  intro hc
  rcases Pc.lock_or_off_of_counts hc with hl | ho
  · exact h.alone_lock ht hu hl
  · exact h.sole u fp ho t hu.symm (Pc.on_of_lock ht)

/-- The last reference, under both mutexes: nobody else is at work on the object. -/
theorem Inv.sole_of_count_one (hh : (s.pc t).hash = true) (hl : (s.pc t).lock = some fp) (hr : (s.pc t).ref = some fp)
    (hc : Foo.HasCount (s.heap fp) (· = 1)) (hu : u ≠ t) : fp ∉ (s.pc u).on := by
  intro hon
  obtain ⟨o, ho, -⟩ := (h.lock t fp).mp hl
  have hle := h.weights_le hu fp
  have hone : counted (s.heap fp) = 1 := by rw [ho]; exact counted_of_one (hc o ho)
  have hwt : 0 < weight (s.pc t) (s.refs t) fp := by simp [weight, hr]
  have hwu : weight (s.pc u) (s.refs u) fp = 0 := by omega
  rcases Pc.on_cases hon with hr' | hl' | hp | ⟨hh', -⟩
  · simp [weight, hr'] at hwu
  · exact h.alone_lock hl hu hl'
  · have hpl := h.place u
    rw [hp] at hpl
    have : 0 < s.refs u fp := hpl
    simp only [weight] at hwu
    omega
  · rw [h.alone_hash hh hu] at hh'
    simp at hh'

/-- Nobody else has a reference to an object that is off the table. -/
theorem Inv.refs_of_off (ho : (s.pc t).off = some fp) (hu : u ≠ t) : s.refs u fp = 0 := by
  have hle := h.weights_le hu fp
  obtain ⟨o, hheap⟩ := h.live (Pc.on_of_off ho)
  have hone : counted (s.heap fp) = 1 := by
    rw [hheap]
    exact counted_of_one (counts_one_of_off ho (h.place t) o hheap)
  have hwt : 0 < weight (s.pc t) (s.refs t) fp := by simp [weight, Pc.ref_of_off ho]
  have hwu : weight (s.pc u) (s.refs u) fp = 0 := by omega
  simp only [weight] at hwu
  omega

end Facts

end CppNotes.Threads
