import CppNotes.Lib.Linked
import Mathlib.Data.List.Perm.Subperm

/-!
# Records on linked chains

A table of `m` list heads and a set of nodes, each of them with a record and a pointer; every node is on exactly one of the
lists, and its record belongs there.  The heads are the locations `Loc.slot i`, the pointers of the nodes `Loc.node n`.

`Threaded m belongs cell rec ns ch` says so of the pointers `cell`, the records `rec` and the nodes `ns`, where `ch i` is the
`i`-th list.  A node moves from one list to another by three pointers (`Threaded.move`), in whichever order they are written;
a new one is put in front by two (`Threaded.push`).  What the lists have of nodes afterwards is `Placed` in both cases.

`Guarded p rec l` says that a list with a record that is not `p` starts with one: who reads the list from its head meets it at
once, whatever stands behind.

`Holds m home rec ch f` says that the lists are the chains of a hash table that holds the map `f`: a key is on the chain that
`home` gives it, and only once.  Lists that are no key's home, such as a free list, do not count.
-/

namespace CppNotes.Lib

inductive Loc (N : Type) where
  | slot (i : ℕ)
  | node (n : N)
  deriving DecidableEq

section Chains

variable {N R : Type} {m : ℕ} {belongs : ℕ → R → Prop} {cell cell' : Loc N → Option N} {rec : N → Option R}
  {ns : List N} {ch : ℕ → List N} {i j : ℕ} {n : N} {r : R} {l₁ l₂ : List N}

structure Threaded (m : ℕ) (belongs : ℕ → R → Prop) (cell : Loc N → Option N) (rec : N → Option R) (ns : List N)
    (ch : ℕ → List N) : Prop where
  linked : ∀ i < m, Linked Loc.node cell (.slot i) (ch i)
  mem : ∀ n, n ∈ ns ↔ ∃ i < m, n ∈ ch i
  apart : ∀ i < m, ∀ j < m, ∀ n, n ∈ ch i → n ∈ ch j → i = j
  fits : ∀ i < m, ∀ n ∈ ch i, ∃ r, rec n = some r ∧ belongs i r

/-- The location belongs to the list `i`: it is its head, or in one of its nodes. -/
def OnList (ch : ℕ → List N) (i : ℕ) (q : Loc N) : Prop := q ∈ Loc.slot i :: (ch i).map Loc.node

theorem onList_slot : OnList ch i (.slot j) ↔ j = i := by simp [OnList]

theorem onList_node : OnList ch i (.node n) ↔ n ∈ ch i := by simp [OnList]

/-- The pointer in front of a node of the list `i` belongs to that list. -/
theorem onList_before (hch : ch i = l₁ ++ n :: l₂) : OnList ch i (before Loc.node (.slot i) l₁) := by
  have := before_mem Loc.node (.slot i) l₁
  rw [OnList, hch, List.map_append, ← List.cons_append]
  exact List.mem_append_left _ this

/-- Every node stays on its list but for `n`, which is now on the list `j`. -/
def Placed (m : ℕ) (ch ch' : ℕ → List N) (n : N) (j : ℕ) : Prop :=
  ∀ k < m, ∀ x, x ∈ ch' k ↔ (x = n ∧ k = j) ∨ (x ≠ n ∧ x ∈ ch k)

/-- The lists after `n` has moved from the list `i` to the front of the list `j`. -/
def moved (ch : ℕ → List N) (i j : ℕ) (n : N) (rest : List N) : ℕ → List N :=
  Function.update (Function.update ch i rest) j (n :: ch j)

theorem moved_dst : moved ch i j n l₁ j = n :: ch j := Function.update_self ..

theorem moved_src (hij : i ≠ j) : moved ch i j n l₁ i = l₁ := by
  rw [moved, Function.update_of_ne hij, Function.update_self]

theorem moved_of_ne {k : ℕ} (hi : k ≠ i) (hj : k ≠ j) : moved ch i j n l₁ k = ch k := by
  rw [moved, Function.update_of_ne hj, Function.update_of_ne hi]

/-- The records of the list are all `p`. -/
def AllOn (p : R → Prop) (rec : N → Option R) (l : List N) : Prop := ∀ n ∈ l, ∀ r, rec n = some r → p r

def Guarded (p : R → Prop) (rec : N → Option R) (l : List N) : Prop :=
  AllOn p rec l ∨ ∃ n l' r, l = n :: l' ∧ rec n = some r ∧ ¬ p r

section Guarded

variable [DecidableEq N] {p : R → Prop} {l : List N}

theorem AllOn.update (h : AllOn p rec l) (hr : p r) : AllOn p (Function.update rec n (some r)) l := by
  intro x hx s hs
  rw [Function.update_apply] at hs
  split at hs
  · exact Option.some.inj hs ▸ hr
  · exact h x hx s hs

theorem AllOn.update_of_not_mem (h : AllOn p rec l) (hn : n ∉ l) (o : Option R) : AllOn p (Function.update rec n o) l := by
  intro x hx s hs
  rw [Function.update_of_ne (ne_of_mem_of_not_mem hx hn)] at hs
  exact h x hx s hs

theorem Guarded.update_of_not_mem (h : Guarded p rec l) (hn : n ∉ l) (o : Option R) :
    Guarded p (Function.update rec n o) l := by
  rcases h with h | ⟨x, l', s, rfl, hx, hs⟩
  · exact .inl (h.update_of_not_mem hn o)
  · refine .inr ⟨x, l', s, rfl, ?_, hs⟩
    rw [Function.update_of_ne (ne_of_mem_of_not_mem List.mem_cons_self hn), hx]

/-- Any record may be put in front. -/
theorem AllOn.guarded_cons (h : AllOn p rec l) (hn : n ∉ l) : Guarded p (Function.update rec n (some r)) (n :: l) := by
  by_cases hr : p r
  · refine .inl fun x hx s hs => ?_
    rcases List.mem_cons.mp hx with rfl | hx
    · rw [Function.update_self] at hs
      exact Option.some.inj hs ▸ hr
    · exact h.update_of_not_mem hn _ x hx s hs
  · exact .inr ⟨n, l, r, rfl, Function.update_self .., hr⟩

end Guarded

namespace Threaded

variable (h : Threaded m belongs cell rec ns ch)

include h

theorem nodup (hi : i < m) : (ch i).Nodup :=
  List.Nodup.of_map _ (List.nodup_cons.mp (h.linked i hi).nodup).2

theorem length_le (hi : i < m) : (ch i).length ≤ ns.length :=
  (List.subperm_of_subset (h.nodup hi) fun n hn => (h.mem n).mpr ⟨i, hi, hn⟩).length_le

/-- A location belongs to one list only. -/
theorem onList_unique {q : Loc N} (hi : i < m) (hj : j < m) (hqi : OnList ch i q) (hqj : OnList ch j q) : i = j := by
  cases q with
  | slot k => exact (onList_slot.mp hqi).symm.trans (onList_slot.mp hqj)
  | node n => exact h.apart i hi j hj n (onList_node.mp hqi) (onList_node.mp hqj)

theorem place [DecidableEq N] {ns' : List N} {ch' : ℕ → List N} (hj : j < m) (hr : belongs j r)
    (hl : ∀ k < m, Linked Loc.node cell' (.slot k) (ch' k)) (hns : ∀ x, x ∈ ns' ↔ x = n ∨ x ∈ ns)
    (hmem : Placed m ch ch' n j) : Threaded m belongs cell' (Function.update rec n (some r)) ns' ch' := by
  refine ⟨hl, fun x => ?_, fun k hk k' hk' x hx hx' => ?_, fun k hk x hx => ?_⟩
  · rw [hns, h.mem]
    constructor
    · intro hx
      by_cases hxn : x = n
      · exact ⟨j, hj, (hmem j hj x).mpr (.inl ⟨hxn, rfl⟩)⟩
      · obtain ⟨k, hk, hx⟩ := hx.resolve_left hxn
        exact ⟨k, hk, (hmem k hk x).mpr (.inr ⟨hxn, hx⟩)⟩
    · rintro ⟨k, hk, hx⟩
      rcases (hmem k hk x).mp hx with ⟨rfl, -⟩ | ⟨-, hx⟩
      · exact .inl rfl
      · exact .inr ⟨k, hk, hx⟩
  · rcases (hmem k hk x).mp hx with ⟨rfl, rfl⟩ | ⟨hxn, hx⟩ <;>
      rcases (hmem k' hk' x).mp hx' with ⟨hxn', rfl⟩ | ⟨hxn', hx'⟩
    · rfl
    · exact absurd rfl hxn'
    · exact absurd hxn' hxn
    · exact h.apart k hk k' hk' x hx hx'
  · rcases (hmem k hk x).mp hx with ⟨rfl, rfl⟩ | ⟨hxn, hx⟩
    · exact ⟨r, by simp, hr⟩
    · rw [Function.update_of_ne hxn]
      exact h.fits k hk x hx

theorem before_ne_node (hi : i < m) (hch : ch i = l₁ ++ n :: l₂) : before Loc.node (.slot i) l₁ ≠ .node n := by
  intro he
  have hmem := before_mem Loc.node (.slot i) l₁
  have hnd := h.nodup hi
  rw [hch] at hnd
  rw [he] at hmem
  exact (List.nodup_cons.mp (List.nodup_middle.mp hnd)).1 (List.mem_append_left _ (by simpa using hmem))

theorem before_ne_slot (hi : i < m) (hj : j < m) (hij : i ≠ j) (hch : ch i = l₁ ++ n :: l₂) :
    before Loc.node (.slot i) l₁ ≠ .slot j :=
  fun he => hij (h.onList_unique hi hj (onList_before hch) (he ▸ onList_slot.mpr rfl))

/-- A record changes where it is. -/
theorem rewrite [DecidableEq N] (hi : i < m) (hn : n ∈ ch i) (hr : belongs i r) :
    Threaded m belongs cell (Function.update rec n (some r)) ns ch := by
  refine ⟨h.linked, h.mem, h.apart, fun k hk x hx => ?_⟩
  by_cases hxn : x = n
  · subst hxn
    obtain rfl := h.apart _ hk _ hi _ hx hn
    exact ⟨r, by simp, hr⟩
  · rw [Function.update_of_ne hxn]
    exact h.fits k hk x hx

section Move

variable (hi : i < m) (hj : j < m) (hij : i ≠ j) (hch : ch i = l₁ ++ n :: l₂)

include hi hij hch

theorem placed_moved : Placed m ch (moved ch i j n (l₁ ++ l₂)) n j := by
  intro k hk x
  have hni : n ∈ ch i := by simp [hch]
  have hnk : k ≠ i → n ∉ ch k := fun hki hx => hki (h.apart k hk i hi n hx hni)
  by_cases hkj : k = j
  · subst hkj
    have := hnk hij.symm
    rw [moved_dst, List.mem_cons]
    constructor
    · rintro (rfl | hx)
      · exact .inl ⟨rfl, rfl⟩
      · exact .inr ⟨fun hxn => this (hxn ▸ hx), hx⟩
    · tauto
  by_cases hki : k = i
  · subst hki
    have hnd := h.nodup hi
    rw [hch] at hnd
    have hn := (List.nodup_cons.mp (List.nodup_middle.mp hnd)).1
    rw [moved_src hij, hch]
    simp only [List.mem_append, List.mem_cons] at hn ⊢
    constructor
    · intro hx
      exact .inr ⟨fun hxn => hn (hxn ▸ hx), by tauto⟩
    · tauto
  · rw [moved_of_ne hki hkj]
    constructor
    · exact fun hx => .inr ⟨fun hxn => hnk hki (hxn ▸ hx), hx⟩
    · tauto

include hj

/-- **A node moves**: the pointer in front of it takes over its pointer, it takes over the head of the list `j`, and becomes
that head. -/
theorem move [DecidableEq N] (hr : belongs j r) (hb : cell' (before Loc.node (.slot i) l₁) = cell (.node n))
    (hn : cell' (.node n) = cell (.slot j)) (hs : cell' (.slot j) = some n)
    (heq : ∀ q, q ≠ before Loc.node (.slot i) l₁ → q ≠ .node n → q ≠ .slot j → cell' q = cell q) :
    Threaded m belongs cell' (Function.update rec n (some r)) ns (moved ch i j n (l₁ ++ l₂)) := by
  have hni : OnList ch i (.node n) := onList_node.mpr (by simp [hch])
  have hbi := onList_before hch
  -- what is on another list is none of the three pointers, but for the head of the list `j`
  have hframe : ∀ k < m, k ≠ i → ∀ q, OnList ch k q → q ≠ .slot j → cell' q = cell q := fun k hk hki q hq =>
    heq q (fun he => hki (h.onList_unique hk hi hq (he ▸ hbi))) fun he => hki (h.onList_unique hk hi hq (he ▸ hni))
  refine h.place hj hr (fun k hk => ?_) (fun x => ?_) (h.placed_moved hi hij hch)
  · by_cases hkj : k = j
    · subst hkj
      rw [moved_dst]
      refine (h.linked k hk).push hs hn fun q hq => hframe k hk hij.symm q (List.mem_cons_of_mem _ hq) ?_
      rintro rfl
      simp at hq
    by_cases hki : k = i
    · subst hki
      have hl := h.linked k hk
      rw [hch] at hl
      rw [moved_src hij]
      refine hl.unlink hb fun q hq hqb => heq q hqb ?_ ?_
      · rintro rfl
        have hnd := h.nodup hi
        rw [hch] at hnd
        exact (List.nodup_cons.mp (List.nodup_middle.mp hnd)).1 (by simpa using hq)
      · rintro rfl
        have : j = k := by simpa using hq
        exact hkj this.symm
    · rw [moved_of_ne hki hkj]
      refine (h.linked k hk).congr fun q hq => hframe k hk hki q hq ?_
      rintro rfl
      exact hkj (onList_slot.mp hq).symm
  · constructor
    · exact .inr
    · rintro (rfl | hx)
      · exact (h.mem x).mpr ⟨i, hi, onList_node.mp hni⟩
      · exact hx

end Move

theorem placed_pushed (hnew : n ∉ ns) : Placed m ch (Function.update ch j (n :: ch j)) n j := by
  intro k hk x
  have hnk : n ∉ ch k := fun hx => hnew ((h.mem n).mpr ⟨k, hk, hx⟩)
  by_cases hkj : k = j
  · subst hkj
    rw [Function.update_self, List.mem_cons]
    by_cases hxn : x = n <;> simp [hxn]
  · rw [Function.update_of_ne hkj]
    constructor
    · exact fun hx => .inr ⟨fun hxn => hnk (hxn ▸ hx), hx⟩
    · tauto

/-- **A new node** is put in front of the list `j`. -/
theorem push [DecidableEq N] (hj : j < m) (hnew : n ∉ ns) (hr : belongs j r) (hn : cell' (.node n) = cell (.slot j))
    (hs : cell' (.slot j) = some n) (heq : ∀ q, q ≠ .node n → q ≠ .slot j → cell' q = cell q) :
    Threaded m belongs cell' (Function.update rec n (some r)) (ns ++ [n]) (Function.update ch j (n :: ch j)) := by
  have hnot : ∀ k < m, n ∉ ch k := fun k hk hx => hnew ((h.mem n).mpr ⟨k, hk, hx⟩)
  refine h.place hj hr (fun k hk => ?_) (fun x => ?_) (h.placed_pushed hnew)
  · by_cases hkj : k = j
    · subst hkj
      rw [Function.update_self]
      refine (h.linked k hk).push hs hn fun q hq => heq q ?_ ?_
      · rintro rfl
        exact hnot k hk (by simpa using hq)
      · rintro rfl
        simp at hq
    · rw [Function.update_of_ne hkj]
      refine (h.linked k hk).congr fun q hq => heq q ?_ ?_
      · rintro rfl
        exact hnot k hk (onList_node.mp hq)
      · rintro rfl
        exact hkj (onList_slot.mp hq).symm
  · rw [List.mem_append, List.mem_singleton, or_comm]

end Threaded

end Chains

/-! ## The map of a hash table -/

section Maps

variable {N K V : Type} {m : ℕ} {home : K → ℕ} {rec : N → Option (K × V)} {ch ch' : ℕ → List N} {f : K → Option V} {n : N}
  {j : ℕ} {k : K} {v v' : V}

structure Holds (home : K → ℕ) (rec : N → Option (K × V)) (ch : ℕ → List N) (f : K → Option V) : Prop where
  get : ∀ k v, f k = some v ↔ ∃ n ∈ ch (home k), rec n = some (k, v)
  once : ∀ k v v', ∀ n ∈ ch (home k), ∀ n' ∈ ch (home k), rec n = some (k, v) → rec n' = some (k, v') → n = n'

namespace Holds

variable [DecidableEq N] [DecidableEq K] (h : Holds home rec ch f) (hm : ∀ k, home k < m)

include h

/-- The node of a key gets another value. -/
theorem replace (hn : n ∈ ch (home k)) (hr : rec n = some (k, v)) :
    Holds home (Function.update rec n (some (k, v'))) ch (Function.update f k (some v')) := by
  -- the records are as before but for the value in `n`
  have hrec : ∀ x k' w, Function.update rec n (some (k, v')) x = some (k', w) →
      ∃ w', rec x = some (k', w') ∧ (x ≠ n → w' = w) := by
    intro x k' w hx
    by_cases hxn : x = n
    · subst hxn
      rw [Function.update_self, Option.some.injEq, Prod.mk.injEq] at hx
      exact ⟨v, by rw [hr, hx.1], fun hne => absurd rfl hne⟩
    · rw [Function.update_of_ne hxn] at hx
      exact ⟨w, hx, fun _ => rfl⟩
  refine ⟨fun k' w => ?_, fun k' w w' x hx y hy hxw hyw => ?_⟩
  · by_cases hk : k' = k
    · subst hk
      rw [Function.update_self]
      constructor
      · intro hw
        exact ⟨n, hn, by rw [Function.update_self, Option.some.inj hw]⟩
      · rintro ⟨x, hx, hxw⟩
        obtain ⟨w', hw', -⟩ := hrec x k' w hxw
        obtain rfl := h.once k' v w' n hn x hx hr hw'
        rw [Function.update_self, Option.some.injEq, Prod.mk.injEq] at hxw
        rw [hxw.2]
    · rw [Function.update_of_ne hk, h.get]
      constructor
      · rintro ⟨x, hx, hxw⟩
        refine ⟨x, hx, ?_⟩
        rw [Function.update_of_ne, hxw]
        rintro rfl
        exact hk (congrArg Prod.fst (Option.some.inj (hxw.symm.trans hr)))
      · rintro ⟨x, hx, hxw⟩
        obtain ⟨w', hw', hne⟩ := hrec x k' w hxw
        refine ⟨x, hx, ?_⟩
        rw [hw', hne]
        rintro rfl
        exact hk (congrArg Prod.fst (Option.some.inj (hw'.symm.trans hr)))
  · obtain ⟨u, hu, -⟩ := hrec x k' w hxw
    obtain ⟨u', hu', -⟩ := hrec y k' w' hyw
    exact h.once k' u u' x hx y hy hu hu'

include hm

/-- The node of a key is placed on a list that does not count. -/
theorem remove (hp : Placed m ch ch' n j) (hj : ∀ k, home k ≠ j) (hn : n ∈ ch (home k)) (hr : rec n = some (k, v))
    (r : Option (K × V)) : Holds home (Function.update rec n r) ch' (Function.update f k none) := by
  have hmem : ∀ k' x w, x ∈ ch' (home k') ∧ Function.update rec n r x = some (k', w) ↔
      x ≠ n ∧ x ∈ ch (home k') ∧ rec x = some (k', w) := by
    intro k' x w
    rw [hp _ (hm k')]
    by_cases hxn : x = n
    · simp [hxn, hj k']
    · simp [hxn, Function.update_of_ne]
  refine ⟨fun k' w => ?_, fun k' w w' x hx y hy hxw hyw => ?_⟩
  · have : (∃ x ∈ ch' (home k'), Function.update rec n r x = some (k', w)) ↔
        ∃ x, x ≠ n ∧ x ∈ ch (home k') ∧ rec x = some (k', w) := exists_congr fun x => hmem k' x w
    rw [this]
    by_cases hk : k' = k
    · subst hk
      rw [Function.update_self]
      constructor
      · simp
      · rintro ⟨x, hxn, hx, hxw⟩
        exact absurd (h.once k' w v x hx n hn hxw hr) hxn
    · rw [Function.update_of_ne hk, h.get]
      refine exists_congr fun x => ⟨fun hx => ⟨?_, hx⟩, fun hx => hx.2⟩
      rintro rfl
      exact hk (congrArg Prod.fst (Option.some.inj (hx.2.symm.trans hr)))
  · have h₁ := (hmem k' x w).mp ⟨hx, hxw⟩
    have h₂ := (hmem k' y w').mp ⟨hy, hyw⟩
    exact h.once k' w w' x h₁.2.1 y h₂.2.1 h₁.2.2 h₂.2.2

/-- A node that does not count is placed on the chain of a new key. -/
theorem add (hp : Placed m ch ch' n (home k)) (hn : ∀ k, n ∉ ch (home k)) (hf : f k = none) :
    Holds home (Function.update rec n (some (k, v))) ch' (Function.update f k (some v)) := by
  have hmem : ∀ k' x w, x ∈ ch' (home k') ∧ Function.update rec n (some (k, v)) x = some (k', w) ↔
      (x = n ∧ k' = k ∧ w = v) ∨ (x ≠ n ∧ x ∈ ch (home k') ∧ rec x = some (k', w)) := by
    intro k' x w
    rw [hp _ (hm k')]
    by_cases hxn : x = n
    · simp only [hxn, true_and, ne_eq, not_true_eq_false, false_and, or_false, Function.update_self, Option.some.injEq,
        Prod.mk.injEq]
      constructor
      · rintro ⟨-, rfl, rfl⟩
        exact ⟨rfl, rfl⟩
      · rintro ⟨rfl, rfl⟩
        exact ⟨rfl, rfl, rfl⟩
    · simp [hxn, Function.update_of_ne]
  have hno : ∀ x ∈ ch (home k), ∀ w, rec x ≠ some (k, w) := by
    intro x hx w hxw
    have := (h.get k w).mpr ⟨x, hx, hxw⟩
    rw [hf] at this
    simp at this
  refine ⟨fun k' w => ?_, fun k' w w' x hx y hy hxw hyw => ?_⟩
  · have : (∃ x ∈ ch' (home k'), Function.update rec n (some (k, v)) x = some (k', w)) ↔
        ∃ x, (x = n ∧ k' = k ∧ w = v) ∨ (x ≠ n ∧ x ∈ ch (home k') ∧ rec x = some (k', w)) :=
      exists_congr fun x => hmem k' x w
    rw [this]
    by_cases hk : k' = k
    · subst hk
      rw [Function.update_self, Option.some.injEq]
      constructor
      · exact fun hv => ⟨n, .inl ⟨rfl, rfl, hv.symm⟩⟩
      · rintro ⟨x, ⟨-, -, hw⟩ | ⟨-, hx, hxw⟩⟩
        · exact hw.symm
        · exact absurd hxw (hno x hx w)
    · rw [Function.update_of_ne hk, h.get]
      refine exists_congr fun x => ⟨fun hx => .inr ⟨?_, hx⟩, ?_⟩
      · rintro rfl
        exact hn k' hx.1
      · rintro (⟨-, hk', -⟩ | ⟨-, hx⟩)
        · exact absurd hk' hk
        · exact hx
  · rcases (hmem k' x w).mp ⟨hx, hxw⟩ with ⟨hxn, hk, -⟩ | ⟨-, hx₁, hx₂⟩ <;>
      rcases (hmem k' y w').mp ⟨hy, hyw⟩ with ⟨hyn, hk', -⟩ | ⟨-, hy₁, hy₂⟩
    · rw [hxn, hyn]
    · rw [hk] at hy₁ hy₂
      exact absurd hy₂ (hno y hy₁ w')
    · rw [hk'] at hx₁ hx₂
      exact absurd hx₂ (hno x hx₁ w)
    · exact h.once k' w w' x hx₁ y hy₁ hx₂ hy₂

end Holds

end Maps

end CppNotes.Lib
