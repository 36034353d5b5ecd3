import CppNotes.Db.Map

/-!
# A key with a colon in it

`_db_writeidx` separates the key, the offset and the length with colons, and does not look for colons in the key.
`_db_readidx` ends the process when it meets a third one.  So a key with a colon can be stored once, and from then on every
call that looks at its chain ends the process: also the calls for other keys of that chain, and also after the database was
closed and opened again.  The calls that look at other chains go on as if nothing had happened.
-/

namespace CppNotes.Db

open CppNotes.Lib

/-- The states of the runs in which the keys may have colons in them, up to a call that does not return. -/
def ColonRuns (s : DB × Map) : Prop :=
  ∃ files db, dbOpen true true files = .ok (some db) ∧ Reach step (fun s c => c.Fits s.1) (db, fun _ => none) s

section Calls

variable {s s' : DB × Map} {c : Call} {i : ℕ}

/-- Who looks at a chain with a colon in a key does not come back. -/
theorem Rep.call_colon (h : Rep s) {db : DB} (hc : c.Fits db) (hi : c.chain = some i) (hclear : ¬ Clear s.2 i) :
    c.run s.1 = .error (.dump "_db_readidx: too many separators") := by
  obtain ⟨d, ch, hst⟩ := h
  have hfind {key : List UInt8} (hk : some (home key) = some i) (w : Bool) :
      findAndLock s.1 key w = .error (.dump "_db_readidx: too many separators") := by
    obtain rfl := Option.some.inj hk
    exact findAndLock_colon hst hclear w
  cases c with
  | fetch key =>
    rw [Call.run, Db.fetch, hfind hi]
    rfl
  | delete key =>
    rw [Call.run, Db.delete, hfind hi]
    rfl
  | store key data flag =>
    by_cases hbad : flag ≠ DB_INSERT ∧ flag ≠ DB_REPLACE ∧ flag ≠ DB_STORE
    · rw [Call.chain, if_pos hbad] at hi
      simp at hi
    · rw [Call.chain, if_neg hbad] at hi
      rw [Call.run, store_eq (by tauto) hc.2.1, hfind hi]
      rfl
  | reopen => simp [Call.chain] at hi

/-- So the chains that a call has looked at are clear if it has returned. -/
theorem Rep.clear_of_step (h : Rep s) (hc : c.Fits s.1) (hs : step s c = some s') : ∀ i ∈ c.chain, Clear s.2 i := by
  intro i hi
  by_contra hclear
  rw [step, h.call_colon hc hi hclear] at hs
  simp [Except.toOption] at hs

theorem ColonRuns.rep (h : ColonRuns s) : Rep s := by
  obtain ⟨files, db, ho, hr⟩ := h
  exact hr.invariant Rep (rep_created ho) fun s s' c _ hs hc hstep => (hs.next hc (hs.clear_of_step hc hstep) hstep).1

/-- A key with a colon stays where it is: no call that changes its chain returns. -/
theorem Rep.not_clear_step (h : Rep s) (hc : c.Fits s.1) (hs : step s c = some s') (hclear : ¬ Clear s.2 i) :
    ¬ Clear s'.2 i := by
  have hlooks := h.clear_of_step hc hs
  rw [(h.next hc hlooks hs).2]
  intro hclear'
  refine hclear fun k v hm hk => ?_
  rcases c.meaning_map s.2 with hmean | ⟨key, w, hmean, hchain, -⟩
  · exact hclear' k v (by rw [hmean, hm]) hk
  · by_cases hkey : k = key
    · exact hlooks (home key) hchain k v hm (by rw [hkey])
    · exact hclear' k v (by rw [hmean, Function.update_of_ne hkey, hm]) hk

end Calls

/-- **A key with a colon spoils its chain for ever.**  In every state of a run in which the keys may have colons, a call that
looks at a chain without such a key answers what the map answers; so a key with a colon is stored like any other one.  A call
that looks at a chain with such a key ends the process, now and in every later state of the run. -/
theorem colon_key_spoils_chain {s : DB × Map} (h : ColonRuns s) {c : Call} (hc : c.Fits s.1) :
    ((∀ i ∈ c.chain, Clear s.2 i) → ∃ db', c.run s.1 = .ok ((c.meaning s.2).1, db')) ∧
    ∀ i ∈ c.chain, ¬ Clear s.2 i → ∀ s', Reach step (fun s c => c.Fits s.1) s s' →
      c.run s'.1 = .error (.dump "_db_readidx: too many separators") := by
  constructor
  · intro hclear
    obtain ⟨db', hrun, -⟩ := h.rep.call hc hclear
    exact ⟨db', hrun⟩
  · intro i hi hclear s' hr
    have hinv : Rep s' ∧ ¬ Clear s'.2 i :=
      hr.invariant (fun t => Rep t ∧ ¬ Clear t.2 i) ⟨h.rep, hclear⟩ fun t t' c' _ ht hc' hstep =>
        ⟨(ht.1.next hc' (ht.1.clear_of_step hc' hstep) hstep).1, ht.1.not_clear_step hc' hstep ht.2⟩
    exact hinv.1.call_colon hc hi hinv.2

/-- `A:B` is stored; then the database is closed and opened again, and `A:B` cannot be fetched. -/
theorem colon_key_not_fetched : ∃ db₀ db₁ db₂, ColonRuns (db₀, fun _ => none) ∧
    (Call.store [65, 58, 66] [67, 68] DB_INSERT).run db₀ = .ok (.rc 0, db₁) ∧
    Call.reopen.run db₁ = .ok (.handle true, db₂) ∧
    (Call.fetch [65, 58, 66]).run db₂ = .error (.dump "_db_readidx: too many separators") := by
  obtain ⟨db₀, ho, hst⟩ := dbOpen_created none
  have h₀ : ColonRuns (db₀, fun _ => none) := ⟨none, db₀, ho, .init⟩
  have hlen : Disk.empty.idx.length = 967 := Disk.empty_sound.ok.idx_length
  have hc : (Call.store [65, 58, 66] [67, 68] DB_INSERT).Fits db₀ :=
    ⟨⟨by decide, fun h => absurd (h 65 (by decide)) (by decide), by decide⟩, dataOk_cd, by rw [hst.idx, hlen]; decide⟩
  obtain ⟨db₁, hrun₁⟩ := (colon_key_spoils_chain h₀ hc).1 (by simp [Clear])
  have hr₁ : Reach step (fun s c => c.Fits s.1) (db₀, fun _ => none)
      (db₁, Function.update (fun _ => none) [65, 58, 66] (some [67, 68])) := .next .init hc (step_of_run hrun₁)
  have h₁ : ColonRuns (db₁, Function.update (fun _ => none) [65, 58, 66] (some [67, 68])) := ⟨none, db₀, ho, hr₁⟩
  obtain ⟨db₂, hrun₂⟩ := (colon_key_spoils_chain h₁ (c := .reopen) trivial).1 (by simp [Call.chain])
  refine ⟨db₀, db₁, db₂, h₀, hrun₁, hrun₂, ?_⟩
  have hstored : Function.update (fun _ => none : Map) [65, 58, 66] (some [67, 68]) [65, 58, 66] = some [67, 68] :=
    Function.update_self ..
  exact (colon_key_spoils_chain h₁ (c := .fetch [65, 58, 66]) trivial).2 _ rfl
    (fun hclear => hclear _ _ hstored rfl (by decide)) (db₂, _)
    (.next .init (show Call.reopen.Fits db₁ from trivial) (step_of_run hrun₂))

end CppNotes.Db
