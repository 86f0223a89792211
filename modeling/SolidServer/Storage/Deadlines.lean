import SolidServer.Storage.Eviction

/-!
# Accepted deadlines

A deadline is accepted if it has not passed, to the nanosecond, and kept as the whole second it
is in.  Until that second begins, the value is there, whatever is done to other keys and
wherever the sweeps are.
-/

open Text

namespace Storage

/-- An operation that does not update the key leaves it as it is. -/
theorem Reference.step_of_not_mutates (ref : Reference) (now : SystemTime) {op : ExpiringOp}
    {k : Str} (h : ¬ op.Mutates k) :
  ref.step now op k = ref k
  := by
  cases op with
  | set k' v => exact Function.update_of_ne (Ne.symm h) _ _
  | setExpiring k' v expires =>
      cases expires with
      | none => exact Function.update_of_ne (Ne.symm h) _ _
      | some t =>
          rw [Reference.step]
          split
          · rfl
          · exact Function.update_of_ne (Ne.symm h) _ _
  | delete k' => exact Function.update_of_ne (Ne.symm h) _ _
  | get _ | has _ | entries | sweep => rfl

theorem Reference.stepAll_of_not_mutates (ref : Reference) {run : List Step} {k : Str}
    (h : ∀ st ∈ run, ¬ st.op.Mutates k) :
  Reference.stepAll run ref k = ref k
  := by
  induction run generalizing ref with
  | nil => rfl
  | cons st run ih =>
      obtain ⟨hst, hrun⟩ := List.forall_mem_cons.mp h
      rw [Reference.stepAll, List.foldl_cons]
      exact (ih _ hrun).trans (step_of_not_mutates ref st.now hst)

variable {σ : Type} (M : LawfulMap σ Str ExpiresWrapper)

/-- A deadline that is accepted has not been reached. -/
theorem lt_of_accepted {s : σ} {store : Step} {k v : Str} {t : SystemTime}
    (hop : store.op = .setExpiring k v (some t))
    (hok : (perform M store s).1 = .stored (.ok ())) :
  store.now < t
  := by
  have answers := (simulates_ofSource (M := M) store.now s).perform.1
  rw [hop, hok] at answers
  by_contra hle
  rw [Reference.Answers, if_pos (Int.not_lt.mp hle)] at answers
  cases answers

/-- After a deadline is accepted, every `get` of the key returns the value until the whole second
of the deadline begins, if no other operation updates the key. -/
theorem accepted_deadline_kept {s : σ} {store : Step} {k v : Str} {t : SystemTime}
    (hop : store.op = .setExpiring k v (some t))
    (hok : (perform M store s).1 = .stored (.ok ())) {between : List Step}
    (hquiet : ∀ st ∈ between, ¬ st.op.Mutates k) {get : Step} (hget : get.op = .get k)
    (horder : InOrder (store :: between ++ [get])) (hbefore : asSecs get.now < asSecs t) :
  (perform M get (performAll M (store :: between) s)).1 = .found (.ok (some v))
  := by
  have stored : (Reference.ofSource M s).step store.now store.op k = some (v, some t) := by
    rw [hop, Reference.step, if_neg (Int.not_le.mpr (lt_of_accepted M hop hok))]
    apply Function.update_self
  have kept : Reference.stepAll (store :: between) (Reference.ofSource M s) k
      = some (v, some t) := by
    rw [← stored]
    apply Reference.stepAll_of_not_mutates _ hquiet
  have answers := (simulates_performAll (M := M) horder s).perform.1
  rw [hget] at answers
  rw [answers, Reference.visible, kept]
  simp [Reference.isVisible, hbefore]

/-- At 10 s, store a value until 12.5 s. -/
def storeUntil : Step :=
  ⟨.setExpiring "k".toList "v".toList (some 12500000000), ofSecs 10, fun _ => false⟩

/-- Get the value. -/
def getAt (now : SystemTime) : Step :=
  ⟨.get "k".toList, now, fun _ => false⟩

theorem accepted_deadline_kept_storeUntil :
  (perform LawfulMap.ofAList (getAt 11900000000)
    (performAll LawfulMap.ofAList [storeUntil, ⟨.sweep, ofSecs 11, fun _ => false⟩] ∅)).1
    = .found (.ok (some "v".toList))
  := by
  have hop : storeUntil.op = .setExpiring "k".toList "v".toList (some 12500000000) := rfl
  have quiet : ∀ st ∈ [(⟨.sweep, ofSecs 11, fun _ => false⟩ : Step)],
      ¬ st.op.Mutates "k".toList := by
    simp [ExpiringOp.Mutates]
  apply accepted_deadline_kept LawfulMap.ofAList hop rfl quiet rfl
  · simp [InOrder, storeUntil, getAt, ofSecs]
  · decide

/-- At 12.2 s the value is gone. -/
theorem not_accepted_deadline_kept :
  ¬ ∀ (s : AList fun _ : Str => ExpiresWrapper) (store : Step) (k v : Str) (t : SystemTime),
    store.op = .setExpiring k v (some t) →
    (perform LawfulMap.ofAList store s).1 = .stored (.ok ()) →
    ∀ between : List Step, (∀ st ∈ between, ¬ st.op.Mutates k) →
    ∀ get : Step, get.op = .get k → InOrder (store :: between ++ [get]) → get.now < t →
      (perform LawfulMap.ofAList get (performAll LawfulMap.ofAList (store :: between) s)).1
        = .found (.ok (some v))
  := by
  intro h
  have found := h ∅ storeUntil "k".toList "v".toList 12500000000 rfl rfl [] (by simp)
    (getAt 12200000000) rfl (by simp [InOrder, storeUntil, getAt, ofSecs]) (by decide)
  cases found

end Storage
