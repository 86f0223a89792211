import SolidServer.Storage.Expiring

/-!
# The reference semantics of expiring storage

A reference map keeps every accepted entry with its deadline until it is overwritten or
deleted, and shows it as long as the whole second of the clock is below that of the
deadline.  The storage answers as the reference map does: its source has the entries of the
reference map, except that some of those no longer shown may be missing, and neither sweeps
nor failing evictions change that.
-/

open Text Atomic

namespace Storage

/-- The reference map: values with their deadlines. -/
abbrev Reference := Str → Option (Str × Option SystemTime)

namespace Reference

/-- The deadline has not been reached, in whole seconds. -/
def isVisible (now : SystemTime) : Option SystemTime → Bool
  | some t => asSecs now < asSecs t
  | none => true

/-- The value shown under a key. -/
def visible (ref : Reference) (now : SystemTime) (k : Str) : Option Str :=
  (ref k).bind fun x => if isVisible now x.2 then some x.1 else none

/-- What an operation does to the reference map at the time `now`. -/
def step (ref : Reference) (now : SystemTime) : ExpiringOp → Reference
  | .set k v => Function.update ref k (some (v, none))
  | .setExpiring k v none => Function.update ref k (some (v, none))
  | .setExpiring k v (some t) =>
      if t ≤ now then ref else Function.update ref k (some (v, some t))
  | .delete k => Function.update ref k none
  | .get _ | .has _ | .entries | .sweep => ref

/-- What an operation returns according to the reference map; nothing is said about the result
of a deletion. -/
def Answers (ref : Reference) (now : SystemTime) : ExpiringOp → ExpiringVal → Prop
  | .get k, val => val = .found (.ok (ref.visible now k))
  | .has k, val => val = .has (.ok (ref.visible now k).isSome)
  | .entries, val => ∃ l, val = .listed (.ok l) ∧ (l.map Prod.fst).Nodup ∧
      ∀ k v, (k, v) ∈ l ↔ ref.visible now k = some v
  | .set _ _, val => val = .stored (.ok ())
  | .setExpiring _ _ none, val => val = .stored (.ok ())
  | .setExpiring _ _ (some t), val =>
      val = .stored (if t ≤ now then .error .alreadyExpired else .ok ())
  | .delete _, _ => True
  | .sweep, val => val = .swept

/-- The wrapper of a value with its deadline. -/
def wrap (x : Str × Option SystemTime) : ExpiresWrapper :=
  ExpiresWrapper.new x.1 x.2

theorem isVisible_eq (now : SystemTime) (x : Str × Option SystemTime) :
  isVisible now x.2 = !(wrap x).expiredAt now
  := by
  obtain ⟨v, t⟩ := x
  cases t with
  | none => rfl
  | some t =>
      simp only [isVisible, wrap, ExpiresWrapper.new, ExpiresWrapper.expiredAt, Option.map_some,
        ← decide_not]
      apply decide_eq_decide.mpr
      omega

/-- A value is shown before its deadline only. -/
theorem lt_of_visible_eq_some {ref : Reference} {now t : SystemTime} {k v v' : Str}
    (hk : ref k = some (v, some t)) (h : ref.visible now k = some v') :
  now < t
  := by
  rw [visible, hk, Option.bind_some] at h
  obtain ⟨hvisible, -⟩ := Option.ite_none_right_eq_some.mp h
  by_contra hle
  have := asSecs_mono (Int.not_lt.mp hle)
  simp only [isVisible, decide_eq_true_eq] at hvisible
  omega

/-- What is no longer shown stays so. -/
theorem visible_eq_none_mono {ref : Reference} {now now' : SystemTime} (h : now ≤ now') {k : Str}
    (hk : ref.visible now k = none) :
  ref.visible now' k = none
  := by
  rw [visible] at hk ⊢
  cases hx : ref k with
  | none => rfl
  | some x =>
      rw [hx] at hk
      simp only [Option.bind_some, ite_eq_right_iff, reduceCtorEq, imp_false, isVisible_eq,
        Bool.not_eq_true, Bool.not_eq_false'] at hk ⊢
      apply ExpiresWrapper.expiredAt_mono h hk

end Reference

variable {σ : Type} (M : LawfulMap σ Str ExpiresWrapper)

/-! ### Programs run at one reading of the clock -/

section

variable (fails : Str → Bool) (s : σ) (t : SystemTime)

theorem run_isExpired (wrapper : ExpiresWrapper) :
  wrapper.isExpired.run (SourceCmd.exec M fails) ⟨s, t⟩ = (wrapper.expiredAt t, ⟨s, t⟩)
  := by
  rw [ExpiresWrapper.isExpired, ExpiresWrapper.expiredAt]
  cases wrapper.expires <;> rfl

theorem run_filterLive (l : List (Str × ExpiresWrapper)) :
  (WrappedExpiringStorage.filterLive l).run (SourceCmd.exec M fails) ⟨s, t⟩ =
    ((l.filter fun e => !e.2.expiredAt t).map fun e => (e.1, e.2.payload), ⟨s, t⟩)
  := by
  induction l with
  | nil => rfl
  | cons e l ih =>
      obtain ⟨k, v⟩ := e
      rw [WrappedExpiringStorage.filterLive, Prog.run_bind, run_isExpired]
      cases hv : v.expiredAt t with
      | true => simp [ih, hv]
      | false => simp [ih, hv]

theorem run_collectExpired (l : List (Str × ExpiresWrapper)) :
  (WrappedExpiringStorage.collectExpired l).run (SourceCmd.exec M fails) ⟨s, t⟩ =
    ((l.filter fun e => e.2.expiredAt t).map Prod.fst, ⟨s, t⟩)
  := by
  induction l with
  | nil => rfl
  | cons e l ih =>
      obtain ⟨k, v⟩ := e
      rw [WrappedExpiringStorage.collectExpired, Prog.run_bind, run_isExpired]
      cases hv : v.expiredAt t with
      | true => simp [ih, hv]
      | false => simp [ih, hv]

theorem run_deleteAll (ks : List Str) :
  (WrappedExpiringStorage.deleteAll ks).run (SourceCmd.exec M fails) ⟨s, t⟩ =
    ((), ⟨ks.foldl (fun s k => if fails k then s else (M.delete s k).2) s, t⟩)
  := by
  induction ks generalizing s with
  | nil => rfl
  | cons k ks ih =>
      rw [WrappedExpiringStorage.deleteAll, Prog.call_bind, Prog.run_act, List.foldl_cons]
      cases hf : fails k <;> simp [SourceCmd.exec, hf, ih]

/-- The value of a key in the source, unless its entry has expired. -/
def liveValue (k : Str) : Option Str :=
  (M.get s k).bind fun w => if w.expiredAt t then none else some w.payload

/-- The source `s'` is `s` after deletions of entries that have expired. -/
def Evicted (s' : σ) : Prop :=
  ∀ k, M.get s' k = M.get s k ∨
    (M.get s' k = none ∧ ∃ w, M.get s k = some w ∧ w.expiredAt t = true)

/-- What an eviction leaves of what is stored under a key: nothing, if it has expired and its
deletion works. -/
def evict (k : Str) (found : Option ExpiresWrapper) : Option ExpiresWrapper :=
  found.filter fun w => fails k || !w.expiredAt t

theorem evict_gone {k : Str} {w : ExpiresWrapper} (he : w.expiredAt t = true)
    (hf : fails k = false) :
  evict fails t k (some w) = none
  := by
  apply Option.filter_eq_none_iff.mpr
  intro w' hw'
  obtain rfl := Option.some.inj hw'
  simp [he, hf]

theorem evict_kept {k : Str} {w : ExpiresWrapper} (h : w.expiredAt t = true → fails k = true) :
  evict fails t k (some w) = some w
  := by
  apply Option.filter_eq_some_iff.mpr
  use rfl
  cases he : w.expiredAt t with
  | false => simp
  | true => simp [h he]

variable {M fails s t} in
theorem evicted_of_evict {s' : σ}
    (h : ∀ k, M.get s' k = M.get s k ∨ M.get s' k = evict fails t k (M.get s k)) :
  Evicted M s t s'
  := by
  intro k
  rcases h k with hk | hk
  · exact .inl hk
  · rw [hk]
    cases hw : M.get s k with
    | none => exact .inl rfl
    | some w =>
        by_cases hgone : w.expiredAt t = true ∧ fails k = false
        · exact .inr ⟨evict_gone fails t hgone.1 hgone.2, w, rfl, hgone.1⟩
        · left
          apply evict_kept
          simpa using hgone

theorem run_get (k : Str) :
  ∃ s', (WrappedExpiringStorage.get k).run (SourceCmd.exec M fails) ⟨s, t⟩ =
      (.ok (liveValue M s t k), ⟨s', t⟩) ∧
    ∀ k', M.get s' k' = if k' = k then evict fails t k (M.get s k) else M.get s k'
  := by
  rw [WrappedExpiringStorage.get, Prog.call_bind, Prog.run_act, liveValue]
  have same : evict fails t k (M.get s k) = M.get s k →
      ∀ k', M.get s k' = if k' = k then evict fails t k (M.get s k) else M.get s k' := by
    intro h k'
    rw [h]
    split
    · subst_vars
      rfl
    · rfl
  cases hw : M.get s k with
  | none =>
      rw [hw] at same
      use s
      simp only [SourceCmd.exec, hw]
      exact ⟨rfl, same rfl⟩
  | some w =>
      rw [hw] at same
      simp only [SourceCmd.exec, hw, Prog.run_bind, run_isExpired, Option.bind_some]
      cases he : w.expiredAt t with
      | false =>
          use s
          exact ⟨rfl, same (evict_kept fails t (by simp [he]))⟩
      | true =>
          by_cases hf : fails k = true
          · use s
            simp only [if_true, Prog.call_bind, Prog.run_act, SourceCmd.exec, hf]
            exact ⟨rfl, same (evict_kept fails t fun _ => hf)⟩
          · use (M.delete s k).2
            simp only [if_true, Prog.call_bind, Prog.run_act, SourceCmd.exec, hf]
            use rfl
            intro k'
            rw [M.get_delete, evict_gone fails t he (by simpa using hf)]

variable {M fails s t} in
theorem evicted_of_get {k : Str} {s' : σ}
    (h : ∀ k', M.get s' k' = if k' = k then evict fails t k (M.get s k) else M.get s k') :
  Evicted M s t s'
  := by
  have evicted : ∀ k', M.get s' k' = M.get s k' ∨
      M.get s' k' = evict fails t k' (M.get s k') := by
    intro k'
    rw [h]
    split
    · subst_vars
      exact .inr rfl
    · exact .inl rfl
  apply evicted_of_evict evicted

theorem run_setExpiring (k v : Str) (deadline : SystemTime) :
  (WrappedExpiringStorage.setExpiring k v (some deadline)).run (SourceCmd.exec M fails) ⟨s, t⟩ =
    if deadline ≤ t then (.error .alreadyExpired, ⟨s, t⟩)
    else (.ok (), ⟨M.set s k (ExpiresWrapper.new v (some deadline)), t⟩)
  := by
  rw [WrappedExpiringStorage.setExpiring_some, Prog.run_act, SourceCmd.exec]
  split <;> rfl

theorem run_sweep :
  ∃ s', WrappedExpiringStorage.sweep.run (SourceCmd.exec M fails) ⟨s, t⟩ = ((), ⟨s', t⟩) ∧
    ∀ k, M.get s' k = evict fails t k (M.get s k)
  := by
  refine ⟨((M.entries s).filter fun e => e.2.expiredAt t).map Prod.fst |>.foldl
    (fun s k => if fails k then s else (M.delete s k).2) s, ?_, ?_⟩
  · rw [WrappedExpiringStorage.sweep, Prog.call_bind, Prog.run_act]
    simp only [SourceCmd.exec, Prog.run_bind, run_collectExpired, run_deleteAll]
  · intro k
    have expired : k ∈ ((M.entries s).filter fun e => e.2.expiredAt t).map Prod.fst ↔
        ∃ w, M.get s k = some w ∧ w.expiredAt t = true := by
      rw [List.mem_map]
      constructor
      · rintro ⟨e, he, rfl⟩
        obtain ⟨he, hexp⟩ := List.mem_filter.mp he
        use e.2, (M.mem_entries s e.1 e.2).mp he, hexp
      · rintro ⟨w, hw, hexp⟩
        use (k, w), List.mem_filter.mpr ⟨(M.mem_entries s k w).mpr hw, hexp⟩
    rw [M.get_foldl_delete]
    cases hw : M.get s k with
    | none => simp [evict]
    | some w =>
        have gone : w.expiredAt t = true ↔
            k ∈ ((M.entries s).filter fun e => e.2.expiredAt t).map Prod.fst := by
          simp [expired, hw]
        split
        · rename_i h
          rw [evict_gone fails t (gone.mpr h.1) h.2]
        · rename_i h
          rw [evict_kept fails t]
          intro he
          simpa [gone.mp he] using h

/-- The entries listed are the values of all keys. -/
theorem run_entries :
  ∃ l, WrappedExpiringStorage.entries.run (SourceCmd.exec M fails) ⟨s, t⟩
      = (.ok l, ⟨s, t⟩) ∧ (l.map Prod.fst).Nodup ∧
    ∀ k v, (k, v) ∈ l ↔ liveValue M s t k = some v
  := by
  use ((M.entries s).filter fun e => !e.2.expiredAt t).map fun e => (e.1, e.2.payload)
  constructor
  · rw [WrappedExpiringStorage.entries, Prog.call_bind, Prog.run_act]
    simp only [SourceCmd.exec, Prog.run_bind, run_filterLive]
    rfl
  · constructor
    · rw [List.map_map]
      apply List.Nodup.sublist _ (M.nodup_entries s)
      apply List.filter_sublist.map Prod.fst
    · intro k v
      rw [liveValue, Option.bind_eq_some_iff, List.mem_map]
      constructor
      · rintro ⟨e, he, heq⟩
        obtain ⟨he, hexp⟩ := List.mem_filter.mp he
        obtain ⟨rfl, rfl⟩ := Prod.mk.inj heq
        use e.2, (M.mem_entries s e.1 e.2).mp he
        rw [if_neg (by simpa using hexp)]
      · rintro ⟨w, hw, hv⟩
        use (k, w)
        cases hexp : w.expiredAt t with
        | true => simp [hexp] at hv
        | false =>
            rw [hexp] at hv
            simp only [Bool.false_eq_true, if_false, Option.some.injEq] at hv
            subst hv
            use List.mem_filter.mpr ⟨(M.mem_entries s k w).mpr hw, by simp [hexp]⟩

end

/-! ### Runs -/

/-- An operation executed at the time `now`, in which the deletions that evict the keys in
`fails` fail. -/
structure Step where
  op : ExpiringOp
  now : SystemTime
  fails : Str → Bool

/-- The deletions that fail in a step: those of the operation `delete` are not for eviction. -/
def Step.faults (st : Step) : Str → Bool :=
  match st.op with
  | .delete _ => fun _ => false
  | _ => st.fails

/-- Execute a step. -/
def perform (st : Step) (s : σ) : ExpiringVal × σ :=
  let r := st.op.impl.run (SourceCmd.exec M st.faults) ⟨s, st.now⟩
  (r.1, r.2.source)

section

variable (now : SystemTime) (fails : Str → Bool) (s : σ) (k v : Str)

theorem perform_get :
  ∃ s', perform M ⟨.get k, now, fails⟩ s = (.found (.ok (liveValue M s now k)), s') ∧
    ∀ k', M.get s' k' = if k' = k then evict fails now k (M.get s k) else M.get s k'
  := by
  obtain ⟨s', hrun, hs'⟩ := run_get M fails s now k
  refine ⟨s', ?_, hs'⟩
  simp only [perform, ExpiringOp.impl, Step.faults, Prog.run_bind, hrun]
  rfl

theorem perform_has :
  ∃ s', perform M ⟨.has k, now, fails⟩ s = (.has (.ok (liveValue M s now k).isSome), s') ∧
    ∀ k', M.get s' k' = if k' = k then evict fails now k (M.get s k) else M.get s k'
  := by
  obtain ⟨s', hrun, hs'⟩ := run_get M fails s now k
  refine ⟨s', ?_, hs'⟩
  simp only [perform, ExpiringOp.impl, WrappedExpiringStorage.has, Step.faults, Prog.run_bind,
    hrun]
  rfl

theorem perform_setExpiring (deadline : SystemTime) :
  perform M ⟨.setExpiring k v (some deadline), now, fails⟩ s =
    if deadline ≤ now then (.stored (.error .alreadyExpired), s)
    else (.stored (.ok ()), M.set s k (ExpiresWrapper.new v (some deadline)))
  := by
  simp only [perform, ExpiringOp.impl, Step.faults, Prog.run_bind, run_setExpiring]
  split <;> rfl

theorem perform_delete :
  perform M ⟨.delete k, now, fails⟩ s
    = (.deleted (.ok (M.get s k).isSome), (M.delete s k).2)
  := by
  rw [← M.delete_existed]
  rfl

theorem perform_entries :
  ∃ l, perform M ⟨.entries, now, fails⟩ s = (.listed (.ok l), s) ∧ (l.map Prod.fst).Nodup ∧
    ∀ k v, (k, v) ∈ l ↔ liveValue M s now k = some v
  := by
  obtain ⟨l, hrun, hl⟩ := run_entries M fails s now
  refine ⟨l, ?_, hl⟩
  simp only [perform, ExpiringOp.impl, Step.faults, Prog.run_bind, hrun]
  rfl

theorem perform_sweep :
  ∃ s', perform M ⟨.sweep, now, fails⟩ s = (.swept, s') ∧
    ∀ k, M.get s' k = evict fails now k (M.get s k)
  := by
  obtain ⟨s', hrun, hs'⟩ := run_sweep M fails s now
  refine ⟨s', ?_, hs'⟩
  simp only [perform, ExpiringOp.impl, Step.faults, Prog.run_bind, hrun]
  rfl

end

/-- The source after steps executed one after another. -/
def performAll (run : List Step) (s : σ) : σ :=
  run.foldl (fun s st => (perform M st s).2) s

/-- The reference map after the operations of steps executed one after another. -/
def Reference.stepAll (run : List Step) (ref : Reference) : Reference :=
  run.foldl (fun ref st => ref.step st.now st.op) ref

/-- The reference map with the entries of a source. -/
def Reference.ofSource (s : σ) : Reference := fun k =>
  (M.get s k).map fun w => (w.payload, w.expires.map ofSecs)

/-- The source has the entries of the reference map, except that some of those no longer shown
may be missing. -/
def Simulates (now : SystemTime) (s : σ) (ref : Reference) : Prop :=
  ∀ k, M.get s k = (ref k).map Reference.wrap ∨
    (M.get s k = none ∧ ref.visible now k = none)

variable {M} {now : SystemTime} {s : σ} {ref : Reference}

theorem simulates_ofSource (now : SystemTime) (s : σ) :
  Simulates M now s (Reference.ofSource M s)
  := by
  intro k
  left
  rw [Reference.ofSource, Option.map_map]
  cases M.get s k with
  | none => rfl
  | some w =>
      obtain ⟨expires, payload⟩ := w
      cases expires <;> simp [Reference.wrap, ExpiresWrapper.new]

/-- The clock may move on. -/
theorem Simulates.mono (h : Simulates M now s ref) {now' : SystemTime} (hnow : now ≤ now') :
  Simulates M now' s ref
  := by
  intro k
  rcases h k with hk | ⟨hk, hv⟩
  · left
    apply hk
  · right
    use hk, Reference.visible_eq_none_mono hnow hv

/-- Evictions do not matter. -/
theorem Simulates.evicted (h : Simulates M now s ref) {s' : σ} (hs : Evicted M s now s') :
  Simulates M now s' ref
  := by
  intro k
  rcases hs k with hk | ⟨hk, w, hw, hexp⟩
  · rw [hk]
    apply h k
  · right
    use hk
    rcases h k with hsame | ⟨hnone, -⟩
    · rw [hw] at hsame
      obtain ⟨x, hx, rfl⟩ := Option.map_eq_some_iff.mp hsame.symm
      simp [Reference.visible, hx, Reference.isVisible_eq, hexp]
    · rw [hw] at hnone
      cases hnone

/-- The source and the reference map show the same values. -/
theorem Simulates.liveValue_eq (h : Simulates M now s ref) (k : Str) :
  liveValue M s now k = ref.visible now k
  := by
  rcases h k with hk | ⟨hk, hv⟩
  · rw [liveValue, hk, Reference.visible]
    cases ref k with
    | none => rfl
    | some x =>
        simp only [Option.map_some, Option.bind_some, Reference.isVisible_eq]
        cases (Reference.wrap x).expiredAt now <;> rfl
  · rw [liveValue, hk, hv]
    rfl

/-- An entry is stored in both. -/
theorem Simulates.set (h : Simulates M now s ref) (k : Str) (x : Str × Option SystemTime) :
  Simulates M now (M.set s k (Reference.wrap x)) (Function.update ref k (some x))
  := by
  intro k'
  rw [M.get_set, Reference.visible, Function.update_apply]
  split
  · left
    rfl
  · apply h k'

/-- An entry is deleted from both. -/
theorem Simulates.delete (h : Simulates M now s ref) (k : Str) :
  Simulates M now (M.delete s k).2 (Function.update ref k none)
  := by
  intro k'
  rw [M.get_delete, Reference.visible, Function.update_apply]
  split
  · left
    rfl
  · apply h k'

/-- A step returns what the reference map says, and leads to a source that simulates what it
becomes. -/
theorem Simulates.perform {st : Step} (h : Simulates M st.now s ref) :
  ref.Answers st.now st.op (perform M st s).1 ∧
    Simulates M st.now (perform M st s).2 (ref.step st.now st.op)
  := by
  obtain ⟨op, now, fails⟩ := st
  cases op with
  | get k =>
      obtain ⟨s', hstep, hs'⟩ := perform_get M now fails s k
      rw [hstep, h.liveValue_eq]
      exact ⟨rfl, h.evicted (evicted_of_get hs')⟩
  | has k =>
      obtain ⟨s', hstep, hs'⟩ := perform_has M now fails s k
      rw [hstep, h.liveValue_eq]
      exact ⟨rfl, h.evicted (evicted_of_get hs')⟩
  | set k v => exact ⟨rfl, h.set k (v, none)⟩
  | setExpiring k v expires =>
      cases expires with
      | none => exact ⟨rfl, h.set k (v, none)⟩
      | some t =>
          rw [perform_setExpiring, Reference.Answers, Reference.step]
          by_cases ht : t ≤ now
          · rw [if_pos ht, if_pos ht, if_pos ht]
            exact ⟨rfl, h⟩
          · rw [if_neg ht, if_neg ht, if_neg ht]
            exact ⟨rfl, h.set k (v, some t)⟩
  | delete k =>
      use trivial
      apply h.delete k
  | entries =>
      obtain ⟨l, hstep, hnodup, hl⟩ := perform_entries M now fails s
      rw [hstep]
      refine ⟨⟨l, rfl, hnodup, ?_⟩, h⟩
      intro k v
      rw [hl, h.liveValue_eq]
  | sweep =>
      obtain ⟨s', hstep, hs'⟩ := perform_sweep M now fails s
      rw [hstep]
      exact ⟨rfl, h.evicted (evicted_of_evict fun k => .inr (hs' k))⟩

/-- The steps are executed in the order of their times. -/
def InOrder (run : List Step) : Prop :=
  (run.map Step.now).Pairwise (· ≤ ·)

theorem simulates_performAll {run : List Step} {st : Step} (h : InOrder (run ++ [st])) (s : σ) :
  Simulates M st.now (performAll M run s)
    (Reference.stepAll run (Reference.ofSource M s))
  := by
  induction run using List.reverseRecOn generalizing st with
  | nil => apply simulates_ofSource
  | append_singleton run st' ih =>
      rw [InOrder, List.map_append, List.pairwise_append] at h
      obtain ⟨before, -, last⟩ := h
      have key := (ih before).perform.2
      rw [performAll, Reference.stepAll, List.foldl_append, List.foldl_append]
      apply key.mono
      apply last
      · simp
      · simp

variable (M) in
/-- In every run of operations and sweeps over a source that is a map, executed one at a time
with a clock that does not go back, every operation returns what the reference map says,
wherever the sweeps are and whether or not the deletions made for eviction fail. -/
theorem ttl_reference (run : List Step) (st : Step) (h : InOrder (run ++ [st])) (s : σ) :
  (Reference.stepAll run (Reference.ofSource M s)).Answers st.now st.op
    (perform M st (performAll M run s)).1
  := (simulates_performAll h s).perform.1

/-- An entry that expires after two seconds, and a sweep after three whose deletion fails. -/
def expiredEntry : List Step :=
  [⟨.setExpiring "k".toList "v".toList (some (ofSecs 2)), 0, fun _ => false⟩,
    ⟨.sweep, ofSecs 3, fun _ => true⟩]

theorem ttl_reference_expiredEntry :
  (Reference.stepAll expiredEntry (Reference.ofSource LawfulMap.ofAList ∅)).Answers (ofSecs 4)
    (.get "k".toList)
    (perform LawfulMap.ofAList ⟨.get "k".toList, ofSecs 4, fun _ => false⟩
      (performAll LawfulMap.ofAList expiredEntry ∅)).1
  := by
  apply ttl_reference LawfulMap.ofAList expiredEntry
    ⟨.get "k".toList, ofSecs 4, fun _ => false⟩
  simp [InOrder, expiredEntry, ofSecs]

end Storage
