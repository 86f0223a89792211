import SolidServer.Library.Runs
import SolidServer.Storage.Reference

/-!
# Sweeps and results

An entry that has expired and was not yet evicted is not shown by `get`, `has` and `entries`,
but `delete` reports that it deleted it.  A run in which no deletion finds such an entry gives
the same results whether or not a sweep is made before it.
-/

open Text Atomic

namespace Storage

/-- Two operations return the same, the entries in any order. -/
def ExpiringVal.Same : ExpiringVal → ExpiringVal → Prop
  | .listed (.ok l), .listed (.ok l') => l.Perm l'
  | r, r' => r = r'

section

variable {σ : Type} (M : LawfulMap σ Str ExpiresWrapper)

/-- A deletion returns what `has` would return in its place. -/
def Agrees (st : Step) (s : σ) : Prop :=
  ∀ k, st.op = .delete k → ∃ existed, (perform M st s).1 = .deleted (.ok existed) ∧
    (perform M ⟨.has k, st.now, st.fails⟩ s).1 = .has (.ok existed)

/-- A deletion does not find an entry that has expired. -/
def FindsLive (st : Step) (s : σ) : Prop :=
  ∀ k, st.op = .delete k → ∀ w, M.get s k = some w → w.expiredAt st.now = false

/-! ### Deletions -/

theorem agrees_iff (st : Step) (s : σ) :
  Agrees M st s ↔ FindsLive M st s
  := by
  obtain ⟨op, now, fails⟩ := st
  apply forall_congr'
  intro k
  apply imp_congr_right
  rintro rfl
  obtain ⟨s', hhas, -⟩ := perform_has M now fails s k
  rw [perform_delete, hhas, liveValue]
  cases M.get s k with
  | none => simp
  | some w => cases hw : w.expiredAt now <;> simp [hw]

variable {M} {s s' : σ} {t : SystemTime}

/-! ### Evicted sources -/

theorem Evicted.mono (h : Evicted M s t s') {t' : SystemTime} (ht : t ≤ t') :
  Evicted M s t' s'
  := by
  intro k
  rcases h k with hk | ⟨hk, w, hw, hexp⟩
  · exact .inl hk
  · exact .inr ⟨hk, w, hw, ExpiresWrapper.expiredAt_mono ht hexp⟩

/-- Evictions do not change what is shown. -/
theorem Evicted.liveValue_eq (h : Evicted M s t s') (k : Str) :
  liveValue M s' t k = liveValue M s t k
  := by
  rw [liveValue, liveValue]
  rcases h k with hk | ⟨hk, w, hw, hexp⟩
  · rw [hk]
  · simp [hk, hw, hexp]

theorem Evicted.evict (h : Evicted M s t s') (fails : Str → Bool) (k : Str) :
  evict fails t k (M.get s' k) = evict fails t k (M.get s k) ∨
    (evict fails t k (M.get s' k) = none ∧
      ∃ w, evict fails t k (M.get s k) = some w ∧ w.expiredAt t = true)
  := by
  rcases h k with hk | ⟨hk, w, hw, hexp⟩
  · rw [hk]
    exact .inl rfl
  · rw [hk, hw]
    cases hf : fails k with
    | false =>
        left
        rw [evict_gone fails t hexp hf]
        rfl
    | true => exact .inr ⟨rfl, w, evict_kept fails t fun _ => hf, hexp⟩

/-- The sources after a `get` of the key. -/
theorem Evicted.get {k : Str} (h : Evicted M s t s') (fails : Str → Bool) {s₁ s₁' : σ}
    (h₁ : ∀ k', M.get s₁ k' = if k' = k then Storage.evict fails t k (M.get s k) else M.get s k')
    (h₁' : ∀ k', M.get s₁' k' =
      if k' = k then Storage.evict fails t k (M.get s' k) else M.get s' k') :
  Evicted M s₁ t s₁'
  := by
  intro k'
  rw [h₁, h₁']
  split
  · apply h.evict
  · apply h k'

theorem Evicted.set (h : Evicted M s t s') (k : Str) (w : ExpiresWrapper) :
  Evicted M (M.set s k w) t (M.set s' k w)
  := by
  intro k'
  rw [M.get_set, M.get_set]
  split
  · exact .inl rfl
  · apply h k'

theorem Evicted.delete (h : Evicted M s t s') (k : Str) :
  Evicted M (M.delete s k).2 t (M.delete s' k).2
  := by
  intro k'
  rw [M.get_delete, M.get_delete]
  split
  · exact .inl rfl
  · apply h k'

/-- A step that does not delete an expired entry returns the same with and without evictions
before it. -/
theorem Evicted.perform {st : Step} (h : Evicted M s st.now s') (live : FindsLive M st s) :
  (perform M st s).1.Same (perform M st s').1 ∧
    Evicted M (perform M st s).2 st.now (perform M st s').2
  := by
  obtain ⟨op, now, fails⟩ := st
  cases op with
  | get k =>
      obtain ⟨s₁, hstep, h₁⟩ := perform_get M now fails s k
      obtain ⟨s₁', hstep', h₁'⟩ := perform_get M now fails s' k
      rw [hstep, hstep', h.liveValue_eq]
      exact ⟨rfl, h.get fails h₁ h₁'⟩
  | has k =>
      obtain ⟨s₁, hstep, h₁⟩ := perform_has M now fails s k
      obtain ⟨s₁', hstep', h₁'⟩ := perform_has M now fails s' k
      rw [hstep, hstep', h.liveValue_eq]
      exact ⟨rfl, h.get fails h₁ h₁'⟩
  | set k v => exact ⟨rfl, h.set k _⟩
  | setExpiring k v expires =>
      cases expires with
      | none => exact ⟨rfl, h.set k _⟩
      | some deadline =>
          rw [perform_setExpiring, perform_setExpiring]
          by_cases hpast : deadline ≤ now
          · rw [if_pos hpast, if_pos hpast]
            exact ⟨rfl, h⟩
          · rw [if_neg hpast, if_neg hpast]
            exact ⟨rfl, h.set k _⟩
  | delete k =>
      rw [perform_delete, perform_delete]
      have same : M.get s' k = M.get s k := by
        rcases h k with hk | ⟨-, w, hw, hexp⟩
        · exact hk
        · apply absurd (live k rfl w hw)
          simp [hexp]
      rw [same]
      exact ⟨rfl, h.delete k⟩
  | entries =>
      obtain ⟨l, hstep, hnodup, hl⟩ := perform_entries M now fails s
      obtain ⟨l', hstep', hnodup', hl'⟩ := perform_entries M now fails s'
      rw [hstep, hstep']
      refine ⟨?_, h⟩
      apply (List.perm_ext_iff_of_nodup hnodup.of_map hnodup'.of_map).mpr
      rintro ⟨k, v⟩
      rw [hl, hl', h.liveValue_eq]
  | sweep =>
      obtain ⟨s₁, hstep, h₁⟩ := perform_sweep M now fails s
      obtain ⟨s₁', hstep', h₁'⟩ := perform_sweep M now fails s'
      rw [hstep, hstep']
      refine ⟨rfl, ?_⟩
      intro k
      rw [h₁, h₁']
      apply h.evict

/-! ### Runs -/

/-- A run in which no deletion finds an expired entry gives the same results with and without
evictions before it. -/
theorem Evicted.results {run : List Step} (h : Evicted M s t s')
    (horder : (t :: run.map Step.now).Pairwise (· ≤ ·))
    (live : Run.Each (Storage.perform M) (FindsLive M) run s) :
  List.Forall₂ ExpiringVal.Same (Run.results (Storage.perform M) run s)
    (Run.results (Storage.perform M) run s')
  := by
  induction run generalizing s s' t with
  | nil => exact .nil
  | cons st run ih =>
      rw [List.map_cons, List.pairwise_cons] at horder
      obtain ⟨hfirst, hrest⟩ := horder
      obtain ⟨hresult, hstate⟩ := (h.mono (hfirst _ List.mem_cons_self)).perform live.1
      exact .cons hresult (ih hstate hrest live.2)

variable (M) in
/-- In every run, all deletions agree with `has`, and a sweep before the run does not change the
results, exactly if no deletion finds an expired entry. -/
theorem evictions_unobservable_iff (run : List Step) (s : σ) :
  (Run.Each (Storage.perform M) (Agrees M) run s ∧
      ∀ sweep : Step, sweep.op = .sweep → InOrder (sweep :: run) →
        List.Forall₂ ExpiringVal.Same (Run.results (Storage.perform M) run s)
          (Run.results (Storage.perform M) run (Storage.perform M sweep s).2))
    ↔ Run.Each (Storage.perform M) (FindsLive M) run s
  := by
  have same : Agrees M = FindsLive M := by
    funext st s
    apply propext (agrees_iff M st s)
  rw [same, and_iff_left_iff_imp]
  intro live sweep hsweep horder
  obtain ⟨op, now, fails⟩ := sweep
  obtain rfl : op = .sweep := hsweep
  obtain ⟨s₁, hstep, h₁⟩ := perform_sweep M now fails s
  rw [hstep]
  apply (evicted_of_evict fun k => .inr (h₁ k)).results horder live

end

/-- An entry that expires after one second is deleted after two. -/
def deleteExpired : List Step :=
  [⟨.setExpiring "k".toList "v".toList (some (ofSecs 1)), 0, fun _ => false⟩,
    ⟨.delete "k".toList, ofSecs 2, fun _ => false⟩]

/-- The deletion reports an entry that is not shown. -/
theorem not_evictions_unobservable :
  ¬ ∀ (run : List Step) (s : AList fun _ : Str => ExpiresWrapper),
    Run.Each (perform LawfulMap.ofAList) (Agrees LawfulMap.ofAList) run s ∧
      ∀ sweep : Step, sweep.op = .sweep → InOrder (sweep :: run) →
        List.Forall₂ ExpiringVal.Same (Run.results (perform LawfulMap.ofAList) run s)
          (Run.results (perform LawfulMap.ofAList) run (perform LawfulMap.ofAList sweep s).2)
  := by
  intro h
  obtain ⟨existed, hdeleted, hhas⟩ := (h deleteExpired ∅).1.2.1 "k".toList rfl
  cases hdeleted
  cases hhas

end Storage
