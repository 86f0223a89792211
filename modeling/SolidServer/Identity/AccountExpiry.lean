import SolidServer.Library.Runs
import SolidServer.Identity.Account

/-!
# Expiry of accounts

An account without a login method is over when it is as old as the expiry of the store.  The
calls here are made one after the other, each with the readings of the clock when it is made
and when it returns.

Only `create` and `getSetting` remove what is over.  No account that is over is left behind by
the other calls, and none is updated or given a login method, exactly if there was none before,
but for the one that is deleted (`expires_iff`).
-/

open Text Atomic

namespace Identity

variable {V : Type}

/-- A call with the readings of the clock when it is made and when it returns. -/
structure TimedCall (V : Type) where
  call : AccountCall V
  called : Instant
  returned : Instant

namespace TimedCall

/-- The result of a call, unless it panics, and the store that it leaves. -/
def perform (t : TimedCall V) (s : BaseAccountStore V) :
    Option (AccountResult V) × BaseAccountStore V :=
  match t.call.impl.runOption AccountCmd.exec s with
  | some (r, s') => (some r, s')
  | none => (none, s)

end TimedCall

namespace AccountCall

/-- The call may change the store. -/
def mutates : AccountCall V → Bool
  | getSetting _ _ _ => false
  | _ => true

/-- The account that the call updates, or gives a login method. -/
def target : AccountCall V → Option Str
  | updateSetting id _ _ => some id
  | incrementLoginCount id => some id
  | _ => none

end AccountCall

/-- The account is stored without a login method, and its time is over. -/
def BaseAccountStore.Expired (s : BaseAccountStore V) (now : Instant) (id : Str) : Prop :=
  ∃ row, s.inner.lookup id = some row ∧ AccountCmd.expired s.expiry now row = true

namespace TimedCall

/-- If the call may change the store, then no account is over when it has returned, and an
account that was over when it was made is not found. -/
def Expires (t : TimedCall V) (s : BaseAccountStore V) : Prop :=
  t.call.mutates = true →
    (∀ id, ¬ (t.perform s).2.Expired t.returned id) ∧
      ∀ id, t.call.target = some id → s.Expired t.called id →
        (t.perform s).1 = some (.done (.error (accountNotFound id)))

/-- The clock does not go back, an id that is drawn is new, and no count exceeds the largest
`usize`. -/
def Possible (t : TimedCall V) (s : BaseAccountStore V) : Prop :=
  t.called ≤ t.returned ∧
    match t.call with
    | .create id _ _ => id ∉ s.inner
    | .incrementLoginCount id =>
        ∀ row, s.inner.lookup id = some row → row.linkedLoginsCount ≠ usizeMax
    | _ => True

/-- What is over when the call returns is removed by it. -/
def Timely (t : TimedCall V) (s : BaseAccountStore V) : Prop :=
  match t.call with
  | .create _ now createdAt =>
      (∀ id, s.Expired t.returned id → s.Expired now id) ∧ t.returned - createdAt < s.expiry
  | .getSetting _ _ _ => True
  | .updateSetting _ _ _ => ∀ id, ¬ s.Expired t.returned id
  | .decrementLoginCount _ => ∀ id, ¬ s.Expired t.returned id
  | .delete id => ∀ id' ≠ id, ¬ s.Expired t.returned id'
  | .incrementLoginCount id =>
      (∀ id' ≠ id, ¬ s.Expired t.returned id') ∧ ¬ s.Expired t.called id

end TimedCall

namespace BaseAccountStore

variable {s : BaseAccountStore V} {now : Instant}

theorem expired_put {id : Str} {row : AccountRow V} {id' : Str} :
  (s.put id row).Expired now id'
    ↔ (id' = id ∧ AccountCmd.expired s.expiry now row = true) ∨ (id' ≠ id ∧ s.Expired now id')
  := by
  rw [Expired, lookup_put]
  by_cases h : id' = id
  · simp [h, put]
  · simp [h, put, Expired]

theorem expired_erase {id id' : Str} :
  ({ s with inner := s.inner.erase id } : BaseAccountStore V).Expired now id'
    ↔ id' ≠ id ∧ s.Expired now id'
  := by
  simp only [Expired, HashMap.lookup_erase_eq_some_iff, and_assoc, exists_and_left]

/-- What is over does not come back into time. -/
theorem Expired.mono {id : Str} {later : Instant} (h : s.Expired now id) (hle : now ≤ later) :
  s.Expired later id
  := by
  obtain ⟨row, hrow, hexpired⟩ := h
  use row, hrow
  rw [AccountCmd.expired, Bool.and_eq_true, decide_eq_true_eq, decide_eq_true_eq] at hexpired ⊢
  use hexpired.1
  exact hexpired.2.trans (Nat.sub_le_sub_right hle _)

/-- An account that is not stored is not over. -/
theorem not_expired_of_notMem {id : Str} (h : id ∉ s.inner) :
  ¬ s.Expired now id
  := by
  rintro ⟨row, hrow, -⟩
  exact HashMap.notMem_iff_lookup.mp h row hrow

/-- Writing a row that is over when the old one is changes nothing about what is over. -/
theorem expired_put_iff {id : Str} {row row' : AccountRow V} (hrow : s.inner.lookup id = some row)
    (same : AccountCmd.expired s.expiry now row' = AccountCmd.expired s.expiry now row)
    {id' : Str} :
  (s.put id row').Expired now id' ↔ s.Expired now id'
  := by
  rw [expired_put, same]
  by_cases h : id' = id
  · subst h
    simp [Expired, hrow]
  · simp [h]

/-- The store without the accounts that are over. -/
def pruned (s : BaseAccountStore V) (now : Instant) : BaseAccountStore V :=
  { s with inner := s.inner.retain fun _ row => !AccountCmd.expired s.expiry now row }

/-- What is over some time after pruning was not over then. -/
theorem expired_pruned {id : Str} {earlier : Instant} :
  (s.pruned earlier).Expired now id ↔ s.Expired now id ∧ ¬ s.Expired earlier id
  := by
  rw [pruned]
  simp only [Expired, HashMap.lookup_retain]
  cases s.inner.lookup id with
  | none => simp
  | some row => cases h : AccountCmd.expired s.expiry earlier row <;> simp [Option.filter, h]

end BaseAccountStore

namespace TimedCall

variable {t : TimedCall V} {s s' : BaseAccountStore V}

/-- A call that is one section does what the section does. -/
theorem perform_eq {c : AccountCmd V} {a : c.Answer} {f : c.Answer → AccountResult V}
    (himpl : t.call.impl = .act c fun r => .ret (f r)) (hexec : c.exec s = some (a, s')) :
  t.perform s = (some (f a), s')
  := by
  rw [perform, himpl, Prog.runOption, hexec]
  rfl

/-- A call that changes nothing, and does not find the account that it is about, leaves behind
what is over. -/
theorem expires_iff_of_unchanged {r : AccountResult V} (hperform : t.perform s = (some r, s))
    (hmutates : t.call.mutates = true)
    (htarget : ∀ id, t.call.target = some id → r = .done (.error (accountNotFound id))) :
  t.Expires s ↔ ∀ id, ¬ s.Expired t.returned id
  := by
  rw [Expires, hperform]
  constructor
  · exact fun h => (h hmutates).1
  · intro hover _
    use hover
    intro id hid _
    rw [htarget id hid]

/-- A call that overwrites a row, without changing that it is over, leaves behind what is over. -/
theorem expires_iff_of_put {id : Str} {row row' : AccountRow V} {r : AccountResult V}
    (hle : t.called ≤ t.returned) (hrow : s.inner.lookup id = some row)
    (hperform : t.perform s = (some r, s.put id row'))
    (same : ∀ now, AccountCmd.expired s.expiry now row' = AccountCmd.expired s.expiry now row)
    (hmutates : t.call.mutates = true) :
  t.Expires s ↔ ∀ id, ¬ s.Expired t.returned id
  := by
  rw [Expires, hperform]
  constructor
  · intro h id' hover
    exact (h hmutates).1 id' ((BaseAccountStore.expired_put_iff hrow (same _)).mpr hover)
  · intro hover _
    constructor
    · exact fun id' h => hover id' ((BaseAccountStore.expired_put_iff hrow (same _)).mp h)
    · exact fun id' _ h => absurd (h.mono hle) (hover id')

/-- An account that is not stored need not be left out. -/
theorem forall_iff_of_notMem {now : Instant} {id : Str} (h : id ∉ s.inner) :
  (∀ id', ¬ s.Expired now id') ↔ ∀ id' ≠ id, ¬ s.Expired now id'
  := by
  constructor
  · exact fun hover id' _ => hover id'
  · rintro hover id' hexpired
    by_cases hid : id' = id
    · exact s.not_expired_of_notMem h (hid ▸ hexpired)
    · exact hover id' hid hexpired

variable {called returned : Instant}

/-- A new account is over when `create` returns exactly if it is as old as the expiry then, and
another one exactly if it was not removed. -/
theorem expires_create_iff {id : Str} {now createdAt : Instant} (hid : id ∉ s.inner) :
  Expires ⟨.create id now createdAt, called, returned⟩ s
    ↔ (∀ id', s.Expired returned id' → s.Expired now id') ∧ returned - createdAt < s.expiry
  := by
  have hperform : perform ⟨.create id now createdAt, called, returned⟩ s
      = (some (.created (.ok id)), (s.pruned now).put id ⟨id, 0, ∅, createdAt⟩) := rfl
  rw [Expires, hperform]
  constructor
  · intro h
    obtain ⟨hover, -⟩ := h rfl
    constructor
    · intro id' hid'
      by_contra hnow
      apply hover id'
      apply BaseAccountStore.expired_put.mpr
      right
      use fun heq => s.not_expired_of_notMem hid (heq ▸ hid')
      exact BaseAccountStore.expired_pruned.mpr ⟨hid', hnow⟩
    · by_contra hage
      apply hover id
      apply BaseAccountStore.expired_put.mpr
      left
      use rfl
      rw [AccountCmd.expired, Bool.and_eq_true]
      exact ⟨rfl, decide_eq_true (not_lt.mp hage)⟩
  · rintro ⟨hpruned, hage⟩ -
    constructor
    · intro id' hid'
      rcases BaseAccountStore.expired_put.mp hid' with ⟨-, hexpired⟩ | ⟨-, hexpired⟩
      · rw [AccountCmd.expired, Bool.and_eq_true, decide_eq_true_eq, decide_eq_true_eq] at hexpired
        exact absurd hage hexpired.2.not_gt
      · obtain ⟨hover, hnow⟩ := BaseAccountStore.expired_pruned.mp hexpired
        exact hnow (hpruned id' hover)
    · rintro id' ⟨⟩

/-- What is over is left by `updateSetting`. -/
theorem expires_updateSetting_iff {id : Str} {setting : Str} {value : V}
    (hle : called ≤ returned) :
  Expires ⟨.updateSetting id setting value, called, returned⟩ s ↔ ∀ id, ¬ s.Expired returned id
  := by
  have himpl : (AccountCall.updateSetting id setting value).impl
      = .act (.writeSetting id setting value) fun r => .ret (.done r) := rfl
  cases hrow : s.inner.lookup id with
  | none =>
      have hexec : (AccountCmd.writeSetting id setting value).exec s
          = some (.error (accountNotFound id), s) := by rw [AccountCmd.exec, hrow]
      apply expires_iff_of_unchanged (perform_eq himpl hexec) rfl
      rintro id' ⟨⟩
      rfl
  | some row =>
      have hexec : (AccountCmd.writeSetting id setting value).exec s = some (.ok (), s.put id
          { row with settings := row.settings.insert setting value }) := by
        rw [AccountCmd.exec, hrow]
      exact expires_iff_of_put hle hrow (perform_eq himpl hexec) (fun _ => rfl) rfl

/-- What is over is left by `delete`, except for the account that it deletes. -/
theorem expires_delete_iff {id : Str} :
  Expires ⟨.delete id, called, returned⟩ s ↔ ∀ id' ≠ id, ¬ s.Expired returned id'
  := by
  have himpl : (AccountCall.delete id : AccountCall V).impl
      = .act (.remove id) fun r => .ret (.done r) := rfl
  cases hrow : s.inner.lookup id with
  | none =>
      have hexec : (AccountCmd.remove id).exec s = some (.error (accountNotFound id), s) := by
        rw [AccountCmd.exec, hrow]
      rw [expires_iff_of_unchanged (perform_eq himpl hexec) rfl (by rintro id' ⟨⟩)]
      exact forall_iff_of_notMem (AList.lookup_eq_none.mp hrow)
  | some row =>
      have hexec : (AccountCmd.remove id).exec s
          = some (.ok (), { s with inner := s.inner.erase id }) := by
        rw [AccountCmd.exec, hrow]
      rw [Expires, perform_eq himpl hexec]
      constructor
      · intro h id' hne hover
        exact (h rfl).1 id' (BaseAccountStore.expired_erase.mpr ⟨hne, hover⟩)
      · intro hover _
        constructor
        · intro id' hid'
          obtain ⟨hne, hexpired⟩ := BaseAccountStore.expired_erase.mp hid'
          exact hover id' hne hexpired
        · rintro id' ⟨⟩

/-- What is over is left by `incrementLoginCount`, and the account that it gives a login method
should not have been over. -/
theorem expires_incrementLoginCount_iff {id : Str}
    (hmax : ∀ row, s.inner.lookup id = some row → row.linkedLoginsCount ≠ usizeMax) :
  Expires ⟨.incrementLoginCount id, called, returned⟩ s
    ↔ (∀ id' ≠ id, ¬ s.Expired returned id') ∧ ¬ s.Expired called id
  := by
  have himpl : (AccountCall.incrementLoginCount id : AccountCall V).impl
      = .act (.increment id) fun r => .ret (.done r) := rfl
  cases hrow : s.inner.lookup id with
  | none =>
      have hexec : (AccountCmd.increment id).exec s = some (.error (accountNotFound id), s) := by
        rw [AccountCmd.exec, hrow]
      have habsent := AList.lookup_eq_none.mp hrow
      rw [expires_iff_of_unchanged (perform_eq himpl hexec) rfl (by rintro id' ⟨⟩; rfl)]
      apply (forall_iff_of_notMem habsent).trans
      exact (and_iff_left (s.not_expired_of_notMem habsent)).symm
  | some row =>
      have hexec : (AccountCmd.increment id).exec s = some (.ok (), s.put id
          { row with linkedLoginsCount := row.linkedLoginsCount + 1 }) := by
        rw [AccountCmd.exec, hrow]
        exact if_neg (hmax row hrow)
      rw [Expires, perform_eq himpl hexec]
      constructor
      · intro h
        obtain ⟨hover, hfound⟩ := h rfl
        constructor
        · intro id' hne hid'
          exact hover id' (BaseAccountStore.expired_put.mpr (.inr ⟨hne, hid'⟩))
        · intro hid
          cases hfound id rfl hid
      · rintro ⟨hover, hid⟩ -
        constructor
        · intro id' hid'
          rcases BaseAccountStore.expired_put.mp hid' with ⟨-, hexpired⟩ | ⟨hne, hexpired⟩
          · cases hexpired
          · exact hover id' hne hexpired
        · rintro id' ⟨⟩ hexpired
          exact absurd hexpired hid

/-- What is over is left by `decrementLoginCount`, which removes no last login method. -/
theorem expires_decrementLoginCount_iff {id : Str} (hle : called ≤ returned) :
  Expires ⟨.decrementLoginCount id, called, returned⟩ s ↔ ∀ id, ¬ s.Expired returned id
  := by
  have himpl : (AccountCall.decrementLoginCount id : AccountCall V).impl
      = .act (.decrement id) fun r => .ret (.done r) := rfl
  cases hrow : s.inner.lookup id with
  | none =>
      have hexec : (AccountCmd.decrement id).exec s = some (.error (accountNotFound id), s) := by
        rw [AccountCmd.exec, hrow]
      exact expires_iff_of_unchanged (perform_eq himpl hexec) rfl (by rintro id' ⟨⟩)
  | some row =>
      by_cases hlast : row.linkedLoginsCount ≤ 1
      · have hexec : (AccountCmd.decrement id).exec s
            = some (.error "An account needs at least 1 login method.".toList, s) := by
          rw [AccountCmd.exec, hrow]
          exact if_pos hlast
        exact expires_iff_of_unchanged (perform_eq himpl hexec) rfl (by rintro id' ⟨⟩)
      · have hexec : (AccountCmd.decrement id).exec s = some (.ok (), s.put id
            { row with linkedLoginsCount := row.linkedLoginsCount - 1 }) := by
          rw [AccountCmd.exec, hrow]
          exact if_neg hlast
        apply expires_iff_of_put hle hrow (perform_eq himpl hexec) _ rfl
        intro now
        have hcount : row.linkedLoginsCount ≠ 0 := by omega
        have hrest : row.linkedLoginsCount - 1 ≠ 0 := by omega
        rw [AccountCmd.expired, AccountCmd.expired, decide_eq_false hcount, decide_eq_false hrest]

/-- What is over is gone when the call has returned exactly if it was removed or was none. -/
theorem expires_iff_timely (h : t.Possible s) :
  t.Expires s ↔ t.Timely s
  := by
  obtain ⟨call, called, returned⟩ := t
  obtain ⟨hle, hcall⟩ := h
  cases call with
  | create id now createdAt => exact expires_create_iff hcall
  | getSetting id setting now =>
      apply iff_of_true _ trivial
      rintro ⟨⟩
  | updateSetting id setting value => exact expires_updateSetting_iff hle
  | delete id => exact expires_delete_iff
  | incrementLoginCount id => exact expires_incrementLoginCount_iff hcall
  | decrementLoginCount id => exact expires_decrementLoginCount_iff hle

end TimedCall

namespace BaseAccountStore

open TimedCall

/-- In a run of calls every call leaves no account behind that is over, and finds none, exactly if
what is over when it returns is removed by it. -/
theorem expires_iff (expiry : Duration) (calls : List (TimedCall V))
    (possible : Run.Each TimedCall.perform (fun t s => t.Possible s) calls (new expiry)) :
  Run.Each TimedCall.perform (fun t s => t.Expires s) calls (new expiry)
    ↔ Run.Each TimedCall.perform (fun t s => t.Timely s) calls (new expiry)
  := Run.each_iff_each (fun _ _ h => expires_iff_timely h) possible

/-- An account is created, and has no login method when its time is over. -/
def expireThenLink : List (TimedCall ℕ) :=
  [⟨.create "1".toList 0 0, 0, 0⟩, ⟨.incrementLoginCount "1".toList, 5, 5⟩]

theorem possible_expireThenLink :
  Run.Each TimedCall.perform (fun t s => t.Possible s) expireThenLink (new 5)
  := by
  refine ⟨⟨le_rfl, AList.notMem_empty _⟩, ⟨le_rfl, ?_⟩, trivial⟩
  rintro row ⟨⟩
  decide

theorem expires_iff_expireThenLink :
  Run.Each TimedCall.perform (fun t s => t.Expires s) expireThenLink (new 5)
    ↔ Run.Each TimedCall.perform (fun t s => t.Timely s) expireThenLink (new 5)
  := expires_iff 5 expireThenLink possible_expireThenLink

/-- An account whose time is over gets a login method. -/
theorem not_expires :
  ¬ ∀ (expiry : Duration) (calls : List (TimedCall ℕ)), 0 < expiry →
    Run.Each TimedCall.perform (fun t s => t.Possible s) calls (new expiry) →
      Run.Each TimedCall.perform (fun t s => t.Expires s) calls (new expiry)
  := by
  intro h
  obtain ⟨-, hlink, -⟩ := h 5 expireThenLink (by decide) possible_expireThenLink
  have notFound := (hlink rfl).2 "1".toList rfl ⟨⟨"1".toList, 0, ∅, 0⟩, rfl, rfl⟩
  cases notFound

end BaseAccountStore

end Identity
