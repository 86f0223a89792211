import SolidServer.Library.Linearization
import SolidServer.Storage.Reference

/-!
# Eviction and concurrent updates

Clients and background sweeps use the storage at the same time: every call of the source is
one atomic step, and the clock moves on between the steps.  An update that returned, and that
no other update of its key overlaps or follows, is kept until its deadline by every run in
which evictions delete only entries that have expired.  The storage does not see to that: a
`get` or a sweep decides to evict what it has read, and deletes what is there later.
-/

open Text Atomic

namespace Storage

namespace ExpiringOp

/-- The operation stores the value under the key, with the deadline. -/
def Writes (op : ExpiringOp) (k v : Str) (t : Option SystemTime) : Prop :=
  (op = .set k v ∧ t = none) ∨ op = .setExpiring k v t

/-- The operation updates the key. -/
def Mutates : ExpiringOp → Str → Prop
  | .set k' _, k | .setExpiring k' _ _, k | .delete k', k => k' = k
  | .get _, _ | .has _, _ | .entries, _ | .sweep, _ => False

variable {op : ExpiringOp} {k v v' : Str} {t t' : Option SystemTime}

theorem Writes.mutates (h : op.Writes k v t) :
  op.Mutates k
  := by
  rcases h with ⟨rfl, -⟩ | rfl <;> rfl

/-- An operation stores one entry. -/
theorem Writes.unique (h : op.Writes k v t) (h' : op.Writes k v' t') :
  v' = v ∧ t' = t
  := by
  rcases h with ⟨rfl, rfl⟩ | rfl <;> rcases h' with ⟨h', rfl⟩ | h' <;> cases h'
  all_goals exact ⟨rfl, rfl⟩

end ExpiringOp

/-- The storage over a source that is a map; the environment moves the clock on. -/
def expiringMachine {σ : Type} (M : LawfulMap σ Str ExpiresWrapper) :
    Machine SourceCmd SourceCmd.Answer (World σ) ExpiringOp ExpiringVal SystemTime where
  impl := ExpiringOp.impl
  exec c w := some (c.exec M (fun _ => false) w)
  env t w := if w.clock ≤ t then some { w with clock := t } else none

/-- The configurations of the storage. -/
abbrev ExpiringConfig (Client σ : Type) :=
  Config Client SourceCmd SourceCmd.Answer (World σ) ExpiringOp ExpiringVal

/-- What happens to the storage. -/
abbrev ExpiringEvent (Client : Type) :=
  Event Client SourceCmd SourceCmd.Answer ExpiringOp ExpiringVal

section

variable {Client σ : Type}

/-- Every update of the key other than the operation with ticket `n` returned before that
operation was called. -/
def Quiet (history : List (ExpiringEvent Client)) (n : ℕ) (op : ExpiringOp) (k : Str) : Prop :=
  ∀ j m o, .call j m o ∈ history → o.Mutates k → m ≠ n →
    ∃ i v, Before history (.ret m o v) (.call i n op)

/-- Every `get` called after a quiet update of its key returned, and finished while the value
has not expired, returns the value. -/
def UpdatesKept (cfg : ExpiringConfig Client σ) : Prop :=
  ∀ n op k v t, op.Writes k v t → Quiet cfg.history n op k →
    ∀ i m r, Before cfg.history (.ret n op (.stored (.ok ()))) (.call i m (.get k)) →
      cfg.threads i = some ⟨m, .get k, .ret (.found r)⟩ →
      Reference.isVisible cfg.shared.clock t = true → r = .ok (some v)

/-- The turn is not that of an operation, other than a deletion, that deletes an entry which
has not expired. -/
def evictionSafe (M : LawfulMap σ Str ExpiresWrapper) (cfg : ExpiringConfig Client σ) :
    Turn Client ExpiringOp SystemTime → Bool
  | .act i =>
      match cfg.threads i with
      | some ⟨_, op, .act (.delete k) _⟩ =>
          op == .delete k ||
            (M.get cfg.shared.source k).all fun w => w.expiredAt cfg.shared.clock
      | _ => true
  | .call _ _ | .ret _ | .env _ => true

/-- Events other than the call of the update keep an update quiet only if it was so before. -/
theorem Quiet.of_concat {history : List (ExpiringEvent Client)} {e : ExpiringEvent Client}
    {n : ℕ} {op : ExpiringOp} {k : Str} (h : Quiet (history ++ [e]) n op k)
    (he : e.IsCall → e.ticket ≠ n) :
  Quiet history n op k
  := by
  intro j m o hcall ho hne
  obtain ⟨i, v, hbefore⟩ := h j m o (List.mem_append_left _ hcall) ho hne
  use i, v
  rcases hbefore.of_concat with hbefore | ⟨-, rfl⟩
  · apply hbefore
  · apply absurd rfl (he trivial)

/-- While an update is quiet, no other update of its key is running. -/
theorem Quiet.ticket_eq {cfg : ExpiringConfig Client σ} {n : ℕ} {op : ExpiringOp} {k : Str}
    (h : Quiet cfg.history n op k) (sound : Sound cfg) {j : Client}
    {u : Thread SourceCmd SourceCmd.Answer ExpiringOp ExpiringVal}
    (run : cfg.threads j = some u) (hu : u.op.Mutates k) :
  u.ticket = n
  := by
  by_contra hne
  obtain ⟨i, v, hbefore⟩ := h j u.ticket u.op (sound.calling j u run) hu hne
  apply (sound.running j u run _ hbefore.left_mem rfl).2
  simp

end

/-! ### The commands of the operations -/

/-- The command stores nothing. -/
def SourceCmd.NotSet : SourceCmd → Prop
  | .set _ _ => False
  | _ => True

/-- The command stores nothing but what the operation stores. -/
def ExpiringOp.Stores (op : ExpiringOp) : SourceCmd → Prop
  | .set k w => ∃ v t, op.Writes k v t ∧ w = ExpiresWrapper.new v t
  | _ => True

theorem SourceCmd.NotSet.stores (op : ExpiringOp) {c : SourceCmd} (h : c.NotSet) :
  op.Stores c
  := by
  cases c with
  | set _ _ => cases h
  | get _ | delete _ | entries | now => trivial

theorem issues_isExpired (w : ExpiresWrapper) :
  w.isExpired.Issues SourceCmd.NotSet
  := by
  rw [ExpiresWrapper.isExpired]
  cases w.expires with
  | none => trivial
  | some exp => exact ⟨trivial, fun _ => trivial⟩

namespace WrappedExpiringStorage

theorem issues_get (k : Str) :
  (get k).Issues SourceCmd.NotSet
  := by
  use trivial
  rintro (e | _ | w)
  · trivial
  · trivial
  · apply (issues_isExpired w).bind
    rintro (_ | _)
    · trivial
    · exact ⟨trivial, fun _ => trivial⟩

theorem issues_filterLive (l : List (Str × ExpiresWrapper)) :
  (filterLive l).Issues SourceCmd.NotSet
  := by
  induction l with
  | nil => trivial
  | cons e l ih =>
      apply (issues_isExpired e.2).bind
      rintro (_ | _)
      · apply ih.bind
        intro live
        trivial
      · apply ih

theorem issues_collectExpired (l : List (Str × ExpiresWrapper)) :
  (collectExpired l).Issues SourceCmd.NotSet
  := by
  induction l with
  | nil => trivial
  | cons e l ih =>
      apply (issues_isExpired e.2).bind
      rintro (_ | _)
      · apply ih
      · apply ih.bind
        intro expired
        trivial

theorem issues_deleteAll (ks : List Str) :
  (deleteAll ks).Issues SourceCmd.NotSet
  := by
  induction ks with
  | nil => trivial
  | cons k ks ih => exact ⟨trivial, fun _ => ih⟩

theorem issues_entries :
  entries.Issues SourceCmd.NotSet
  := by
  use trivial
  rintro (e | raw)
  · trivial
  · apply (issues_filterLive raw).bind
    intro live
    trivial

theorem issues_sweep :
  sweep.Issues SourceCmd.NotSet
  := by
  use trivial
  rintro (e | entries)
  · trivial
  · apply (issues_collectExpired entries).bind
    apply issues_deleteAll

end WrappedExpiringStorage

/-- The operations store nothing but what they are called for. -/
theorem issues_expiring (op : ExpiringOp) :
  op.impl.Issues op.Stores
  := by
  have readOnly : ∀ {α : Type} {p : SourceProg α} (f : α → ExpiringVal),
      p.Issues SourceCmd.NotSet →
      (p >>= fun a => (pure (f a) : SourceProg ExpiringVal)).Issues op.Stores := by
    intro α p f hp
    apply Prog.Issues.bind
    · apply hp.mono
      intro c hc
      apply hc.stores
    · intro a
      trivial
  cases op with
  | get k => apply readOnly _ (WrappedExpiringStorage.issues_get k)
  | has k =>
      apply readOnly
      apply (WrappedExpiringStorage.issues_get k).bind
      rintro (e | found) <;> trivial
  | set k v => exact ⟨⟨v, none, .inl ⟨rfl, rfl⟩, rfl⟩, fun _ => trivial⟩
  | setExpiring k v expires =>
      have store : (Prog.call (SourceCmd.set k (ExpiresWrapper.new v expires)) :
          SourceProg (Except StorageError Unit)).Issues
            (ExpiringOp.setExpiring k v expires).Stores :=
        ⟨⟨v, expires, .inr rfl, rfl⟩, fun _ => trivial⟩
      cases expires with
      | none => exact store.bind fun _ => trivial
      | some exp =>
          rw [ExpiringOp.impl, WrappedExpiringStorage.setExpiring_some]
          use trivial
          intro now
          apply Prog.Issues.bind
          · dsimp only
            split
            · trivial
            · apply store
          · intro r
            trivial
  | delete k => exact ⟨trivial, fun _ => trivial⟩
  | entries => apply readOnly _ WrappedExpiringStorage.issues_entries
  | sweep => apply readOnly (fun _ => .swept) WrappedExpiringStorage.issues_sweep

/-- An update that returned without an error has stored its entry. -/
theorem exists_set_of_follows {op : ExpiringOp} {k v : Str} {t : Option SystemTime}
    (hop : op.Writes k v t) {l : List (Σ c, SourceCmd.Answer c)}
    (h : Follows op.impl l (.ret (.stored (.ok ())))) :
  ∃ r, ⟨.set k (ExpiresWrapper.new v t), r⟩ ∈ l
  := by
  rcases hop with ⟨rfl, rfl⟩ | rfl
  · obtain ⟨r, l', rfl, -⟩ := h.act_ret
    use r, List.mem_cons_self
  · cases t with
    | none =>
        obtain ⟨r, l', rfl, -⟩ := h.act_ret
        use r, List.mem_cons_self
    | some exp =>
        rw [ExpiringOp.impl, WrappedExpiringStorage.setExpiring_some] at h
        obtain ⟨now, l', rfl, hnow⟩ := h.act_ret
        dsimp only at hnow
        split at hnow
        · obtain ⟨-, heq⟩ := hnow.ret_eq
          cases heq
        · obtain ⟨r, l', rfl, -⟩ := hnow.act_ret
          use r, List.mem_cons_of_mem _ List.mem_cons_self

/-! ### Quiet updates are kept -/

/-- What is left of a `get` that has found an entry. -/
def afterGet (k : Str) (w : ExpiresWrapper) : SourceProg ExpiringVal := do
  if ← w.isExpired then
    let _ ← Prog.call (SourceCmd.delete k)
    return .found (.ok none)
  else return .found (.ok (some w.payload))

theorem impl_get (k : Str) :
  ∃ next, ExpiringOp.impl (.get k) = .act (.get k) next ∧
    ∀ w, next (.ok (some w)) = afterGet k w
  := by
  refine ⟨_, rfl, ?_⟩
  rintro ⟨_ | exp, payload⟩
  · rfl
  · change Prog.act SourceCmd.now _ = Prog.act SourceCmd.now _
    congr 1
    funext now
    by_cases h : exp ≤ asSecs now <;> simp [h]

/-- What a `get` of `k` can have left when the source shows it the entry `w`. -/
def Reads (k : Str) (w : ExpiresWrapper) (p : SourceProg ExpiringVal) : Prop :=
  p = ExpiringOp.impl (.get k) ∨ p = afterGet k w ∨ p = .ret (.found (.ok (some w.payload)))

variable {σ : Type} {M : LawfulMap σ Str ExpiresWrapper}

/-- A `get` goes on like that while the source has the entry, unless the entry has expired. -/
theorem Reads.act {k : Str} {w : ExpiresWrapper} {c : SourceCmd}
    {next : c.Answer → SourceProg ExpiringVal} (h : Reads k w (.act c next)) {s : World σ}
    (hs : M.get s.source k = some w ∨ w.expiredAt s.clock = true) :
  Reads k w (next (c.exec M (fun _ => false) s).1) ∨ w.expiredAt s.clock = true
  := by
  rcases hs with hs | hs
  · rcases h with h | h | h
    · left
      right
      left
      obtain ⟨next', h', hnext⟩ := impl_get k
      rw [h'] at h
      cases h
      rw [SourceCmd.exec, hs, hnext]
    · obtain ⟨_ | exp, payload⟩ := w
      · cases h
      · rw [afterGet, ExpiresWrapper.isExpired_some, Prog.act_bind] at h
        cases h
        by_cases hexp : exp ≤ asSecs s.clock
        · right
          apply decide_eq_true hexp
        · left
          right
          right
          simp [SourceCmd.exec, hexp]
    · cases h
  · right
    apply hs

variable {Client : Type} {cfg : ExpiringConfig Client σ} {n : ℕ} {op : ExpiringOp} {k : Str}
  {w : ExpiresWrapper}

variable (M) in
/-- The source has the entry stored by the operation with ticket `n`, and every `get` called
after it returned finds it, unless the entry has expired. -/
structure Kept (cfg : ExpiringConfig Client σ) (n : ℕ) (op : ExpiringOp) (k : Str)
    (w : ExpiresWrapper) : Prop where
  current : ∀ r, .act n op (.set k w) r ∈ cfg.history →
    M.get cfg.shared.source k = some w ∨ w.expiredAt cfg.shared.clock = true
  reading : ∀ i m p, cfg.threads i = some ⟨m, .get k, p⟩ →
    Before cfg.history (.ret n op (.stored (.ok ()))) (.call i m (.get k)) →
    Reads k w p ∨ w.expiredAt cfg.shared.clock = true

/-- The commands leave the clock alone. -/
theorem exec_clock (c : SourceCmd) (s : World σ) :
  (c.exec M (fun _ => false) s).2.clock = s.clock
  := by
  cases c <;> rfl

/-- A command keeps the entry of a key, unless it stores another one or deletes one that has
not expired. -/
theorem exec_keeps {c : SourceCmd} {s : World σ} (hset : ∀ w', c = .set k w' → w' = w)
    (hdelete : c = .delete k → ∀ w', M.get s.source k = some w' → w'.expiredAt s.clock = true)
    (h : M.get s.source k = some w ∨ w.expiredAt s.clock = true) :
  M.get (c.exec M (fun _ => false) s).2.source k = some w ∨ w.expiredAt s.clock = true
  := by
  cases c with
  | set k' w' =>
      by_cases hk : k' = k
      · subst hk
        obtain rfl := hset w' rfl
        left
        apply (M.get_set ..).trans (if_pos rfl)
      · simpa [SourceCmd.exec, M.get_set, Ne.symm hk] using h
  | delete k' =>
      by_cases hk : k' = k
      · subst hk
        right
        rcases h with hw | hw
        · apply hdelete rfl w hw
        · apply hw
      · simpa [SourceCmd.exec, M.get_delete, Ne.symm hk] using h
  | get _ | entries | now => apply h

namespace Kept

theorem drifted (h : Kept M cfg n op k w) {t : SystemTime} (ht : cfg.shared.clock ≤ t) :
  Kept M (cfg.drifted { cfg.shared with clock := t }) n op k w
  := by
  constructor
  case current =>
    intro r he
    apply (h.current r he).imp_right
    apply ExpiresWrapper.expiredAt_mono ht
  case reading =>
    intro i m p hi hbefore
    apply (h.reading i m p hi hbefore).imp_right
    apply ExpiresWrapper.expiredAt_mono ht

variable [DecidableEq Client]

theorem called (sound : Sound cfg) (j : Client) (o : ExpiringOp)
    (h : n ≠ cfg.tickets → Kept M cfg n op k w) :
  Kept M (cfg.called j o o.impl) n op k w
  := by
  have old : ∀ e ∈ cfg.history, e.ticket = n → n ≠ cfg.tickets := by
    rintro e he rfl
    apply Nat.ne_of_lt (sound.event_lt e he)
  constructor
  case current =>
    intro r he
    have hold : .act n op (.set k w) r ∈ cfg.history := by simpa [Config.called] using he
    apply (h (old _ hold rfl)).current r hold
  case reading =>
    intro i m p hi hbefore
    rcases of_update_eq_some hi with ⟨-, hi⟩ | ⟨-, hi⟩
    · left
      left
      cases hi
      rfl
    · rcases hbefore.of_concat with hbefore | ⟨-, hcall⟩
      · apply (h (old _ hbefore.left_mem rfl)).reading i m p hi hbefore
      · obtain ⟨-, rfl, -⟩ := Event.call.inj hcall
        apply absurd (sound.thread_lt i _ hi)
        simp

theorem acted (h : Kept M cfg n op k w) (sound : Sound cfg) (quiet : Quiet cfg.history n op k)
    (stored : .ret n op (.stored (.ok ())) ∈ cfg.history →
      ∃ r, .act n op (.set k w) r ∈ cfg.history)
    (writes : ∃ v t, op.Writes k v t ∧ w = ExpiresWrapper.new v t)
    {j : Client} {a : ℕ} {o : ExpiringOp} {c : SourceCmd}
    {next : c.Answer → SourceProg ExpiringVal}
    (run : cfg.threads j = some ⟨a, o, .act c next⟩) (stores : o.Stores c)
    (safe : evictionSafe M cfg (.act j) = true) {r : c.Answer} {s : World σ}
    (hexec : c.exec M (fun _ => false) cfg.shared = (r, s))
    (sound' : Sound (cfg.acted j ⟨a, o, .act c next⟩ c r s (next r))) :
  Kept M (cfg.acted j ⟨a, o, .act c next⟩ c r s (next r)) n op k w
  := by
  obtain rfl : (c.exec M (fun _ => false) cfg.shared).1 = r := congrArg Prod.fst hexec
  obtain rfl : (c.exec M (fun _ => false) cfg.shared).2 = s := congrArg Prod.snd hexec
  constructor
  case current =>
    intro r he
    -- no update of the key runs but the one that is kept
    have same : o.Mutates k → o = op := by
      intro ho
      obtain rfl : a = n := quiet.ticket_eq sound run ho
      apply sound'.op_eq (List.mem_append_right _ (List.mem_singleton_self _)) he rfl
    obtain ⟨v, t, hop, rfl⟩ := writes
    rcases List.mem_append.mp he with hold | hnew
    · simp only [Config.acted, exec_clock]
      apply exec_keeps _ _ (h.current r hold)
      · rintro w' rfl
        obtain ⟨v', t', ho, rfl⟩ := stores
        obtain rfl := same ho.mutates
        obtain ⟨rfl, rfl⟩ := hop.unique ho
        rfl
      · rintro rfl
        simp only [evictionSafe, run, Bool.or_eq_true, beq_iff_eq, Option.all_eq_true] at safe
        rcases safe with rfl | hexp
        · obtain rfl := same rfl
          rcases hop with ⟨hop, -⟩ | hop <;> cases hop
        · apply hexp
    · cases List.mem_singleton.mp hnew
      left
      apply (M.get_set ..).trans (if_pos rfl)
  case reading =>
    intro i m p hi hbefore
    simp only [Config.acted, exec_clock]
    rcases hbefore.of_concat with hold | ⟨-, hcall⟩
    · rcases of_update_eq_some hi with ⟨rfl, hthread⟩ | ⟨-, hthread⟩
      · cases hthread
        rcases h.reading i a _ run hold with hreads | hexp
        · obtain ⟨r, hr⟩ := stored hold.left_mem
          apply hreads.act (h.current r hr)
        · right
          apply hexp
      · apply h.reading i m p hthread hold
    · cases hcall

theorem returned (h : Kept M cfg n op k w) (j : Client)
    (u : Thread SourceCmd SourceCmd.Answer ExpiringOp ExpiringVal) (v : ExpiringVal) :
  Kept M (cfg.returned j u v) n op k w
  := by
  constructor
  case current =>
    intro r he
    apply h.current r
    simpa [Config.returned] using he
  case reading =>
    intro i m p hi hbefore
    rcases hbefore.of_concat with hold | ⟨-, hcall⟩
    · rcases of_update_eq_some hi with ⟨-, hi⟩ | ⟨-, hi⟩
      · cases hi
      · apply h.reading i m p hi hold
    · cases hcall

end Kept

variable [DecidableEq Client]

theorem stored_of_ret {P : ExpiringConfig Client σ → Turn Client ExpiringOp SystemTime → Prop}
    {s : World σ} (h : (expiringMachine M).Reaches P (Config.init s) cfg) {v : Str}
    {t : Option SystemTime} (hop : op.Writes k v t)
    (hret : .ret n op (.stored (.ok ())) ∈ cfg.history) :
  ∃ r, .act n op (.set k (ExpiresWrapper.new v t)) r ∈ cfg.history
  := by
  obtain ⟨r, hr⟩ := exists_set_of_follows hop ((Followed.of_reaches h).returned n op _ hret)
  obtain ⟨op', he⟩ := mem_answersOf_iff.mp hr
  obtain rfl : op' = op := (Sound.of_reaches h).op_eq he hret rfl
  use r

/-- Runs in which evictions delete only expired entries keep quiet updates. -/
theorem kept_of_reaches {s : World σ}
    (h : (expiringMachine M).Reaches (fun cfg l => evictionSafe M cfg l) (Config.init s) cfg)
    {v : Str} {t : Option SystemTime} (hop : op.Writes k v t) (quiet : Quiet cfg.history n op k) :
  Kept M cfg n op k (ExpiresWrapper.new v t)
  := by
  induction h with
  | refl =>
      constructor
      · intro r he
        cases he
      · intro i m p hi
        cases hi
  | step before allowed hs ih =>
      have sound := Sound.of_reaches before
      cases hs with
      | call _ =>
          apply Kept.called sound
          intro hn
          apply ih (quiet.of_concat fun _ => Ne.symm hn)
      | act run hexec =>
          have he := issued_of_reaches issues_expiring
            (before.step allowed (Machine.Step.act run hexec))
            (List.mem_append_right _ (List.mem_singleton_self _))
          have quiet' := quiet.of_concat (by simp)
          apply (ih quiet').acted sound quiet' (stored_of_ret before hop) ⟨v, t, hop, rfl⟩ run he
            allowed (Option.some.inj hexec) (sound.step (Machine.Step.act run hexec))
      | ret _ => apply (ih (quiet.of_concat (by simp))).returned
      | env hexec =>
          obtain ⟨ht, hs⟩ := Option.ite_none_right_eq_some.mp hexec
          obtain rfl := Option.some.inj hs
          apply (ih quiet).drifted ht

/-- In every run in which evictions delete only entries that have expired, every `get` called
after an update returned, which no other update of its key overlaps or follows, returns the
value unless it finishes after the value has expired. -/
theorem updates_kept {s : World σ}
    (h : (expiringMachine M).Reaches (fun cfg l => evictionSafe M cfg l) (Config.init s) cfg) :
  UpdatesKept cfg
  := by
  intro n op k v t hop quiet i m r hbefore hi hvisible
  rcases (kept_of_reaches h hop quiet).reading i m _ hi hbefore with hreads | hexp
  · rcases hreads with hreads | hreads | hreads
    · cases hreads
    · cases t with
      | none => cases hreads; rfl
      | some t => cases hreads
    · cases hreads; rfl
  · have hnot := Reference.isVisible_eq cfg.shared.clock (v, t)
    rw [Reference.wrap, hvisible, hexp] at hnot
    cases hnot

/-- A value is evicted when it has expired, and another one is stored and read. -/
def evictAndStore : List (Turn Bool ExpiringOp SystemTime) :=
  [.call false (.setExpiring "k".toList "v".toList (some (ofSecs 1))), .act false, .act false,
    .ret false, .env (ofSecs 1), .call true (.get "k".toList), .act true, .act true, .act true,
    .ret true, .call false (.set "k".toList "w".toList), .act false, .ret false,
    .call true (.get "k".toList), .act true]

theorem updates_kept_evictAndStore :
  let cfg := (expiringMachine LawfulMap.ofAList).after (Config.init ⟨∅, 0⟩) evictAndStore
  UpdatesKept cfg ∧ .act 1 (.get "k".toList) (.delete "k".toList) (.ok true) ∈ cfg.history
  := by
  constructor
  · apply updates_kept (Machine.reaches_after evictAndStore (by decide))
  · apply List.mem_of_getElem? (i := 7) rfl

/-- A client reads an entry that has expired, and deletes the one that another has stored in
its place. -/
def lostUpdate : List (Turn Bool ExpiringOp SystemTime) :=
  [.call false (.setExpiring "k".toList "v".toList (some (ofSecs 1))), .act false, .act false,
    .ret false, .env (ofSecs 1), .call true (.get "k".toList), .act true, .act true,
    .call false (.set "k".toList "w".toList), .act false, .ret false, .act true, .ret true,
    .call true (.get "k".toList), .act true]

/-- What happened then. -/
def lostHistory : List (ExpiringEvent Bool) :=
  [.call false 0 (.setExpiring "k".toList "v".toList (some (ofSecs 1))),
    .act 0 (.setExpiring "k".toList "v".toList (some (ofSecs 1))) .now (0 : ℤ),
    .act 0 (.setExpiring "k".toList "v".toList (some (ofSecs 1)))
      (.set "k".toList ⟨some 1, "v".toList⟩) (.ok ()),
    .ret 0 (.setExpiring "k".toList "v".toList (some (ofSecs 1))) (.stored (.ok ())),
    .call true 1 (.get "k".toList),
    .act 1 (.get "k".toList) (.get "k".toList) (.ok (some ⟨some 1, "v".toList⟩)),
    .act 1 (.get "k".toList) .now (ofSecs 1),
    .call false 2 (.set "k".toList "w".toList),
    .act 2 (.set "k".toList "w".toList) (.set "k".toList ⟨none, "w".toList⟩) (.ok ()),
    .ret 2 (.set "k".toList "w".toList) (.stored (.ok ())),
    .act 1 (.get "k".toList) (.delete "k".toList) (.ok true),
    .ret 1 (.get "k".toList) (.found (.ok none)),
    .call true 3 (.get "k".toList),
    .act 3 (.get "k".toList) (.get "k".toList) (.ok none)]

theorem quiet_lostHistory :
  Quiet lostHistory 2 (.set "k".toList "w".toList) "k".toList
  := by
  intro j m o hcall ho hne
  simp only [lostHistory, List.mem_cons, Event.call.injEq, reduceCtorEq, List.not_mem_nil,
    or_false, false_or] at hcall
  rcases hcall with ⟨rfl, rfl, rfl⟩ | ⟨-, -, rfl⟩ | ⟨-, rfl, -⟩ | ⟨-, -, rfl⟩
  · use false, .stored (.ok ())
    simp [lostHistory, Before.cons_iff]
  · cases ho
  · apply absurd rfl hne
  · cases ho

/-- An update may be lost to an eviction. -/
theorem not_updates_kept :
  ¬ ∀ cfg : ExpiringConfig Bool (AList fun _ : Str => ExpiresWrapper),
    (expiringMachine LawfulMap.ofAList).Reachable (Config.init ⟨∅, 0⟩) cfg → UpdatesKept cfg
  := by
  intro h
  have history : ((expiringMachine LawfulMap.ofAList).after (Config.init ⟨∅, 0⟩)
      lostUpdate).history = lostHistory := by
    rfl
  have kept := h _ (Machine.reachable_after lostUpdate)
  have found := kept 2 (.set "k".toList "w".toList) "k".toList "w".toList none
    (.inl ⟨rfl, rfl⟩) (history ▸ quiet_lostHistory) true 3 (.ok none)
    (by rw [history]; simp [lostHistory, Before.cons_iff]) rfl rfl
  cases found

end Storage
