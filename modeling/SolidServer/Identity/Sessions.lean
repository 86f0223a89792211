import SolidServer.Identity.Cookie
import SolidServer.Library.Sections

/-!
# Sessions under concurrency

Clients use the cookies at the same time: what an operation does under the lock is one atomic
step, and the clock is read at any time before.  A cookie is answered for only if it was
generated for that account, was not deleted, and the time since it was last generated or
refreshed is not over; so a deleted cookie is never valid again, whatever refreshes are on
their way.  Conversely a cookie is answered for, unless a clock that some pruning has read
was beyond its time.
-/

open Text Atomic

namespace Identity

/-- What an operation does under the lock. -/
inductive CookieCmd where
  | prune (now : Instant)
  | insert (accountId cookie : Str) (now : Instant)
  | lookup (cookie : Str) (now : Instant)
  | refresh (cookie : Str) (now : Instant) (systemNow : SystemTime)
  | remove (cookie : Str)

namespace CookieCmd

/-- What the operation knows when it has released the lock. -/
@[reducible] def Answer : CookieCmd → Type
  | prune _ => Unit
  | insert _ _ _ => Unit
  | lookup _ _ => Except Str (Option Str)
  | refresh _ _ _ => Except Str (Option SystemTime)
  | remove _ => Except Str Bool

/-- The effect of a lock section. -/
def exec : (c : CookieCmd) → BaseCookieStore → c.Answer × BaseCookieStore
  | prune now, s => ((), s.prune now)
  | insert accountId cookie now, s => ((), s.put cookie ⟨accountId, now + s.ttl⟩)
  | lookup cookie now, s => (s.get cookie now, s)
  | refresh cookie now systemNow, s => s.refresh cookie now systemNow
  | remove cookie, s => s.delete cookie

/-- The cookie that a section stores. -/
def inserted : CookieCmd → Option Str
  | insert _ cookie _ => some cookie
  | _ => none

end CookieCmd

/-- Programs of lock sections. -/
abbrev CookieProg := Prog CookieCmd CookieCmd.Answer

/-- The program of an operation. -/
def CookieCall.impl : CookieCall → CookieProg CookieResult
  | generate accountId cookie pruneAt now => do
      Prog.call (CookieCmd.prune pruneAt)
      Prog.call (CookieCmd.insert accountId cookie now)
      return .generated (.ok cookie)
  | get cookie now => do return .found (← Prog.call (CookieCmd.lookup cookie now))
  | refresh cookie now systemNow => do
      return .refreshed (← Prog.call (CookieCmd.refresh cookie now systemNow))
  | delete cookie => do return .deleted (← Prog.call (CookieCmd.remove cookie))

/-- Alone, the program does what the operation does. -/
theorem CookieCall.run_impl (call : CookieCall) (s : BaseCookieStore) :
  call.impl.run CookieCmd.exec s = call.perform s
  := by
  cases call <;> rfl

/-- The cookie that a call is about, unless it draws a new one. -/
def CookieCall.used : CookieCall → Option Str
  | generate _ _ _ _ => none
  | get cookie _ | refresh cookie _ _ | delete cookie => some cookie

/-- A call with a cookie is one section. -/
theorem CookieCall.impl_of_used {call : CookieCall} {cookie : Str}
    (h : call.used = some cookie) :
  ∃ (c : CookieCmd) (result : c.Answer → CookieResult),
    call.impl = .act c (fun r => .ret (result r)) ∧
      ∀ s, (call.perform s).1 = result (c.exec s).1
  := by
  cases call with
  | generate => cases h
  | get cookie now => exact ⟨.lookup cookie now, .found, rfl, fun _ => rfl⟩
  | refresh cookie now systemNow =>
      exact ⟨.refresh cookie now systemNow, .refreshed, rfl, fun _ => rfl⟩
  | delete cookie => exact ⟨.remove cookie, .deleted, rfl, fun _ => rfl⟩

/-- If the cookie of a call is not there, the call returns what it returns without cookies. -/
theorem CookieCall.perform_of_lookup_eq_none {call : CookieCall} {cookie : Str}
    (h : call.used = some cookie) {s : BaseCookieStore} (hs : s.inner.lookup cookie = none) :
  (call.perform s).1 = (call.perform (.new s.ttl)).1
  := by
  have new : (BaseCookieStore.new s.ttl).inner.lookup cookie = none := rfl
  cases call with
  | generate => cases h
  | get _ _ | refresh _ _ _ | delete _ =>
      obtain rfl := Option.some.inj h
      simp [perform, BaseCookieStore.get, BaseCookieStore.refresh, BaseCookieStore.delete, hs,
        new]

/-- The store and its operations. -/
def cookieMachine :
    Machine CookieCmd CookieCmd.Answer BaseCookieStore CookieCall CookieResult Empty where
  impl := CookieCall.impl
  exec c s := some (c.exec s)
  env := nofun

/-- The configurations of the store. -/
abbrev CookieConfig (Client : Type) :=
  Config Client CookieCmd CookieCmd.Answer BaseCookieStore CookieCall CookieResult

/-! ### What happened to a cookie -/

/-- Sections with their answers, in the order they were executed. -/
abbrev CookieLog := List (Σ c, CookieCmd.Answer c)

/-- The cookie was stored for the account. -/
def Opened (log : CookieLog) (cookie accountId : Str) : Prop :=
  ∃ now r, ⟨.insert accountId cookie now, r⟩ ∈ log

/-- The cookie was removed. -/
def Closed (log : CookieLog) (cookie : Str) : Prop :=
  ⟨.remove cookie, .ok true⟩ ∈ log

/-- A pruning has read a clock that had come to `t`. -/
def PrunedAfter (log : CookieLog) (t : Instant) : Prop :=
  ∃ now r, ⟨.prune now, r⟩ ∈ log ∧ t ≤ now

/-- When a section lets the time of a cookie begin: it stores the cookie, or refreshes it
successfully. -/
def starts (cookie : Str) : (Σ c, CookieCmd.Answer c) → Option Instant
  | ⟨.insert _ cookie' now, _⟩ => if cookie' = cookie then some now else none
  | ⟨.refresh cookie' now _, .ok (some _)⟩ => if cookie' = cookie then some now else none
  | _ => none

/-- When the time of a cookie began last. -/
def lastStart (log : CookieLog) (cookie : Str) : Option Instant :=
  Run.latest (starts cookie) log

/-- The cookie was stored for the account, it was not removed, and at `now` its time, which
began last at a point in the log, is not over. -/
def Valid (ttl : Duration) (log : CookieLog) (cookie accountId : Str) (now : Instant) : Prop :=
  Opened log cookie accountId ∧ ¬ Closed log cookie ∧
    ∃ t, lastStart log cookie = some t ∧ now < t + ttl

/-- Some pruning has read a clock beyond the time of the cookie that began last. -/
def Overtaken (ttl : Duration) (log : CookieLog) (cookie : Str) : Prop :=
  ∃ t, lastStart log cookie = some t ∧ PrunedAfter log (t + ttl)

section

variable {log : CookieLog} {o : Σ c, CookieCmd.Answer c} {cookie accountId : Str}

theorem opened_concat :
  Opened (log ++ [o]) cookie accountId ↔
    Opened log cookie accountId ∨ ∃ now r, o = ⟨.insert accountId cookie now, r⟩
  := by
  simp only [Opened, List.mem_append, List.mem_singleton, exists_or, eq_comm]

theorem closed_concat :
  Closed (log ++ [o]) cookie ↔ Closed log cookie ∨ o = ⟨.remove cookie, .ok true⟩
  := by
  rw [Closed, List.mem_append, List.mem_singleton, eq_comm (b := o)]
  rfl

theorem lastStart_concat :
  lastStart (log ++ [o]) cookie = (starts cookie o).or (lastStart log cookie)
  := Run.latest_concat _ _ _

theorem PrunedAfter.append {t : Instant} (h : PrunedAfter log t) :
  PrunedAfter (log ++ [o]) t
  := by
  obtain ⟨now, r, hmem, ht⟩ := h
  exact ⟨now, r, List.mem_append_left _ hmem, ht⟩

end

/-- What the store holds after the sections of a log, in terms of what happened. -/
structure Remembers (ttl : Duration) (log : CookieLog) (s : BaseCookieStore) : Prop where
  ttl_eq : s.ttl = ttl
  stored : ∀ c e, s.inner.lookup c = some e → Opened log c e.accountId ∧ ¬ Closed log c ∧
    ∃ t, lastStart log c = some t ∧ e.expiresAt = t + ttl
  kept : ∀ c a, Opened log c a → ¬ Closed log c →
    (∃ e, s.inner.lookup c = some e) ∨ Overtaken ttl log c
  unique : ∀ c a a', Opened log c a → Opened log c a' → a = a'
  opened : ∀ c, Closed log c → ∃ a, Opened log c a
  started : ∀ c a, Opened log c a → ∃ t, lastStart log c = some t

namespace Remembers

variable {ttl : Duration} {log : CookieLog} {s s' : BaseCookieStore}

theorem new (ttl : Duration) :
  Remembers ttl [] (.new ttl)
  := by
  constructor
  case ttl_eq => rfl
  case stored => rintro c e ⟨⟩
  case kept | unique | started =>
    rintro c a
    simp [Opened]
  case opened =>
    intro c
    simp [Closed]

/-- A section that neither stores, refreshes nor removes a cookie, and drops none but those
that a pruning has overtaken. -/
theorem quiet (h : Remembers ttl log s) {o : Σ c, CookieCmd.Answer c}
    (inserts : ∀ a c now r, o ≠ ⟨.insert a c now, r⟩)
    (removes : ∀ c, o ≠ ⟨.remove c, .ok true⟩) (starts_eq : ∀ c, starts c o = none)
    (httl : s'.ttl = s.ttl)
    (old : ∀ c e, s'.inner.lookup c = some e → s.inner.lookup c = some e)
    (dropped : ∀ c e, s.inner.lookup c = some e →
      s'.inner.lookup c = some e ∨ Overtaken ttl (log ++ [o]) c) :
  Remembers ttl (log ++ [o]) s'
  := by
  have opened : ∀ {c a}, Opened (log ++ [o]) c a ↔ Opened log c a := by
    intro c a
    rw [opened_concat, or_iff_left]
    rintro ⟨now, r, ho⟩
    apply inserts a c now r ho
  have closed : ∀ {c}, Closed (log ++ [o]) c ↔ Closed log c := by
    intro c
    rw [closed_concat, or_iff_left (removes c)]
  have last : ∀ {c}, lastStart (log ++ [o]) c = lastStart log c := by
    intro c
    rw [lastStart_concat, starts_eq, Option.none_or]
  constructor
  case ttl_eq => rw [httl, h.ttl_eq]
  case stored =>
    intro c e he
    rw [opened, closed, last]
    apply h.stored c e (old c e he)
  case kept =>
    intro c a hopened hclosed
    rcases h.kept c a (opened.mp hopened) (mt closed.mpr hclosed) with ⟨e, he⟩ | ⟨t, ht, hpruned⟩
    · rcases dropped c e he with he | hover
      · exact .inl ⟨e, he⟩
      · exact .inr hover
    · right
      exact ⟨t, last.trans ht, hpruned.append⟩
  case unique =>
    intro c a a' ha ha'
    apply h.unique c a a' (opened.mp ha) (opened.mp ha')
  case opened =>
    intro c hc
    obtain ⟨a, ha⟩ := h.opened c (closed.mp hc)
    exact ⟨a, opened.mpr ha⟩
  case started =>
    intro c a ha
    rw [last]
    apply h.started c a (opened.mp ha)

theorem prune (h : Remembers ttl log s) (now : Instant) :
  Remembers ttl (log ++ [⟨.prune now, ()⟩]) (s.prune now)
  := by
  apply h.quiet
  case inserts => rintro a c t r ⟨⟩
  case removes => rintro c ⟨⟩
  case starts_eq => exact fun _ => rfl
  case httl => rfl
  case old =>
    intro c e he
    rw [BaseCookieStore.prune, HashMap.lookup_retain, Option.filter_eq_some_iff] at he
    apply he.1
  case dropped =>
    intro c e he
    by_cases hnow : now < e.expiresAt
    · left
      rw [BaseCookieStore.prune, HashMap.lookup_retain, Option.filter_eq_some_iff]
      exact ⟨he, decide_eq_true hnow⟩
    · right
      obtain ⟨-, -, t, ht, hexpires⟩ := h.stored c e he
      refine ⟨t, ?_, now, (), List.mem_append_right _ (List.mem_singleton_self _), ?_⟩
      · rw [lastStart_concat, ht]
        rfl
      · rw [← hexpires]
        apply Nat.not_lt.mp hnow

theorem insert (h : Remembers ttl log s) {accountId cookie : Str} (now : Instant)
    (fresh : ∀ a, ¬ Opened log cookie a) :
  Remembers ttl (log ++ [⟨.insert accountId cookie now, ()⟩])
    (s.put cookie ⟨accountId, now + s.ttl⟩)
  := by
  have opened : ∀ {c a}, Opened (log ++ [⟨.insert accountId cookie now, ()⟩]) c a →
      (c ≠ cookie ∧ Opened log c a) ∨ (c = cookie ∧ a = accountId) := by
    intro c a ha
    rcases opened_concat.mp ha with hold | ⟨t, r, hnew⟩
    · left
      refine ⟨?_, hold⟩
      rintro rfl
      apply fresh a hold
    · right
      obtain ⟨rfl, rfl, -⟩ := CookieCmd.insert.inj (Sigma.mk.inj hnew).1
      exact ⟨rfl, rfl⟩
  have closed : ∀ {c}, Closed (log ++ [⟨.insert accountId cookie now, ()⟩]) c ↔ Closed log c := by
    intro c
    rw [closed_concat, or_iff_left]
    rintro ⟨⟩
  have last : ∀ {c}, lastStart (log ++ [⟨.insert accountId cookie now, ()⟩]) c
      = if cookie = c then some now else lastStart log c := by
    intro c
    rw [lastStart_concat, starts]
    split <;> rfl
  have old : ∀ {c a}, Opened log c a →
      Opened (log ++ [⟨.insert accountId cookie now, ()⟩]) c a :=
    fun ha => opened_concat.mpr (.inl ha)
  constructor
  case ttl_eq => exact h.ttl_eq
  case stored =>
    intro c e he
    rw [closed, last]
    simp only [BaseCookieStore.put, HashMap.lookup_insert] at he
    split at he
    · obtain rfl := Option.some.inj he
      subst_vars
      refine ⟨opened_concat.mpr (.inr ⟨now, (), rfl⟩), ?_, now, if_pos rfl,
        congrArg (now + ·) h.ttl_eq⟩
      intro hclosed
      obtain ⟨a, ha⟩ := h.opened c hclosed
      apply fresh a ha
    · obtain ⟨hopened, hclosed, hlast⟩ := h.stored c e he
      rw [if_neg (Ne.symm ‹_›)]
      exact ⟨old hopened, hclosed, hlast⟩
  case kept =>
    intro c a hopened hclosed
    simp only [BaseCookieStore.put, HashMap.lookup_insert]
    rcases opened hopened with ⟨hc, hopened⟩ | ⟨rfl, -⟩
    · rw [if_neg hc]
      rcases h.kept c a hopened (mt closed.mpr hclosed) with hstored | ⟨t, ht, hpruned⟩
      · exact .inl hstored
      · right
        refine ⟨t, ?_, hpruned.append⟩
        rw [last, if_neg (Ne.symm hc), ht]
    · rw [if_pos rfl]
      exact .inl ⟨_, rfl⟩
  case unique =>
    intro c a a' ha ha'
    rcases opened ha with ⟨hc, ha⟩ | ⟨hc, rfl⟩ <;> rcases opened ha' with ⟨hc', ha'⟩ | ⟨hc', rfl⟩
    · apply h.unique c a a' ha ha'
    · exact absurd hc' hc
    · exact absurd hc hc'
    · rfl
  case opened =>
    intro c hc
    obtain ⟨a, ha⟩ := h.opened c (closed.mp hc)
    exact ⟨a, old ha⟩
  case started =>
    intro c a ha
    rw [last]
    rcases opened ha with ⟨hc, ha⟩ | ⟨rfl, -⟩
    · rw [if_neg (Ne.symm hc)]
      apply h.started c a ha
    · exact ⟨now, if_pos rfl⟩

/-- The time of a stored cookie begins again. -/
theorem refresh (h : Remembers ttl log s) {cookie : Str} {now : Instant} {systemNow : SystemTime}
    {expiry : SystemTime} {entry : CookieEntry} (hentry : s.inner.lookup cookie = some entry) :
  Remembers ttl (log ++ [⟨.refresh cookie now systemNow, .ok (some expiry)⟩])
    (s.put cookie { entry with expiresAt := now + s.ttl })
  := by
  obtain ⟨hopened, hclosed, -⟩ := h.stored cookie entry hentry
  have opened : ∀ {c a}, Opened (log ++ [⟨.refresh cookie now systemNow, .ok (some expiry)⟩]) c a ↔
      Opened log c a := by
    intro c a
    rw [opened_concat, or_iff_left]
    rintro ⟨t, r, ⟨⟩⟩
  have closed : ∀ {c}, Closed (log ++ [⟨.refresh cookie now systemNow, .ok (some expiry)⟩]) c ↔
      Closed log c := by
    intro c
    rw [closed_concat, or_iff_left]
    rintro ⟨⟩
  have last : ∀ {c}, lastStart (log ++ [⟨.refresh cookie now systemNow, .ok (some expiry)⟩]) c
      = if cookie = c then some now else lastStart log c := by
    intro c
    rw [lastStart_concat, starts]
    split <;> rfl
  constructor
  case ttl_eq => exact h.ttl_eq
  case stored =>
    intro c e he
    rw [opened, closed, last]
    simp only [BaseCookieStore.put, HashMap.lookup_insert] at he
    split at he
    · obtain rfl := Option.some.inj he
      subst_vars
      exact ⟨hopened, hclosed, now, if_pos rfl, congrArg (now + ·) h.ttl_eq⟩
    · rw [if_neg (Ne.symm ‹_›)]
      apply h.stored c e he
  case kept =>
    intro c a ha hc
    simp only [BaseCookieStore.put, HashMap.lookup_insert]
    by_cases hcookie : c = cookie
    · rw [if_pos hcookie]
      exact .inl ⟨_, rfl⟩
    · rw [if_neg hcookie]
      rcases h.kept c a (opened.mp ha) (mt closed.mpr hc) with hstored | ⟨t, ht, hpruned⟩
      · exact .inl hstored
      · right
        refine ⟨t, ?_, hpruned.append⟩
        rw [last, if_neg (Ne.symm hcookie), ht]
  case unique =>
    intro c a a' ha ha'
    apply h.unique c a a' (opened.mp ha) (opened.mp ha')
  case opened =>
    intro c hc
    obtain ⟨a, ha⟩ := h.opened c (closed.mp hc)
    exact ⟨a, opened.mpr ha⟩
  case started =>
    intro c a ha
    rw [last]
    split
    · exact ⟨now, rfl⟩
    · apply h.started c a (opened.mp ha)

/-- A stored cookie is removed. -/
theorem remove (h : Remembers ttl log s) {cookie : Str} {entry : CookieEntry}
    (hentry : s.inner.lookup cookie = some entry) :
  Remembers ttl (log ++ [⟨.remove cookie, .ok true⟩])
    { s with inner := s.inner.erase cookie }
  := by
  obtain ⟨hopened, -, -⟩ := h.stored cookie entry hentry
  have opened : ∀ {c a}, Opened (log ++ [⟨.remove cookie, .ok true⟩]) c a ↔ Opened log c a := by
    intro c a
    rw [opened_concat, or_iff_left]
    rintro ⟨t, r, ⟨⟩⟩
  have closed : ∀ {c}, Closed (log ++ [⟨.remove cookie, .ok true⟩]) c ↔
      Closed log c ∨ c = cookie := by
    intro c
    rw [closed_concat]
    apply or_congr Iff.rfl
    constructor
    · rintro ⟨⟩
      rfl
    · rintro rfl
      rfl
  have last : ∀ {c}, lastStart (log ++ [⟨.remove cookie, .ok true⟩]) c = lastStart log c := by
    intro c
    rw [lastStart_concat]
    rfl
  constructor
  case ttl_eq => exact h.ttl_eq
  case stored =>
    intro c e he
    rw [opened, closed, last]
    simp only [HashMap.lookup_erase] at he
    split at he
    · cases he
    · obtain ⟨ho, hc, hlast⟩ := h.stored c e he
      exact ⟨ho, not_or.mpr ⟨hc, ‹_›⟩, hlast⟩
  case kept =>
    intro c a ha hc
    obtain ⟨hclosed, hne⟩ := not_or.mp (mt closed.mpr hc)
    simp only [HashMap.lookup_erase]
    rw [if_neg hne]
    rcases h.kept c a (opened.mp ha) hclosed with hstored | ⟨t, ht, hpruned⟩
    · exact .inl hstored
    · exact .inr ⟨t, last.trans ht, hpruned.append⟩
  case unique =>
    intro c a a' ha ha'
    apply h.unique c a a' (opened.mp ha) (opened.mp ha')
  case opened =>
    intro c hc
    rcases closed.mp hc with hc | rfl
    · obtain ⟨a, ha⟩ := h.opened c hc
      exact ⟨a, opened.mpr ha⟩
    · exact ⟨_, opened.mpr hopened⟩
  case started =>
    intro c a ha
    rw [last]
    apply h.started c a (opened.mp ha)

/-- Every section is remembered, if the cookie that it stores is new. -/
theorem step (h : Remembers ttl log s) (c : CookieCmd)
    (fresh : ∀ cookie, c.inserted = some cookie → ∀ a, ¬ Opened log cookie a) :
  Remembers ttl (log ++ [⟨c, (c.exec s).1⟩]) (c.exec s).2
  := by
  -- a section that leaves the store alone and starts no time
  have still : ∀ {o : Σ c, CookieCmd.Answer c}, (∀ a c now r, o ≠ ⟨.insert a c now, r⟩) →
      (∀ c, o ≠ ⟨.remove c, .ok true⟩) → (∀ c, starts c o = none) →
      Remembers ttl (log ++ [o]) s := by
    intro o inserts removes starts_eq
    apply h.quiet inserts removes starts_eq rfl (fun _ _ he => he) fun _ _ he => .inl he
  cases c with
  | prune now => apply h.prune now
  | insert accountId cookie now => apply h.insert now (fresh cookie rfl)
  | lookup cookie now => apply still (by rintro _ _ _ _ ⟨⟩) (by rintro _ ⟨⟩) fun _ => rfl
  | refresh cookie now systemNow =>
      simp only [CookieCmd.exec, BaseCookieStore.refresh]
      cases he : s.inner.lookup cookie with
      | none => apply still (by rintro _ _ _ _ ⟨⟩) (by rintro _ ⟨⟩) fun _ => rfl
      | some entry =>
          by_cases hnow : now < entry.expiresAt
          · simp only [if_pos hnow]
            apply h.refresh he
          · simp only [if_neg hnow]
            apply still (by rintro _ _ _ _ ⟨⟩) (by rintro _ ⟨⟩) fun _ => rfl
  | remove cookie =>
      simp only [CookieCmd.exec, BaseCookieStore.delete]
      cases he : s.inner.lookup cookie with
      | some entry => apply h.remove he
      | none =>
          rw [HashMap.erase_of_notMem]
          · apply still (by rintro _ _ _ _ ⟨⟩) (by rintro _ ⟨⟩) fun _ => rfl
          · apply HashMap.notMem_iff_lookup.mpr
            intro entry hentry
            rw [he] at hentry
            cases hentry

/-- A cookie is answered for exactly if it is valid, unless a pruning has overtaken it. -/
theorem get_iff (h : Remembers ttl log s) (cookie accountId : Str) (now : Instant) :
  (s.get cookie now = .ok (some accountId) → Valid ttl log cookie accountId now) ∧
    (Valid ttl log cookie accountId now → ¬ Overtaken ttl log cookie →
      s.get cookie now = .ok (some accountId))
  := by
  simp only [BaseCookieStore.get, Except.ok.injEq, Option.map_eq_some_iff,
    Option.filter_eq_some_iff, decide_eq_true_eq]
  constructor
  · rintro ⟨e, ⟨he, hnow⟩, rfl⟩
    obtain ⟨hopened, hclosed, t, ht, hexpires⟩ := h.stored cookie e he
    rw [hexpires] at hnow
    exact ⟨hopened, hclosed, t, ht, hnow⟩
  · rintro ⟨hopened, hclosed, t, ht, hnow⟩ hover
    obtain ⟨e, he⟩ := (h.kept cookie accountId hopened hclosed).resolve_right hover
    obtain ⟨hopened', -, t', ht', hexpires⟩ := h.stored cookie e he
    obtain rfl := Option.some.inj (ht.symm.trans ht')
    use e
    rw [hexpires]
    exact ⟨⟨he, hnow⟩, h.unique cookie _ _ hopened' hopened⟩

/-- A cookie is refreshed exactly if it is valid, unless a pruning has overtaken it. -/
theorem refresh_iff (h : Remembers ttl log s) (cookie : Str) (now : Instant)
    (systemNow : SystemTime) :
  (∀ expiry, (s.refresh cookie now systemNow).1 = .ok (some expiry) →
      expiry = systemNow + ttl ∧ ∃ a, Valid ttl log cookie a now) ∧
    ∀ a, Valid ttl log cookie a now → ¬ Overtaken ttl log cookie →
      (s.refresh cookie now systemNow).1 = .ok (some (systemNow + ttl))
  := by
  constructor
  · intro expiry hr
    cases he : s.inner.lookup cookie with
    | none => simp [BaseCookieStore.refresh, he] at hr
    | some e =>
        by_cases hnow : now < e.expiresAt
        · simp only [BaseCookieStore.refresh, he, if_pos hnow, Except.ok.injEq,
            Option.some.injEq, h.ttl_eq] at hr
          obtain ⟨hopened, hclosed, t, ht, hexpires⟩ := h.stored cookie e he
          rw [hexpires] at hnow
          exact ⟨hr.symm, e.accountId, hopened, hclosed, t, ht, hnow⟩
        · simp [BaseCookieStore.refresh, he, hnow] at hr
  · rintro a ⟨hopened, hclosed, t, ht, hnow⟩ hover
    obtain ⟨e, he⟩ := (h.kept cookie a hopened hclosed).resolve_right hover
    obtain ⟨-, -, t', ht', hexpires⟩ := h.stored cookie e he
    obtain rfl := Option.some.inj (ht.symm.trans ht')
    rw [← hexpires] at hnow
    simp [BaseCookieStore.refresh, he, hnow, h.ttl_eq]

/-- A cookie that was removed is not there. -/
theorem lookup_of_closed (h : Remembers ttl log s) {cookie : Str} (hclosed : Closed log cookie) :
  s.inner.lookup cookie = none
  := by
  cases he : s.inner.lookup cookie with
  | none => rfl
  | some e => exact absurd hclosed (h.stored cookie e he).2.1

end Remembers

/-! ### Sessions in a run -/

section

variable {Client : Type} [DecidableEq Client] {ttl : Duration} {cfg : CookieConfig Client}

/-- In a run where no two cookies that are drawn are the same, a section has found what the
sections before it have left. -/
theorem remembered
    (h : cookieMachine.Reaches (fun cfg turn => freshCall CookieCall.drawn cfg turn)
      (Config.init (.new ttl)) cfg)
    {l₁ l₂ : List (Event Client CookieCmd CookieCmd.Answer CookieCall CookieResult)} {n : ℕ}
    {call : CookieCall} {c : CookieCmd} {r : c.Answer}
    (hl : cfg.history = l₁ ++ .act n call c r :: l₂) :
  ∃ s, Remembers ttl (answers l₁) s ∧ (c.exec s).1 = r
  := by
  have issues : ∀ call : CookieCall, call.impl.Issues fun c =>
      ∀ cookie, c.inserted = some cookie → call.drawn = some cookie := by
    intro call
    cases call <;> simp [CookieCall.impl, Prog.Issues, Prog.call, CookieCmd.inserted,
      CookieCall.drawn]
  have once : ∀ call : CookieCall, call.drawn.isSome →
      call.impl.OnePoint fun c => c.inserted.isSome := by
    intro call hcall
    cases call with
    | generate accountId cookie pruneAt now =>
        simp [CookieCall.impl, Prog.OnePoint, Prog.Issues, Prog.call, CookieCmd.inserted]
    | get | refresh | delete => cases hcall
  have keep : ∀ (log : List (Σ c, CookieCmd.Answer c)) o s s', Remembers ttl log s →
      o.1.exec s = (o.2, s') →
      (∀ cookie, o.1.inserted = some cookie → ∀ o' ∈ log, o'.1.inserted ≠ some cookie) →
      Remembers ttl (log ++ [o]) s' := by
    intro log o s s' ih hexec fresh
    have unopened : ∀ cookie, o.1.inserted = some cookie → ∀ a, ¬ Opened log cookie a := by
      rintro cookie hcookie a ⟨now, r, hmem⟩
      apply fresh cookie hcookie _ hmem rfl
    have step := ih.step o.1 unopened
    rwa [hexec] at step
  obtain ⟨s, s', hs, hexec, -⟩ := invariant_before id (fun o s s' => o.1.exec s = (o.2, s'))
    (fun c s r t hexec => Option.some.inj hexec) (fun e => e.elim) issues once (Remembers ttl)
    (Remembers.new ttl) keep h (FreshCalls.of_reaches h fun _ _ hfresh => hfresh) hl
  exact ⟨s, hs, congrArg Prod.fst hexec⟩

/-- In every run where no two cookies that are drawn are the same: a lookup answers with an
account only if the cookie is valid for it, and does so unless a pruning has overtaken the
cookie; and in the same cases a refresh succeeds. -/
theorem sessions_answer
    (h : cookieMachine.Reaches (fun cfg turn => freshCall CookieCall.drawn cfg turn)
      (Config.init (.new ttl)) cfg)
    (l₁ l₂ : List (Event Client CookieCmd CookieCmd.Answer CookieCall CookieResult)) (n : ℕ)
    (call : CookieCall) (cookie : Str) (now : Instant) :
  (∀ r, cfg.history = l₁ ++ .act n call (.lookup cookie now) r :: l₂ → ∀ accountId,
      (r = .ok (some accountId) → Valid ttl (answers l₁) cookie accountId now) ∧
      (Valid ttl (answers l₁) cookie accountId now → ¬ Overtaken ttl (answers l₁) cookie →
        r = .ok (some accountId))) ∧
    ∀ systemNow r, cfg.history = l₁ ++ .act n call (.refresh cookie now systemNow) r :: l₂ →
      (∀ expiry, r = .ok (some expiry) →
        expiry = systemNow + ttl ∧ ∃ a, Valid ttl (answers l₁) cookie a now) ∧
      ∀ accountId, Valid ttl (answers l₁) cookie accountId now →
        ¬ Overtaken ttl (answers l₁) cookie → r = .ok (some (systemNow + ttl))
  := by
  constructor
  · rintro r hl accountId
    obtain ⟨s, hs, rfl⟩ := remembered h hl
    apply hs.get_iff cookie accountId now
  · rintro systemNow r hl
    obtain ⟨s, hs, rfl⟩ := remembered h hl
    apply hs.refresh_iff cookie now systemNow

/-- Once the removal of a cookie has returned, a call with the cookie returns what it would if
there were no cookies at all, whatever was on its way when the cookie was removed. -/
theorem removed_for_good
    (h : cookieMachine.Reaches (fun cfg turn => freshCall CookieCall.drawn cfg turn)
      (Config.init (.new ttl)) cfg)
    {cookie : Str} {i : Client} {a b : ℕ} {call : CookieCall} {r : CookieResult}
    (hused : call.used = some cookie)
    (hbefore : Before cfg.history (.ret a (.delete cookie) (.deleted (.ok true)))
      (.call i b call))
    (hret : .ret b call r ∈ cfg.history) :
  r = (call.perform (.new ttl)).1
  := by
  have followed := Followed.of_reaches h
  have removed : ⟨.remove cookie, .ok true⟩ ∈ answersOf a cfg.history := by
    obtain ⟨r', l, hl, hrest⟩ := (followed.returned a _ _ hbefore.left_mem).act_ret
    obtain ⟨-, hr⟩ := hrest.ret_eq
    obtain rfl := CookieResult.deleted.inj (Prog.ret.inj hr)
    rw [hl]
    apply List.mem_cons_self
  obtain ⟨c, result, himpl, hperform⟩ := call.impl_of_used hused
  have ran := followed.returned b call r hret
  simp only [cookieMachine, himpl] at ran
  obtain ⟨r', l, hl, hrest⟩ := ran.act_ret
  obtain ⟨-, hr⟩ := hrest.ret_eq
  have answered : ⟨c, r'⟩ ∈ answersOf b cfg.history := by
    rw [hl]
    apply List.mem_cons_self
  obtain ⟨l₁, l₂, hhistory, hmem⟩ := answered_before h hbefore removed answered
  obtain ⟨s, hs, rfl⟩ := remembered h hhistory
  calc
    r = result (c.exec s).1 := Prog.ret.inj hr
    _ = (call.perform s).1 := (hperform s).symm
    _ = (call.perform (.new s.ttl)).1 :=
      CookieCall.perform_of_lookup_eq_none hused (hs.lookup_of_closed hmem)
    _ = (call.perform (.new ttl)).1 := by rw [hs.ttl_eq]

end

/-- A cookie is refreshed with an old reading of the clock, which came to be of use only when
the cookie was deleted. -/
def refreshDuringDelete : List (Turn Bool CookieCall Empty) :=
  [.call false (.generate "alice".toList "c".toList 0 0), .act false, .act false, .ret false,
    .call true (.get "c".toList 5), .act true, .ret true,
    .call true (.refresh "c".toList 6 6),
    .call false (.delete "c".toList), .act false, .ret false,
    .act true, .ret true,
    .call true (.get "c".toList 7), .act true, .ret true]

/-- The configuration that the schedule leads to. -/
def refreshedDuringDelete : CookieConfig Bool :=
  cookieMachine.after (Config.init (.new 10)) refreshDuringDelete

theorem sessions_answer_refreshDuringDelete :
  Valid 10 (answers (refreshedDuringDelete.history.take 5)) "c".toList "alice".toList 5
  := by
  apply ((sessions_answer (Machine.reaches_after refreshDuringDelete (by decide)) _
    (refreshedDuringDelete.history.drop 6) 1 (.get "c".toList 5) "c".toList 5).1 _ rfl _).1
  rfl

theorem removed_for_good_refreshDuringDelete :
  .found (.ok none) = ((CookieCall.get "c".toList 7).perform (.new 10)).1
  := by
  have hret : .ret 4 (.get "c".toList 7) (.found (.ok none)) ∈ refreshedDuringDelete.history :=
    List.mem_of_getElem? (i := 15) rfl
  have hbefore : Before refreshedDuringDelete.history
      (.ret 3 (.delete "c".toList) (.deleted (.ok true))) (.call true 4 (.get "c".toList 7)) := by
    use refreshedDuringDelete.history.take 11, refreshedDuringDelete.history.drop 11, rfl
    constructor
    · apply List.mem_of_getElem? (i := 10) rfl
    · apply List.mem_of_getElem? (i := 2) rfl
  apply removed_for_good (Machine.reaches_after refreshDuringDelete (by decide)) rfl hbefore hret

end Identity
