import SolidServer.Library.Runs
import SolidServer.Identity.Account

/-!
# Cookies

`BaseCookieStore` holds for every cookie the account it was generated for and when it expires.
The cookies are drawn at random, so that a new cookie and the readings of the clock are
arguments of the operations here.  `generate` removes the cookies that have expired, and reads
the clock twice.

In a run with a clock that does not go back a cookie is valid exactly from its generation, or
its last successful refresh, until the time to live is over, unless it is deleted; nobody sees
whether expired cookies are removed.
-/

open Text

namespace Identity

/-- A date, in units since some epoch. -/
abbrev SystemTime := ℕ

/-- The account of a cookie, and when the cookie expires. -/
structure CookieEntry where
  accountId : Str
  expiresAt : Instant

/-- The cookies, and how long a cookie lives. -/
structure BaseCookieStore where
  inner : HashMap Str CookieEntry
  ttl : Duration

namespace BaseCookieStore

/-- The store without cookies. -/
def new (ttl : Duration) : BaseCookieStore where
  inner := ∅
  ttl := ttl

/-- The store with an entry replaced, or added. -/
def put (s : BaseCookieStore) (cookie : Str) (entry : CookieEntry) : BaseCookieStore where
  inner := s.inner.insert cookie entry
  ttl := s.ttl

/-- Remove the cookies that have expired. -/
def prune (now : Instant) (s : BaseCookieStore) : BaseCookieStore where
  inner := s.inner.retain fun _ e => now < e.expiresAt
  ttl := s.ttl

/-- Store a new cookie of an account. -/
def generate (accountId cookie : Str) (pruneAt now : Instant) (s : BaseCookieStore) :
    Except Str Str × BaseCookieStore :=
  (.ok cookie, (s.prune pruneAt).put cookie ⟨accountId, now + s.ttl⟩)

/-- The account of a cookie that has not expired. -/
def get (cookie : Str) (now : Instant) (s : BaseCookieStore) : Except Str (Option Str) :=
  .ok (((s.inner.lookup cookie).filter fun e => now < e.expiresAt).map CookieEntry.accountId)

/-- Let a cookie that has not expired live for the whole time again. -/
def refresh (cookie : Str) (now : Instant) (systemNow : SystemTime) (s : BaseCookieStore) :
    Except Str (Option SystemTime) × BaseCookieStore :=
  match s.inner.lookup cookie with
  | some entry =>
      if now < entry.expiresAt then
        (.ok (some (systemNow + s.ttl)), s.put cookie { entry with expiresAt := now + s.ttl })
      else (.ok none, s)
  | none => (.ok none, s)

/-- Remove a cookie, and say whether there was one. -/
def delete (cookie : Str) (s : BaseCookieStore) : Except Str Bool × BaseCookieStore :=
  (.ok (s.inner.lookup cookie).isSome, { s with inner := s.inner.erase cookie })

end BaseCookieStore

/-- A call on the store, with the clock readings in it and the cookie that it draws. -/
inductive CookieCall where
  | generate (accountId cookie : Str) (pruneAt now : Instant)
  | get (cookie : Str) (now : Instant)
  | refresh (cookie : Str) (now : Instant) (systemNow : SystemTime)
  | delete (cookie : Str)

/-- What a call returns. -/
inductive CookieResult where
  | generated (r : Except Str Str)
  | found (r : Except Str (Option Str))
  | refreshed (r : Except Str (Option SystemTime))
  | deleted (r : Except Str Bool)

namespace CookieCall

/-- The result of a call and the store it leaves. -/
def perform : CookieCall → BaseCookieStore → CookieResult × BaseCookieStore
  | generate accountId cookie pruneAt now, s =>
      let (r, s') := s.generate accountId cookie pruneAt now
      (.generated r, s')
  | get cookie now, s => (.found (s.get cookie now), s)
  | refresh cookie now systemNow, s =>
      let (r, s') := s.refresh cookie now systemNow
      (.refreshed r, s')
  | delete cookie, s =>
      let (r, s') := s.delete cookie
      (.deleted r, s')

/-- The same if expired cookies were not removed by `generate`. -/
def performUnpruned : CookieCall → BaseCookieStore → CookieResult × BaseCookieStore
  | generate accountId cookie _ now, s =>
      (.generated (.ok cookie), s.put cookie ⟨accountId, now + s.ttl⟩)
  | call, s => call.perform s

/-- The readings of the clock in a call. -/
def readings : CookieCall → List Instant
  | generate _ _ pruneAt now => [pruneAt, now]
  | get _ now | refresh _ now _ => [now]
  | delete _ => []

/-- The cookie drawn by a call. -/
def drawn : CookieCall → Option Str
  | generate _ cookie _ _ => some cookie
  | _ => none

end CookieCall

/-- The cookies that are drawn are fresh, and the clock does not go back. -/
structure Timely (calls : List CookieCall) : Prop where
  fresh : (calls.filterMap CookieCall.drawn).Nodup
  clock : (calls.flatMap CookieCall.readings).Pairwise (· ≤ ·)

/-- What is done first is timely, and before what is done later. -/
theorem Timely.of_append {calls later : List CookieCall} (h : Timely (calls ++ later)) :
  Timely calls ∧
    (∀ u ∈ calls.flatMap CookieCall.readings, ∀ v ∈ later.flatMap CookieCall.readings, u ≤ v) ∧
    ∀ c ∈ calls.filterMap CookieCall.drawn, c ∉ later.filterMap CookieCall.drawn
  := by
  obtain ⟨fresh, clock⟩ := h
  rw [List.filterMap_append, List.nodup_append] at fresh
  rw [List.flatMap_append, List.pairwise_append] at clock
  refine ⟨⟨fresh.1, clock.1⟩, clock.2.2, ?_⟩
  exact fun c hc hc' => fresh.2.2 c hc c hc' rfl

/-- Calls with their results. -/
abbrev CookieTrace := List (CookieCall × CookieResult)

/-- The cookie was generated for the account. -/
def Generated (trace : CookieTrace) (cookie accountId : Str) : Prop :=
  ∃ pruneAt now r, (.generate accountId cookie pruneAt now, r) ∈ trace

/-- The cookie was deleted. -/
def Deleted (trace : CookieTrace) (cookie : Str) : Prop :=
  (.delete cookie, .deleted (.ok true)) ∈ trace

/-- When a call lets the time of a cookie begin: it generates the cookie, or refreshes it
successfully. -/
def begins (cookie : Str) : CookieCall × CookieResult → Option Instant
  | (.generate _ cookie' _ now, _) => if cookie' = cookie then some now else none
  | (.refresh cookie' now _, .refreshed (.ok (some _))) =>
      if cookie' = cookie then some now else none
  | _ => none

/-- When the time of a cookie began last. -/
def lastBegin (trace : CookieTrace) (cookie : Str) : Option Instant :=
  Run.latest (begins cookie) trace

/-- Two results are the same, except that a deleted cookie may have been there or not. -/
def CookieResult.Same : CookieResult → CookieResult → Prop
  | deleted _, deleted _ => True
  | r, r' => r = r'

/-! ### Histories of cookies -/

section

variable {trace : CookieTrace} {call : CookieCall} {r : CookieResult} {cookie accountId : Str}

theorem generated_concat :
  Generated (trace ++ [(call, r)]) cookie accountId ↔ Generated trace cookie accountId ∨
    ∃ pruneAt now, call = .generate accountId cookie pruneAt now
  := by
  constructor
  · rintro ⟨pruneAt, now, r', h⟩
    rcases List.mem_append.mp h with h | h
    · exact .inl ⟨pruneAt, now, r', h⟩
    · obtain ⟨rfl, -⟩ := Prod.mk.inj (List.mem_singleton.mp h)
      exact .inr ⟨pruneAt, now, rfl⟩
  · rintro (⟨pruneAt, now, r', h⟩ | ⟨pruneAt, now, rfl⟩)
    · exact ⟨pruneAt, now, r', List.mem_append_left _ h⟩
    · exact ⟨pruneAt, now, r, List.mem_append_right _ (List.mem_singleton_self _)⟩

theorem deleted_concat :
  Deleted (trace ++ [(call, r)]) cookie ↔ Deleted trace cookie ∨
    (call = .delete cookie ∧ r = .deleted (.ok true))
  := by
  rw [Deleted, List.mem_append, List.mem_singleton, Prod.mk.injEq]
  apply or_congr Iff.rfl
  apply and_congr eq_comm eq_comm

theorem lastBegin_concat :
  lastBegin (trace ++ [(call, r)]) cookie = (begins cookie (call, r)).or (lastBegin trace cookie)
  := Run.latest_concat _ _ _

end

/-- What the store holds after the calls of a run, in terms of what happened. -/
structure Describes (ttl : Duration) (calls : List CookieCall) (trace : CookieTrace)
    (s : BaseCookieStore) : Prop where
  ttl_eq : s.ttl = ttl
  stored : ∀ c e, s.inner.lookup c = some e → Generated trace c e.accountId ∧
    ¬ Deleted trace c ∧ ∃ t, lastBegin trace c = some t ∧ e.expiresAt = t + ttl
  alive : ∀ c a t now, Generated trace c a → ¬ Deleted trace c → lastBegin trace c = some t →
    (∀ u ∈ calls.flatMap CookieCall.readings, u ≤ now) → now < t + ttl →
    ∃ e, s.inner.lookup c = some e
  unique : ∀ c a a', Generated trace c a → Generated trace c a' → a = a'
  drawn : ∀ c a, Generated trace c a → c ∈ calls.filterMap CookieCall.drawn
  deleted : ∀ c, Deleted trace c → ∃ a, Generated trace c a
  begun : ∀ c a, Generated trace c a → ∃ t, lastBegin trace c = some t

namespace Describes

variable {ttl : Duration} {calls : List CookieCall} {trace : CookieTrace} {s : BaseCookieStore}

theorem new (ttl : Duration) :
  Describes ttl [] [] (.new ttl)
  := by
  constructor
  case ttl_eq => rfl
  case stored => rintro c e ⟨⟩
  case alive | unique | drawn | begun =>
    rintro c a
    simp [Generated]
  case deleted =>
    intro c
    simp [Deleted]

/-- A cookie is valid exactly if it was generated, not deleted, and its time is not over. -/
theorem get_iff (h : Describes ttl calls trace s) {now : Instant}
    (clock : ∀ u ∈ calls.flatMap CookieCall.readings, u ≤ now) (cookie accountId : Str) :
  s.get cookie now = .ok (some accountId) ↔ Generated trace cookie accountId ∧
    ¬ Deleted trace cookie ∧ ∃ t, lastBegin trace cookie = some t ∧ now < t + ttl
  := by
  rw [BaseCookieStore.get, Except.ok.injEq, Option.map_eq_some_iff]
  simp only [Option.filter_eq_some_iff, decide_eq_true_eq]
  constructor
  · rintro ⟨e, ⟨he, hnow⟩, rfl⟩
    obtain ⟨hgenerated, hdeleted, t, ht, hexpires⟩ := h.stored cookie e he
    rw [hexpires] at hnow
    exact ⟨hgenerated, hdeleted, t, ht, hnow⟩
  · rintro ⟨hgenerated, hdeleted, t, ht, hnow⟩
    obtain ⟨e, he⟩ := h.alive cookie accountId t now hgenerated hdeleted ht clock hnow
    obtain ⟨hgenerated', -, t', ht', hexpires⟩ := h.stored cookie e he
    obtain rfl := Option.some.inj (ht.symm.trans ht')
    use e
    rw [hexpires]
    exact ⟨⟨he, hnow⟩, h.unique cookie _ _ hgenerated' hgenerated⟩

/-- A cookie that is drawn now was not generated before. -/
theorem not_generated (h : Describes ttl calls trace s) {cookie : Str}
    (fresh : cookie ∉ calls.filterMap CookieCall.drawn) (accountId : Str) :
  ¬ Generated trace cookie accountId
  := fun hgenerated => fresh (h.drawn cookie accountId hgenerated)

theorem generate (h : Describes ttl calls trace s) {accountId cookie : Str}
    {pruneAt now : Instant} (fresh : cookie ∉ calls.filterMap CookieCall.drawn)
    (r : CookieResult) :
  Describes ttl (calls ++ [.generate accountId cookie pruneAt now])
    (trace ++ [(.generate accountId cookie pruneAt now, r)])
    (s.generate accountId cookie pruneAt now).2
  := by
  have before := h.not_generated fresh
  have generated : ∀ {c a}, Generated (trace ++ [(.generate accountId cookie pruneAt now, r)]) c a →
      (c ≠ cookie ∧ Generated trace c a) ∨ (c = cookie ∧ a = accountId) := by
    intro c a hg
    rcases generated_concat.mp hg with hold | ⟨_, _, hnew⟩
    · left
      constructor
      · rintro rfl
        apply before a hold
      · apply hold
    · obtain ⟨rfl, rfl, -, -⟩ := CookieCall.generate.inj hnew
      exact .inr ⟨rfl, rfl⟩
  have deleted : ∀ c, Deleted (trace ++ [(.generate accountId cookie pruneAt now, r)]) c ↔
      Deleted trace c := by
    intro c
    simp [deleted_concat]
  have begun : ∀ c, lastBegin (trace ++ [(.generate accountId cookie pruneAt now, r)]) c
      = if cookie = c then some now else lastBegin trace c := by
    intro c
    rw [lastBegin_concat, begins]
    split <;> rfl
  constructor
  case ttl_eq => exact h.ttl_eq
  case stored =>
    intro c e he
    rw [begun, deleted, generated_concat]
    simp only [BaseCookieStore.generate, BaseCookieStore.put, BaseCookieStore.prune,
      HashMap.lookup_insert] at he
    split at he
    · obtain rfl := Option.some.inj he
      subst_vars
      refine ⟨.inr ⟨pruneAt, now, rfl⟩, ?_, now, if_pos rfl, congrArg (now + ·) h.ttl_eq⟩
      intro hdeleted
      obtain ⟨a, ha⟩ := h.deleted c hdeleted
      apply before a ha
    · rw [HashMap.lookup_retain, Option.filter_eq_some_iff] at he
      obtain ⟨hgenerated, hdeleted, hbegun⟩ := h.stored c e he.1
      rw [if_neg (Ne.symm ‹_›)]
      exact ⟨.inl hgenerated, hdeleted, hbegun⟩
  case alive =>
    intro c a t u hg hd ht hclock hu
    rw [begun] at ht
    rw [deleted] at hd
    simp only [BaseCookieStore.generate, BaseCookieStore.put, BaseCookieStore.prune,
      HashMap.lookup_insert]
    split
    · exact ⟨_, rfl⟩
    · rcases generated hg with ⟨hc, hg⟩ | ⟨hc, -⟩
      · rw [if_neg hc.symm] at ht
        simp only [List.flatMap_append, List.mem_append, List.flatMap_cons, List.flatMap_nil,
          List.append_nil, CookieCall.readings] at hclock
        obtain ⟨e, he⟩ := h.alive c a t u hg hd ht (fun v hv => hclock v (.inl hv)) hu
        obtain ⟨-, -, t', ht', hexpires⟩ := h.stored c e he
        obtain rfl := Option.some.inj (ht.symm.trans ht')
        use e
        rw [HashMap.lookup_retain, Option.filter_eq_some_iff]
        use he
        rw [decide_eq_true_eq, hexpires]
        apply Nat.lt_of_le_of_lt (hclock pruneAt (.inr (by simp))) hu
      · contradiction
  case unique =>
    intro c a a' hg hg'
    rcases generated hg with ⟨hc, hg⟩ | ⟨hc, rfl⟩ <;>
      rcases generated hg' with ⟨hc', hg'⟩ | ⟨hc', rfl⟩
    · apply h.unique c a a' hg hg'
    · contradiction
    · contradiction
    · rfl
  case drawn =>
    intro c a hg
    rw [List.filterMap_append, List.mem_append]
    rcases generated hg with ⟨-, hg⟩ | ⟨rfl, -⟩
    · exact .inl (h.drawn c a hg)
    · right
      simp [CookieCall.drawn]
  case deleted =>
    intro c hd
    obtain ⟨a, ha⟩ := h.deleted c ((deleted c).mp hd)
    exact ⟨a, generated_concat.mpr (.inl ha)⟩
  case begun =>
    intro c a hg
    rw [begun]
    split
    · exact ⟨now, rfl⟩
    · rcases generated hg with ⟨-, hg⟩ | ⟨hc, -⟩
      · apply h.begun c a hg
      · exact absurd hc.symm ‹_›

/-- A call other than `generate` that leaves the cookies as they are. -/
theorem other (h : Describes ttl calls trace s) {call : CookieCall}
    (notDrawn : call.drawn = none) (r : CookieResult) {s' : BaseCookieStore}
    (ttl_eq : s'.ttl = s.ttl)
    (stored : ∀ c e, s'.inner.lookup c = some e → Generated trace c e.accountId ∧
      ¬ Deleted (trace ++ [(call, r)]) c ∧
      ∃ t, lastBegin (trace ++ [(call, r)]) c = some t ∧ e.expiresAt = t + ttl)
    (alive : ∀ c a t now, Generated trace c a → ¬ Deleted (trace ++ [(call, r)]) c →
      lastBegin (trace ++ [(call, r)]) c = some t →
      (∀ u ∈ calls.flatMap CookieCall.readings, u ≤ now) → (∀ u ∈ call.readings, u ≤ now) →
      now < t + ttl → ∃ e, s'.inner.lookup c = some e)
    (deleted : ∀ c, call = .delete c → r = .deleted (.ok true) → ∃ a, Generated trace c a) :
  Describes ttl (calls ++ [call]) (trace ++ [(call, r)]) s'
  := by
  have generated : ∀ {c a}, Generated (trace ++ [(call, r)]) c a ↔ Generated trace c a := by
    intro c a
    rw [generated_concat, or_iff_left]
    rintro ⟨_, _, rfl⟩
    cases notDrawn
  constructor
  case ttl_eq => exact ttl_eq.trans h.ttl_eq
  case stored =>
    intro c e he
    rw [generated]
    apply stored c e he
  case alive =>
    intro c a t now hg hd ht hclock hnow
    simp only [List.flatMap_append, List.mem_append, List.flatMap_cons, List.flatMap_nil,
      List.append_nil] at hclock
    apply alive c a t now (generated.mp hg) hd ht (fun u hu => hclock u (.inl hu))
      (fun u hu => hclock u (.inr hu)) hnow
  case unique =>
    intro c a a' hg hg'
    apply h.unique c a a' (generated.mp hg) (generated.mp hg')
  case drawn =>
    intro c a hg
    rw [List.filterMap_append]
    apply List.mem_append_left _ (h.drawn c a (generated.mp hg))
  case deleted =>
    intro c hd
    simp only [generated]
    rcases deleted_concat.mp hd with hd | ⟨hcall, hr⟩
    · apply h.deleted c hd
    · apply deleted c hcall hr
  case begun =>
    intro c a hg
    obtain ⟨t, ht⟩ := h.begun c a (generated.mp hg)
    rw [lastBegin_concat, ht]
    cases begins c (call, r) with
    | none => exact ⟨t, rfl⟩
    | some t' => exact ⟨t', rfl⟩

/-- A call that changes nothing. -/
theorem unchanged (h : Describes ttl calls trace s) {call : CookieCall}
    (notDrawn : call.drawn = none) {r : CookieResult} {s' : BaseCookieStore}
    (ttl_eq : s'.ttl = s.ttl) (same : ∀ c, s'.inner.lookup c = s.inner.lookup c)
    (quiet : ∀ c, begins c (call, r) = none)
    (notDeleted : ∀ c, ¬ (call = .delete c ∧ r = .deleted (.ok true))) :
  Describes ttl (calls ++ [call]) (trace ++ [(call, r)]) s'
  := by
  have deleted : ∀ c, Deleted (trace ++ [(call, r)]) c ↔ Deleted trace c :=
    fun c => deleted_concat.trans (or_iff_left (notDeleted c))
  have begun : ∀ c, lastBegin (trace ++ [(call, r)]) c = lastBegin trace c := by
    intro c
    rw [lastBegin_concat, quiet c, Option.none_or]
  apply h.other notDrawn r ttl_eq
  case stored =>
    intro c e
    rw [same, deleted, begun]
    apply h.stored
  case alive =>
    intro c a t now
    rw [same, deleted, begun]
    exact fun hg hd ht hclock _ hnow => h.alive c a t now hg hd ht hclock hnow
  case deleted => exact fun c hcall hr => absurd ⟨hcall, hr⟩ (notDeleted c)

theorem refresh (h : Describes ttl calls trace s) (cookie : Str) (now : Instant)
    (systemNow : SystemTime) :
  Describes ttl (calls ++ [.refresh cookie now systemNow])
    (trace ++ [(.refresh cookie now systemNow, .refreshed (s.refresh cookie now systemNow).1)])
    (s.refresh cookie now systemNow).2
  := by
  rw [BaseCookieStore.refresh]
  split
  · rename_i entry hentry
    split
    · have begun : ∀ c, lastBegin (trace ++ [(.refresh cookie now systemNow,
          .refreshed (.ok (some (systemNow + s.ttl))))]) c
          = if cookie = c then some now else lastBegin trace c := by
        intro c
        rw [lastBegin_concat, begins]
        split <;> rfl
      have deleted : ∀ c, Deleted (trace ++ [(.refresh cookie now systemNow,
          .refreshed (.ok (some (systemNow + s.ttl))))]) c ↔ Deleted trace c := by
        intro c
        simp [deleted_concat]
      apply h.other rfl
      case ttl_eq => rfl
      case stored =>
        intro c e he
        rw [begun, deleted]
        simp only [BaseCookieStore.put, HashMap.lookup_insert] at he
        split at he
        · obtain rfl := Option.some.inj he
          subst_vars
          obtain ⟨hgenerated, hdeleted, -⟩ := h.stored c entry hentry
          exact ⟨hgenerated, hdeleted, now, if_pos rfl, congrArg (now + ·) h.ttl_eq⟩
        · rw [if_neg (Ne.symm ‹_›)]
          apply h.stored c e he
      case alive =>
        intro c a t u hg hd ht hclock _ hu
        rw [begun] at ht
        rw [deleted] at hd
        simp only [BaseCookieStore.put, HashMap.lookup_insert]
        split
        · exact ⟨_, rfl⟩
        · rw [if_neg (Ne.symm ‹_›)] at ht
          apply h.alive c a t u hg hd ht hclock hu
      case deleted => rintro c ⟨⟩
    · apply h.unchanged rfl rfl (fun _ => rfl) (fun _ => rfl) (by simp)
  · apply h.unchanged rfl rfl (fun _ => rfl) (fun _ => rfl) (by simp)

theorem delete (h : Describes ttl calls trace s) (cookie : Str) :
  Describes ttl (calls ++ [.delete cookie])
    (trace ++ [(.delete cookie, .deleted (s.delete cookie).1)]) (s.delete cookie).2
  := by
  rw [BaseCookieStore.delete]
  cases hentry : s.inner.lookup cookie with
  | none =>
      apply h.unchanged rfl
      case ttl_eq => rfl
      case same =>
        intro c
        rw [HashMap.erase_of_notMem (AList.lookup_eq_none.mp hentry)]
      case quiet => exact fun _ => rfl
      case notDeleted => simp
  | some entry =>
      have deleted : ∀ c, Deleted (trace ++ [(.delete cookie, .deleted (.ok true))]) c ↔
          Deleted trace c ∨ cookie = c := by
        intro c
        simp [deleted_concat]
      have begun : ∀ c, lastBegin (trace ++ [(.delete cookie, .deleted (.ok true))]) c
          = lastBegin trace c :=
        fun _ => lastBegin_concat
      apply h.other rfl
      case ttl_eq => rfl
      case stored =>
        intro c e he
        rw [Option.isSome_some, deleted, begun]
        simp only [HashMap.lookup_erase] at he
        split at he
        · cases he
        · obtain ⟨hgenerated, hdeleted, hbegun⟩ := h.stored c e he
          exact ⟨hgenerated, not_or.mpr ⟨hdeleted, Ne.symm ‹_›⟩, hbegun⟩
      case alive =>
        intro c a t u
        rw [Option.isSome_some, deleted, begun]
        intro hg hd ht hclock _ hu
        obtain ⟨hd, hc⟩ := not_or.mp hd
        rw [HashMap.lookup_erase, if_neg (Ne.symm hc)]
        apply h.alive c a t u hg hd ht hclock hu
      case deleted =>
        intro c hcall _
        obtain rfl := CookieCall.delete.inj hcall
        exact ⟨_, (h.stored cookie entry hentry).1⟩

/-- Every call with a fresh cookie keeps the description. -/
theorem call (h : Describes ttl calls trace s) (call : CookieCall)
    (fresh : ∀ c, call.drawn = some c → c ∉ calls.filterMap CookieCall.drawn) :
  Describes ttl (calls ++ [call]) (trace ++ [(call, (call.perform s).1)]) (call.perform s).2
  := by
  cases call with
  | generate accountId cookie pruneAt now => apply h.generate (fresh cookie rfl)
  | get cookie now => apply h.unchanged rfl rfl (fun _ => rfl) (fun _ => rfl) (by simp)
  | refresh cookie now systemNow => apply h.refresh
  | delete cookie => apply h.delete

theorem of_run (ttl : Duration) {calls : List CookieCall}
    (fresh : (calls.filterMap CookieCall.drawn).Nodup) :
  Describes ttl calls (Run.trace CookieCall.perform calls (.new ttl))
    (Run.state CookieCall.perform calls (.new ttl))
  := by
  induction calls using List.reverseRecOn with
  | nil => apply Describes.new ttl
  | append_singleton calls call ih =>
      rw [List.filterMap_append, List.nodup_append] at fresh
      obtain ⟨hcalls, -, hnew⟩ := fresh
      rw [Run.trace_concat, Run.state_concat]
      apply (ih hcalls).call
      intro c hc hmem
      apply hnew c hmem c (by simp [hc]) rfl

end Describes

/-! ### Cookies that are not valid any more -/

namespace BaseCookieStore

/-- The cookie is not stored, or it has expired. -/
def Expired (s : BaseCookieStore) (cookie : Str) (now : Instant) : Prop :=
  ∀ e, s.inner.lookup cookie = some e → e.expiresAt ≤ now

theorem get_eq_none_iff {s : BaseCookieStore} {cookie : Str} {now : Instant} :
  s.get cookie now = .ok none ↔ s.Expired cookie now
  := by
  rw [get, Except.ok.injEq, Option.map_eq_none_iff, Option.filter_eq_none_iff]
  simp [Expired]

theorem Expired.mono {s : BaseCookieStore} {cookie : Str} {now now' : Instant}
    (h : s.Expired cookie now) (hnow : now ≤ now') :
  s.Expired cookie now'
  := fun e he => Nat.le_trans (h e he) hnow

/-- A refresh succeeds exactly if the cookie is valid. -/
theorem refresh_iff (s : BaseCookieStore) (cookie : Str) (now : Instant)
    (systemNow : SystemTime) :
  (∃ t, (s.refresh cookie now systemNow).1 = .ok (some t)) ↔
    ∃ accountId, s.get cookie now = .ok (some accountId)
  := by
  rw [refresh, get]
  cases s.inner.lookup cookie with
  | none => simp
  | some entry => by_cases h : now < entry.expiresAt <;> simp [h]

/-- A cookie that is valid can be deleted, and then is not valid. -/
theorem delete_of_get {s : BaseCookieStore} {cookie accountId : Str} {now : Instant}
    (h : s.get cookie now = .ok (some accountId)) :
  (s.delete cookie).1 = .ok true ∧ ∀ now', (s.delete cookie).2.get cookie now' = .ok none
  := by
  rw [get, Except.ok.injEq, Option.map_eq_some_iff] at h
  obtain ⟨e, he, -⟩ := h
  obtain ⟨hlookup, -⟩ := Option.filter_eq_some_iff.mp he
  constructor
  · rw [delete, hlookup]
    rfl
  · intro now'
    rw [get_eq_none_iff]
    intro e' he'
    rw [delete, HashMap.lookup_erase, if_pos rfl] at he'
    cases he'

/-- A cookie that has expired is not made valid by a later call that does not generate it. -/
theorem Expired.perform {s : BaseCookieStore} {cookie : Str} {now : Instant}
    (h : s.Expired cookie now) {call : CookieCall} (clock : ∀ u ∈ call.readings, now ≤ u)
    (hcall : call.drawn ≠ some cookie) :
  (call.perform s).2.Expired cookie now
  := by
  cases call with
  | generate accountId cookie' pruneAt now' =>
      intro e he
      simp only [CookieCall.perform, generate, put, prune, HashMap.lookup_insert] at he
      split at he
      · subst_vars
        exact absurd rfl hcall
      · rw [HashMap.lookup_retain, Option.filter_eq_some_iff] at he
        apply h e he.1
  | get cookie' now' => exact h
  | refresh cookie' now' systemNow =>
      intro e he
      simp only [CookieCall.perform, refresh] at he
      split at he
      · rename_i entry hentry
        split at he
        · simp only [put, HashMap.lookup_insert] at he
          split at he
          · subst_vars
            have hle := h entry hentry
            have hnow := clock now' (List.mem_singleton_self _)
            exact absurd (Nat.lt_of_lt_of_le ‹_› (Nat.le_trans hle hnow)) (Nat.lt_irrefl _)
          · apply h e he
        · apply h e he
      · apply h e he
  | delete cookie' =>
      intro e he
      simp only [CookieCall.perform, delete, HashMap.lookup_erase] at he
      split at he
      · cases he
      · apply h e he

theorem Expired.run {s : BaseCookieStore} {cookie : Str} {now : Instant}
    (h : s.Expired cookie now) {calls : List CookieCall}
    (clock : ∀ u ∈ calls.flatMap CookieCall.readings, now ≤ u)
    (notDrawn : cookie ∉ calls.filterMap CookieCall.drawn) :
  (Run.state CookieCall.perform calls s).Expired cookie now
  := by
  induction calls using List.reverseRecOn with
  | nil => exact h
  | append_singleton calls call ih =>
      simp only [List.flatMap_append, List.flatMap_cons, List.flatMap_nil, List.append_nil,
        List.mem_append] at clock
      rw [List.filterMap_append, List.mem_append, not_or] at notDrawn
      rw [Run.state_concat]
      apply (ih (fun u hu => clock u (.inl hu)) notDrawn.1).perform fun u hu => clock u (.inr hu)
      intro hdrawn
      apply notDrawn.2 (by simp [hdrawn])

end BaseCookieStore

/-! ### Runs without pruning -/

/-- The two stores agree on the cookies that have not expired at a time. -/
structure Agree (now : Instant) (s s' : BaseCookieStore) : Prop where
  ttl : s.ttl = s'.ttl
  live : ∀ c, (s.inner.lookup c).filter (fun e => now < e.expiresAt)
    = (s'.inner.lookup c).filter fun e => now < e.expiresAt

namespace Agree

variable {now : Instant} {s s' : BaseCookieStore}

theorem live_iff (h : Agree now s s') {u : Instant} (hu : now ≤ u) (c : Str) (e : CookieEntry) :
  (s.inner.lookup c = some e ∧ u < e.expiresAt) ↔
    (s'.inner.lookup c = some e ∧ u < e.expiresAt)
  := by
  have key : ∀ o : Option CookieEntry, (o = some e ∧ u < e.expiresAt) ↔
      (o.filter (fun e => now < e.expiresAt) = some e ∧ u < e.expiresAt) := by
    intro o
    rw [Option.filter_eq_some_iff, decide_eq_true_eq]
    constructor
    · exact fun ⟨ho, hlt⟩ => ⟨⟨ho, Nat.lt_of_le_of_lt hu hlt⟩, hlt⟩
    · exact fun ⟨⟨ho, _⟩, hlt⟩ => ⟨ho, hlt⟩
  rw [key (s.inner.lookup c), key (s'.inner.lookup c), h.live]

theorem of_iff (ttl : s.ttl = s'.ttl)
    (live : ∀ c e, (s.inner.lookup c = some e ∧ now < e.expiresAt) ↔
      (s'.inner.lookup c = some e ∧ now < e.expiresAt)) :
  Agree now s s'
  := by
  use ttl
  intro c
  apply Option.ext
  intro e
  simpa [Option.filter_eq_some_iff] using live c e

/-- Stores that agree now agree later. -/
theorem mono (h : Agree now s s') {u : Instant} (hu : now ≤ u) :
  Agree u s s'
  := of_iff h.ttl (h.live_iff hu)

theorem put (h : Agree now s s') (cookie : Str) (entry : CookieEntry) :
  Agree now (s.put cookie entry) (s'.put cookie entry)
  := by
  use h.ttl
  intro c
  simp only [BaseCookieStore.put, HashMap.lookup_insert]
  split
  · rfl
  · apply h.live

theorem prune (h : Agree now s s') :
  Agree now (s.prune now) s'
  := by
  use h.ttl
  intro c
  rw [BaseCookieStore.prune, HashMap.lookup_retain, Option.filter_filter]
  simpa using h.live c

theorem get (h : Agree now s s') (cookie : Str) :
  s.get cookie now = s'.get cookie now
  := by
  rw [BaseCookieStore.get, BaseCookieStore.get, h.live]

theorem refresh (h : Agree now s s') (cookie : Str) (systemNow : SystemTime) :
  (s.refresh cookie now systemNow).1 = (s'.refresh cookie now systemNow).1 ∧
    Agree now (s.refresh cookie now systemNow).2 (s'.refresh cookie now systemNow).2
  := by
  have key : ∀ t : BaseCookieStore, t.refresh cookie now systemNow
      = match (t.inner.lookup cookie).filter fun e => now < e.expiresAt with
        | some entry => (.ok (some (systemNow + t.ttl)),
            t.put cookie { entry with expiresAt := now + t.ttl })
        | none => (.ok none, t) := by
    intro t
    rw [BaseCookieStore.refresh]
    cases t.inner.lookup cookie with
    | none => rfl
    | some entry => by_cases hlt : now < entry.expiresAt <;> simp [Option.filter, hlt]
  rw [key, key, h.live]
  cases (s'.inner.lookup cookie).filter fun e => now < e.expiresAt with
  | none => exact ⟨rfl, h⟩
  | some entry =>
      rw [h.ttl]
      exact ⟨rfl, h.put cookie _⟩

theorem delete (h : Agree now s s') (cookie : Str) :
  Agree now (s.delete cookie).2 (s'.delete cookie).2
  := by
  use h.ttl
  intro c
  simp only [BaseCookieStore.delete, HashMap.lookup_erase]
  split
  · rfl
  · apply h.live

/-- A call returns the same in two stores that agree when it is made, and leaves stores that
agree then. -/
theorem perform (h : Agree now s s') {call : CookieCall} (clock : ∀ u ∈ call.readings, now ≤ u) :
  (call.perform s).1.Same (call.performUnpruned s').1 ∧
    ∃ u, u ∈ now :: call.readings ∧ Agree u (call.perform s).2 (call.performUnpruned s').2
  := by
  cases call with
  | generate accountId cookie pruneAt u =>
      use rfl, pruneAt, by simp [CookieCall.readings]
      simp only [CookieCall.perform, CookieCall.performUnpruned, BaseCookieStore.generate, h.ttl]
      apply (h.mono (clock pruneAt (by simp [CookieCall.readings]))).prune.put
  | get cookie u =>
      constructor
      · apply congrArg CookieResult.found
        apply (h.mono (clock u (by simp [CookieCall.readings]))).get cookie
      · exact ⟨now, List.mem_cons_self, h⟩
  | refresh cookie u systemNow =>
      obtain ⟨hresult, hagree⟩ :=
        (h.mono (clock u (by simp [CookieCall.readings]))).refresh cookie systemNow
      exact ⟨congrArg CookieResult.refreshed hresult, u, by simp [CookieCall.readings], hagree⟩
  | delete cookie => exact ⟨trivial, now, List.mem_cons_self, h.delete cookie⟩

/-- The results of a run do not depend on whether `generate` prunes. -/
theorem run (h : Agree now s s') {calls : List CookieCall}
    (clock : (now :: calls.flatMap CookieCall.readings).Pairwise (· ≤ ·)) :
  List.Forall₂ CookieResult.Same (Run.results CookieCall.perform calls s)
    (Run.results CookieCall.performUnpruned calls s')
  := by
  induction calls generalizing s s' now with
  | nil => exact .nil
  | cons call calls ih =>
      rw [List.flatMap_cons, List.pairwise_cons, List.pairwise_append] at clock
      obtain ⟨hnow, -, hrest, hlater⟩ := clock
      obtain ⟨hsame, u, hu, hagree⟩ := h.perform fun u hu => hnow u (List.mem_append_left _ hu)
      apply List.Forall₂.cons hsame
      apply ih hagree
      rw [List.pairwise_cons]
      constructor
      · intro v hv
        rcases List.mem_cons.mp hu with rfl | hu
        · apply hnow v (List.mem_append_right _ hv)
        · apply hlater u hu v hv
      · apply hrest

end Agree

/-! ### Sessions -/

/-- The store after the calls of a run. -/
def storeAfter (ttl : Duration) (calls : List CookieCall) : BaseCookieStore :=
  Run.state CookieCall.perform calls (.new ttl)

/-- The calls of a run with their results. -/
def traceOf (ttl : Duration) (calls : List CookieCall) : CookieTrace :=
  Run.trace CookieCall.perform calls (.new ttl)

/-- What holds of a cookie at a time after a run: it is valid exactly if it was generated, not
deleted, and its time is not over; it can be refreshed exactly if it is valid; when it is valid
it can be deleted, and when it is not valid any more, it never is again; and it makes no
difference whether expired cookies were removed in the run. -/
structure SessionsHold (ttl : Duration) (calls : List CookieCall) (cookie : Str)
    (now : Instant) : Prop where
  valid_iff : ∀ accountId, (storeAfter ttl calls).get cookie now = .ok (some accountId) ↔
    Generated (traceOf ttl calls) cookie accountId ∧ ¬ Deleted (traceOf ttl calls) cookie ∧
      ∃ t, lastBegin (traceOf ttl calls) cookie = some t ∧ now < ttl + t
  refresh_iff : ∀ systemNow,
    (∃ t, ((storeAfter ttl calls).refresh cookie now systemNow).1 = .ok (some t)) ↔
      ∃ accountId, (storeAfter ttl calls).get cookie now = .ok (some accountId)
  deletable : ∀ accountId, (storeAfter ttl calls).get cookie now = .ok (some accountId) →
    ((storeAfter ttl calls).delete cookie).1 = .ok true ∧
      ∀ now', ((storeAfter ttl calls).delete cookie).2.get cookie now' = .ok none
  never_again : (∃ accountId, Generated (traceOf ttl calls) cookie accountId) →
    (storeAfter ttl calls).get cookie now = .ok none →
    ∀ later now', Timely (calls ++ [.get cookie now] ++ later ++ [.get cookie now']) →
      (storeAfter ttl (calls ++ later)).get cookie now' = .ok none
  unpruned : List.Forall₂ CookieResult.Same (Run.results CookieCall.perform calls (.new ttl))
    (Run.results CookieCall.performUnpruned calls (.new ttl))

/-- In every run with fresh cookies and a clock that does not go back, cookies are valid when
they have to be. -/
theorem sessions_hold (ttl : Duration) (calls : List CookieCall) (cookie : Str) (now : Instant)
    (timely : Timely (calls ++ [.get cookie now])) :
  SessionsHold ttl calls cookie now
  := by
  obtain ⟨⟨fresh, sorted⟩, before, -⟩ := timely.of_append
  have describes := Describes.of_run ttl fresh
  constructor
  case valid_iff =>
    intro accountId
    rw [storeAfter, describes.get_iff fun u hu => before u hu now (List.mem_singleton_self _)]
    simp only [traceOf, Nat.add_comm]
  case refresh_iff => exact fun systemNow => BaseCookieStore.refresh_iff _ cookie now systemNow
  case deletable => exact fun accountId hvalid => BaseCookieStore.delete_of_get hvalid
  case never_again =>
    rintro ⟨accountId, hgenerated⟩ hnone later now' htimely
    obtain ⟨hlater, hlast, -⟩ := htimely.of_append
    obtain ⟨-, hclock, hfresh⟩ := hlater.of_append
    have hdrawn := describes.drawn cookie accountId hgenerated
    have expired := BaseCookieStore.get_eq_none_iff.mp hnone
    rw [storeAfter, Run.state_append, BaseCookieStore.get_eq_none_iff]
    apply (expired.run _ _).mono
    · apply hlast now (by simp [CookieCall.readings]) now' (List.mem_singleton_self _)
    · apply hclock now (by simp [CookieCall.readings])
    · apply hfresh
      rw [List.filterMap_append]
      apply List.mem_append_left _ hdrawn
  case unpruned =>
    have agree : Agree 0 (.new ttl) (.new ttl) := .of_iff rfl fun _ _ => Iff.rfl
    apply agree.run
    apply List.pairwise_cons.mpr ⟨fun u _ => Nat.zero_le u, sorted⟩

/-- A cookie is refreshed, and another one is generated when it would have expired without. -/
def refreshedCookie : List CookieCall :=
  [.generate "a".toList "1".toList 0 0, .refresh "1".toList 8 100,
    .generate "b".toList "2".toList 12 12, .delete "2".toList]

theorem sessions_hold_refreshedCookie :
  SessionsHold 10 refreshedCookie "1".toList 17
  := sessions_hold 10 refreshedCookie "1".toList 17 ⟨by decide, by decide⟩

end Identity
