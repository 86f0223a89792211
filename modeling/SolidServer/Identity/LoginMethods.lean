import SolidServer.Library.Runs
import SolidServer.Identity.Account

/-!
# Accounts with a login method

Clients use the accounts at the same time: every section of an operation is one atomic step,
and the clock readings are arbitrary.  An account is linked in a history if its count of login
methods was incremented and it was not deleted since.  A linked account is stored and its count
is positive, so that no pruning removes it and a decrement of the last login method fails; its
settings are those of the last updates.  Every call returns what a section of it was answered
(`AccountCall.work`), so this is what the clients are told, too.
-/

open Text Atomic

namespace Identity

variable {Client V : Type}

/-- The store and its operations. -/
def accountMachine (V : Type) : Machine (AccountCmd V) AccountCmd.Answer (BaseAccountStore V)
    (AccountCall V) (AccountResult V) Empty where
  impl := AccountCall.impl
  exec := AccountCmd.exec
  env e := e.elim

/-- The configurations of the store. -/
abbrev AccountConfig (Client V : Type) :=
  Config Client (AccountCmd V) AccountCmd.Answer (BaseAccountStore V) (AccountCall V)
    (AccountResult V)

/-- What happens to the store. -/
abbrev AccountEvent (Client V : Type) :=
  Event Client (AccountCmd V) AccountCmd.Answer (AccountCall V) (AccountResult V)

/-- The section in which a call does its work, and what the call returns for its answer. -/
def AccountCall.work : AccountCall V → (c : AccountCmd V) × (c.Answer → AccountResult V)
  | create id _ createdAt => ⟨.insertRow id ⟨id, 0, ∅, createdAt⟩, fun _ => .created (.ok id)⟩
  | getSetting id setting _ => ⟨.readSetting id setting, fun v => .setting (.ok v)⟩
  | updateSetting id setting value => ⟨.writeSetting id setting value, .done⟩
  | delete id => ⟨.remove id, .done⟩
  | incrementLoginCount id => ⟨.increment id, .done⟩
  | decrementLoginCount id => ⟨.decrement id, .done⟩

/-- The count of the account was incremented. -/
def Links (id : Str) : AccountEvent Client V → Prop
  | .act _ _ (.increment id') r => id' = id ∧ (r : Except Str Unit) = .ok ()
  | _ => False

/-- The account was deleted. -/
def Unlinks (id : Str) : AccountEvent Client V → Prop
  | .act _ _ (.remove id') r => id' = id ∧ (r : Except Str Unit) = .ok ()
  | _ => False

/-- The count of the account was incremented, and it was not deleted since. -/
def Linked (history : List (AccountEvent Client V)) (id : Str) : Prop :=
  ∃ l₁ e l₂, history = l₁ ++ e :: l₂ ∧ Links id e ∧ ∀ e' ∈ l₂, ¬ Unlinks id e'

/-- The value that an event wrote to a setting of an account. -/
def written (id setting : Str) : AccountEvent Client V → Option V
  | .act _ _ (.writeSetting id' setting' value) r =>
      match (r : Except Str Unit) with
      | .ok _ => if id' = id ∧ setting' = setting then some value else none
      | .error _ => none
  | _ => none

/-- The value that was written last to a setting of an account. -/
def lastUpdate (history : List (AccountEvent Client V)) (id setting : Str) : Option V :=
  Run.latest (written id setting) history

theorem Linked.of_concat {history : List (AccountEvent Client V)} {e : AccountEvent Client V}
    {id : Str} (h : Linked (history ++ [e]) id) :
  Links id e ∨ (Linked history id ∧ ¬ Unlinks id e)
  := by
  obtain ⟨l₁, e', l₂, hl, he', hl₂⟩ := h
  rcases append_cons_eq_concat hl with ⟨-, rfl, -⟩ | ⟨l₃, rfl, rfl⟩
  · exact .inl he'
  · right
    constructor
    · use l₁, e', l₃, rfl, he'
      exact fun e'' he'' => hl₂ e'' (List.mem_append_left _ he'')
    · apply hl₂ e (List.mem_append_right _ (List.mem_singleton_self e))

theorem lastUpdate_concat (history : List (AccountEvent Client V)) (e : AccountEvent Client V)
    (id setting : Str) :
  lastUpdate (history ++ [e]) id setting
    = (written id setting e).or (lastUpdate history id setting)
  := Run.latest_concat _ _ _

/-- What holds of an account with a login method: it is stored, its last login method cannot be
removed, and its settings are those written last. -/
structure LoginKept (cfg : AccountConfig Client V) (id : Str) : Prop where
  stored : ∃ row, cfg.shared.inner.lookup id = some row ∧ 1 ≤ row.linkedLoginsCount
  decrement : ∀ row, cfg.shared.inner.lookup id = some row → row.linkedLoginsCount - 1 = 0 →
    (AccountCmd.decrement id).exec cfg.shared
      = some (.error "An account needs at least 1 login method.".toList, cfg.shared)
  setting : ∀ setting, (AccountCmd.readSetting id setting).exec cfg.shared
    = some (lastUpdate cfg.history id setting, cfg.shared)

/-- A section of the call with ticket `n` was executed at a moment of the run, `before`, where it
was answered `r` and left the store `after`. -/
structure Executed [DecidableEq Client] (expiry : Duration) (cfg : AccountConfig Client V) (n : ℕ)
    (call : AccountCall V) (c : AccountCmd V) (r : c.Answer) (before : AccountConfig Client V)
    (after : BaseAccountStore V) : Prop where
  reached : (accountMachine V).Reaches (fun cfg l => freshCall AccountCall.drawn cfg l)
    (Config.init (.new expiry)) before
  history : ∃ l, cfg.history = before.history ++ .act n call c r :: l
  exec : c.exec before.shared = some (r, after)

/-! ### What operations have left to do -/

/-- The section stores a new account. -/
def AccountCmd.Inserts : AccountCmd V → Prop
  | insertRow _ _ => True
  | _ => False

/-- The program stores no new account any more. -/
def Settled (p : AccountProg V (AccountResult V)) : Prop :=
  p.Issues fun c => ¬ c.Inserts

/-- What a call has left to do. -/
inductive AccountStage : AccountCall V → AccountProg V (AccountResult V) → Prop where
  | settled {call p} (h : Settled p) : AccountStage call p
  | pruning {call id now createdAt r} (drawn : call.drawn = some id) :
      AccountStage call (.act (.prune now) fun _ =>
        .act (.insertRow id ⟨id, 0, ∅, createdAt⟩) fun _ => .ret r)
  | inserting {call id createdAt r} (drawn : call.drawn = some id) :
      AccountStage call (.act (.insertRow id ⟨id, 0, ∅, createdAt⟩) fun _ => .ret r)

/-- At the beginning all of the program is left. -/
theorem AccountStage.impl (call : AccountCall V) :
  AccountStage call call.impl
  := by
  cases call with
  | create id now createdAt =>
      have drawn : (AccountCall.create id now createdAt : AccountCall V).drawn = some id := rfl
      exact .pruning drawn
  | getSetting id setting now =>
      exact .settled ⟨not_false, fun _ => ⟨not_false, fun _ => trivial⟩⟩
  | updateSetting _ _ _ | delete _ | incrementLoginCount _ | decrementLoginCount _ =>
      exact .settled ⟨not_false, fun _ => trivial⟩

/-- After a section that does not store the account, an operation is in the next stage. -/
theorem AccountStage.next {call : AccountCall V} {c : AccountCmd V}
    {next : c.Answer → AccountProg V (AccountResult V)} (h : AccountStage call (.act c next))
    (hc : ¬ c.Inserts) (r : c.Answer) :
  AccountStage call (next r)
  := by
  cases h with
  | settled h => exact .settled (h.2 r)
  | pruning drawn => exact .inserting drawn
  | inserting => exact absurd trivial hc

/-- What holds of every configuration of a run. -/
structure Kept (cfg : AccountConfig Client V) : Prop where
  stage : ∀ i t, cfg.threads i = some t → AccountStage t.op t.rest
  waiting : ∀ i t id, cfg.threads i = some t → t.op.drawn = some id → ¬ Settled t.rest →
    id ∉ cfg.shared.inner ∧ ∀ setting, lastUpdate cfg.history id setting = none
  known : ∀ id ∈ cfg.shared.inner, id ∈ keys AccountCall.drawn cfg.history
  updated : ∀ id setting v, lastUpdate cfg.history id setting = some v →
    id ∈ keys AccountCall.drawn cfg.history
  settings : ∀ id row, cfg.shared.inner.lookup id = some row → ∀ setting,
    row.settings.lookup setting = lastUpdate cfg.history id setting
  linked : ∀ id, Linked cfg.history id →
    ∃ row, cfg.shared.inner.lookup id = some row ∧ 1 ≤ row.linkedLoginsCount

namespace Kept

variable {cfg : AccountConfig Client V}

/-- An account with a login method is kept. -/
theorem loginKept (h : Kept cfg) {id : Str} (linked : Linked cfg.history id) :
  LoginKept cfg id
  := by
  obtain ⟨row, hrow, hcount⟩ := h.linked id linked
  constructor
  case stored => exact ⟨row, hrow, hcount⟩
  case decrement =>
    intro row' hrow' hlast
    rw [AccountCmd.exec, hrow']
    apply if_pos
    omega
  case setting =>
    intro setting
    rw [AccountCmd.exec, hrow, Option.bind_some, h.settings id row hrow]
    rfl

theorem init (s : BaseAccountStore V) (hs : s.inner = ∅) :
  Kept (Config.init s : AccountConfig Client V)
  := by
  have empty : ∀ id, id ∉ s.inner := by
    intro id
    rw [hs]
    apply AList.notMem_empty
  constructor
  case stage =>
    rintro i t ⟨⟩
  case waiting =>
    rintro i t id ⟨⟩
  case known =>
    intro id hid
    exact absurd hid (empty id)
  case updated =>
    intro id setting v hv
    cases hv
  case settings =>
    intro id row hrow
    rw [Config.init, hs] at hrow
    cases hrow
  case linked =>
    rintro id ⟨l₁, e, l₂, hl, -⟩
    simp [Config.init] at hl

/-- An event other than a section changes nothing. -/
theorem extend (h : Kept cfg) {e : AccountEvent Client V}
    (quiet : ∀ n op c r, e ≠ .act n op c r)
    {threads : Client → Option (Thread (AccountCmd V) AccountCmd.Answer (AccountCall V)
      (AccountResult V))} {tickets : ℕ}
    (stage : ∀ i t, threads i = some t → AccountStage t.op t.rest)
    (waiting : ∀ i t id, threads i = some t → t.op.drawn = some id → ¬ Settled t.rest →
      id ∉ cfg.shared.inner ∧ ∀ setting, lastUpdate cfg.history id setting = none) :
  Kept ⟨cfg.shared, threads, tickets, cfg.history ++ [e]⟩
  := by
  have same : ∀ id setting,
      lastUpdate (cfg.history ++ [e]) id setting = lastUpdate cfg.history id setting := by
    intro id setting
    rw [lastUpdate_concat]
    cases e with
    | act n op c r => exact absurd rfl (quiet n op c r)
    | call _ _ _ | ret _ _ _ => rfl
  have keys_mono : ∀ {id}, id ∈ keys AccountCall.drawn cfg.history →
      id ∈ keys AccountCall.drawn (cfg.history ++ [e]) := by
    intro id hid
    rw [keys_concat]
    apply List.mem_append_left _ hid
  constructor
  case stage => exact stage
  case waiting =>
    intro i t id ht hdrawn hwaits
    obtain ⟨hid, hlast⟩ := waiting i t id ht hdrawn hwaits
    exact ⟨hid, fun setting => (same id setting).trans (hlast setting)⟩
  case known => exact fun id hid => keys_mono (h.known id hid)
  case updated =>
    intro id setting v hv
    rw [same] at hv
    apply keys_mono (h.updated id setting v hv)
  case settings =>
    intro id row hrow setting
    rw [same]
    apply h.settings id row hrow
  case linked =>
    intro id hlinked
    rcases hlinked.of_concat with hlinks | ⟨hlinked, -⟩
    · cases e with
      | act n op c r => exact absurd rfl (quiet n op c r)
      | call _ _ _ | ret _ _ _ => cases hlinks
    · apply h.linked id hlinked

variable [DecidableEq Client]

theorem called (h : Kept cfg) {i : Client} (op : AccountCall V)
    (fresh : freshCall AccountCall.drawn cfg (.call i op : Turn Client (AccountCall V) Empty)) :
  Kept (cfg.called i op op.impl)
  := by
  apply h.extend
  case quiet => rintro _ _ _ _ ⟨⟩
  case stage =>
    intro j t ht
    rcases of_update_eq_some ht with ⟨-, ht⟩ | ⟨-, ht⟩
    · obtain rfl := Option.some.inj ht
      apply AccountStage.impl
    · apply h.stage j t ht
  case waiting =>
    intro j t id ht hdrawn hwaits
    rcases of_update_eq_some ht with ⟨-, ht⟩ | ⟨-, ht⟩
    · obtain rfl := Option.some.inj ht
      rw [freshCall, hdrawn] at fresh
      have unknown : id ∉ keys AccountCall.drawn cfg.history := by simpa using fresh
      constructor
      · exact fun hid => unknown (h.known id hid)
      · intro setting
        apply Option.eq_none_iff_forall_ne_some.mpr
        exact fun v hv => unknown (h.updated id setting v hv)
    · apply h.waiting j t id ht hdrawn hwaits

theorem returned (h : Kept cfg) {i : Client}
    {t : Thread (AccountCmd V) AccountCmd.Answer (AccountCall V) (AccountResult V)}
    (v : AccountResult V) :
  Kept (cfg.returned i t v)
  := by
  apply h.extend
  case quiet => rintro _ _ _ _ ⟨⟩
  case stage =>
    intro j t ht
    rcases of_update_eq_some ht with ⟨-, ht⟩ | ⟨-, ht⟩
    · cases ht
    · apply h.stage j t ht
  case waiting =>
    intro j t id ht hdrawn hwaits
    rcases of_update_eq_some ht with ⟨-, ht⟩ | ⟨-, ht⟩
    · cases ht
    · apply h.waiting j t id ht hdrawn hwaits

/-- A section after which no account is new. -/
theorem acted (h : Kept cfg) {i : Client} {n : ℕ} {op : AccountCall V} {c : AccountCmd V}
    {next : c.Answer → AccountProg V (AccountResult V)}
    (run : cfg.threads i = some ⟨n, op, .act c next⟩) {r : c.Answer} {s' : BaseAccountStore V}
    (stage : AccountStage op (next r))
    (stored : ∀ id row, s'.inner.lookup id = some row → id ∈ cfg.shared.inner ∧
      ∀ setting, row.settings.lookup setting
        = lastUpdate (cfg.history ++ [.act n op c r]) id setting)
    (linked : ∀ id, Linked (cfg.history ++ [.act n op c r]) id →
      ∃ row, s'.inner.lookup id = some row ∧ 1 ≤ row.linkedLoginsCount)
    (writes : ∀ id setting v, written id setting (.act n op c r : AccountEvent Client V) = some v →
      id ∈ cfg.shared.inner) :
  Kept (cfg.acted i ⟨n, op, .act c next⟩ c r s' (next r))
  := by
  have keys_same : keys AccountCall.drawn (cfg.history ++ [.act n op c r])
      = keys AccountCall.drawn cfg.history :=
    keys_concat_act _ _ _ _ _
  -- an operation that has yet to store its account had to do so before the section
  have before : ∀ {j t id}, cfg.threads j = some t → t.op.drawn = some id → ¬ Settled t.rest →
      id ∉ s'.inner ∧ ∀ setting,
        lastUpdate (cfg.history ++ [.act n op c r]) id setting = none := by
    intro j t id ht hdrawn hwaits
    obtain ⟨hid, hlast⟩ := h.waiting j t id ht hdrawn hwaits
    constructor
    · intro hid'
      obtain ⟨row, hrow⟩ := HashMap.mem_iff_lookup.mp hid'
      apply hid (stored id row hrow).1
    · intro setting
      rw [lastUpdate_concat, hlast setting, Option.or_none]
      apply Option.eq_none_iff_forall_ne_some.mpr
      exact fun v hv => hid (writes id setting v hv)
  constructor
  case stage =>
    intro j t ht
    rcases of_update_eq_some ht with ⟨-, ht⟩ | ⟨-, ht⟩
    · obtain rfl := Option.some.inj ht
      apply stage
    · apply h.stage j t ht
  case waiting =>
    intro j t id ht hdrawn hwaits
    rcases of_update_eq_some ht with ⟨-, ht⟩ | ⟨-, ht⟩
    · obtain rfl := Option.some.inj ht
      apply before run hdrawn fun hsettled => hwaits (hsettled.2 r)
    · apply before ht hdrawn hwaits
  case known =>
    intro id hid
    obtain ⟨row, hrow⟩ := HashMap.mem_iff_lookup.mp hid
    simp only [Config.acted, keys_same]
    apply h.known id (stored id row hrow).1
  case updated =>
    intro id setting v hv
    simp only [Config.acted, lastUpdate_concat] at hv
    simp only [Config.acted, keys_same]
    rcases Option.or_eq_some_iff.mp hv with hv | ⟨-, hv⟩
    · apply h.known id (writes id setting v hv)
    · apply h.updated id setting v hv
  case settings => exact fun id row hrow => (stored id row hrow).2
  case linked => exact linked

section

variable {i : Client} {n : ℕ} {op : AccountCall V} {c : AccountCmd V}
  {next : c.Answer → AccountProg V (AccountResult V)} {r : c.Answer}

/-- A section that does not change the store, and counts no login method. -/
theorem unchanged (h : Kept cfg) (run : cfg.threads i = some ⟨n, op, .act c next⟩)
    (stage : AccountStage op (next r))
    (quiet : ∀ id setting, written id setting (.act n op c r : AccountEvent Client V) = none)
    (links : ∀ id, ¬ Links id (.act n op c r : AccountEvent Client V)) :
  Kept (cfg.acted i ⟨n, op, .act c next⟩ c r cfg.shared (next r))
  := by
  apply h.acted run stage
  case stored =>
    intro id row hrow
    constructor
    · apply HashMap.mem_iff_lookup.mpr ⟨row, hrow⟩
    · intro setting
      rw [lastUpdate_concat, quiet, Option.none_or]
      apply h.settings id row hrow
  case linked =>
    intro id hlinked
    apply h.linked id (hlinked.of_concat.resolve_left (links id)).1
  case writes =>
    intro id setting v hv
    rw [quiet] at hv
    cases hv

/-- A section that replaces the row of an account. -/
theorem put (h : Kept cfg) (run : cfg.threads i = some ⟨n, op, .act c next⟩)
    (stage : AccountStage op (next r)) {id : Str} {row row' : AccountRow V}
    (hrow : cfg.shared.inner.lookup id = some row)
    (others : ∀ id' setting, id' ≠ id →
      written id' setting (.act n op c r : AccountEvent Client V) = none)
    (settings : ∀ setting, row'.settings.lookup setting
      = (written id setting (.act n op c r : AccountEvent Client V)).or
        (row.settings.lookup setting))
    (links : ∀ id', Links id' (.act n op c r : AccountEvent Client V) → id' = id)
    (linked : Links id (.act n op c r : AccountEvent Client V) ∨ 1 ≤ row.linkedLoginsCount →
      1 ≤ row'.linkedLoginsCount) :
  Kept (cfg.acted i ⟨n, op, .act c next⟩ c r (cfg.shared.put id row') (next r))
  := by
  have mem : ∀ {id row}, cfg.shared.inner.lookup id = some row → id ∈ cfg.shared.inner :=
    fun hrow => HashMap.mem_iff_lookup.mpr ⟨_, hrow⟩
  apply h.acted run stage
  case stored =>
    intro id' row'' hrow''
    rw [BaseAccountStore.lookup_put] at hrow''
    split at hrow''
    · obtain rfl := Option.some.inj hrow''
      subst_vars
      use mem hrow
      intro setting
      rw [settings, lastUpdate_concat, h.settings id' row hrow]
    · use mem hrow''
      intro setting
      rw [lastUpdate_concat, others id' setting ‹_›, Option.none_or]
      apply h.settings id' row'' hrow''
  case linked =>
    intro id' hlinked
    rw [BaseAccountStore.lookup_put]
    split
    · subst_vars
      use row', rfl
      rcases hlinked.of_concat with hlinks | ⟨hlinked, -⟩
      · apply linked (.inl hlinks)
      · obtain ⟨row₀, hrow₀, hcount⟩ := h.linked id' hlinked
        obtain rfl := Option.some.inj (hrow.symm.trans hrow₀)
        apply linked (.inr hcount)
    · rcases hlinked.of_concat with hlinks | ⟨hlinked, -⟩
      · exact absurd (links id' hlinks) ‹_›
      · apply h.linked id' hlinked
  case writes =>
    intro id' setting v hv
    by_cases hid : id' = id
    · subst hid
      apply mem hrow
    · rw [others id' setting hid] at hv
      cases hv

end

section

variable {i : Client} {n : ℕ} {op : AccountCall V}

/-- Accounts are pruned. -/
theorem prune (h : Kept cfg) {now : Instant} {next : Unit → AccountProg V (AccountResult V)}
    (run : cfg.threads i = some ⟨n, op, .act (.prune now) next⟩)
    (stage : AccountStage op (next ())) :
  Kept (cfg.acted i ⟨n, op, .act (.prune now) next⟩ (.prune now) ()
    { cfg.shared with inner := cfg.shared.inner.retain fun _ row =>
        !AccountCmd.expired cfg.shared.expiry now row } (next ()))
  := by
  apply h.acted run stage
  case stored =>
    intro id row hrow
    rw [HashMap.lookup_retain, Option.filter_eq_some_iff] at hrow
    constructor
    · apply HashMap.mem_iff_lookup.mpr ⟨row, hrow.1⟩
    · intro setting
      rw [lastUpdate_concat]
      apply h.settings id row hrow.1
  case linked =>
    intro id hlinked
    obtain ⟨hlinked, -⟩ := hlinked.of_concat.resolve_left not_false
    obtain ⟨row, hrow, hcount⟩ := h.linked id hlinked
    use row
    rw [HashMap.lookup_retain, Option.filter_eq_some_iff]
    refine ⟨⟨hrow, ?_⟩, hcount⟩
    have : row.linkedLoginsCount ≠ 0 := by omega
    simp [AccountCmd.expired, this]
  case writes => rintro id setting v ⟨⟩

/-- An account is removed. -/
theorem remove (h : Kept cfg) {id : Str}
    {next : Except Str Unit → AccountProg V (AccountResult V)}
    (run : cfg.threads i = some ⟨n, op, .act (.remove id) next⟩)
    (stage : AccountStage op (next (.ok ()))) :
  Kept (cfg.acted i ⟨n, op, .act (.remove id) next⟩ (.remove id) (.ok () : Except Str Unit)
    { cfg.shared with inner := cfg.shared.inner.erase id } (next (.ok ())))
  := by
  apply h.acted run stage
  case stored =>
    intro id' row hrow
    rw [HashMap.lookup_erase] at hrow
    split at hrow
    · cases hrow
    · constructor
      · apply HashMap.mem_iff_lookup.mpr ⟨row, hrow⟩
      · intro setting
        rw [lastUpdate_concat]
        apply h.settings id' row hrow
  case linked =>
    intro id' hlinked
    obtain ⟨hlinked, hunlinks⟩ := hlinked.of_concat.resolve_left not_false
    rw [HashMap.lookup_erase, if_neg]
    · apply h.linked id' hlinked
    · rintro rfl
      apply hunlinks ⟨rfl, rfl⟩
  case writes => rintro id' setting v ⟨⟩

/-- A new account is stored. -/
theorem insertRow (h : Kept cfg) (sound : Sound cfg)
    (distinct : FreshCalls AccountCall.drawn cfg) {id : Str} {createdAt : Instant}
    {v : AccountResult V}
    (run : cfg.threads i = some ⟨n, op, .act (.insertRow id ⟨id, 0, ∅, createdAt⟩) fun _ => .ret v⟩)
    (drawn : op.drawn = some id) :
  Kept (cfg.acted i ⟨n, op, .act (.insertRow id ⟨id, 0, ∅, createdAt⟩) fun _ => .ret v⟩
    (.insertRow id ⟨id, 0, ∅, createdAt⟩) () (cfg.shared.put id ⟨id, 0, ∅, createdAt⟩) (.ret v))
  := by
  obtain ⟨unused, unset⟩ := h.waiting i _ id run drawn fun hsettled => hsettled.1 trivial
  have keys_same : keys AccountCall.drawn (cfg.history ++
      [.act n op (.insertRow id ⟨id, 0, ∅, createdAt⟩) ()]) = keys AccountCall.drawn cfg.history :=
    keys_concat_act _ _ _ _ _
  have same : ∀ id' setting, lastUpdate (cfg.history ++
      [.act n op (.insertRow id ⟨id, 0, ∅, createdAt⟩) ()]) id' setting
      = lastUpdate cfg.history id' setting :=
    fun id' setting => lastUpdate_concat _ _ _ _
  constructor
  case stage =>
    intro j t ht
    rcases of_update_eq_some ht with ⟨-, ht⟩ | ⟨-, ht⟩
    · obtain rfl := Option.some.inj ht
      exact .settled trivial
    · apply h.stage j t ht
  case waiting =>
    intro j t id' ht hdrawn hwaits
    rcases of_update_eq_some ht with ⟨-, hu⟩ | ⟨hji, hu⟩
    · obtain rfl := Option.some.inj hu
      exact absurd trivial hwaits
    · obtain ⟨hid, hlast⟩ := h.waiting j t id' hu hdrawn hwaits
      constructor
      · intro hmem
        rcases (AList.mem_insert cfg.shared.inner).mp hmem with rfl | hmem
        · apply hji (distinct.client_eq sound hu run hdrawn drawn)
        · apply hid hmem
      · exact fun setting => (same id' setting).trans (hlast setting)
  case known =>
    intro id' hid
    simp only [Config.acted, keys_same]
    rcases (AList.mem_insert cfg.shared.inner).mp hid with rfl | hid
    · apply sound.mem_keys run drawn
    · apply h.known id' hid
  case updated =>
    intro id' setting v hv
    simp only [Config.acted, same] at hv
    simp only [Config.acted, keys_same]
    apply h.updated id' setting v hv
  case settings =>
    intro id' row hrow setting
    simp only [Config.acted, same]
    simp only [Config.acted, BaseAccountStore.lookup_put] at hrow
    split at hrow
    · obtain rfl := Option.some.inj hrow
      subst_vars
      apply (unset setting).symm
    · apply h.settings id' row hrow
  case linked =>
    intro id' hlinked
    obtain ⟨hlinked, -⟩ := hlinked.of_concat.resolve_left not_false
    obtain ⟨row, hrow, hcount⟩ := h.linked id' hlinked
    use row
    simp only [Config.acted, BaseAccountStore.lookup_put]
    rw [if_neg]
    · exact ⟨hrow, hcount⟩
    · rintro rfl
      apply unused (HashMap.mem_iff_lookup.mpr ⟨row, hrow⟩)

end

/-- Every section keeps what holds. -/
theorem act (h : Kept cfg) (sound : Sound cfg) (distinct : FreshCalls AccountCall.drawn cfg)
    {i : Client} {n : ℕ} {op : AccountCall V} {c : AccountCmd V}
    {next : c.Answer → AccountProg V (AccountResult V)}
    (run : cfg.threads i = some ⟨n, op, .act c next⟩) {r : c.Answer} {s' : BaseAccountStore V}
    (hexec : c.exec cfg.shared = some (r, s')) :
  Kept (cfg.acted i ⟨n, op, .act c next⟩ c r s' (next r))
  := by
  have stage := h.stage i _ run
  cases c with
  | prune now =>
      obtain ⟨rfl, rfl⟩ := Prod.mk.inj (Option.some.inj hexec)
      apply h.prune run (stage.next not_false _)
  | insertRow id row =>
      obtain ⟨rfl, rfl⟩ := Prod.mk.inj (Option.some.inj hexec)
      cases stage with
      | settled hsettled => exact absurd trivial hsettled.1
      | inserting drawn => apply h.insertRow sound distinct run drawn
  | readSetting id setting =>
      obtain ⟨rfl, rfl⟩ := Prod.mk.inj (Option.some.inj hexec)
      apply h.unchanged run (stage.next not_false _) (fun _ _ => rfl) fun _ => not_false
  | writeSetting id setting value =>
      rw [AccountCmd.exec] at hexec
      split at hexec
      · obtain ⟨rfl, rfl⟩ := Prod.mk.inj (Option.some.inj hexec)
        apply h.unchanged run (stage.next not_false _) (fun _ _ => rfl) fun _ => not_false
      · obtain ⟨rfl, rfl⟩ := Prod.mk.inj (Option.some.inj hexec)
        apply h.put run (stage.next not_false _) ‹_›
        · intro id' setting' hid
          apply if_neg fun hsame => hid hsame.1.symm
        · intro setting'
          rw [HashMap.lookup_insert, written]
          by_cases hsetting : setting' = setting
          · simp [hsetting]
          · simp [hsetting, Ne.symm hsetting]
        · rintro id' ⟨⟩
        · rintro (⟨⟨⟩⟩ | hcount)
          apply hcount
  | increment id =>
      rw [AccountCmd.exec] at hexec
      split at hexec
      · obtain ⟨rfl, rfl⟩ := Prod.mk.inj (Option.some.inj hexec)
        apply h.unchanged run (stage.next not_false _) (fun _ _ => rfl)
        rintro id' ⟨-, ⟨⟩⟩
      · split at hexec
        · cases hexec
        · obtain ⟨rfl, rfl⟩ := Prod.mk.inj (Option.some.inj hexec)
          apply h.put run (stage.next not_false _) ‹_›
          · exact fun _ _ _ => rfl
          · exact fun _ => rfl
          · rintro id' ⟨rfl, -⟩
            rfl
          · intro _
            simp
  | decrement id =>
      rw [AccountCmd.exec] at hexec
      split at hexec
      · obtain ⟨rfl, rfl⟩ := Prod.mk.inj (Option.some.inj hexec)
        apply h.unchanged run (stage.next not_false _) (fun _ _ => rfl) fun _ => not_false
      · split at hexec
        · obtain ⟨rfl, rfl⟩ := Prod.mk.inj (Option.some.inj hexec)
          apply h.unchanged run (stage.next not_false _) (fun _ _ => rfl) fun _ => not_false
        · obtain ⟨rfl, rfl⟩ := Prod.mk.inj (Option.some.inj hexec)
          apply h.put run (stage.next not_false _) ‹_›
          · exact fun _ _ _ => rfl
          · exact fun _ => rfl
          · rintro id' ⟨⟩
          · rintro (⟨⟨⟩⟩ | hcount)
            simp only
            omega
  | remove id =>
      rw [AccountCmd.exec] at hexec
      split at hexec
      · obtain ⟨rfl, rfl⟩ := Prod.mk.inj (Option.some.inj hexec)
        apply h.unchanged run (stage.next not_false _) (fun _ _ => rfl) fun _ => not_false
      · obtain ⟨rfl, rfl⟩ := Prod.mk.inj (Option.some.inj hexec)
        apply h.remove run (stage.next not_false _)

theorem of_reaches {expiry : Duration}
    (h : (accountMachine V).Reaches (fun cfg l => freshCall AccountCall.drawn cfg l)
      (Config.init (.new expiry)) cfg) :
  Kept cfg
  := by
  induction h with
  | refl => apply Kept.init _ rfl
  | step before fresh hs ih =>
      have sound := Sound.of_reaches before
      have distinct := FreshCalls.of_reaches before fun _ _ hfresh => hfresh
      cases hs with
      | call _ => apply ih.called _ fresh
      | act run hexec => apply ih.act sound distinct run hexec
      | ret _ => apply ih.returned
      | @env e _ _ => apply e.elim

end Kept

section

variable [DecidableEq Client] {cfg : AccountConfig Client V} {expiry : Duration}

/-- A call that has followed its program to the end has executed the section with its work. -/
theorem work_of_follows {call : AccountCall V} {l : List (Σ c : AccountCmd V, c.Answer)}
    {v : AccountResult V} (h : Follows call.impl l (.ret v)) :
  ∃ r, ⟨call.work.1, r⟩ ∈ l ∧ v = call.work.2 r
  := by
  have ends : ∀ {l v'}, Follows (.ret v' : AccountProg V (AccountResult V)) l (.ret v) → v = v' :=
    fun hend => Prog.ret.inj hend.ret_eq.2
  cases call with
  | create id now createdAt | getSetting id setting now =>
      -- a pruning comes before the work
      obtain ⟨_, l₁, rfl, hpruned⟩ := h.act_ret
      obtain ⟨r, l₂, rfl, hend⟩ := hpruned.act_ret
      exact ⟨r, by simp [AccountCall.work], ends hend⟩
  | updateSetting _ _ _ | delete _ | incrementLoginCount _ | decrementLoginCount _ =>
      obtain ⟨r, l₁, rfl, hend⟩ := h.act_ret
      exact ⟨r, List.mem_cons_self, ends hend⟩

/-- What a call returned is what the section with its work was answered. -/
theorem executed_of_returned
    (h : (accountMachine V).Reaches (fun cfg l => freshCall AccountCall.drawn cfg l)
      (Config.init (.new expiry)) cfg) {n : ℕ} {call : AccountCall V} {v : AccountResult V}
    (hv : .ret n call v ∈ cfg.history) :
  ∃ r before after, Executed expiry cfg n call call.work.1 r before after ∧ v = call.work.2 r
  := by
  obtain ⟨r, hmem, hr⟩ := work_of_follows ((Followed.of_reaches h).returned n call v hv)
  obtain ⟨op, hact⟩ := mem_answersOf_iff.mp hmem
  obtain rfl : call = op := ((Sound.of_reaches h).op_eq hact hv rfl).symm
  obtain ⟨l₁, l₂, hl⟩ := List.append_of_mem hact
  obtain ⟨before, after, reached, rfl, hexec⟩ := h.exec_of_history hl
  exact ⟨r, before, after, ⟨reached, ⟨l₂, hl⟩, hexec⟩, hr⟩

/-- In every run of calls in which accounts are created with fresh ids, an account whose count
of login methods was incremented is kept until it is deleted, a `getSetting` that reads a
setting of such an account returns the value that was written last, and a `decrementLoginCount`
that finds the last login method of such an account returns an error and changes nothing.  Every
call that has returned has done its work, and tells how that went. -/
theorem login_kept
    (h : (accountMachine V).Reaches (fun cfg l => freshCall AccountCall.drawn cfg l)
      (Config.init (.new expiry)) cfg) :
  (∀ id, Linked cfg.history id → LoginKept cfg id) ∧
    (∀ n id setting now v, .ret n (.getSetting id setting now) v ∈ cfg.history →
      ∃ l₁ r l₂, cfg.history = l₁ ++
          .act n (.getSetting id setting now) (.readSetting id setting) r :: l₂ ∧
        v = .setting (.ok r) ∧ (Linked l₁ id → r = lastUpdate l₁ id setting)) ∧
    (∀ n id v, .ret n (.decrementLoginCount id) v ∈ cfg.history →
      ∃ r before after, Executed expiry cfg n (.decrementLoginCount id) (.decrement id) r before
          after ∧ v = .done r ∧
        (Linked before.history id → ∀ row, before.shared.inner.lookup id = some row →
          row.linkedLoginsCount - 1 = 0 →
          r = .error "An account needs at least 1 login method.".toList ∧
            after = before.shared)) ∧
    ∀ n call v, .ret n call v ∈ cfg.history →
      ∃ r before after, Executed expiry cfg n call call.work.1 r before after ∧ v = call.work.2 r
  := by
  refine ⟨?_, ?_, ?_, fun n call v hv => executed_of_returned h hv⟩
  · intro id hlinked
    apply (Kept.of_reaches h).loginKept hlinked
  · intro n id setting now v hv
    obtain ⟨r, before, after, ⟨reached, ⟨l, hl⟩, hexec⟩, hr⟩ := executed_of_returned h hv
    refine ⟨before.history, r, l, hl, hr, ?_⟩
    intro hlinked
    have kept := ((Kept.of_reaches reached).loginKept hlinked).setting setting
    apply (Prod.mk.inj (Option.some.inj (hexec.symm.trans kept))).1
  · intro n id v hv
    obtain ⟨r, before, after, executed, hr⟩ := executed_of_returned h hv
    refine ⟨r, before, after, executed, hr, ?_⟩
    intro hlinked row hrow hlast
    have kept := ((Kept.of_reaches executed.reached).loginKept hlinked).decrement row hrow hlast
    apply Prod.mk.inj (Option.some.inj (executed.exec.symm.trans kept))

end

/-- An account gets a login method and a setting, and its time is over when another account is
created. -/
def linkThenPrune : List (Turn Bool (AccountCall ℕ) Empty) :=
  [.call false (.create "1".toList 0 0), .act false, .act false, .ret false,
    .call false (.incrementLoginCount "1".toList), .act false, .ret false,
    .call false (.updateSetting "1".toList "s".toList 5), .act false,
    .call true (.create "2".toList 100 100), .act true, .ret false, .act true]

/-- The login method is to be taken away. -/
def thenUnlink : List (Turn Bool (AccountCall ℕ) Empty) :=
  linkThenPrune ++
    [.call false (.decrementLoginCount "1".toList), .act false, .ret false]

theorem login_kept_linkThenPrune :
  LoginKept ((accountMachine ℕ).after (Config.init (.new 10)) linkThenPrune) "1".toList ∧
    ∃ before after, Executed 10 ((accountMachine ℕ).after (Config.init (.new 10)) thenUnlink) 4
      (.decrementLoginCount "1".toList) (.decrement "1".toList)
      (.error "An account needs at least 1 login method.".toList : Except Str Unit) before after
  := by
  constructor
  · apply (login_kept (Machine.reaches_after linkThenPrune (by decide))).1
    let history := ((accountMachine ℕ).after (Config.init (.new 10)) linkThenPrune).history
    refine ⟨history.take 5, _, history.drop 6, rfl, ⟨rfl, rfl⟩, ?_⟩
    rintro e (_ | ⟨_, he⟩)
    · apply not_false
    · repeat
        rcases he with _ | ⟨_, he⟩
        · apply not_false
      cases he
  · have reached : (accountMachine ℕ).Reaches (fun cfg l => freshCall AccountCall.drawn cfg l)
        (Config.init (.new 10)) ((accountMachine ℕ).after (Config.init (.new 10)) thenUnlink) :=
      Machine.reaches_after thenUnlink (by decide)
    obtain ⟨r, before, after, executed, hr, -⟩ := (login_kept reached).2.2.1 4 "1".toList
      (.done (.error "An account needs at least 1 login method.".toList))
      (List.mem_of_getElem? (i := 15) rfl)
    obtain rfl := AccountResult.done.inj hr
    exact ⟨before, after, executed⟩

end Identity
