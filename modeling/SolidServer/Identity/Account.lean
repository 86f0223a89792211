import SolidServer.Library.FreshCalls
import SolidServer.Library.HashMap
import SolidServer.Library.Linearization
import SolidServer.Library.Text

/-!
# Accounts

`BaseAccountStore` holds the accounts by their ids, behind a lock: an `AccountCmd` is what an
operation does under the lock, from its acquisition to its release.  Accounts without a login
method are removed by `create` and `getSetting` when they are older than the expiry of the
store.  The ids are drawn at random and the clock is read before the lock is taken, so both
are arguments of the operations here.  The values of the settings are JSON, of which nothing
is used.

An account with a login method is never removed but by `delete`: its count of login methods
does not reach zero again, and pruning keeps it (`login_kept`).
-/

open Text Atomic

namespace Identity

/-- A point in time, in units since the start of the clock. -/
abbrev Instant := ℕ

/-- A span of time. -/
abbrev Duration := ℕ

/-- The largest value of the type `usize`. -/
def usizeMax : ℕ := UInt64.size - 1

/-- An account. -/
structure AccountRow (V : Type) where
  id : Str
  linkedLoginsCount : ℕ
  settings : HashMap Str V
  createdAt : Instant

/-- The accounts by id, and how long an account without a login method survives. -/
structure BaseAccountStore (V : Type) where
  inner : HashMap Str (AccountRow V)
  expiry : Duration

/-- The store with the row of an account replaced, or added. -/
def BaseAccountStore.put {V : Type} (s : BaseAccountStore V) (id : Str) (row : AccountRow V) :
    BaseAccountStore V where
  inner := s.inner.insert id row
  expiry := s.expiry

theorem BaseAccountStore.lookup_put {V : Type} (s : BaseAccountStore V) (id : Str)
    (row : AccountRow V) (id' : Str) :
  (s.put id row).inner.lookup id' = if id' = id then some row else s.inner.lookup id'
  := HashMap.lookup_insert s.inner id row id'

/-- What an operation does under the lock. -/
inductive AccountCmd (V : Type) where
  | prune (now : Instant)
  | insertRow (id : Str) (row : AccountRow V)
  | readSetting (id setting : Str)
  | writeSetting (id setting : Str) (value : V)
  | increment (id : Str)
  | decrement (id : Str)
  | remove (id : Str)

/-- The error for an account that is not stored. -/
def accountNotFound (id : Str) : Str :=
  "account not found: ".toList ++ id

namespace AccountCmd

variable {V : Type}

/-- What the operation knows when it has released the lock. -/
def Answer : AccountCmd V → Type
  | prune _ => Unit
  | insertRow _ _ => Unit
  | readSetting _ _ => Option V
  | writeSetting _ _ _ => Except Str Unit
  | increment _ => Except Str Unit
  | decrement _ => Except Str Unit
  | remove _ => Except Str Unit

/-- The account has no login method, and its time is over. -/
def expired (expiry : Duration) (now : Instant) (row : AccountRow V) : Bool :=
  row.linkedLoginsCount = 0 && expiry ≤ now - row.createdAt

/-- The effect of a section on the store; the count of an account cannot be incremented beyond
the largest `usize`. -/
def exec : (c : AccountCmd V) → BaseAccountStore V → Option (c.Answer × BaseAccountStore V)
  | prune now, s =>
      some ((), { s with inner := s.inner.retain fun _ row => !expired s.expiry now row })
  | insertRow id row, s => some ((), s.put id row)
  | readSetting id setting, s =>
      some ((s.inner.lookup id).bind fun row => row.settings.lookup setting, s)
  | writeSetting id setting value, s =>
      match s.inner.lookup id with
      | none => some (.error (accountNotFound id), s)
      | some row =>
          some (.ok (), s.put id { row with settings := row.settings.insert setting value })
  | increment id, s =>
      match s.inner.lookup id with
      | none => some (.error (accountNotFound id), s)
      | some row =>
          if row.linkedLoginsCount = usizeMax then none
          else
            some (.ok (), s.put id { row with linkedLoginsCount := row.linkedLoginsCount + 1 })
  | decrement id, s =>
      match s.inner.lookup id with
      | none => some (.error (accountNotFound id), s)
      | some row =>
          if row.linkedLoginsCount ≤ 1 then
            some (.error "An account needs at least 1 login method.".toList, s)
          else
            some (.ok (), s.put id { row with linkedLoginsCount := row.linkedLoginsCount - 1 })
  | remove id, s =>
      match s.inner.lookup id with
      | none => some (.error (accountNotFound id), s)
      | some _ => some (.ok (), { s with inner := s.inner.erase id })

end AccountCmd

/-- A program of sections. -/
abbrev AccountProg (V : Type) := Prog (AccountCmd V) AccountCmd.Answer

namespace BaseAccountStore

open AccountCmd

variable {V : Type}

/-- The store without accounts. -/
def new (expiry : Duration) : BaseAccountStore V where
  inner := ∅
  expiry := expiry

/-- Count one more login method. -/
def incrementLoginCount (id : Str) : AccountProg V (Except Str Unit) :=
  Prog.call (increment id)

/-- Count one login method less, unless it is the last one. -/
def decrementLoginCount (id : Str) : AccountProg V (Except Str Unit) :=
  Prog.call (decrement id)

/-- Remove the accounts without a login method whose time is over. -/
def pruneExpired (now : Instant) : AccountProg V Unit :=
  Prog.call (prune now)

/-- Store a new account under the id drawn for it. -/
def create (id : Str) (now createdAt : Instant) : AccountProg V (Except Str Str) := do
  pruneExpired now
  Prog.call (insertRow id ⟨id, 0, ∅, createdAt⟩)
  return .ok id

/-- The value of a setting of an account, if there is one. -/
def getSetting (id setting : Str) (now : Instant) : AccountProg V (Except Str (Option V)) := do
  pruneExpired now
  return .ok (← Prog.call (readSetting id setting))

/-- Overwrite a setting of an account. -/
def updateSetting (id setting : Str) (value : V) : AccountProg V (Except Str Unit) :=
  Prog.call (writeSetting id setting value)

/-- Remove an account. -/
def delete (id : Str) : AccountProg V (Except Str Unit) :=
  Prog.call (remove id)

end BaseAccountStore

/-- A call on the store, with the clock readings in it and the id that it draws. -/
inductive AccountCall (V : Type) where
  | create (id : Str) (now createdAt : Instant)
  | getSetting (id setting : Str) (now : Instant)
  | updateSetting (id setting : Str) (value : V)
  | delete (id : Str)
  | incrementLoginCount (id : Str)
  | decrementLoginCount (id : Str)

/-- What a call returns. -/
inductive AccountResult (V : Type) where
  | created (r : Except Str Str)
  | setting (r : Except Str (Option V))
  | done (r : Except Str Unit)

namespace AccountCall

variable {V : Type}

/-- The program of a call. -/
def impl : AccountCall V → AccountProg V (AccountResult V)
  | create id now createdAt => return .created (← BaseAccountStore.create id now createdAt)
  | getSetting id setting now => return .setting (← BaseAccountStore.getSetting id setting now)
  | updateSetting id setting value =>
      return .done (← BaseAccountStore.updateSetting id setting value)
  | delete id => return .done (← BaseAccountStore.delete id)
  | incrementLoginCount id => return .done (← BaseAccountStore.incrementLoginCount id)
  | decrementLoginCount id => return .done (← BaseAccountStore.decrementLoginCount id)

/-- The id drawn for a new account. -/
def drawn : AccountCall V → Option Str
  | create id _ _ => some id
  | _ => none

end AccountCall

end Identity
