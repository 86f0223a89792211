import SolidServer.Library.Program
import SolidServer.Library.LawfulMap
import SolidServer.Storage.KeyValue

/-!
# Expiring storage

`WrappedExpiringStorage` keeps entries with deadlines in another key-value store, the
source.  Its operations are programs whose commands are the calls of the source and the
readings of the clock.  An expired entry is deleted from the source by a `get` that finds
it, and by the sweeps that run in the background.
-/

open Text Atomic

namespace Storage

/-- The entry stored in the source: the payload, and the second it expires at. -/
structure ExpiresWrapper where
  expires : Option ℕ
  payload : Str
deriving DecidableEq

/-- Wrap a payload with a deadline, which is cut to whole seconds. -/
def ExpiresWrapper.new (payload : Str) (expires : Option SystemTime) : ExpiresWrapper where
  payload
  expires := expires.map asSecs

/-- The commands: calls of the source, and readings of the clock. -/
inductive SourceCmd where
  | get (key : Str)
  | set (key : Str) (value : ExpiresWrapper)
  | delete (key : Str)
  | entries
  | now
deriving DecidableEq

/-- What a command is answered with. -/
@[reducible] def SourceCmd.Answer : SourceCmd → Type
  | get _ => Except StorageError (Option ExpiresWrapper)
  | set _ _ => Except StorageError Unit
  | delete _ => Except StorageError Bool
  | entries => Except StorageError (List (Str × ExpiresWrapper))
  | now => SystemTime

/-- Programs of calls of the source and readings of the clock. -/
abbrev SourceProg := Prog SourceCmd SourceCmd.Answer

/-- Whether the entry has expired, which takes a reading of the clock if it has a deadline. -/
def ExpiresWrapper.isExpired (wrapper : ExpiresWrapper) : SourceProg Bool :=
  match wrapper.expires with
  | some exp => do
      let now ← Prog.call SourceCmd.now
      return asSecs now ≥ exp
  | none => return false

@[simp]
theorem ExpiresWrapper.isExpired_none (payload : Str) :
  (ExpiresWrapper.mk none payload).isExpired = .ret false
  := rfl

@[simp]
theorem ExpiresWrapper.isExpired_some (exp : ℕ) (payload : Str) :
  (ExpiresWrapper.mk (some exp) payload).isExpired
    = .act SourceCmd.now fun now => .ret (decide (exp ≤ asSecs now))
  := rfl

namespace WrappedExpiringStorage

def get (key : Str) : SourceProg (Except StorageError (Option Str)) := do
  match ← Prog.call (SourceCmd.get key) with
  | .error e => return .error e
  | .ok none => return .ok none
  | .ok (some wrapper) =>
      if ← wrapper.isExpired then
        let _ ← Prog.call (SourceCmd.delete key)
        return .ok none
      else return .ok (some wrapper.payload)

def has (key : Str) : SourceProg (Except StorageError Bool) := do
  match ← get key with
  | .error e => return .error e
  | .ok found => return .ok found.isSome

/-- Store without expiry. -/
def set (key value : Str) : SourceProg (Except StorageError Unit) :=
  Prog.call (SourceCmd.set key (ExpiresWrapper.new value none))

def delete (key : Str) : SourceProg (Except StorageError Bool) :=
  Prog.call (SourceCmd.delete key)

/-- The payloads of the entries that have not expired. -/
def filterLive : List (Str × ExpiresWrapper) → SourceProg (List (Str × Str))
  | [] => return []
  | (k, v) :: rest => do
      if ← v.isExpired then filterLive rest
      else
        let live ← filterLive rest
        return (k, v.payload) :: live

def entries : SourceProg (Except StorageError (List (Str × Str))) := do
  match ← Prog.call SourceCmd.entries with
  | .error e => return .error e
  | .ok raw =>
      let live ← filterLive raw
      return .ok live

/-- Store with an optional deadline, which must not have passed. -/
def setExpiring (key value : Str) (expires : Option SystemTime) :
    SourceProg (Except StorageError Unit) := do
  match expires with
  | some exp =>
      let now ← Prog.call SourceCmd.now
      if exp ≤ now then return .error .alreadyExpired
      else Prog.call (SourceCmd.set key (ExpiresWrapper.new value expires))
  | none => Prog.call (SourceCmd.set key (ExpiresWrapper.new value expires))

theorem setExpiring_some (key value : Str) (exp : SystemTime) :
  setExpiring key value (some exp) = .act SourceCmd.now fun now =>
    if exp ≤ now then .ret (.error .alreadyExpired)
    else Prog.call (SourceCmd.set key (ExpiresWrapper.new value (some exp)))
  := rfl

/-- The keys of the entries that have expired. -/
def collectExpired : List (Str × ExpiresWrapper) → SourceProg (List Str)
  | [] => return []
  | (k, v) :: rest => do
      if ← v.isExpired then
        let expired ← collectExpired rest
        return k :: expired
      else collectExpired rest

/-- Delete keys one after another, whether or not that works. -/
def deleteAll : List Str → SourceProg Unit
  | [] => return ()
  | k :: rest => do
      let _ ← Prog.call (SourceCmd.delete k)
      deleteAll rest

/-- One pass of the background cleanup. -/
def sweep : SourceProg Unit := do
  match ← Prog.call SourceCmd.entries with
  | .error _ => return ()
  | .ok entries =>
      let expired ← collectExpired entries
      deleteAll expired

end WrappedExpiringStorage

/-! ### Operations -/

/-- The operations of the storage, and the passes of the background cleanup. -/
inductive ExpiringOp where
  | get (key : Str)
  | has (key : Str)
  | set (key value : Str)
  | setExpiring (key value : Str) (expires : Option SystemTime)
  | delete (key : Str)
  | entries
  | sweep
deriving DecidableEq

/-- What the operations return. -/
inductive ExpiringVal where
  | found (result : Except StorageError (Option Str))
  | has (result : Except StorageError Bool)
  | stored (result : Except StorageError Unit)
  | deleted (result : Except StorageError Bool)
  | listed (result : Except StorageError (List (Str × Str)))
  | swept

/-- The program of an operation. -/
def ExpiringOp.impl : ExpiringOp → SourceProg ExpiringVal
  | get key => do return .found (← WrappedExpiringStorage.get key)
  | has key => do return .has (← WrappedExpiringStorage.has key)
  | set key value => do return .stored (← WrappedExpiringStorage.set key value)
  | setExpiring key value expires => do
      return .stored (← WrappedExpiringStorage.setExpiring key value expires)
  | delete key => do return .deleted (← WrappedExpiringStorage.delete key)
  | entries => do return .listed (← WrappedExpiringStorage.entries)
  | sweep => do
      WrappedExpiringStorage.sweep
      return .swept

/-! ### Execution -/

/-- The state of the source, and the clock. -/
structure World (σ : Type) where
  source : σ
  clock : SystemTime

variable {σ : Type} (M : LawfulMap σ Str ExpiresWrapper)

/-- The effect of a command on a source that is a map, where the deletions of the keys in
`fails` fail. -/
def SourceCmd.exec (fails : Str → Bool) : (c : SourceCmd) → World σ → c.Answer × World σ
  | .get k, w => (.ok (M.get w.source k), w)
  | .set k v, w => (.ok (), { w with source := M.set w.source k v })
  | .delete k, w =>
      if fails k then (.error (.internal []), w)
      else (.ok (M.delete w.source k).1, { w with source := (M.delete w.source k).2 })
  | .entries, w => (.ok (M.entries w.source), w)
  | .now, w => (w.clock, w)

/-- The entry has expired at the time `now`. -/
def ExpiresWrapper.expiredAt (wrapper : ExpiresWrapper) (now : SystemTime) : Bool :=
  match wrapper.expires with
  | some exp => exp ≤ asSecs now
  | none => false

theorem ExpiresWrapper.expiredAt_mono {wrapper : ExpiresWrapper} {t t' : SystemTime}
    (h : t ≤ t') (hw : wrapper.expiredAt t = true) :
  wrapper.expiredAt t' = true
  := by
  cases he : wrapper.expires with
  | none => simp [expiredAt, he] at hw
  | some exp =>
      have := asSecs_mono h
      simp only [expiredAt, he, decide_eq_true_eq] at hw ⊢
      omega

end Storage
