import SolidServer.Library.Text

/-!
# Key-value storage

The errors of the storage layer, the calls of a key-value storage with their results, and
the time: a system time is a number of nanoseconds since the Unix epoch.
-/

open Text

namespace Storage

/-- All errors that can occur in the storage layer. -/
inductive StorageError where
  | notFound (key : Str)
  | forbidden (message : Str)
  | notImplemented (message : Str)
  | alreadyExpired
  | io (message : Str)
  | json (message : Str)
  | internal (message : Str)
deriving DecidableEq

/-! ### The interface -/

/-- The calls of a key-value storage. -/
inductive KeyValueCall (V : Type) where
  | get (key : Str)
  | has (key : Str)
  | set (key : Str) (value : V)
  | delete (key : Str)
  | entries
deriving DecidableEq

/-- The call may change what is stored under the key. -/
def KeyValueCall.Writes {V : Type} (k : Str) : KeyValueCall V → Prop
  | set key _ => key = k
  | delete key => key = k
  | get _ | has _ | entries => False

/-- What the calls return. -/
inductive KeyValueResult (V : Type) where
  | value (result : Except StorageError (Option V))
  | flag (result : Except StorageError Bool)
  | unit (result : Except StorageError Unit)
  | listing (result : Except StorageError (List (Str × V)))

/-- Two calls return the same, the entries in any order. -/
def KeyValueResult.Same {V : Type} : KeyValueResult V → KeyValueResult V → Prop
  | .listing (.ok l), .listing (.ok l') => l.Perm l'
  | r, r' => r = r'

theorem KeyValueResult.Same.refl {V : Type} (r : KeyValueResult V) :
  r.Same r
  := by
  cases r with
  | listing result =>
      cases result with
      | ok l => apply List.Perm.refl
      | error e => rfl
  | value _ | flag _ | unit _ => rfl

/-! ### Time -/

/-- Nanoseconds since the Unix epoch. -/
abbrev SystemTime := ℤ

/-- The whole seconds since the Unix epoch, zero before it. -/
def asSecs (t : SystemTime) : ℕ :=
  (t / 1000000000).toNat

theorem asSecs_mono {t t' : SystemTime} (h : t ≤ t') :
  asSecs t ≤ asSecs t'
  := by
  apply Int.toNat_le_toNat
  apply Int.ediv_le_ediv _ h
  decide

/-- The time `n` seconds after the Unix epoch. -/
def ofSecs (n : ℕ) : SystemTime :=
  n * 1000000000

@[simp]
theorem asSecs_ofSecs (n : ℕ) :
  asSecs (ofSecs n) = n
  := by
  simp [asSecs, ofSecs]

end Storage
