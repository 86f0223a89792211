import SolidServer.Library.Program
import SolidServer.Library.Text
import Mathlib.Data.Finmap

/-!
# The resource store

`LdpStore` is a map from keys to entries behind a lock.  A `StoreCmd` is what a store
operation does under the lock, from its acquisition to its release, and `StoreCmd.exec` its
effect; the operations `get`, `exists_`, `put` and `delete` are programs of such sections.
In particular `put` takes the lock twice: first to create the ancestors of the key, then to
insert the entry.
-/

open Text Atomic

namespace ServerCore

/-- One stored resource entry. -/
structure Entry where
  body : List UInt8
  contentType : Str
  isContainer : Bool
deriving DecidableEq

/-- The entry of a container that was created automatically. -/
def Entry.autoContainer : Entry :=
  ⟨[], "text/turtle".toList, true⟩

/-- The store. -/
structure LdpStore where
  inner : Finmap fun _ : Str => Entry
deriving DecidableEq

namespace LdpStore

@[ext]
theorem ext {s t : LdpStore} (h : ∀ k, s.inner.lookup k = t.inner.lookup k) :
  s = t
  := by
  cases s
  cases t
  congr
  apply Finmap.ext_lookup h

instance : Membership Str LdpStore where
  mem s k := k ∈ s.inner

instance (k : Str) (s : LdpStore) : Decidable (k ∈ s) :=
  inferInstanceAs (Decidable (k ∈ s.inner))

/-- The entry stored under a key. -/
def lookup (s : LdpStore) (k : Str) : Option Entry :=
  s.inner.lookup k

theorem isSome_lookup_iff {s : LdpStore} {k : Str} :
  (s.lookup k).isSome ↔ k ∈ s
  := Finmap.lookup_isSome

theorem lookup_eq_none_iff {s : LdpStore} {k : Str} :
  s.lookup k = none ↔ k ∉ s
  := Finmap.lookup_eq_none

theorem mem_of_lookup_eq_some {s : LdpStore} {k : Str} {e : Entry} (h : s.lookup k = some e) :
  k ∈ s
  := Finmap.mem_of_lookup_eq_some h

/-- A new store, seeded with the root container. -/
def new : LdpStore :=
  ⟨(∅ : Finmap fun _ : Str => Entry).insert ['/'] Entry.autoContainer⟩

/-- Normalise a path to a key, which begins with `/`. -/
def key (path : Str) : Str :=
  if startsWith path '/' then path else '/' :: path

/-- A path that begins with `/` is its own key. -/
theorem key_eq_self {path : Str} (h : startsWith path '/' = true) :
  key path = path
  := if_pos h

/-- Insert an entry, replacing the one there is. -/
def insert (s : LdpStore) (k : Str) (e : Entry) : LdpStore :=
  ⟨s.inner.insert k e⟩

/-- Insert an entry unless there is one. -/
def orInsert (s : LdpStore) (k : Str) (e : Entry) : LdpStore :=
  if k ∈ s then s else s.insert k e

/-- Remove an entry. -/
def erase (s : LdpStore) (k : Str) : LdpStore :=
  ⟨s.inner.erase k⟩

/-- The text of a container after one more part of a path. -/
def pushPart (current part : Str) : Str :=
  if part.isEmpty then current ++ ['/']
  else (if endsWith current '/' then current else current ++ ['/']) ++ part ++ ['/']

/-- The key of a container with the given text: `//` stands for the root. -/
def squash (current : Str) : Str :=
  if current = ['/', '/'] then ['/'] else current

/-- The parts of a key that `ensureAncestors` walks over. -/
def ancestorParts (key : Str) : List Str :=
  let s := trimEndMatches key '/'
  let parts := splitn 100 s '/'
  if 1 < parts.length then parts.dropLast else parts

/-- Walk over the parts from the container with text `current`, creating the containers that
are missing. -/
def walk : List Str → Str → LdpStore → LdpStore
  | [], _, s => s
  | part :: parts, current, s =>
      walk parts (pushPart current part)
        (s.orInsert (squash (pushPart current part)) Entry.autoContainer)

/-- Ensure every intermediate container of a key exists. -/
def ensureAncestors (s : LdpStore) (key : Str) : LdpStore :=
  walk (ancestorParts key) [] s

end LdpStore

/-! ### Lock sections -/

/-- What a store operation does while it holds the lock. -/
inductive StoreCmd where
  | get (k : Str)
  | containsKey (k : Str)
  | ensureAncestors (k : Str)
  | insert (k : Str) (e : Entry)
  | remove (k : Str)
deriving DecidableEq

namespace StoreCmd

/-- What a lock section results in: `insert` and `remove` tell whether the key was new, and
whether it was there. -/
@[reducible] def Answer : StoreCmd → Type
  | get _ => Option Entry
  | containsKey _ => Bool
  | ensureAncestors _ => Unit
  | insert _ _ => Bool
  | remove _ => Bool

/-- The effect of a lock section. -/
def exec : (c : StoreCmd) → LdpStore → c.Answer × LdpStore
  | get k, s => (s.lookup k, s)
  | containsKey k, s => (decide (k ∈ s), s)
  | ensureAncestors k, s => ((), s.ensureAncestors k)
  | insert k e, s => (!decide (k ∈ s), s.insert k e)
  | remove k, s => (decide (k ∈ s), s.erase k)

end StoreCmd

/-- Programs of lock sections. -/
abbrev StoreProg := Prog StoreCmd StoreCmd.Answer

namespace LdpStore

/-- Retrieve a resource. -/
def get (path : Str) : StoreProg (Option Entry) :=
  Prog.call (StoreCmd.get (key path))

/-- Check existence. -/
def exists_ (path : Str) : StoreProg Bool :=
  Prog.call (StoreCmd.containsKey (key path))

/-- Whether the path is that of a container. -/
def isContainer (path : Str) : Bool :=
  endsWith (key path) '/'

/-- Store a resource, creating its ancestors; tells whether it is new. -/
def put (path : Str) (body : List UInt8) (contentType : Str) : StoreProg Bool := do
  let k := key path
  let isContainer := endsWith k '/'
  Prog.call (StoreCmd.ensureAncestors k)
  Prog.call (StoreCmd.insert k ⟨body, contentType, isContainer⟩)

/-- Delete a resource; tells whether it existed. -/
def delete (path : Str) : StoreProg Bool :=
  Prog.call (StoreCmd.remove (key path))

/-! ### What the sections do to a key -/

variable (s : LdpStore) (k k' : Str) (e : Entry)

@[simp]
theorem lookup_new :
  new.lookup k = if k = ['/'] then some Entry.autoContainer else none
  := by
  rw [new, lookup]
  split
  · subst_vars
    apply Finmap.lookup_insert
  · rw [Finmap.lookup_insert_of_ne _ ‹_›, Finmap.lookup_empty]

@[simp]
theorem lookup_insert :
  (s.insert k e).lookup k' = if k' = k then some e else s.lookup k'
  := by
  rw [insert, lookup]
  split
  · subst_vars
    apply Finmap.lookup_insert
  · apply Finmap.lookup_insert_of_ne _ ‹_›

@[simp]
theorem lookup_erase :
  (s.erase k).lookup k' = if k' = k then none else s.lookup k'
  := by
  rw [erase, lookup]
  split
  · subst_vars
    apply Finmap.lookup_erase
  · apply Finmap.lookup_erase_ne ‹_›

/-- Removing a key that is not there changes nothing. -/
theorem erase_of_not_mem {s : LdpStore} {k : Str} (h : k ∉ s) :
  s.erase k = s
  := by
  apply LdpStore.ext
  intro k'
  have key := lookup_erase s k k'
  split at key
  · subst_vars
    exact key.trans (lookup_eq_none_iff.mpr h).symm
  · apply key

/-- An entry that is there stays, and one that is missing may be added under `k` only. -/
@[simp]
theorem lookup_orInsert :
  (s.orInsert k e).lookup k' = (s.lookup k').or (if k' = k then some e else none)
  := by
  rw [orInsert]
  split
  · rename_i hk
    split
    · obtain ⟨e', he'⟩ := Option.isSome_iff_exists.mp (isSome_lookup_iff.mpr hk)
      subst_vars
      rw [he', Option.some_or]
    · rw [Option.or_none]
  · rename_i hk
    rw [lookup_insert]
    split
    · subst_vars
      rw [lookup_eq_none_iff.mpr hk, Option.none_or]
    · rw [Option.or_none]

end LdpStore

end ServerCore
