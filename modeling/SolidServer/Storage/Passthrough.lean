import Mathlib.Data.Set.Operations
import SolidServer.Storage.Backends

/-!
# Key rewriting

A `PassthroughKeyValueStorage` rewrites the keys of its calls and hands them on to another
storage, the source.  If the original key can be read off the new one, it is a map of its own:
the part of the source under new keys, which storages with other new keys never change.  Its
entries are those of the whole source, so they are its own only if the source has no others.
-/

open Text

namespace Storage

/-- A key-value storage with states in `σ`. -/
structure KeyValueStorage (σ V : Type) where
  get : Str → σ → Except StorageError (Option V) × σ
  has : Str → σ → Except StorageError Bool × σ
  set : Str → V → σ → Except StorageError Unit × σ
  delete : Str → σ → Except StorageError Bool × σ
  entries : σ → Except StorageError (List (Str × V)) × σ

/-- A storage that rewrites keys. -/
structure PassthroughKeyValueStorage where
  toNewKey : Str → Str
  toOriginalKey : Str → Str

/-! ### The operations -/

namespace PassthroughKeyValueStorage

section

variable {σ V : Type} (P : PassthroughKeyValueStorage) (source : KeyValueStorage σ V)

/-- Get with key transformation. -/
def getPassthrough (key : Str) (s : σ) : Except StorageError (Option V) × σ :=
  source.get (P.toNewKey key) s

/-- Has with key transformation. -/
def hasPassthrough (key : Str) (s : σ) : Except StorageError Bool × σ :=
  source.has (P.toNewKey key) s

/-- Set with key transformation. -/
def setPassthrough (key : Str) (value : V) (s : σ) : Except StorageError Unit × σ :=
  source.set (P.toNewKey key) value s

/-- Delete with key transformation. -/
def deletePassthrough (key : Str) (s : σ) : Except StorageError Bool × σ :=
  source.delete (P.toNewKey key) s

/-- Entries with reverse key transformation. -/
def entriesPassthrough (s : σ) : Except StorageError (List (Str × V)) × σ :=
  match source.entries s with
  | (.error e, s) => (.error e, s)
  | (.ok raw, s) => (.ok (raw.map fun e => (P.toOriginalKey e.1, e.2)), s)

end

end PassthroughKeyValueStorage

/-- The calls of a key-value storage that are about one key. -/
inductive KeyedCall (V : Type) where
  | get (key : Str)
  | has (key : Str)
  | set (key : Str) (value : V)
  | delete (key : Str)
deriving DecidableEq

/-- The map that is seen through rewritten keys. -/
def PassthroughKeyValueStorage.shown {V : Type} (P : PassthroughKeyValueStorage)
    (m : Str → Option V) : Str → Option V :=
  fun k => m (P.toNewKey k)

namespace KeyedCall

variable {σ V : Type}

/-- What a call on a plain map returns, and the map after it. -/
def onMap : KeyedCall V → (Str → Option V) → KeyValueResult V × (Str → Option V)
  | get key, m => (.value (.ok (m key)), m)
  | has key, m => (.flag (.ok (m key).isSome), m)
  | set key value, m => (.unit (.ok ()), Function.update m key (some value))
  | delete key, m => (.flag (.ok (m key).isSome), Function.update m key none)

/-- A call on a storage that rewrites keys. -/
def onPassthrough (P : PassthroughKeyValueStorage) (source : KeyValueStorage σ V) :
    KeyedCall V → σ → KeyValueResult V × σ
  | get key, s => (P.getPassthrough source key s).map .value id
  | has key, s => (P.hasPassthrough source key s).map .flag id
  | set key value, s => (P.setPassthrough source key value s).map .unit id
  | delete key, s => (P.deletePassthrough source key s).map .flag id

/-- A call on one of several storages that rewrite keys and have the same source. -/
def onShared {κ : Type} (P : κ → PassthroughKeyValueStorage) (source : KeyValueStorage σ V)
    (call : κ × KeyedCall V) : σ → KeyValueResult V × σ :=
  call.2.onPassthrough (P call.1) source

end KeyedCall

/-! ### Correct sources -/

/-- The storage is a map: seen through `view`, its states are maps, and every call returns what it
returns on a map and does what it does there. -/
structure KeyValueStorage.IsMap {σ V : Type} (source : KeyValueStorage σ V)
    (view : σ → Str → Option V) : Prop where
  get : ∀ k s, (source.get k s).1 = .ok (view s k) ∧ view (source.get k s).2 = view s
  has : ∀ k s, (source.has k s).1 = .ok (view s k).isSome ∧ view (source.has k s).2 = view s
  set : ∀ k v s, (source.set k v s).1 = .ok () ∧
    view (source.set k v s).2 = Function.update (view s) k (some v)
  delete : ∀ k s, (source.delete k s).1 = .ok (view s k).isSome ∧
    view (source.delete k s).2 = Function.update (view s) k none
  entries : ∀ s, view (source.entries s).2 = view s ∧ ∃ l, (source.entries s).1 = .ok l ∧
    (l.map Prod.fst).Nodup ∧ ∀ k v, (k, v) ∈ l ↔ view s k = some v

/-- The storage in memory. -/
def memoryMap (V : Type) : KeyValueStorage (MemoryMapStorage V) V where
  get key s := (s.get key, s)
  has key s := (s.has key, s)
  set key value s := s.set key value
  delete key s := s.delete key
  entries s := (s.entries, s)

theorem isMap_memoryMap (V : Type) :
  (memoryMap V).IsMap fun s k => s.data.lookup k
  := by
  constructor
  case get => exact fun k s => ⟨rfl, rfl⟩
  case has => exact fun k s => ⟨rfl, rfl⟩
  case set =>
    intro k v s
    use rfl
    funext k'
    rw [Function.update_apply]
    apply LawfulMap.ofAList.get_set
  case delete =>
    intro k s
    use rfl
    funext k'
    rw [Function.update_apply]
    apply LawfulMap.ofAList.get_delete
  case entries =>
    intro s
    exact ⟨rfl, _, rfl, LawfulMap.ofAList.nodup_entries s.data,
      LawfulMap.ofAList.mem_entries s.data⟩

/-! ### Transparency -/

section

variable {σ V : Type} {source : KeyValueStorage σ V} {view : σ → Str → Option V}
variable (correct : source.IsMap view)

include correct

/-- A call returns what it returns on the map that is seen, and does what it does there. -/
theorem onPassthrough_shown {P : PassthroughKeyValueStorage}
    (inverse : Function.LeftInverse P.toOriginalKey P.toNewKey) (call : KeyedCall V) (s : σ) :
  (call.onPassthrough P source s).1 = (call.onMap (P.shown (view s))).1 ∧
    P.shown (view (call.onPassthrough P source s).2) = (call.onMap (P.shown (view s))).2
  := by
  have update : ∀ k x, P.shown (Function.update (view s) (P.toNewKey k) x)
      = Function.update (P.shown (view s)) k x :=
    fun k x => Function.update_comp_eq_of_injective (view s) inverse.injective k x
  cases call with
  | get k =>
      obtain ⟨hresult, hstate⟩ := correct.get (P.toNewKey k) s
      exact ⟨congrArg KeyValueResult.value hresult, congrArg P.shown hstate⟩
  | has k =>
      obtain ⟨hresult, hstate⟩ := correct.has (P.toNewKey k) s
      exact ⟨congrArg KeyValueResult.flag hresult, congrArg P.shown hstate⟩
  | set k v =>
      obtain ⟨hresult, hstate⟩ := correct.set (P.toNewKey k) v s
      exact ⟨congrArg KeyValueResult.unit hresult, (congrArg P.shown hstate).trans (update _ _)⟩
  | delete k =>
      obtain ⟨hresult, hstate⟩ := correct.delete (P.toNewKey k) s
      exact ⟨congrArg KeyValueResult.flag hresult, (congrArg P.shown hstate).trans (update _ _)⟩

/-- A call changes nothing under keys that are not new keys. -/
theorem onPassthrough_frame {P : PassthroughKeyValueStorage} {k : Str}
    (hk : k ∉ Set.range P.toNewKey) (call : KeyedCall V) (s : σ) :
  view (call.onPassthrough P source s).2 k = view s k
  := by
  have ne : ∀ k', k ≠ P.toNewKey k' := by
    rintro k' rfl
    exact hk ⟨k', rfl⟩
  cases call with
  | get k' => exact congrFun (correct.get (P.toNewKey k') s).2 k
  | has k' => exact congrFun (correct.has (P.toNewKey k') s).2 k
  | set k' v =>
      apply (congrFun (correct.set (P.toNewKey k') v s).2 k).trans
      apply Function.update_of_ne (ne k')
  | delete k' =>
      apply (congrFun (correct.delete (P.toNewKey k') s).2 k).trans
      apply Function.update_of_ne (ne k')

/-- Every run of calls returns what it returns on the map that is seen. -/
theorem results_onPassthrough {P : PassthroughKeyValueStorage}
    (inverse : Function.LeftInverse P.toOriginalKey P.toNewKey) (calls : List (KeyedCall V))
    (s : σ) :
  Run.results (KeyedCall.onPassthrough P source) calls s
    = Run.results KeyedCall.onMap calls (P.shown (view s))
  := by
  have keep : ∀ (call : KeyedCall V) s m, P.shown (view s) = m →
      (call.onPassthrough P source s).1 = (call.onMap m).1 ∧
        P.shown (view (call.onPassthrough P source s).2) = (call.onMap m).2 := by
    rintro call s _ rfl
    apply onPassthrough_shown correct inverse
  rw [← List.forall₂_eq_eq_eq]
  apply (Run.simulates (fun s m => P.shown (view s) = m) Eq keep rfl calls).1

/-- Over a source that is a map, storages whose new keys determine the original ones behave as
maps of their own.  Each returns what the map seen through it does and changes nothing under
other keys, and if no two of them have a new key in common, then each returns this in runs of
calls to all of them. -/
theorem key_rewriting_transparent {κ : Type} [DecidableEq κ]
    {P : κ → PassthroughKeyValueStorage}
    (inverse : ∀ a, Function.LeftInverse (P a).toOriginalKey (P a).toNewKey) (s : σ) :
  (∀ a calls,
      Run.results (KeyedCall.onPassthrough (P a) source) calls s
          = Run.results KeyedCall.onMap calls ((P a).shown (view s)) ∧
        ∀ k ∉ Set.range (P a).toNewKey,
          view (Run.state (KeyedCall.onPassthrough (P a) source) calls s) k = view s k) ∧
    ((∀ a b, a ≠ b → ∀ k l, (P a).toNewKey k ≠ (P b).toNewKey l) →
      ∀ (calls : List (κ × KeyedCall V)) a,
        ((Run.trace (KeyedCall.onShared P source) calls s).filter fun e => e.1.1 = a).map Prod.snd
          = Run.results KeyedCall.onMap ((calls.filter fun call => call.1 = a).map Prod.snd)
            ((P a).shown (view s)))
  := by
  constructor
  · intro a calls
    use results_onPassthrough correct (inverse a) calls s
    intro k hk
    apply Run.invariant (fun s' => view s' k = view s k) _ rfl
    intro call s' hs'
    rw [onPassthrough_frame correct hk call s', hs']
  · intro disjoint calls a
    apply Run.results_of_part fun a s => (P a).shown (view s)
    · intro a call s
      apply onPassthrough_shown correct (inverse a)
    · intro a b call s hne
      funext k
      apply onPassthrough_frame correct (P := P a)
      rintro ⟨l, hl⟩
      apply disjoint a b (Ne.symm hne) l k hl

end

/-- The storage that puts a character in front of every key. -/
def prefixed (c : Char) : PassthroughKeyValueStorage where
  toNewKey key := c :: key
  toOriginalKey key := (stripPrefix [c] key).getD key

theorem leftInverse_prefixed (c : Char) :
  Function.LeftInverse (prefixed c).toOriginalKey (prefixed c).toNewKey
  := by
  intro k
  simp [prefixed, stripPrefix]

/-- `b` and `c` in front of the keys of one storage in memory. -/
theorem key_rewriting_transparent_prefixed :
  let P : Bool → PassthroughKeyValueStorage := fun a => prefixed (if a then 'b' else 'c')
  let s := (MemoryMapStorage.new.set "da".toList "v".toList).2
  ∀ (calls : List (Bool × KeyedCall Str)) a,
    ((Run.trace (KeyedCall.onShared P (memoryMap Str)) calls s).filter
        fun e => e.1.1 = a).map Prod.snd
      = Run.results KeyedCall.onMap ((calls.filter fun call => call.1 = a).map Prod.snd)
        ((P a).shown fun k => s.data.lookup k)
  := by
  intro P s
  have distinct : ∀ a b, a ≠ b → ∀ k l, (P a).toNewKey k ≠ (P b).toNewKey l := by
    intro a b hab k l h
    have heads : ∀ a b : Bool, a ≠ b →
        (if a then 'b' else 'c') ≠ (if b then 'b' else 'c') := by
      decide
    apply heads a b hab (List.cons.inj h).1
  apply (key_rewriting_transparent (isMap_memoryMap Str) (fun _ => leftInverse_prefixed _) s).2
    distinct

/-! ### Entries -/

/-- The entries are the pairs of the keys with what `get` returns for them, each key once. -/
def EntriesAgree {σ V : Type} (P : PassthroughKeyValueStorage) (source : KeyValueStorage σ V)
    (s : σ) : Prop :=
  ∃ l, (P.entriesPassthrough source s).1 = .ok l ∧ (l.map Prod.fst).Nodup ∧
    ∀ k v, (k, v) ∈ l ↔ (P.getPassthrough source k s).1 = .ok (some v)

section

variable {σ V : Type} {source : KeyValueStorage σ V} {view : σ → Str → Option V}
variable (correct : source.IsMap view) {P : PassthroughKeyValueStorage}

include correct

/-- The entries are those of the source with their original keys. -/
theorem exists_entriesPassthrough (s : σ) :
  ∃ raw : List (Str × V), (raw.map Prod.fst).Nodup ∧ (∀ k v, (k, v) ∈ raw ↔ view s k = some v) ∧
    (P.entriesPassthrough source s).1 = .ok (raw.map fun e => (P.toOriginalKey e.1, e.2))
  := by
  obtain ⟨-, raw, hresult, hnodup, hraw⟩ := correct.entries s
  use raw, hnodup, hraw
  rw [PassthroughKeyValueStorage.entriesPassthrough]
  cases hs : source.entries s with
  | mk result s' =>
      rw [hs] at hresult
      obtain rfl : result = .ok raw := hresult
      rfl

theorem getPassthrough_eq_some_iff {k : Str} {v : V} {s : σ} :
  (P.getPassthrough source k s).1 = .ok (some v) ↔ view s (P.toNewKey k) = some v
  := by
  rw [PassthroughKeyValueStorage.getPassthrough, (correct.get _ s).1, Except.ok.injEq]

/-- Where the entries agree with `get`, the source has no keys but new keys. -/
theorem mem_range_of_entriesAgree
    (inverse : Function.LeftInverse P.toOriginalKey P.toNewKey) {s : σ}
    (h : EntriesAgree P source s) {k : Str} {v : V} (hk : view s k = some v) :
  k ∈ Set.range P.toNewKey
  := by
  obtain ⟨raw, -, hraw, hentries⟩ := exists_entriesPassthrough correct (P := P) s
  obtain ⟨l, hl, hnodup, hget⟩ := h
  obtain rfl := Except.ok.inj (hentries.symm.trans hl)
  -- the entry of `k` has the key that the new key of its original key also leads to
  have listed : (P.toOriginalKey k, v) ∈ raw.map fun e => (P.toOriginalKey e.1, e.2) :=
    List.mem_map.mpr ⟨(k, v), (hraw k v).mpr hk, rfl⟩
  have back := (getPassthrough_eq_some_iff correct).mp ((hget _ _).mp listed)
  have distinct := List.inj_on_of_nodup_map (f := fun e : Str × V => P.toOriginalKey e.1)
    (by simpa [Function.comp_def] using hnodup)
  have same := distinct ((hraw k v).mpr hk) ((hraw _ v).mpr back) (inverse _).symm
  use P.toOriginalKey k
  apply (congrArg Prod.fst same).symm

/-- Where the source has no keys but new keys, the entries agree with `get`. -/
theorem entriesAgree_of_mem_range
    (inverse : Function.LeftInverse P.toOriginalKey P.toNewKey) {s : σ}
    (h : ∀ k, (view s k).isSome → k ∈ Set.range P.toNewKey) :
  EntriesAgree P source s
  := by
  obtain ⟨raw, hnodup, hraw, hentries⟩ := exists_entriesPassthrough correct (P := P) s
  have new : ∀ e ∈ raw, P.toNewKey (P.toOriginalKey e.1) = e.1 := by
    intro e he
    obtain ⟨k, hk⟩ := h e.1 (by simp [(hraw e.1 e.2).mp he])
    rw [← hk, inverse]
  refine ⟨_, hentries, ?_, ?_⟩
  · rw [List.map_map]
    have keys : (raw.map Prod.fst).map P.toOriginalKey
        = raw.map (Prod.fst ∘ fun e => (P.toOriginalKey e.1, e.2)) := by
      simp [Function.comp_def]
    rw [← keys]
    apply List.Nodup.map_on _ hnodup
    intro k hk k' hk' heq
    obtain ⟨e, he, rfl⟩ := List.mem_map.mp hk
    obtain ⟨e', he', rfl⟩ := List.mem_map.mp hk'
    rw [← new e he, ← new e' he', heq]
  · intro k v
    rw [getPassthrough_eq_some_iff correct, List.mem_map]
    constructor
    · rintro ⟨e, he, heq⟩
      obtain ⟨rfl, rfl⟩ := Prod.mk.inj heq
      rw [new e he]
      apply (hraw _ _).mp he
    · intro hv
      use (P.toNewKey k, v), (hraw _ _).mpr hv
      rw [inverse]

/-- Over a source that is a map, if new keys determine the original ones, the entries agree with
`get` exactly if the source has no keys but new keys. -/
theorem entries_agree_iff (inverse : Function.LeftInverse P.toOriginalKey P.toNewKey) (s : σ) :
  EntriesAgree P source s ↔ ∀ k, (view s k).isSome → k ∈ Set.range P.toNewKey
  := by
  constructor
  · intro h k hk
    obtain ⟨v, hv⟩ := Option.isSome_iff_exists.mp hk
    apply mem_range_of_entriesAgree correct inverse h hv
  · apply entriesAgree_of_mem_range correct inverse

end

/-- The storage in memory with one entry. -/
def oneEntry (key : Str) : MemoryMapStorage Str :=
  (MemoryMapStorage.new.set key []).2

theorem entries_agree_iff_prefixed :
  EntriesAgree (prefixed 'b') (memoryMap Str) (oneEntry "ba".toList) ↔
    ∀ k, ((oneEntry "ba".toList).data.lookup k).isSome → k ∈ Set.range (prefixed 'b').toNewKey
  := entries_agree_iff (isMap_memoryMap Str) (leftInverse_prefixed 'b') (oneEntry "ba".toList)

/-- The entries under `b` of a source with the key `c` have this key, which is not there. -/
theorem not_entries_agree :
  ¬ ∀ (P : PassthroughKeyValueStorage), Function.LeftInverse P.toOriginalKey P.toNewKey →
    ∀ s, EntriesAgree P (memoryMap Str) s
  := by
  intro h
  have agree := h (prefixed 'b') (leftInverse_prefixed 'b') (oneEntry "c".toList)
  obtain ⟨k, hk⟩ := mem_range_of_entriesAgree (isMap_memoryMap Str) (leftInverse_prefixed 'b')
    agree (k := "c".toList) (v := []) rfl
  cases hk

end Storage
