import SolidServer.Library.Runs
import SolidServer.Storage.JsonFile

/-!
# Interchangeable backends

`MemoryMapStorage` keeps the entries in a map in memory.  A file and such a map are in step
if the file reads as a map with the same keys, whose JSON values decode to the values in
memory.  Every call on a storage in a file and the same call on one in memory return the
same and leave the two in step, so runs of any calls cannot tell the backends apart.
-/

open Text

namespace Storage

/-! ### Storage in memory -/

/-- Storage in a map. -/
structure MemoryMapStorage (V : Type) where
  data : AList fun _ : Str => V

namespace MemoryMapStorage

variable {V : Type}

/-- A new, empty storage. -/
def new : MemoryMapStorage V :=
  ⟨∅⟩

def get (key : Str) (s : MemoryMapStorage V) : Except StorageError (Option V) :=
  .ok (s.data.lookup key)

def has (key : Str) (s : MemoryMapStorage V) : Except StorageError Bool :=
  .ok (s.data.lookup key).isSome

def set (key : Str) (value : V) (s : MemoryMapStorage V) :
    Except StorageError Unit × MemoryMapStorage V :=
  (.ok (), ⟨s.data.insert key value⟩)

def delete (key : Str) (s : MemoryMapStorage V) :
    Except StorageError Bool × MemoryMapStorage V :=
  (.ok (s.data.lookup key).isSome, ⟨s.data.erase key⟩)

def entries (s : MemoryMapStorage V) : Except StorageError (List (Str × V)) :=
  .ok (LawfulMap.ofAList.entries s.data)

/-- The result of a call and the storage after it. -/
def perform : KeyValueCall V → MemoryMapStorage V → KeyValueResult V × MemoryMapStorage V
  | .get key, s => (.value (s.get key), s)
  | .has key, s => (.flag (s.has key), s)
  | .set key value, s => (.unit (s.set key value).1, (s.set key value).2)
  | .delete key, s => (.flag (s.delete key).1, (s.delete key).2)
  | .entries, s => (.listing s.entries, s)

end MemoryMapStorage

/-! ### Storage in a file -/

namespace JsonFileStorage

variable {Value V : Type} (J : SerdeJson Value V)

/-- The result of a call, unless it crashed, and the file after it. -/
def perform (fault : Fault) : KeyValueCall V → File → Option (KeyValueResult V) × File
  | .get key, file => (some (.value (get J fault key file)), file)
  | .has key, file => (some (.flag (has J fault key file)), file)
  | .set key value, file =>
      ((set J fault key value file).result.map .unit, (set J fault key value file).file)
  | .delete key, file =>
      ((delete J fault key file).result.map .flag, (delete J fault key file).file)
  | .entries, file => (some (.listing (entries J fault file)), file)

/-- The file reads as a map whose JSON values decode to the values in memory. -/
def InStep (file : File) (s : MemoryMapStorage V) : Prop :=
  ∃ m, readMap J .none file = .ok m ∧
    ∀ k, (m.lookup k).map J.fromValue = (s.data.lookup k).map .ok

variable {J}

theorem InStep.missing :
  InStep J none MemoryMapStorage.new
  := ⟨∅, rfl, fun _ => rfl⟩

/-- Without a fault, what is written reads as the map that was written. -/
theorem writeMap_readMap (inverts : J.Inverts) (m : Contents Value) (file : File) :
  (writeMap J .none m file).result = some (.ok ()) ∧
    ∃ m', readMap J .none (writeMap J .none m file).file = .ok m' ∧
      ∀ k, m'.lookup k = m.lookup k
  := by
  obtain ⟨s, hs⟩ := inverts.prints m
  have hwrite : writeMap J .none m file = ⟨some (.ok ()), some (utf8 s)⟩ := by
    simp [writeMap, Fs.createDirAll, hs, Fs.write]
  rw [hwrite]
  exact ⟨rfl, readMap_utf8 inverts hs⟩

variable {file : File} {s : MemoryMapStorage V}

theorem InStep.get_eq (h : InStep J file s) (k : Str) :
  get J .none k file = s.get k
  := by
  obtain ⟨m, hm, hlookup⟩ := h
  rw [get_of_readMap hm, hlookup, MemoryMapStorage.get]
  cases s.data.lookup k <;> rfl

theorem InStep.has_eq (h : InStep J file s) (k : Str) :
  has J .none k file = s.has k
  := by
  obtain ⟨m, hm, hlookup⟩ := h
  rw [has_of_readMap hm, ← Option.isSome_map (f := J.fromValue), hlookup, Option.isSome_map]
  rfl

/-- A list whose values all decode is decoded. -/
theorem decodeAll_of_perm {l : List (Str × Value)} {r : List (Str × V)}
    (h : (l.map fun e => (e.1, J.fromValue e.2)).Perm (r.map fun e => (e.1, .ok e.2))) :
  ∃ r', decodeAll J l = .ok r' ∧ r'.Perm r
  := by
  cases hl : decodeAll J l with
  | error e =>
      obtain ⟨k, message, hmem⟩ := decodeAll_eq_error hl
      rw [h.mem_iff] at hmem
      obtain ⟨x, -, hx⟩ := List.mem_map.mp hmem
      cases (Prod.mk.inj hx).2
  | ok r' =>
      use r', rfl
      rw [decodeAll_eq_ok hl] at h
      have key := h.filterMap fun e => e.2.toOption.map fun v => (e.1, v)
      simpa [List.filterMap_map, Function.comp_def, Except.toOption] using key

theorem InStep.entries_perm (h : InStep J file s) :
  ∃ l, entries J .none file = .ok l ∧ l.Perm (LawfulMap.ofAList.entries s.data)
  := by
  obtain ⟨m, hm, hlookup⟩ := h
  have hentries : entries J .none file = decodeAll J (LawfulMap.ofAList.entries m) := by
    rw [entries, hm]
    rfl
  rw [hentries]
  apply decodeAll_of_perm
  apply LawfulMap.perm_map_entries LawfulMap.ofAList LawfulMap.ofAList hlookup

theorem InStep.set (inverts : J.Inverts)
    (roundTrips : ∀ v, ∃ x, J.toValue v = .ok x ∧ J.fromValue x = .ok v) (h : InStep J file s)
    (key : Str) (value : V) :
  (JsonFileStorage.set J .none key value file).result = some (s.set key value).1 ∧
    InStep J (JsonFileStorage.set J .none key value file).file (s.set key value).2
  := by
  obtain ⟨m, hm, hlookup⟩ := h
  obtain ⟨raw, hraw, hvalue⟩ := roundTrips value
  obtain ⟨hresult, m', hm', hsame⟩ := writeMap_readMap inverts (m.insert key raw) file
  have hset : JsonFileStorage.set J .none key value file
      = writeMap J .none (m.insert key raw) file := by
    simp only [JsonFileStorage.set, hm, hraw]
  rw [hset]
  use hresult, m', hm'
  intro k
  rw [hsame, MemoryMapStorage.set, LawfulMap.lookup_insert, LawfulMap.lookup_insert]
  split
  · rw [Option.map_some, Option.map_some, hvalue]
  · apply hlookup

theorem InStep.delete (inverts : J.Inverts) (h : InStep J file s) (key : Str) :
  (JsonFileStorage.delete J .none key file).result = some (s.delete key).1 ∧
    InStep J (JsonFileStorage.delete J .none key file).file (s.delete key).2
  := by
  have hhas := h.has_eq key
  obtain ⟨m, hm, hlookup⟩ := h
  rw [has_of_readMap hm] at hhas
  have hisSome : (m.lookup key).isSome = (s.data.lookup key).isSome := Except.ok.inj hhas
  have erased : ∀ k, ((m.erase key).lookup k).map J.fromValue
      = ((s.data.erase key).lookup k).map .ok := by
    intro k
    rw [LawfulMap.lookup_erase, LawfulMap.lookup_erase]
    split
    · rfl
    · apply hlookup
  cases hk : (m.lookup key).isSome with
  | true =>
      obtain ⟨hresult, m', hm', hsame⟩ := writeMap_readMap inverts (m.erase key) file
      have hdelete : JsonFileStorage.delete J .none key file
          = (writeMap J .none (m.erase key) file).map fun _ => true := by
        simp only [JsonFileStorage.delete, hm, hk, if_true]
      rw [hdelete]
      constructor
      · rw [MemoryMapStorage.delete, ← hisSome, hk, Ended.map, hresult]
        rfl
      · use m', hm'
        intro k
        rw [hsame]
        apply erased
  | false =>
      have hdelete : JsonFileStorage.delete J .none key file = ⟨some (.ok false), file⟩ := by
        simp only [JsonFileStorage.delete, hm, hk, Bool.false_eq_true, if_false]
      rw [hdelete]
      constructor
      · rw [MemoryMapStorage.delete, ← hisSome, hk]
      · use m, hm
        intro k
        rw [MemoryMapStorage.delete, ← erased, LawfulMap.lookup_erase]
        split
        · subst_vars
          rw [Option.isNone_iff_eq_none.mp (Option.isSome_eq_false_iff.mp hk)]
        · rfl

/-- A call on a file and on a map in memory that are in step returns the same and leaves them
in step. -/
theorem InStep.perform (inverts : J.Inverts)
    (roundTrips : ∀ v, ∃ x, J.toValue v = .ok x ∧ J.fromValue x = .ok v)
    (h : InStep J file s) (call : KeyValueCall V) :
  (∃ r, (JsonFileStorage.perform J .none call file).1 = some r ∧ r.Same (s.perform call).1) ∧
    InStep J (JsonFileStorage.perform J .none call file).2 (s.perform call).2
  := by
  cases call with
  | get key =>
      constructor
      · exact ⟨_, rfl, congrArg KeyValueResult.value (h.get_eq key)⟩
      · exact h
  | has key =>
      constructor
      · exact ⟨_, rfl, congrArg KeyValueResult.flag (h.has_eq key)⟩
      · exact h
  | set key value =>
      obtain ⟨hresult, hstep⟩ := h.set inverts roundTrips key value
      rw [JsonFileStorage.perform, hresult]
      exact ⟨⟨_, rfl, .refl _⟩, hstep⟩
  | delete key =>
      obtain ⟨hresult, hstep⟩ := h.delete inverts key
      rw [JsonFileStorage.perform, hresult]
      exact ⟨⟨_, rfl, .refl _⟩, hstep⟩
  | entries =>
      obtain ⟨l, hl, hperm⟩ := h.entries_perm
      rw [JsonFileStorage.perform, hl]
      exact ⟨⟨_, rfl, hperm⟩, h⟩

/-- A storage in a file that is missing at the start and one in memory that is empty at the
start return the same, whatever calls are made. -/
theorem backends_interchangeable (inverts : J.Inverts)
    (roundTrips : ∀ v, ∃ x, J.toValue v = .ok x ∧ J.fromValue x = .ok v)
    (calls : List (KeyValueCall V)) :
  List.Forall₂ (fun r r' => ∃ r₀, r = some r₀ ∧ r₀.Same r')
    (Run.results (JsonFileStorage.perform J .none) calls none)
    (Run.results (fun call s => MemoryMapStorage.perform call s) calls MemoryMapStorage.new)
  := by
  apply And.left
  apply Run.simulates (InStep J)
  case keep =>
    intro call file s h
    apply h.perform inverts roundTrips
  case start => apply InStep.missing

/-- The calls of the test of reading, writing and deleting. -/
def appleAndLemon : List (KeyValueCall Str) :=
  [.get "apple".toList, .has "apple".toList, .delete "apple".toList,
    .set "apple".toList "sweet".toList, .get "apple".toList, .has "apple".toList,
    .set "lemon".toList "sour".toList, .get "lemon".toList, .entries, .delete "apple".toList,
    .entries]

theorem backends_interchangeable_appleAndLemon :
  List.Forall₂ (fun r r' => ∃ r₀, r = some r₀ ∧ r₀.Same r')
    (Run.results (JsonFileStorage.perform jsonStrings .none) appleAndLemon none)
    (Run.results (fun call s => MemoryMapStorage.perform call s) appleAndLemon
      MemoryMapStorage.new)
  := backends_interchangeable jsonStrings_lawful.inverts (fun v => ⟨v, rfl, rfl⟩) appleAndLemon

end JsonFileStorage

end Storage
