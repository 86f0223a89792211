import SolidServer.Storage.Backends

/-!
# Stopped writes

What becomes of a storage in a file when anything may go wrong: files cannot be read,
directories cannot be made, and writes are stopped by an error or a crash.  The file always is
as if the calls so far, except some that failed, had been made on a map in memory, or it cannot
be read any more; and then no call changes it again, and all of them fail.
-/

open Text

namespace Storage

/-- The call has returned the error. -/
def KeyValueResult.FailedWith {V : Type} (e : StorageError) : KeyValueResult V → Prop
  | .value r => r = .error e
  | .flag r => r = .error e
  | .unit r => r = .error e
  | .listing r => r = .error e

/-- The message that a fault is reported with, unless the server crashes. -/
def Fault.message : Fault → Option Str
  | .none | .write _ .crash => Option.none
  | .read message | .createDir message | .write _ (.error message) => some message

theorem Ended.map_unit (e : Ended Unit) :
  e.map (fun _ => ()) = e
  := by
  obtain ⟨_ | _ | _, _⟩ := e <;> rfl

namespace JsonFileStorage

variable {Value V : Type} {J : SerdeJson Value V}

variable (J) in
/-- The file is there but cannot be read as a map. -/
def Corrupt (file : File) : Prop :=
  ∃ e, readMap J .none file = .error e

variable (J) in
/-- What the file shows: the map in memory, or nothing. -/
def Shows (file : File) : Option (MemoryMapStorage V) → Prop
  | some s => InStep J file s
  | none => Corrupt J file

/-- The call has failed with the error of the fault, or the server has crashed in it. -/
def Reports (fault : Fault) : Option (KeyValueResult V) → Prop
  | some r => ∃ message, fault.message = some message ∧ r.FailedWith (.io message)
  | none => fault.message = none

/-- What a call may return, with the map that is shown before and after it: it is the call in
memory; or it fails because of a fault and changes nothing; or its write is stopped, so late that
it is done, or so early that nothing is shown any more; or it fails because of the file, and
changes nothing. -/
inductive Fate (call : KeyValueCall V) (fault : Fault) :
    Option (MemoryMapStorage V) → Option (KeyValueResult V) → Option (MemoryMapStorage V) → Prop
  | completed {s r} (same : r.Same (s.perform call).1) :
      Fate call fault (some s) (some r) (some (s.perform call).2)
  | refused {s r} (failed : Reports fault (some r)) : Fate call fault (some s) (some r) (some s)
  | stopped {s result next missing stop} (hfault : fault = .write missing stop)
      (failed : Reports fault result) (cut : next = none ∨ next = some (s.perform call).2) :
      Fate call fault (some s) result next
  | corrupt {r e} (failed : r.FailedWith e) : Fate call fault none (some r) none

/-- The calls of a run come to these results one after another, and the maps that are shown
between them lead from the first to the last. -/
def Fates : Option (MemoryMapStorage V) → List (KeyValueCall V × Fault) →
    List (Option (KeyValueResult V)) → Option (MemoryMapStorage V) → Prop
  | s, [], results, s' => results = [] ∧ s' = s
  | s, (call, fault) :: calls, results, s' => ∃ result rest next, results = result :: rest ∧
      Fate call fault s result next ∧ Fates next calls rest s'

/-- A file that cannot be read is left alone. -/
theorem perform_of_unreadable {file : File} {fault : Fault} {e : StorageError}
    (h : readMap J fault file = .error e) (call : KeyValueCall V) :
  ∃ r, JsonFileStorage.perform J fault call file = (some r, file) ∧ r.FailedWith e
  := by
  cases call with
  | get key => exact ⟨_, rfl, by simp only [get, h]; rfl⟩
  | has key => exact ⟨_, rfl, by simp only [has, h]; rfl⟩
  | set key value => exact ⟨.unit (.error e), by simp [JsonFileStorage.perform, set, h], rfl⟩
  | delete key => exact ⟨.flag (.error e), by simp [JsonFileStorage.perform, delete, h], rfl⟩
  | entries => exact ⟨_, rfl, by simp only [entries, h]; rfl⟩

/-- No fault makes a corrupt file readable. -/
theorem Corrupt.readMap {file : File} (h : Corrupt J file) (fault : Fault) :
  ∃ e, readMap J fault file = .error e
  := by
  rcases readMap_cases (J := J) fault file with ⟨message, -, he⟩ | hread
  · exact ⟨_, he⟩
  · rw [hread]
    exact h

/-- What becomes of writing a map: it is done, or not begun, or stopped. -/
theorem writeMap_fate (laws : J.Lawful) (fault : Fault) {m : Contents Value}
    {s : MemoryMapStorage V}
    (hlookup : ∀ k, (m.lookup k).map J.fromValue = (s.data.lookup k).map .ok) (file : File) :
  (∃ file', writeMap J fault m file = ⟨some (.ok ()), file'⟩ ∧ InStep J file' s) ∨
    (∃ message, fault = .createDir message ∧
      writeMap J fault m file = ⟨some (.error (.io message)), file⟩) ∨
    ∃ missing stop file', fault = .write missing stop ∧
      writeMap J fault m file = ⟨fault.message.map fun message => .error (.io message), file'⟩ ∧
      (Corrupt J file' ∨ InStep J file' s)
  := by
  obtain ⟨text, htext⟩ := laws.prints m
  have whole : InStep J (some (utf8 text)) s := by
    obtain ⟨m', hm', hsame⟩ := readMap_utf8 laws.inverts htext
    refine ⟨m', hm', ?_⟩
    intro k
    rw [hsame, hlookup]
  cases fault with
  | none | read _ =>
      left
      refine ⟨some (utf8 text), ?_, whole⟩
      simp [writeMap, Fs.createDirAll, htext, Fs.write]
  | createDir message =>
      right
      left
      exact ⟨message, rfl, rfl⟩
  | write missing stop =>
      right
      right
      have cut : Corrupt J (some ((utf8 text).rdrop missing)) ∨
          InStep J (some ((utf8 text).rdrop missing)) s := by
        by_cases hmissing : missing = 0
        · right
          rw [hmissing, List.rdrop_zero]
          apply whole
        · left
          apply readMap_rdrop laws htext hmissing
      refine ⟨missing, stop, _, rfl, ?_, cut⟩
      cases stop <;> simp [writeMap, Fs.createDirAll, htext, Fs.write, Fault.message]

/-- A call that comes to writing has one of the fates. -/
theorem fate_of_write (laws : J.Lawful) (fault : Fault) {file : File} {s : MemoryMapStorage V}
    (before : InStep J file s) {call : KeyValueCall V} {m : Contents Value}
    (hlookup : ∀ k, (m.lookup k).map J.fromValue = ((s.perform call).2.data.lookup k).map .ok)
    {α : Type} (a : α) (result : Except StorageError α → KeyValueResult V)
    (hresult : (s.perform call).1 = result (.ok a))
    (hfailed : ∀ e, (result (.error e)).FailedWith e) :
  ∃ next, Fate call fault (some s)
      (((writeMap J fault m file).map fun _ => a).result.map result) next ∧
    Shows J ((writeMap J fault m file).map fun _ => a).file next
  := by
  rcases writeMap_fate laws fault hlookup file with
    ⟨file', hwrite, hstep⟩ | ⟨message, rfl, hwrite⟩ |
      ⟨missing, stop, file', hfault, hwrite, hcut⟩
  · rw [hwrite]
    use some (s.perform call).2
    constructor
    · apply Fate.completed
      rw [hresult]
      exact .refl _
    · apply hstep
  · rw [hwrite]
    exact ⟨some s, .refused ⟨message, rfl, hfailed _⟩, before⟩
  · rw [hwrite]
    have failed : Reports fault (((⟨fault.message.map fun message => .error (.io message),
        file'⟩ : Ended Unit).map fun _ => a).result.map result) := by
      cases hmessage : fault.message with
      | none => apply hmessage
      | some message => exact ⟨message, hmessage, hfailed _⟩
    rcases hcut with hcorrupt | hstep
    · exact ⟨none, .stopped hfault failed (.inl rfl), hcorrupt⟩
    · exact ⟨some (s.perform call).2, .stopped hfault failed (.inr rfl), hstep⟩

/-- A call comes to one of its fates. -/
theorem Shows.perform (laws : J.Lawful)
    (roundTrips : ∀ v, ∃ x, J.toValue v = .ok x ∧ J.fromValue x = .ok v) {file : File}
    {s : Option (MemoryMapStorage V)} (h : Shows J file s) (call : KeyValueCall V)
    (fault : Fault) :
  ∃ next, Fate call fault s (JsonFileStorage.perform J fault call file).1 next ∧
    Shows J (JsonFileStorage.perform J fault call file).2 next
  := by
  cases s with
  | none =>
      obtain ⟨e, he⟩ := Corrupt.readMap h fault
      obtain ⟨r, hperform, hfailed⟩ := perform_of_unreadable he call
      rw [hperform]
      exact ⟨none, .corrupt hfailed, h⟩
  | some s =>
      have instep : InStep J file s := h
      obtain ⟨m, hm, hlookup⟩ := h
      rcases readMap_cases (J := J) fault file with ⟨message, rfl, he⟩ | hread
      · obtain ⟨r, hperform, hfailed⟩ := perform_of_unreadable he call
        rw [hperform]
        exact ⟨some s, .refused ⟨message, rfl, hfailed⟩, instep⟩
      · -- the file has been read
        cases call with
        | get key =>
            have hget : get J fault key file = s.get key := by
              rw [← instep.get_eq, get, get, hread]
            refine ⟨some s, .completed ?_, instep⟩
            apply congrArg KeyValueResult.value hget
        | has key =>
            have hhas : has J fault key file = s.has key := by
              rw [← instep.has_eq, has, has, hread]
            refine ⟨some s, .completed ?_, instep⟩
            apply congrArg KeyValueResult.flag hhas
        | entries =>
            obtain ⟨l, hl, hperm⟩ := instep.entries_perm
            have hentries : entries J fault file = .ok l := by
              rw [← hl, entries, entries, hread]
            refine ⟨some s, ?_, instep⟩
            rw [JsonFileStorage.perform, hentries]
            exact .completed hperm
        | set key value =>
            obtain ⟨raw, hraw, hvalue⟩ := roundTrips value
            have hset : set J fault key value file
                = (writeMap J fault (m.insert key raw) file).map fun _ => () := by
              simp only [set, hread, hm, hraw, Ended.map_unit]
            rw [JsonFileStorage.perform, hset]
            apply fate_of_write laws fault instep _ () .unit rfl fun _ => rfl
            intro k
            rw [MemoryMapStorage.perform, MemoryMapStorage.set, LawfulMap.lookup_insert,
              LawfulMap.lookup_insert]
            split
            · rw [Option.map_some, Option.map_some, hvalue]
            · apply hlookup k
        | delete key =>
            have hsome : (m.lookup key).isSome = (s.data.lookup key).isSome := by
              rw [← Option.isSome_map (f := J.fromValue), hlookup, Option.isSome_map]
            cases hkey : (m.lookup key).isSome with
            | true =>
                have hdelete : delete J fault key file
                    = (writeMap J fault (m.erase key) file).map fun _ => true := by
                  simp only [delete, hread, hm, hkey, if_true]
                rw [JsonFileStorage.perform, hdelete]
                apply fate_of_write laws fault instep _ true .flag _ fun _ => rfl
                · intro k
                  rw [MemoryMapStorage.perform, MemoryMapStorage.delete, LawfulMap.lookup_erase,
                    LawfulMap.lookup_erase]
                  split
                  · rfl
                  · apply hlookup k
                · rw [MemoryMapStorage.perform, MemoryMapStorage.delete, ← hsome, hkey]
            | false =>
                have hdelete : delete J fault key file = ⟨some (.ok false), file⟩ := by
                  simp only [delete, hread, hm, hkey, Bool.false_eq_true, if_false]
                have herase : s.data.erase key = s.data := by
                  apply HashMap.erase_of_notMem
                  rw [← AList.lookup_eq_none, ← Option.isNone_iff_eq_none,
                    ← Option.isSome_eq_false_iff, ← hsome, hkey]
                have hnext : (s.perform (.delete key)).2 = s := by
                  rw [MemoryMapStorage.perform, MemoryMapStorage.delete, herase]
                have hresult : (s.perform (.delete key)).1 = .flag (.ok false) := by
                  rw [MemoryMapStorage.perform, MemoryMapStorage.delete, ← hsome, hkey]
                have completed : Fate (.delete key) fault (some s) (some (.flag (.ok false)))
                    (some (s.perform (.delete key)).2) := by
                  apply Fate.completed
                  rw [hresult]
                  exact .refl _
                rw [hnext] at completed
                rw [JsonFileStorage.perform, hdelete]
                exact ⟨some s, completed, instep⟩

/-- In every run of calls, whatever goes wrong in them, every call comes to one of its fates: what
the file shows is always the map that the calls which completed, and some whose writes were
stopped, have left, until nothing is shown any more and all calls fail. -/
theorem calls_fate (laws : J.Lawful)
    (roundTrips : ∀ v, ∃ x, J.toValue v = .ok x ∧ J.fromValue x = .ok v)
    (calls : List (KeyValueCall V × Fault)) {file : File} {s : Option (MemoryMapStorage V)}
    (h : Shows J file s) :
  ∃ s', Fates s calls
      (Run.results (fun (c : KeyValueCall V × Fault) file =>
        JsonFileStorage.perform J c.2 c.1 file) calls file) s' ∧
    Shows J (Run.state (fun (c : KeyValueCall V × Fault) file =>
      JsonFileStorage.perform J c.2 c.1 file) calls file) s'
  := by
  induction calls generalizing file s with
  | nil => exact ⟨s, ⟨rfl, rfl⟩, h⟩
  | cons c calls ih =>
      obtain ⟨call, fault⟩ := c
      obtain ⟨next, hfate, hnext⟩ := h.perform laws roundTrips call fault
      obtain ⟨s', hfates, hstate⟩ := ih hnext
      exact ⟨s', ⟨_, _, next, rfl, hfate, hfates⟩, hstate⟩

/-- A value is stored, the server crashes while another is written, and then it is read. -/
def crashedWrite : List (KeyValueCall Str × Fault) :=
  [(.set "k".toList "v".toList, .none), (.set "l".toList "w".toList, .write 1 .crash),
    (.get "k".toList, .none)]

theorem calls_fate_crashedWrite :
  ∃ s', Fates (some MemoryMapStorage.new) crashedWrite
      (Run.results (fun (c : KeyValueCall Str × Fault) file =>
        JsonFileStorage.perform jsonStrings c.2 c.1 file) crashedWrite none) s' ∧
    Shows jsonStrings (Run.state (fun (c : KeyValueCall Str × Fault) file =>
      JsonFileStorage.perform jsonStrings c.2 c.1 file) crashedWrite none) s'
  := calls_fate jsonStrings_lawful (fun v => ⟨v, rfl, rfl⟩) crashedWrite InStep.missing

end JsonFileStorage

end Storage
