import SolidServer.Library.RwLock
import SolidServer.Storage.Backends

/-!
# Concurrent calls on a storage in a file

The calls on one `JsonFileStorage` take its lock, `get`, `has` and `entries` for reading,
`set` and `delete` for writing, and read and write the file while they hold it.  Taking the
lock, reading the file, writing it, and giving the lock back are separate steps, and the
file system makes no errors.  Without interference a call does what `perform` does, so the
calls of concurrent clients are those of `perform` in some sequential order.
-/

open Text Atomic

namespace Storage

/-- What a call does to the file. -/
inductive FileCmd where
  | readToString
  | createDirAll
  | write (contents : Str)
deriving DecidableEq

namespace FileCmd

/-- What the file system answers. -/
@[reducible] def Answer : FileCmd → Type
  | readToString => Except Fs.ReadError Str
  | createDirAll => Except Str Unit
  | write _ => Except Str Unit

/-- The effect of a command, without errors. -/
def exec : (c : FileCmd) → File → c.Answer × File
  | readToString, file => (Fs.readToString .none file, file)
  | createDirAll, file => (Fs.createDirAll .none, file)
  | write contents, _ => (.ok (), (Fs.write .none contents).file)

end FileCmd

/-- Programs of steps on the file. -/
abbrev FileProg := Prog FileCmd FileCmd.Answer

namespace JsonFileStorage.Locked

variable {Client Value V : Type} (J : SerdeJson Value V)

/-- Read the entire JSON file, an empty map if it does not exist. -/
def readMap : FileProg (Except StorageError (Contents Value)) := do
  match ← Prog.call FileCmd.readToString with
  | .ok contents => return (J.fromStr contents).mapError .json
  | .error .notFound => return .ok ∅
  | .error (.other message) => return .error (.io message)

/-- Overwrite the JSON file. -/
def writeMap (map : Contents Value) : FileProg (Except StorageError Unit) := do
  match ← Prog.call FileCmd.createDirAll with
  | .error message => return .error (.io message)
  | .ok () =>
      match J.toStringPretty map with
      | .error message => return .error (.json message)
      | .ok json =>
          let written ← Prog.call (FileCmd.write json)
          return written.mapError .io

def get (key : Str) : FileProg (Except StorageError (Option V)) := do
  match ← readMap J with
  | .error e => return .error e
  | .ok map =>
      match map.lookup key with
      | none => return .ok none
      | some raw => return ((J.fromValue raw).mapError .json).map some

def has (key : Str) : FileProg (Except StorageError Bool) := do
  let map ← readMap J
  return map.map fun map => (map.lookup key).isSome

def set (key : Str) (value : V) : FileProg (Except StorageError Unit) := do
  match ← readMap J with
  | .error e => return .error e
  | .ok map =>
      match J.toValue value with
      | .error message => return .error (.json message)
      | .ok raw => writeMap J (map.insert key raw)

def delete (key : Str) : FileProg (Except StorageError Bool) := do
  match ← readMap J with
  | .error e => return .error e
  | .ok map =>
      if (map.lookup key).isSome then
        let written ← writeMap J (map.erase key)
        return written.map fun _ => true
      else return .ok false

def entries : FileProg (Except StorageError (List (Str × V))) := do
  match ← readMap J with
  | .error e => return .error e
  | .ok map => return decodeAll J (LawfulMap.ofAList.entries map)

/-- What a call does while it holds the lock. -/
def body : KeyValueCall V → FileProg (KeyValueResult V)
  | .get key => do return .value (← get J key)
  | .has key => do return .flag (← has J key)
  | .set key value => do return .unit (← set J key value)
  | .delete key => do return .flag (← delete J key)
  | .entries => do return .listing (← entries J)

/-- What a call takes the lock for. -/
def mode : KeyValueCall V → LockMode
  | .get _ | .has _ | .entries => .read
  | .set _ _ | .delete _ => .write

/-- Clients calling the same storage concurrently. -/
abbrev fileMachine :=
  lockMachine mode (body J) FileCmd.exec

/-! ### Calls without interference -/

variable (file : File)

theorem run_readMap :
  (readMap J).run FileCmd.exec file = (JsonFileStorage.readMap J .none file, file)
  := by
  rw [readMap, Prog.call_bind, Prog.run_act, JsonFileStorage.readMap]
  simp only [FileCmd.exec]
  cases Fs.readToString .none file with
  | ok contents => rfl
  | error e =>
      cases e with
      | notFound => rfl
      | other message => rfl

theorem run_writeMap (map : Contents Value) :
  JsonFileStorage.writeMap J .none map file
    = ⟨some ((writeMap J map).run FileCmd.exec file).1, ((writeMap J map).run FileCmd.exec file).2⟩
  := by
  rw [writeMap, Prog.call_bind, Prog.run_act, JsonFileStorage.writeMap]
  simp only [FileCmd.exec, Fs.createDirAll]
  cases J.toStringPretty map with
  | error message => rfl
  | ok json => rfl

theorem run_get (key : Str) :
  (get J key).run FileCmd.exec file = (JsonFileStorage.get J .none key file, file)
  := by
  rw [get, Prog.run_bind, run_readMap, JsonFileStorage.get]
  cases JsonFileStorage.readMap J .none file with
  | error e => rfl
  | ok map =>
      dsimp only
      change _ = (match map.lookup key with
        | none => _
        | some raw => _, _)
      cases map.lookup key with
      | none => rfl
      | some raw =>
          dsimp only
          cases J.fromValue raw <;> rfl

theorem run_has (key : Str) :
  (has J key).run FileCmd.exec file = (JsonFileStorage.has J .none key file, file)
  := by
  rw [has, Prog.run_bind, run_readMap, JsonFileStorage.has]
  cases JsonFileStorage.readMap J .none file <;> rfl

theorem run_entries :
  (entries J).run FileCmd.exec file = (JsonFileStorage.entries J .none file, file)
  := by
  rw [entries, Prog.run_bind, run_readMap, JsonFileStorage.entries]
  cases JsonFileStorage.readMap J .none file <;> rfl

theorem run_set (key : Str) (value : V) :
  JsonFileStorage.set J .none key value file
    = ⟨some ((set J key value).run FileCmd.exec file).1,
        ((set J key value).run FileCmd.exec file).2⟩
  := by
  rw [set, Prog.run_bind, run_readMap, JsonFileStorage.set]
  cases JsonFileStorage.readMap J .none file with
  | error e => rfl
  | ok map =>
      dsimp only
      cases J.toValue value with
      | error message => rfl
      | ok raw => apply run_writeMap

theorem run_delete (key : Str) :
  JsonFileStorage.delete J .none key file
    = ⟨some ((delete J key).run FileCmd.exec file).1, ((delete J key).run FileCmd.exec file).2⟩
  := by
  rw [delete, Prog.run_bind, run_readMap, JsonFileStorage.delete]
  cases JsonFileStorage.readMap J .none file with
  | error e => rfl
  | ok map =>
      dsimp only
      split
      · rw [run_writeMap, Prog.run_bind]
        rfl
      · rfl

/-- A call that is not interfered with does what `perform` does. -/
theorem perform_eq (call : KeyValueCall V) :
  perform J .none call file
    = (some (lockSpec (body J) FileCmd.exec call file).1,
      (lockSpec (body J) FileCmd.exec call file).2)
  := by
  cases call with
  | get key => rw [lockSpec, body, Prog.run_bind, run_get]; rfl
  | has key => rw [lockSpec, body, Prog.run_bind, run_has]; rfl
  | set key value => rw [lockSpec, body, Prog.run_bind, perform, run_set]; rfl
  | delete key => rw [lockSpec, body, Prog.run_bind, perform, run_delete]; rfl
  | entries => rw [lockSpec, body, Prog.run_bind, run_entries]; rfl

/-- Reading the map does not write the file. -/
theorem issues_readMap :
  (readMap J).Issues fun c => ∀ file, (c.exec file).2 = file
  := by
  refine ⟨fun _ => rfl, ?_⟩
  intro read
  match read with
  | .ok contents => trivial
  | .error .notFound => trivial
  | .error (.other message) => trivial

/-- Calls that take the lock for reading do not write the file. -/
theorem reading_keeps (call : KeyValueCall V) (h : mode call = .read) :
  (body J call).Issues fun c => ∀ file, (c.exec file).2 = file
  := by
  cases call with
  | get key =>
      apply Prog.Issues.bind
      · apply Prog.Issues.bind (issues_readMap J)
        rintro (e | map)
        · trivial
        · dsimp only
          split <;> trivial
      · intro result
        trivial
  | has key =>
      apply Prog.Issues.bind
      · apply Prog.Issues.bind (issues_readMap J)
        intro map
        trivial
      · intro result
        trivial
  | entries =>
      apply Prog.Issues.bind
      · apply Prog.Issues.bind (issues_readMap J)
        rintro (e | map) <;> trivial
      · intro result
        trivial
  | set key value => cases h
  | delete key => cases h

theorem outcomes_perform (order : List (ℕ × KeyValueCall V)) :
  outcomes (perform J .none) order file
    = (outcomes (lockSpec (body J) FileCmd.exec) order file).map fun x => (x.1, some x.2)
  := by
  induction order generalizing file with
  | nil => rfl
  | cons o order ih => rw [outcomes, outcomes, perform_eq, List.map_cons, ih]

theorem final_perform (order : List (ℕ × KeyValueCall V)) :
  final (perform J .none) order file = final (lockSpec (body J) FileCmd.exec) order file
  := by
  induction order generalizing file with
  | nil => rfl
  | cons o order ih => rw [final, final, perform_eq, ih]

/-! ### Completed updates -/

variable {J}

/-- The file reads as a map with this JSON value under the key. -/
def HasEntry (J : SerdeJson Value V) (key : Str) (raw : Value) (file : File) : Prop :=
  ∃ m, JsonFileStorage.readMap J .none file = .ok m ∧ m.lookup key = some raw

/-- A `set` that returns successfully has stored the value. -/
theorem hasEntry_set (inverts : J.Inverts) {key : Str} {value : V}
    (h : (perform J .none (.set key value) file).1 = some (.unit (.ok ()))) :
  ∃ raw, J.toValue value = .ok raw ∧ HasEntry J key raw (perform J .none (.set key value) file).2
  := by
  simp only [perform, JsonFileStorage.set] at h ⊢
  cases hm : JsonFileStorage.readMap J .none file with
  | error e =>
      rw [hm] at h
      cases h
  | ok m =>
      rw [hm] at h
      cases hraw : J.toValue value with
      | error message =>
          rw [hraw] at h
          cases h
      | ok raw =>
          obtain ⟨-, m', hm', hsame⟩ := writeMap_readMap inverts (m.insert key raw) file
          use raw, rfl, m', hm'
          rw [hsame, LawfulMap.lookup_insert, if_pos rfl]

/-- A call that does not write the key keeps what is stored under it. -/
theorem HasEntry.perform (inverts : J.Inverts) {key : Str} {raw : Value}
    (h : HasEntry J key raw file) {call : KeyValueCall V} (hcall : ¬ call.Writes key) :
  HasEntry J key raw (JsonFileStorage.perform J .none call file).2
  := by
  obtain ⟨m, hm, hlookup⟩ := h
  cases call with
  | get k | has k | entries => exact ⟨m, hm, hlookup⟩
  | set k value =>
      simp only [JsonFileStorage.perform, JsonFileStorage.set, hm]
      cases hraw : J.toValue value with
      | error message => exact ⟨m, hm, hlookup⟩
      | ok raw' =>
          obtain ⟨-, m', hm', hsame⟩ := writeMap_readMap inverts (m.insert k raw') file
          use m', hm'
          rw [hsame, LawfulMap.lookup_insert, if_neg (Ne.symm hcall), hlookup]
  | delete k =>
      simp only [JsonFileStorage.perform, JsonFileStorage.delete, hm]
      split
      · obtain ⟨-, m', hm', hsame⟩ := writeMap_readMap inverts (m.erase k) file
        use m', hm'
        rw [hsame, LawfulMap.lookup_erase, if_neg (Ne.symm hcall), hlookup]
      · exact ⟨m, hm, hlookup⟩

/-- In a sequence of calls without repetitions, what a successful `set` stored is there at the
end unless a later call writes the key. -/
theorem hasEntry_final (inverts : J.Inverts) {order : List (ℕ × KeyValueCall V)}
    (nodup : (order.map Prod.fst).Nodup) {n : ℕ} {key : Str} {value : V}
    (hset : (n, .set key value) ∈ order)
    (hreturned : (n, some (.unit (.ok ()))) ∈ outcomes (perform J .none) order file)
    (hlater : ∀ n' call, Before order (n, .set key value) (n', call) → ¬ call.Writes key) :
  ∃ raw, J.toValue value = .ok raw ∧ HasEntry J key raw (final (perform J .none) order file)
  := by
  obtain ⟨before, later, rfl⟩ := List.append_of_mem hset
  have hresult := eq_of_mem_outcomes _ nodup hreturned
  obtain ⟨raw, hraw, hentry⟩ := hasEntry_set _ inverts hresult.symm
  use raw, hraw
  rw [final_append, final_cons]
  apply final_invariant _ (HasEntry J key raw)
  · intro n' call file hcall h
    apply h.perform _ inverts
    apply hlater n'
    use before ++ [(n, .set key value)], later, List.append_cons ..
    use List.mem_append_right _ (List.mem_singleton_self _)
  · apply hentry

/-- `order` is a sequential order of the calls: in it they return what they returned, and it
leads to the content of the file unless a call holds the lock for writing, as none does when
no call is in progress; and what a completed `set` stored is in the file then, unless a later
`set` or `delete` replaced it. -/
structure AtomicOrder (J : SerdeJson Value V) (file : File)
    (cfg : LockConfig Client FileCmd FileCmd.Answer File (KeyValueCall V) (KeyValueResult V))
    (order : List (ℕ × KeyValueCall V)) : Prop where
  linearizes : Linearizes cfg.history order
  returned : ∀ n call r, .ret n call r ∈ cfg.history →
    (n, some r) ∈ outcomes (perform J .none) order file
  quiescent : cfg.Quiescent → cfg.shared.writing = false
  content : cfg.shared.writing = false → cfg.shared.inner = final (perform J .none) order file
  survives : cfg.shared.writing = false → ∀ n key value,
    .ret n (.set key value) (.unit (.ok ())) ∈ cfg.history →
    (∀ n' call, Before order (n, .set key value) (n', call) → ¬ call.Writes key) →
    ∃ raw, J.toValue value = .ok raw ∧ HasEntry J key raw cfg.shared.inner

/-- Concurrent calls on one storage are atomic. -/
theorem file_calls_linearizable [DecidableEq Client] (inverts : J.Inverts) {file : File}
    {cfg : LockConfig Client FileCmd FileCmd.Answer File (KeyValueCall V) (KeyValueResult V)}
    (h : (fileMachine J).Reachable (Config.init ⟨file, 0, false⟩) cfg) :
  ∃ order, AtomicOrder J file cfg order
  := by
  obtain ⟨hlin, hreturned, hcurrent⟩ := lock_linearizes (reading_keeps J) h
  have returned : ∀ n call r, .ret n call r ∈ cfg.history →
      (n, some r) ∈ outcomes (perform J .none) (releases cfg.history) file := by
    intro n call r hr
    rw [outcomes_perform]
    exact List.mem_map.mpr ⟨(n, r), hreturned n call r hr, rfl⟩
  have content : cfg.shared.writing = false →
      cfg.shared.inner = final (perform J .none) (releases cfg.history) file := by
    intro hw
    rw [hcurrent hw, final_perform]
  use releases cfg.history
  constructor
  case linearizes => apply hlin
  case returned => apply returned
  case quiescent => apply writing_of_quiescent (reading_keeps J) h
  case content => apply content
  case survives =>
    intro hw n key value hset hlater
    rw [content hw]
    apply hasEntry_final file inverts hlin.nodup (hlin.returned _ _ _ hset)
      (returned _ _ _ hset) hlater

/-- A `set` is called while a `get` holds the lock. -/
def setDuringGet : List (Turn Bool (KeyValueCall Str) Empty) :=
  [.call true (.get "k".toList), .act true, .act true, .call false (.set "k".toList "v".toList),
    .act true, .act false, .act false, .act false, .act false, .act false, .ret true, .ret false]

theorem file_calls_linearizable_setDuringGet :
  ∃ order, AtomicOrder jsonStrings none
    ((fileMachine jsonStrings).after (Config.init ⟨none, 0, false⟩) setDuringGet) order
  := file_calls_linearizable jsonStrings_lawful.inverts (Machine.reachable_after setDuringGet)

/-! ### Completion -/

theorem within_readMap :
  (readMap J).Within 1
  := by
  rintro (e | contents)
  · cases e <;> trivial
  · trivial

theorem within_writeMap (map : Contents Value) :
  (writeMap J map).Within 2
  := by
  rintro (message | _)
  · trivial
  · cases J.toStringPretty map with
    | error message => trivial
    | ok json => exact fun _ => trivial

/-- A call issues at most three commands while it holds the lock. -/
theorem within_body (call : KeyValueCall V) :
  (body J call).Within 3
  := by
  cases call with
  | get key =>
      apply Prog.Within.bind (n := 3) (m := 0)
      · apply within_readMap.bind (m := 2)
        rintro (e | map)
        · trivial
        · dsimp only
          cases map.lookup key <;> trivial
      · exact fun _ => trivial
  | has key =>
      apply Prog.Within.bind (n := 3) (m := 0)
      · apply within_readMap.bind (m := 2)
        exact fun _ => trivial
      · exact fun _ => trivial
  | set key value =>
      apply Prog.Within.bind (n := 3) (m := 0)
      · apply within_readMap.bind (m := 2)
        rintro (e | map)
        · trivial
        · dsimp only
          cases J.toValue value with
          | error message => trivial
          | ok raw => exact within_writeMap (map.insert key raw)
      · exact fun _ => trivial
  | delete key =>
      apply Prog.Within.bind (n := 3) (m := 0)
      · apply within_readMap.bind (m := 2)
        rintro (e | map)
        · trivial
        · dsimp only
          split
          · apply (within_writeMap (map.erase key)).bind (m := 0)
            exact fun _ => trivial
          · trivial
      · exact fun _ => trivial
  | entries =>
      apply Prog.Within.bind (n := 3) (m := 0)
      · apply within_readMap.bind (m := 2)
        rintro (e | map) <;> trivial
      · exact fun _ => trivial

/-- However concurrent calls take their turns, if no others are made those in progress take no more
than six times as many turns together as there are of them; and until they are all completed, one
that has been given the lock can go on, or the lock is free, so that it can be given to any of
those that wait for it. -/
theorem file_calls_complete [DecidableEq Client] {file : File}
    {cfg : LockConfig Client FileCmd FileCmd.Answer File (KeyValueCall V) (KeyValueResult V)}
    (h : (fileMachine J).Reachable (Config.init ⟨file, 0, false⟩) cfg)
    {turns : List (Turn Client (KeyValueCall V) Empty)} (continues : ∀ l ∈ turns, l.Continues)
    {cfg' : LockConfig Client FileCmd FileCmd.Answer File (KeyValueCall V) (KeyValueResult V)}
    (hcfg' : (fileMachine J).execute cfg turns = some cfg') :
  turns.length ≤ 6 * {i | (cfg.threads i).isSome}.ncard ∧
    ((∃ i, ¬ Waits cfg' i ∧ (fileMachine J).Ready cfg' i) ∨
      ∀ i, (cfg'.threads i).isSome → (fileMachine J).Ready cfg' i)
  := by
  constructor
  · apply Machine.length_le_of_execute _ h hcfg' continues
    intro call
    exact (within_body call).withLock (mode call)
  · have reached : (fileMachine J).Reachable (Config.init ⟨file, 0, false⟩) cfg' :=
      h.trans (Machine.reaches_of_execute hcfg' fun _ _ => trivial)
    exact lock_progress (reading_keeps J) reached

/-- The calls of `setDuringGet` go on after a while. -/
def goOn : List (Turn Bool (KeyValueCall Str) Empty) :=
  [.act true, .act false]

theorem file_calls_complete_goOn :
  let machine := fileMachine jsonStrings
  let cfg := machine.after (Config.init ⟨none, 0, false⟩) (setDuringGet.take 4)
  let cfg' := machine.after cfg goOn
  goOn.length ≤ 6 * {i : Bool | (cfg.threads i).isSome}.ncard ∧
    ((∃ i, ¬ Waits cfg' i ∧ machine.Ready cfg' i) ∨
      ∀ i, (cfg'.threads i).isSome → machine.Ready cfg' i)
  := by
  intro machine cfg cfg'
  apply file_calls_complete (Machine.reachable_after (setDuringGet.take 4)) _ rfl
  intro l hl
  rcases List.mem_pair.mp hl with rfl | rfl <;> trivial

end JsonFileStorage.Locked

end Storage
