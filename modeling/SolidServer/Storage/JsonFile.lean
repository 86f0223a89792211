import SolidServer.Library.JsonText
import SolidServer.Library.Octets
import SolidServer.Storage.KeyValue
import Mathlib.Data.List.DropRight

/-!
# Storage in a JSON file

`JsonFileStorage` keeps all entries in one file, as a JSON object which every update reads,
changes and writes again.  Writing truncates the file and then puts the octets there, and
may stop on the way: what an update that did not complete leaves behind shows the same as
before only if writing was not reached, or stopped behind the last octet of an update that
changes nothing.
-/

open Text

namespace Storage

/-- The entries as JSON values. -/
abbrev Contents (Value : Type) := AList fun _ : Str => Value

/-- Printing and parsing JSON texts, and turning values into JSON values and back. -/
structure SerdeJson (Value V : Type) where
  toStringPretty : Contents Value → Except Str Str
  fromStr : Str → Except Str (Contents Value)
  toValue : V → Except Str Value
  fromValue : Value → Except Str V

/-- What the storage relies on: every map is printed, and parsed again as the same map; a
text that has been cut is not parsed; and a value comes back from its JSON value. -/
structure SerdeJson.Lawful {Value V : Type} (J : SerdeJson Value V) : Prop where
  prints : ∀ m, ∃ s, J.toStringPretty m = .ok s
  parses : ∀ m s, J.toStringPretty m = .ok s →
    ∃ m', J.fromStr s = .ok m' ∧ ∀ k, m'.lookup k = m.lookup k
  nonempty : ∀ m, J.toStringPretty m ≠ .ok []
  cut : ∀ m s t, J.toStringPretty m = .ok s → t <+: s → t ≠ s → ∃ e, J.fromStr t = .error e
  decodes : ∀ v x, J.toValue v = .ok x → J.fromValue x = .ok v

/-- Every map is printed, and parsed again as the same map. -/
structure SerdeJson.Inverts {Value V : Type} (J : SerdeJson Value V) : Prop where
  prints : ∀ m, ∃ s, J.toStringPretty m = .ok s
  parses : ∀ m s, J.toStringPretty m = .ok s →
    ∃ m', J.fromStr s = .ok m' ∧ ∀ k, m'.lookup k = m.lookup k

theorem SerdeJson.Lawful.inverts {Value V : Type} {J : SerdeJson Value V} (laws : J.Lawful) :
  J.Inverts
  := ⟨laws.prints, laws.parses⟩

/-! ### The file system -/

/-- The octets of the file, if it exists. -/
abbrev File := Option (List UInt8)

/-- How an interrupted write ends. -/
inductive Stop where
  | error (message : Str)
  | crash
deriving DecidableEq

/-- What goes wrong in an operation: a write stops when that many octets are missing. -/
inductive Fault where
  | none
  | read (message : Str)
  | createDir (message : Str)
  | write (missing : ℕ) (stop : Stop)
deriving DecidableEq

/-- What an operation returned, unless it crashed, and the file it left. -/
structure Ended (α : Type) where
  result : Option (Except StorageError α)
  file : File

namespace Ended

variable {α β : Type}

def map (f : α → β) (e : Ended α) : Ended β :=
  ⟨e.result.map fun r => r.map f, e.file⟩

/-- The operation completed successfully. -/
def Completed (e : Ended α) : Prop :=
  ∃ a, e.result = some (.ok a)

@[simp]
theorem file_map (f : α → β) (e : Ended α) :
  (e.map f).file = e.file
  := rfl

@[simp]
theorem completed_map (f : α → β) (e : Ended α) :
  (e.map f).Completed ↔ e.Completed
  := by
  rcases e with ⟨_ | _ | _, _⟩ <;> simp [Completed, map, Except.map]

end Ended

namespace Fs

/-- The errors of reading a file that are told apart. -/
inductive ReadError where
  | notFound
  | other (message : Str)

def readToString (fault : Fault) (file : File) : Except ReadError Str :=
  match fault, file with
  | .read message, _ => .error (.other message)
  | _, none => .error .notFound
  | _, some octets =>
      match fromUtf8 octets with
      | some contents => .ok contents
      | none => .error (.other "stream did not contain valid UTF-8".toList)

def createDirAll (fault : Fault) : Except Str Unit :=
  match fault with
  | .createDir message => .error message
  | _ => .ok ()

/-- Truncate the file and write the contents. -/
def write (fault : Fault) (contents : Str) : Ended Unit :=
  match fault with
  | .write missing (.error message) =>
      ⟨some (.error (.io message)), some ((utf8 contents).rdrop missing)⟩
  | .write missing .crash => ⟨none, some ((utf8 contents).rdrop missing)⟩
  | _ => ⟨some (.ok ()), some (utf8 contents)⟩

end Fs

/-! ### The storage -/

namespace JsonFileStorage

variable {Value V : Type} (J : SerdeJson Value V) (fault : Fault)

/-- Read the entire JSON file, an empty map if it does not exist. -/
def readMap (file : File) : Except StorageError (Contents Value) :=
  match Fs.readToString fault file with
  | .ok contents => (J.fromStr contents).mapError .json
  | .error .notFound => .ok ∅
  | .error (.other message) => .error (.io message)

/-- Overwrite the JSON file. -/
def writeMap (map : Contents Value) (file : File) : Ended Unit :=
  match Fs.createDirAll fault with
  | .error message => ⟨some (.error (.io message)), file⟩
  | .ok () =>
      match J.toStringPretty map with
      | .error message => ⟨some (.error (.json message)), file⟩
      | .ok json => Fs.write fault json

def get (key : Str) (file : File) : Except StorageError (Option V) := do
  let map ← readMap J fault file
  match map.lookup key with
  | none => return none
  | some raw =>
      let v ← (J.fromValue raw).mapError .json
      return some v

def has (key : Str) (file : File) : Except StorageError Bool := do
  let map ← readMap J fault file
  return (map.lookup key).isSome

def set (key : Str) (value : V) (file : File) : Ended Unit :=
  match readMap J fault file with
  | .error e => ⟨some (.error e), file⟩
  | .ok map =>
      match J.toValue value with
      | .error message => ⟨some (.error (.json message)), file⟩
      | .ok raw => writeMap J fault (map.insert key raw) file

def delete (key : Str) (file : File) : Ended Bool :=
  match readMap J fault file with
  | .error e => ⟨some (.error e), file⟩
  | .ok map =>
      if (map.lookup key).isSome then
        (writeMap J fault (map.erase key) file).map fun _ => true
      else ⟨some (.ok false), file⟩

/-- The entries of a list with their values. -/
def decodeAll : List (Str × Value) → Except StorageError (List (Str × V))
  | [] => return []
  | (k, raw) :: rest => do
      let v ← (J.fromValue raw).mapError .json
      let result ← decodeAll rest
      return (k, v) :: result

def entries (file : File) : Except StorageError (List (Str × V)) := do
  let map ← readMap J fault file
  decodeAll J (LawfulMap.ofAList.entries map)

/-! ### What the reads show -/

variable {J}

/-- Two listings show the same, in any order; when both fail, which bad value was found first
is not compared. -/
def SameListing {α : Type} : Except StorageError (List α) → Except StorageError (List α) → Prop
  | .ok l, .ok l' => l.Perm l'
  | .error _, .error _ => True
  | .ok _, .error _ | .error _, .ok _ => False

variable (J) in
/-- All reads of two files show the same. -/
structure SameReads (file file' : File) : Prop where
  sameGet : ∀ k, get J .none k file = get J .none k file'
  sameHas : ∀ k, has J .none k file = has J .none k file'
  sameEntries : SameListing (entries J .none file) (entries J .none file')

theorem SameReads.refl (file : File) :
  SameReads J file file
  := by
  constructor
  · intro k
    rfl
  · intro k
    rfl
  · cases entries J .none file with
    | ok l => apply List.Perm.refl
    | error e => trivial

variable {file file' : File} {m m' : Contents Value}

/-- What `get` returns for what is stored under the key. -/
def found : Option (Except Str V) → Except StorageError (Option V)
  | none => .ok none
  | some (.ok v) => .ok (some v)
  | some (.error e) => .error (.json e)

theorem found_injective :
  Function.Injective (found (V := V))
  := by
  rintro (_ | _ | _) (_ | _ | _) h <;> cases h <;> rfl

theorem get_of_readMap (h : readMap J .none file = .ok m) (k : Str) :
  get J .none k file = found ((m.lookup k).map J.fromValue)
  := by
  rw [get, h]
  change (match m.lookup k with
    | none => _
    | some raw => _) = _
  cases m.lookup k with
  | none => rfl
  | some x =>
      dsimp only [Option.map_some]
      cases J.fromValue x <;> rfl

theorem has_of_readMap (h : readMap J .none file = .ok m) (k : Str) :
  has J .none k file = .ok (m.lookup k).isSome
  := by
  rw [has, h]
  rfl

/-- The entries are decoded one by one. -/
theorem decodeAll_eq_ok {l : List (Str × Value)} {r : List (Str × V)}
    (h : decodeAll J l = .ok r) :
  l.map (fun e => (e.1, J.fromValue e.2)) = r.map fun e => (e.1, .ok e.2)
  := by
  induction l generalizing r with
  | nil =>
      cases h
      rfl
  | cons e l ih =>
      obtain ⟨k, x⟩ := e
      rw [decodeAll] at h
      cases hx : J.fromValue x with
      | error e =>
          rw [hx] at h
          cases h
      | ok v =>
          rw [hx] at h
          cases hl : decodeAll J l with
          | error e =>
              rw [hl] at h
              cases h
          | ok r' =>
              rw [hl] at h
              cases h
              rw [List.map_cons, List.map_cons, ih hl, hx]

/-- Decoding fails at a value that cannot be decoded. -/
theorem decodeAll_eq_error {l : List (Str × Value)} {e : StorageError}
    (h : decodeAll J l = .error e) :
  ∃ k message, (k, .error message) ∈ l.map fun e => (e.1, J.fromValue e.2)
  := by
  induction l with
  | nil => cases h
  | cons e' l ih =>
      obtain ⟨k, x⟩ := e'
      rw [decodeAll] at h
      cases hx : J.fromValue x with
      | error message =>
          use k, message
          rw [List.map_cons, hx]
          apply List.mem_cons_self
      | ok v =>
          rw [hx] at h
          cases hl : decodeAll J l with
          | error e =>
              rw [hl] at h
              cases h
              obtain ⟨k', message, hmem⟩ := ih hl
              use k', message, List.mem_cons_of_mem _ hmem
          | ok r =>
              rw [hl] at h
              cases h

theorem sameListing_of_perm {l l' : List (Str × Value)}
    (h : (l.map fun e => (e.1, J.fromValue e.2)).Perm (l'.map fun e => (e.1, J.fromValue e.2))) :
  SameListing (decodeAll J l) (decodeAll J l')
  := by
  have mixed : ∀ {l l' : List (Str × Value)} {r : List (Str × V)} {e : StorageError},
      (l.map fun e => (e.1, J.fromValue e.2)).Perm (l'.map fun e => (e.1, J.fromValue e.2)) →
      decodeAll J l = .ok r → decodeAll J l' = .error e → False := by
    intro l l' r e h hr he
    obtain ⟨k, message, hmem⟩ := decodeAll_eq_error he
    rw [← h.mem_iff, decodeAll_eq_ok hr] at hmem
    obtain ⟨x, -, hx⟩ := List.mem_map.mp hmem
    cases (Prod.mk.inj hx).2
  cases hr : decodeAll J l with
  | ok r =>
      cases hr' : decodeAll J l' with
      | ok r' =>
          rw [decodeAll_eq_ok hr, decodeAll_eq_ok hr'] at h
          have key := h.filterMap fun e => e.2.toOption.map fun v => (e.1, v)
          change r.Perm r'
          simpa [List.filterMap_map, Function.comp_def, Except.toOption] using key
      | error e => exact mixed h hr hr'
  | error e =>
      cases hr' : decodeAll J l' with
      | ok r' => exact mixed h.symm hr' hr
      | error e' => trivial

/-- The reads show the same when what is stored under every key is decoded to the same. -/
theorem sameReads_iff (h : readMap J .none file = .ok m) (h' : readMap J .none file' = .ok m') :
  SameReads J file file' ↔
    ∀ k, (m.lookup k).map J.fromValue = (m'.lookup k).map J.fromValue
  := by
  constructor
  · intro same k
    apply found_injective
    rw [← get_of_readMap h, ← get_of_readMap h']
    apply same.sameGet
  · intro same
    constructor
    · intro k
      rw [get_of_readMap h, get_of_readMap h', same]
    · intro k
      rw [has_of_readMap h, has_of_readMap h', ← Option.isSome_map (f := J.fromValue), same,
        Option.isSome_map]
    · rw [entries, entries, h, h']
      apply sameListing_of_perm (LawfulMap.perm_map_entries _ _ same)

/-! ### Failed updates -/

/-- The operations that write the file. -/
inductive Update (V : Type) where
  | set (key : Str) (value : V)
  | delete (key : Str)

namespace Update

variable (J) in
def run (fault : Fault) : Update V → File → Ended Unit
  | set key value, file => JsonFileStorage.set J fault key value file
  | delete key, file => (JsonFileStorage.delete J fault key file).map fun _ => ()

variable (J) in
/-- The update writes `m'` over `m`. -/
def Rewrites (m m' : Contents Value) : Update V → Prop
  | set key value => ∃ raw, J.toValue value = .ok raw ∧ m' = m.insert key raw
  | delete key => (m.lookup key).isSome = true ∧ m' = m.erase key

variable (J) in
/-- Writing is not reached, or it stops behind the last octet of a `set` of the value that
the key has already. -/
def Unseen (file : File) : Update V → Fault → Prop
  | set key value, .write missing _ => (∃ e, J.toValue value = .error e) ∨
      (missing = 0 ∧ JsonFileStorage.get J .none key file = .ok (some value))
  | delete _, .write _ _ => False
  | _, .none | _, .read _ | _, .createDir _ => True

end Update

theorem Update.unseen_of_ne {op : Update V} {fault : Fault}
    (h : ∀ missing stop, fault ≠ .write missing stop) :
  op.Unseen J file fault
  := by
  cases fault with
  | write missing stop => apply absurd rfl (h missing stop)
  | none | read _ | createDir _ => cases op <;> trivial

/-- A fault either keeps the file from being read, or does not matter for reading it. -/
theorem readMap_cases (fault : Fault) (file : File) :
  (∃ message, fault = .read message ∧ readMap J fault file = .error (.io message)) ∨
    readMap J fault file = readMap J .none file
  := by
  cases fault with
  | read message => exact .inl ⟨message, rfl, rfl⟩
  | none | createDir _ | write _ _ =>
      right
      cases file <;> rfl

/-- Writing completes, is not reached, or stops on the way. -/
theorem writeMap_cases (laws : J.Lawful) (fault : Fault) (m' : Contents Value) (file : File) :
  (writeMap J fault m' file).Completed ∨
    ((writeMap J fault m' file).file = file ∧ ∀ missing stop, fault ≠ .write missing stop) ∨
    ∃ missing stop s, fault = .write missing stop ∧ J.toStringPretty m' = .ok s ∧
      (writeMap J fault m' file).file = some ((utf8 s).rdrop missing)
  := by
  obtain ⟨s, hs⟩ := laws.prints m'
  cases fault with
  | none | read _ =>
      left
      use ()
      simp [writeMap, Fs.createDirAll, hs, Fs.write]
  | createDir message =>
      right
      left
      constructor
      · rfl
      · intro missing stop h
        cases h
  | write missing stop =>
      right
      right
      use missing, stop, s, rfl, hs
      cases stop <;> simp [writeMap, Fs.createDirAll, hs, Fs.write]

variable {op : Update V} {fault : Fault}

/-- An update that comes to writing completes, leaves the file alone, or is stopped while
writing it. -/
theorem run_of_rewrites (laws : J.Lawful) (hrew : op.Rewrites J m m')
    (hfile : (op.run J fault file).file = (writeMap J fault m' file).file)
    (hdone : (writeMap J fault m' file).Completed → (op.run J fault file).Completed)
    (hfail : ¬ (op.run J fault file).Completed) :
  ((op.run J fault file).file = file ∧ op.Unseen J file fault) ∨
    ∃ missing stop m' s, fault = .write missing stop ∧ op.Rewrites J m m' ∧
      J.toStringPretty m' = .ok s ∧
      (op.run J fault file).file = some ((utf8 s).rdrop missing)
  := by
  rw [hfile]
  rcases writeMap_cases laws fault m' file with
    hcompleted | ⟨hsame, hfault⟩ | ⟨missing, stop, s, rfl, hs, hcut⟩
  · apply absurd (hdone hcompleted) hfail
  · left
    use hsame, Update.unseen_of_ne hfault
  · right
    use missing, stop, m', s, rfl, hrew

/-- An update that did not complete left the file alone, or was stopped while writing it. -/
theorem run_of_not_completed (laws : J.Lawful) (hm : readMap J .none file = .ok m)
    (hfail : ¬ (op.run J fault file).Completed) :
  ((op.run J fault file).file = file ∧ op.Unseen J file fault) ∨
    ∃ missing stop m' s, fault = .write missing stop ∧ op.Rewrites J m m' ∧
      J.toStringPretty m' = .ok s ∧
      (op.run J fault file).file = some ((utf8 s).rdrop missing)
  := by
  rcases readMap_cases (J := J) fault file with ⟨message, rfl, he⟩ | hread
  · left
    constructor
    · cases op <;> simp [Update.run, set, delete, he]
    · apply Update.unseen_of_ne (by simp)
  · rw [hm] at hread
    cases op with
    | set key value =>
        cases hv : J.toValue value with
        | error e =>
            left
            constructor
            · simp [Update.run, set, hread, hv]
            · cases fault with
              | write missing stop => exact .inl ⟨e, hv⟩
              | none | read _ | createDir _ => trivial
        | ok raw =>
            have hrun : (Update.set key value).run J fault file
                = writeMap J fault (m.insert key raw) file := by
              simp [Update.run, set, hread, hv]
            have hrew : (Update.set key value).Rewrites J m (m.insert key raw) := ⟨raw, hv, rfl⟩
            apply run_of_rewrites laws hrew (congrArg Ended.file hrun) _ hfail
            rw [hrun]
            apply id
    | delete key =>
        cases hk : (m.lookup key).isSome with
        | false =>
            apply absurd _ hfail
            use ()
            simp [Update.run, delete, hread, hk, Ended.map, Except.map]
        | true =>
            have hrun : (Update.delete key).run J fault file
                = ((writeMap J fault (m.erase key) file).map fun _ => true).map fun _ => () := by
              simp [Update.run, delete, hread, hk]
            have hrew : (Update.delete key).Rewrites J m (m.erase key) := ⟨hk, rfl⟩
            apply run_of_rewrites laws hrew _ _ hfail
            · rw [hrun, Ended.file_map, Ended.file_map]
            · rw [hrun, Ended.completed_map, Ended.completed_map]
              apply id

/-- A file with the text of a map reads as the map. -/
theorem readMap_utf8 (laws : J.Inverts) {s : Str} (hs : J.toStringPretty m = .ok s) :
  ∃ m', readMap J .none (some (utf8 s)) = .ok m' ∧ ∀ k, m'.lookup k = m.lookup k
  := by
  obtain ⟨m', hm', hlookup⟩ := laws.parses m s hs
  use m'
  refine ⟨?_, hlookup⟩
  simp only [readMap, Fs.readToString, fromUtf8_utf8, hm']
  rfl

/-- A file that has been cut cannot be read. -/
theorem readMap_rdrop (laws : J.Lawful) {s : Str} (hs : J.toStringPretty m = .ok s)
    {missing : ℕ} (hmissing : missing ≠ 0) :
  ∃ e, readMap J .none (some ((utf8 s).rdrop missing)) = .error e
  := by
  cases ht : fromUtf8 ((utf8 s).rdrop missing) with
  | none =>
      use .io "stream did not contain valid UTF-8".toList
      simp [readMap, Fs.readToString, ht]
  | some t =>
      have hutf8 := utf8_of_fromUtf8 ht
      have hprefix : t <+: s := by
        apply prefix_of_utf8_prefix
        rw [hutf8]
        apply List.take_prefix
      have hne : t ≠ s := by
        rintro rfl
        have hlength := congrArg List.length hutf8
        have hpos : utf8 t ≠ [] := by
          intro hnil
          apply laws.nonempty m
          rw [hs, utf8_injective (hnil.trans rfl : utf8 t = utf8 [])]
        have := List.length_pos_of_ne_nil hpos
        simp only [List.rdrop, List.length_take] at hlength
        omega
      obtain ⟨e, he⟩ := laws.cut m s t hs hprefix hne
      use .json e
      simp only [readMap, Fs.readToString, ht, he]
      rfl

/-- Let an update of a file that could be read not complete.  Then all later reads show the
same as before exactly when writing was not reached, or stopped behind the last octet of a
`set` of the value that the key has already. -/
theorem failed_update_unseen_iff (laws : J.Lawful) (hm : ∃ m, readMap J .none file = .ok m)
    (op : Update V) (fault : Fault) (hfail : ¬ (op.run J fault file).Completed) :
  SameReads J file (op.run J fault file).file ↔ op.Unseen J file fault
  := by
  obtain ⟨m, hm⟩ := hm
  rcases run_of_not_completed laws hm hfail with
    ⟨hfile, hunseen⟩ | ⟨missing, stop, m', s, rfl, hrew, hs, hfile⟩
  · rw [hfile]
    exact iff_of_true (SameReads.refl file) hunseen
  · rw [hfile]
    by_cases hmissing : missing = 0
    · subst hmissing
      rw [List.rdrop_zero]
      obtain ⟨m'', hm'', hlookup⟩ := readMap_utf8 laws.inverts hs
      rw [sameReads_iff hm hm'']
      simp only [hlookup]
      cases op with
      | set key value =>
          obtain ⟨raw, hraw, rfl⟩ := hrew
          have hraw' := laws.decodes value raw hraw
          constructor
          · intro same
            right
            use rfl
            rw [get_of_readMap hm, same, LawfulMap.lookup_insert, if_pos rfl, Option.map_some,
              hraw']
            rfl
          · rintro (⟨e, he⟩ | ⟨-, hsame⟩)
            · rw [hraw] at he
              cases he
            · intro k
              rw [LawfulMap.lookup_insert]
              split
              · subst_vars
                apply found_injective
                rw [← get_of_readMap hm, hsame, Option.map_some, hraw']
                rfl
              · rfl
      | delete key =>
          obtain ⟨hk, rfl⟩ := hrew
          apply iff_of_false
          · intro same
            have hkey := same key
            rw [AList.lookup_erase, Option.map_none, Option.map_eq_none_iff] at hkey
            rw [hkey] at hk
            cases hk
          · apply id
    · obtain ⟨e, he⟩ := readMap_rdrop laws hs hmissing
      apply iff_of_false
      · intro same
        have hhas := same.sameHas []
        rw [has_of_readMap hm, has, he] at hhas
        cases hhas
      · cases op with
        | set key value =>
            obtain ⟨raw, hraw, -⟩ := hrew
            rintro (⟨e, he⟩ | ⟨hzero, -⟩)
            · rw [hraw] at he
              cases he
            · apply hmissing hzero
        | delete key => apply id

/-! ### Strings -/

/-- The JSON texts of maps from strings without control characters to such strings. -/
def jsonStrings : SerdeJson Str Str where
  toStringPretty m := .ok (JsonText.text m)
  fromStr s :=
    match JsonText.parse s with
    | some m => .ok m
    | none => .error "expected an object of strings".toList
  toValue := .ok
  fromValue := .ok

theorem jsonStrings_lawful :
  jsonStrings.Lawful
  := by
  constructor
  case prints =>
    intro m
    use JsonText.text m
    rfl
  case parses =>
    intro m s hs
    obtain rfl := Except.ok.inj hs
    obtain ⟨m', hm', hlookup⟩ := JsonText.parse_text m
    use m'
    simp only [jsonStrings, hm']
    use trivial
  case nonempty =>
    intro m hm
    have hnil : JsonText.text m = [] := Except.ok.inj hm
    rw [JsonText.text, JsonText.object.eq_def] at hnil
    split at hnil <;> cases hnil
  case cut =>
    rintro m s t hs ⟨q, hq⟩ hne
    obtain rfl := Except.ok.inj hs
    have hrest : q ≠ [] := by
      rintro rfl
      apply hne
      rw [← hq, List.append_nil]
    simp only [jsonStrings, JsonText.parse_eq_none_of_append m hq hrest]
    use "expected an object of strings".toList
  case decodes =>
    rintro v x hx
    obtain rfl := Except.ok.inj hx
    rfl

/-- A file with one entry. -/
def entryFile : File :=
  some (utf8 (JsonText.text ((∅ : JsonText.Strings).insert "k".toList "v".toList)))

theorem failed_update_unseen_iff_crash :
  SameReads jsonStrings entryFile
      ((Update.set "l".toList "w".toList).run jsonStrings (.write 1 .crash) entryFile).file ↔
    (Update.set "l".toList "w".toList).Unseen jsonStrings entryFile (.write 1 .crash)
  := by
  apply failed_update_unseen_iff jsonStrings_lawful
  · exact ⟨_, rfl⟩
  · rintro ⟨a, ha⟩
    cases ha

/-- An update of one key that stops before the last octet hides another. -/
theorem not_failed_update_unseen :
  ¬ ∀ (file : File) (op : Update Str) (fault : Fault),
    (∃ m, readMap jsonStrings .none file = .ok m) →
    ¬ (op.run jsonStrings fault file).Completed →
    SameReads jsonStrings file (op.run jsonStrings fault file).file
  := by
  intro h
  have crashed : ¬ ((Update.set "l".toList "w".toList).run jsonStrings (.write 1 .crash)
      entryFile).Completed := by
    rintro ⟨a, ha⟩
    cases ha
  have same := h entryFile (.set "l".toList "w".toList) (.write 1 .crash) ⟨_, rfl⟩ crashed
  have hhas := same.sameHas "k".toList
  cases hhas

end JsonFileStorage

end Storage
