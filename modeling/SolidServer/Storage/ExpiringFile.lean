import SolidServer.HttpTypes.Metadata
import SolidServer.Library.Moments
import SolidServer.Storage.Backends
import SolidServer.Storage.Reference

/-!
# Expiring storage in a file

`WrappedExpiringStorage` over a `JsonFileStorage`: entries are kept in the file as objects with
the second they expire at and the payload.  Nothing but the file is kept between operations, so
a restart of the server changes nothing.  When operations are executed one at a time, and files
cannot be read now and then, or directories not be made, every operation either fails and
changes nothing, or answers as the reference map does to which the operations that did not fail
were applied.  Only a deletion may tell or not tell of an entry that is no longer shown, as it
may have been evicted.
-/

open Text Atomic Serde HttpTypes

namespace Storage

/-! ### The format -/

namespace ExpiresWrapper

/-- The field of the second at which the entry expires. -/
def expiresField : RecordField (Option UInt64) :=
  .optional "expires" .u64

/-- The field of the stored value. -/
def payloadField : RecordField Str :=
  .required "payload" .string

/-- What is written of an envelope. -/
def written (wrapper : ExpiresWrapper) : List (Str × Option Json) := [
  expiresField.write (wrapper.expires.map UInt64.ofNat),
  payloadField.write wrapper.payload]

/-- The derived serialization of envelopes. -/
def serde : Serde ExpiresWrapper where
  serialize wrapper := record wrapper.written
  deserialize j := do
    let ms ← members j
    return {
      expires := (← expiresField.read ms).map UInt64.toNat
      payload := ← payloadField.read ms }

/-- The second at which the entry expires is a number of 64 bits. -/
def Fits (wrapper : ExpiresWrapper) : Prop :=
  ∀ exp ∈ wrapper.expires, exp < UInt64.size

theorem fits_none (v : Str) :
  (new v none).Fits
  := by
  rintro exp ⟨⟩

/-- An envelope is read back. -/
theorem deserialize_serialize {wrapper : ExpiresWrapper} (h : wrapper.Fits) :
  serde.deserialize (serde.serialize wrapper) = some wrapper
  := by
  have names : (wrapper.written.map Prod.fst).Nodup := by
    change [expiresField.name, payloadField.name].Nodup
    decide
  have expires : expiresField.read (present wrapper.written)
      = some (wrapper.expires.map UInt64.ofNat) :=
    (RecordField.optional_exact _ u64_exact nofun).read_present names (by simp [written,
      expiresField])
  have payload : payloadField.read (present wrapper.written) = some wrapper.payload :=
    (RecordField.required_exact _ string_exact).read_present names (by simp [written,
      payloadField])
  simp only [serde, members_record, Option.bind_eq_bind, Option.bind_some, expires, payload]
  obtain ⟨_ | exp, payload⟩ := wrapper
  · rfl
  · have hexp : exp < UInt64.size := h exp rfl
    simp [UInt64.toNat_ofNat_of_lt' hexp]

/-- An envelope is an object of a number and a string. -/
theorem serde_within :
  serde.Within 1
  := by
  intro wrapper
  apply depth_record
  rw [written]
  simp only [List.forall_mem_cons]
  refine ⟨?expires, ?payload, List.forall_mem_nil _⟩
  case expires => exact RecordField.write_within u64_within.option _
  case payload => exact RecordField.write_within string_within _

end ExpiresWrapper

namespace JsonFileStorage

/-- The texts of files with envelopes, by the functions of the crate, whose messages are left
out. -/
def envelopes (J : JsonCrate) : SerdeJson Json ExpiresWrapper where
  toStringPretty m :=
    match J.toString (.object (LawfulMap.ofAList.entries m)) with
    | some s => .ok s
    | none => .error []
  fromStr s :=
    match J.fromStr s with
    | some (.object ms) => .ok (ms.foldl (fun m e => m.insert e.1 e.2) ∅)
    | _ => .error []
  toValue wrapper := .ok (ExpiresWrapper.serde.serialize wrapper)
  fromValue j :=
    match ExpiresWrapper.serde.deserialize j with
    | some wrapper => .ok wrapper
    | none => .error []

/-- The values are nested no deeper than the crate reads them inside an object. -/
def Shallow (m : Contents Json) : Prop :=
  ∀ k j, m.lookup k = some j → j.depth < 127

variable {J : JsonCrate}

theorem envelopes_restores (laws : J.Lawful) {m : Contents Json} (hm : Shallow m) :
  ∃ s m', (envelopes J).toStringPretty m = .ok s ∧ (envelopes J).fromStr s = .ok m' ∧
    ∀ k, m'.lookup k = m.lookup k
  := by
  have depth : (Json.object (LawfulMap.ofAList.entries m)).depth < 128 := by
    apply Nat.lt_succ_of_le
    apply Nat.succ_le_succ
    apply Json.depthMembers_le
    rintro ⟨k, j⟩ he
    apply Nat.le_of_lt_succ (hm k j ((LawfulMap.ofAList.mem_entries m k j).mp he))
  obtain ⟨s, hs, hs'⟩ := laws _ depth
  refine ⟨s, (LawfulMap.ofAList.entries m).foldl (fun m e => m.insert e.1 e.2) ∅, ?_, ?_, ?_⟩
  · simp only [envelopes, hs]
  · simp only [envelopes, hs']
  · intro k
    apply Option.ext
    intro j
    rw [HashMap.lookup_foldl_insert ∅ (LawfulMap.ofAList.nodup_entries m),
      LawfulMap.ofAList.mem_entries]
    simp [LawfulMap.ofAList]

/-! ### Files with envelopes -/

/-- The entries of a source. -/
abbrev Envelopes := AList fun _ : Str => ExpiresWrapper

variable (J) in
/-- The file reads as a map whose JSON values decode to the entries. -/
def Stores (file : File) (s : Envelopes) : Prop :=
  ∃ m, readMap (envelopes J) .none file = .ok m ∧ Shallow m ∧
    ∀ k, (m.lookup k).map (envelopes J).fromValue = (s.lookup k).map .ok

theorem Stores.missing :
  Stores J none ∅
  := ⟨∅, rfl, nofun, fun _ => rfl⟩

variable {file : File} {s : Envelopes}

theorem Stores.inStep (h : Stores J file s) :
  InStep (envelopes J) file ⟨s⟩
  := by
  obtain ⟨m, hm, -, hlookup⟩ := h
  exact ⟨m, hm, hlookup⟩

/-- A map is written and read back, unless the directory cannot be made. -/
theorem writeMap_stores (laws : J.Lawful) (file : File) {fault : Fault}
    (hfault : ∀ missing stop, fault ≠ .write missing stop) {m : Contents Json} (hm : Shallow m)
    (hlookup : ∀ k, (m.lookup k).map (envelopes J).fromValue = (s.lookup k).map .ok) :
  (∃ message, fault ≠ .none ∧
      writeMap (envelopes J) fault m file = ⟨some (.error (.io message)), file⟩) ∨
    ∃ file', writeMap (envelopes J) fault m file = ⟨some (.ok ()), file'⟩ ∧ Stores J file' s
  := by
  obtain ⟨text, m', htext, hm', hsame⟩ := envelopes_restores laws hm
  have stored : Stores J (some (utf8 text)) s := by
    refine ⟨m', ?_, ?_, ?_⟩
    · simp only [readMap, Fs.readToString, fromUtf8_utf8, hm']
      rfl
    · intro k j hj
      rw [hsame] at hj
      apply hm k j hj
    · intro k
      rw [hsame, hlookup]
  cases fault with
  | createDir message => exact .inl ⟨message, by simp, rfl⟩
  | write missing stop => exact absurd rfl (hfault missing stop)
  | none | read _ =>
      right
      refine ⟨some (utf8 text), ?_, stored⟩
      simp [writeMap, Fs.createDirAll, htext, Fs.write]

theorem Stores.set (laws : J.Lawful) (h : Stores J file s) {fault : Fault}
    (hfault : ∀ missing stop, fault ≠ .write missing stop) (key : Str) {wrapper : ExpiresWrapper}
    (hfits : wrapper.Fits) :
  (∃ message, fault ≠ .none ∧
      JsonFileStorage.set (envelopes J) fault key wrapper file
        = ⟨some (.error (.io message)), file⟩) ∨
    ∃ file', JsonFileStorage.set (envelopes J) fault key wrapper file = ⟨some (.ok ()), file'⟩ ∧
      Stores J file' (s.insert key wrapper)
  := by
  obtain ⟨m, hm, hshallow, hlookup⟩ := h
  rcases readMap_cases (J := envelopes J) fault file with ⟨message, rfl, hread⟩ | hread
  · left
    refine ⟨message, nofun, ?_⟩
    simp only [JsonFileStorage.set, hread]
  · rw [hm] at hread
    simp only [JsonFileStorage.set, hread]
    apply writeMap_stores laws _ hfault
    · intro k j hj
      rw [LawfulMap.lookup_insert] at hj
      split at hj
      · obtain rfl := Option.some.inj hj
        apply (ExpiresWrapper.serde_within wrapper).trans_lt (by omega)
      · apply hshallow k j hj
    · intro k
      rw [LawfulMap.lookup_insert, LawfulMap.lookup_insert]
      split
      · simp only [Option.map_some, envelopes, ExpiresWrapper.deserialize_serialize hfits]
      · apply hlookup k

theorem Stores.delete (laws : J.Lawful) (h : Stores J file s) {fault : Fault}
    (hfault : ∀ missing stop, fault ≠ .write missing stop) (key : Str) :
  (∃ message, fault ≠ .none ∧
      JsonFileStorage.delete (envelopes J) fault key file
        = ⟨some (.error (.io message)), file⟩) ∨
    ∃ file', JsonFileStorage.delete (envelopes J) fault key file
        = ⟨some (.ok (s.lookup key).isSome), file'⟩ ∧
      Stores J file' (s.erase key)
  := by
  have stores := h
  obtain ⟨m, hm, hshallow, hlookup⟩ := h
  have hsome : (m.lookup key).isSome = (s.lookup key).isSome := by
    rw [← Option.isSome_map (f := (envelopes J).fromValue), hlookup, Option.isSome_map]
  rcases readMap_cases (J := envelopes J) fault file with ⟨message, rfl, hread⟩ | hread
  · left
    refine ⟨message, nofun, ?_⟩
    simp only [JsonFileStorage.delete, hread]
  · rw [hm] at hread
    simp only [JsonFileStorage.delete, hread]
    cases hkey : (m.lookup key).isSome with
    | true =>
        have erased : ∀ k, ((m.erase key).lookup k).map (envelopes J).fromValue
            = ((s.erase key).lookup k).map .ok := by
          intro k
          rw [LawfulMap.lookup_erase, LawfulMap.lookup_erase]
          split
          · rfl
          · apply hlookup k
        have shallow : Shallow (m.erase key) := by
          intro k j hj
          rw [LawfulMap.lookup_erase] at hj
          split at hj
          · cases hj
          · apply hshallow k j hj
        rw [← hsome, hkey]
        rcases writeMap_stores laws file hfault shallow erased with
          ⟨message, hne, hwrite⟩ | ⟨file', hwrite, hstores⟩
        · left
          refine ⟨message, hne, ?_⟩
          simp only [if_true, hwrite, Ended.map, Option.map_some, Except.map]
        · right
          refine ⟨file', ?_, hstores⟩
          simp only [if_true, hwrite, Ended.map, Option.map_some, Except.map]
    | false =>
        right
        refine ⟨file, ?_, ?_⟩
        · rw [← hsome, hkey]
          rfl
        · rw [HashMap.erase_of_notMem]
          · apply stores
          · rw [← AList.lookup_eq_none, ← Option.isNone_iff_eq_none, ← Option.isSome_eq_false_iff,
              ← hsome, hkey]

end JsonFileStorage

/-! ### Commands -/

/-- The effect of a command on the file, unless the server crashes in it. -/
def SourceCmd.execFile (J : JsonCrate) (fault : Fault) :
    (c : SourceCmd) → World File → Option (c.Answer × World File)
  | .get k, w => some (JsonFileStorage.get (JsonFileStorage.envelopes J) fault k w.source, w)
  | .set k v, w =>
      let e := JsonFileStorage.set (JsonFileStorage.envelopes J) fault k v w.source
      e.result.map fun r => (r, { w with source := e.file })
  | .delete k, w =>
      let e := JsonFileStorage.delete (JsonFileStorage.envelopes J) fault k w.source
      e.result.map fun r => (r, { w with source := e.file })
  | .entries, w =>
      some (JsonFileStorage.entries (JsonFileStorage.envelopes J) fault w.source, w)
  | .now, w => some (w.clock, w)

/-- The answer is an error of the file system. -/
def SourceCmd.Fails : (c : SourceCmd) → c.Answer → Prop
  | .get _, r | .set _ _, r | .delete _, r | .entries, r => ∃ message, r = .error (.io message)
  | .now, _ => False

/-- What a command is answered with by a source with the entries `s` at the time `t`, and the
entries that it leaves. -/
def SourceCmd.Replies (s : JsonFileStorage.Envelopes) (t : SystemTime) :
    (c : SourceCmd) → c.Answer → JsonFileStorage.Envelopes → Prop
  | .get k, r, s' => r = .ok (s.lookup k) ∧ s' = s
  | .set k v, r, s' => r = .ok () ∧ s' = s.insert k v
  | .delete k, r, s' => r = .ok (s.lookup k).isSome ∧ s' = s.erase k
  | .entries, r, s' => (∃ l, r = .ok l ∧ l.Perm (LawfulMap.ofAList.entries s)) ∧ s' = s
  | .now, r, s' => r = t ∧ s' = s

section

open JsonFileStorage

variable {J : JsonCrate} {s : Envelopes} {t : SystemTime}

variable (J s t) in
/-- The file has the entries, and it is the time `t`. -/
def Has (w : World File) : Prop :=
  Stores J w.source s ∧ w.clock = t

/-- Unless a write is stopped, a command fails because of a fault and changes nothing, or does
what it is for. -/
theorem execFile_cases (laws : J.Lawful) {w : World File} (h : Has J s t w) {fault : Fault}
    (hfault : ∀ missing stop, fault ≠ .write missing stop) (c : SourceCmd)
    (hfits : ∀ k v, c = .set k v → v.Fits) :
  ∃ r w', c.execFile J fault w = some (r, w') ∧
    ((c.Fails r ∧ fault ≠ .none ∧ w' = w) ∨ ∃ s', Has J s' t w' ∧ c.Replies s t r s')
  := by
  obtain ⟨hstores, hclock⟩ := h
  have reads : ∀ {α : Type} (f : Contents Json → Except StorageError α),
      (∃ message, fault ≠ .none ∧
        (readMap (envelopes J) fault w.source >>= f) = .error (.io message)) ∨
      (readMap (envelopes J) fault w.source >>= f)
        = (readMap (envelopes J) .none w.source >>= f) := by
    intro α f
    rcases readMap_cases (J := envelopes J) fault w.source with ⟨message, rfl, hread⟩ | hread
    · exact .inl ⟨message, nofun, by rw [hread]; rfl⟩
    · exact .inr (by rw [hread])
  cases c with
  | get k =>
      refine ⟨_, _, rfl, ?_⟩
      rcases reads _ with ⟨message, hne, hget⟩ | hget
      · exact .inl ⟨⟨message, hget⟩, hne, rfl⟩
      · exact .inr ⟨s, ⟨hstores, hclock⟩, hget.trans (hstores.inStep.get_eq k), rfl⟩
  | set k v =>
      rcases hstores.set laws hfault k (hfits k v rfl) with
        ⟨message, hne, hset⟩ | ⟨file', hset, hstores'⟩
      · refine ⟨_, _, by rw [SourceCmd.execFile, hset]; rfl, ?_⟩
        exact .inl ⟨⟨message, rfl⟩, hne, rfl⟩
      · refine ⟨_, _, by rw [SourceCmd.execFile, hset]; rfl, ?_⟩
        exact .inr ⟨_, ⟨hstores', hclock⟩, rfl, rfl⟩
  | delete k =>
      rcases hstores.delete laws hfault k with ⟨message, hne, hdelete⟩ | ⟨file', hdelete, hstores'⟩
      · refine ⟨_, _, by rw [SourceCmd.execFile, hdelete]; rfl, ?_⟩
        exact .inl ⟨⟨message, rfl⟩, hne, rfl⟩
      · refine ⟨_, _, by rw [SourceCmd.execFile, hdelete]; rfl, ?_⟩
        exact .inr ⟨_, ⟨hstores', hclock⟩, rfl, rfl⟩
  | entries =>
      refine ⟨_, _, rfl, ?_⟩
      rcases reads _ with ⟨message, hne, hentries⟩ | hentries
      · exact .inl ⟨⟨message, hentries⟩, hne, rfl⟩
      · obtain ⟨l, hl, hperm⟩ := hstores.inStep.entries_perm
        exact .inr ⟨s, ⟨hstores, hclock⟩, ⟨l, hentries.trans hl, hperm⟩, rfl⟩
  | now => exact ⟨_, _, rfl, .inr ⟨s, ⟨hstores, hclock⟩, hclock, rfl⟩⟩

/-! ### What the programs ensure -/

variable {faults : SourceCmd → Fault}

variable (J faults) in
/-- What a program ensures that is run alone from `w` on, where the faults come with the
commands. -/
abbrev Performs {α : Type} (p : SourceProg α) (w : World File)
    (post : α → World File → Prop) : Prop :=
  p.Ensures Eq (fun c r w w' => c.execFile J (faults c) w = some (r, w')) w post

/-- No write is stopped. -/
def Harmless (faults : SourceCmd → Fault) : Prop :=
  ∀ c missing stop, faults c ≠ .write missing stop

/-- A command either fails, because of a fault, or does what it is for. -/
theorem replies_of_execFile (laws : J.Lawful) (harmless : Harmless faults) {w w' : World File}
    (h : Has J s t w) {c : SourceCmd} {r : c.Answer}
    (hexec : c.execFile J (faults c) w = some (r, w')) (hfits : ∀ k v, c = .set k v → v.Fits) :
  (c.Fails r ∧ (∃ c, faults c ≠ .none) ∧ Has J s t w') ∨ ∃ s', Has J s' t w' ∧ c.Replies s t r s'
  := by
  obtain ⟨r', w'', hexec', hcases⟩ := execFile_cases laws h (harmless c) c hfits
  obtain ⟨rfl, rfl⟩ := Prod.mk.inj (Option.some.inj (hexec.symm.trans hexec'))
  rcases hcases with ⟨hfails, hne, rfl⟩ | hreplies
  · exact .inl ⟨hfails, ⟨c, hne⟩, h⟩
  · exact .inr hreplies

theorem evicted_refl (s : Envelopes) :
  Evicted LawfulMap.ofAList s t s
  := fun _ => .inl rfl

/-- An entry that has expired is evicted before others. -/
theorem evicted_of_erase {k : Str} {s' : Envelopes}
    (hk : ∀ v, s.lookup k = some v → v.expiredAt t = true)
    (h : Evicted LawfulMap.ofAList (s.erase k) t s') :
  Evicted LawfulMap.ofAList s t s'
  := by
  intro k'
  have erased : LawfulMap.ofAList.get (s.erase k) k' = if k' = k then none else s.lookup k' :=
    LawfulMap.lookup_erase s k k'
  have hk' := h k'
  rw [erased] at hk'
  by_cases heq : k' = k
  · subst heq
    simp only [if_true, reduceCtorEq, false_and, exists_false, and_false, or_false] at hk'
    cases hs : s.lookup k' with
    | none => exact .inl (hk'.trans hs.symm)
    | some v => exact .inr ⟨hk', v, hs, hk v hs⟩
  · rw [if_neg heq] at hk'
    apply hk'

variable {w : World File}

theorem performs_isExpired (laws : J.Lawful) (harmless : Harmless faults) (h : Has J s t w)
    (wrapper : ExpiresWrapper) :
  Performs J faults wrapper.isExpired w fun b w' => b = wrapper.expiredAt t ∧ Has J s t w'
  := by
  obtain ⟨_ | exp, payload⟩ := wrapper
  · exact ⟨rfl, h⟩
  · rintro _ r w' rfl hexec
    rcases replies_of_execFile laws harmless h hexec nofun with
      ⟨hfails, -⟩ | ⟨s', hhas, rfl, rfl⟩
    · cases hfails
    · exact ⟨rfl, hhas⟩

theorem performs_filterLive (laws : J.Lawful) (harmless : Harmless faults) (h : Has J s t w)
    (l : List (Str × ExpiresWrapper)) :
  Performs J faults (WrappedExpiringStorage.filterLive l) w fun live w' =>
    live = ((l.filter fun e => !e.2.expiredAt t).map fun e => (e.1, e.2.payload)) ∧ Has J s t w'
  := by
  induction l generalizing w with
  | nil => exact ⟨rfl, h⟩
  | cons e l ih =>
      obtain ⟨k, v⟩ := e
      apply (performs_isExpired laws harmless h v).bind
      rintro b w' ⟨rfl, h'⟩
      cases hv : v.expiredAt t with
      | true =>
          apply (ih h').mono
          rintro live w'' ⟨rfl, h''⟩
          exact ⟨by simp [hv], h''⟩
      | false =>
          apply (ih h').bind
          rintro live w'' ⟨rfl, h''⟩
          exact ⟨by simp [hv], h''⟩

theorem performs_collectExpired (laws : J.Lawful) (harmless : Harmless faults) (h : Has J s t w)
    (l : List (Str × ExpiresWrapper)) :
  Performs J faults (WrappedExpiringStorage.collectExpired l) w fun expired w' =>
    expired = (l.filter fun e => e.2.expiredAt t).map Prod.fst ∧ Has J s t w'
  := by
  induction l generalizing w with
  | nil => exact ⟨rfl, h⟩
  | cons e l ih =>
      obtain ⟨k, v⟩ := e
      apply (performs_isExpired laws harmless h v).bind
      rintro b w' ⟨rfl, h'⟩
      cases hv : v.expiredAt t with
      | true =>
          apply (ih h').bind
          rintro expired w'' ⟨rfl, h''⟩
          exact ⟨by simp [hv], h''⟩
      | false =>
          apply (ih h').mono
          rintro expired w'' ⟨rfl, h''⟩
          exact ⟨by simp [hv], h''⟩

/-- Keys that have expired may be deleted or not. -/
theorem performs_deleteAll (laws : J.Lawful) (harmless : Harmless faults) (h : Has J s t w)
    {ks : List Str} (hks : ∀ k ∈ ks, ∀ v, s.lookup k = some v → v.expiredAt t = true) :
  Performs J faults (WrappedExpiringStorage.deleteAll ks) w fun _ w' =>
    ∃ s', Has J s' t w' ∧ Evicted LawfulMap.ofAList s t s'
  := by
  induction ks generalizing s w with
  | nil => exact ⟨s, h, evicted_refl s⟩
  | cons k ks ih =>
      rintro _ r w' rfl hexec
      have rest : ∀ k ∈ ks, ∀ v, s.lookup k = some v → v.expiredAt t = true :=
        fun k hk => hks k (List.mem_cons_of_mem _ hk)
      rcases replies_of_execFile laws harmless h hexec nofun with
        ⟨-, -, hsame⟩ | ⟨s', hhas, -, rfl⟩
      · apply ih hsame rest
      · have erased : ∀ k' ∈ ks, ∀ v, (s.erase k).lookup k' = some v → v.expiredAt t = true := by
          intro k' hk' v hv
          rw [LawfulMap.lookup_erase] at hv
          split at hv
          · cases hv
          · apply rest k' hk' v hv
        apply (ih hhas erased).mono
        rintro _ w'' ⟨s'', hhas', hevicted⟩
        exact ⟨s'', hhas', evicted_of_erase (hks k List.mem_cons_self) hevicted⟩

theorem performs_get (laws : J.Lawful) (harmless : Harmless faults) (h : Has J s t w) (k : Str) :
  Performs J faults (WrappedExpiringStorage.get k) w fun r w' =>
    ((∃ message, r = .error (.io message)) ∧ (∃ c, faults c ≠ .none) ∧ Has J s t w') ∨
      (r = .ok (liveValue LawfulMap.ofAList s t k) ∧
        ∃ s', Has J s' t w' ∧ Evicted LawfulMap.ofAList s t s')
  := by
  rintro _ r w₁ rfl hexec
  rcases replies_of_execFile laws harmless h hexec nofun with
    ⟨⟨message, rfl⟩, hfault, hsame⟩ | ⟨s', hhas, rfl, rfl⟩
  · exact .inl ⟨⟨message, rfl⟩, hfault, hsame⟩
  · have value : liveValue LawfulMap.ofAList s' t k = (s'.lookup k).bind fun v =>
        if v.expiredAt t then none else some v.payload := rfl
    rw [value]
    cases hv : s'.lookup k with
    | none => exact .inr ⟨rfl, s', hhas, evicted_refl s'⟩
    | some v =>
        apply (performs_isExpired laws harmless hhas v).bind
        rintro b w₂ ⟨rfl, h₂⟩
        rw [Option.bind_some]
        cases hexp : v.expiredAt t with
        | false => exact .inr ⟨rfl, s', h₂, evicted_refl s'⟩
        | true =>
            -- whether the eviction works does not matter
            rintro _ r w₃ rfl hexec'
            have expired : ∀ v, s'.lookup k = some v → v.expiredAt t = true := by
              intro v' hv'
              obtain rfl := Option.some.inj (hv.symm.trans hv')
              apply hexp
            rcases replies_of_execFile laws harmless h₂ hexec' nofun with
              ⟨-, -, hsame⟩ | ⟨s'', hhas', -, rfl⟩
            · exact .inr ⟨rfl, s', hsame, evicted_refl s'⟩
            · exact .inr ⟨rfl, _, hhas', evicted_of_erase expired (evicted_refl _)⟩

theorem performs_entries (laws : J.Lawful) (harmless : Harmless faults) (h : Has J s t w) :
  Performs J faults WrappedExpiringStorage.entries w fun r w' =>
    ((∃ message, r = .error (.io message)) ∧ (∃ c, faults c ≠ .none) ∧ Has J s t w') ∨
      (∃ l, r = .ok l ∧ (l.map Prod.fst).Nodup ∧
        (∀ k v, (k, v) ∈ l ↔ liveValue LawfulMap.ofAList s t k = some v) ∧ Has J s t w')
  := by
  rintro _ r w₁ rfl hexec
  rcases replies_of_execFile laws harmless h hexec nofun with
    ⟨⟨message, rfl⟩, hfault, hsame⟩ | ⟨s', hhas, ⟨l, rfl, hperm⟩, rfl⟩
  · exact .inl ⟨⟨message, rfl⟩, hfault, hsame⟩
  · apply (performs_filterLive laws harmless hhas l).bind
    rintro live w₂ ⟨rfl, h₂⟩
    refine .inr ⟨_, rfl, ?_, ?_, h₂⟩
    · rw [List.map_map]
      apply List.Nodup.sublist (List.filter_sublist.map Prod.fst)
      apply (hperm.map Prod.fst).nodup_iff.mpr (LawfulMap.ofAList.nodup_entries s')
    · intro k v
      have mem : ∀ x, (k, x) ∈ l ↔ LawfulMap.ofAList.get s' k = some x := fun x =>
        hperm.mem_iff.trans (LawfulMap.ofAList.mem_entries s' k x)
      rw [liveValue, Option.bind_eq_some_iff]
      simp only [List.mem_map, List.mem_filter, Prod.mk.injEq, Prod.exists, ← mem]
      constructor
      · rintro ⟨_, x, ⟨hx, hlive⟩, rfl, rfl⟩
        refine ⟨x, hx, ?_⟩
        rw [if_neg (by simpa using hlive)]
      · rintro ⟨x, hx, hv⟩
        obtain ⟨hlive, hpayload⟩ := Option.ite_none_left_eq_some.mp hv
        exact ⟨k, x, ⟨hx, by simpa using hlive⟩, rfl, Option.some.inj hpayload⟩

theorem performs_sweep (laws : J.Lawful) (harmless : Harmless faults) (h : Has J s t w) :
  Performs J faults WrappedExpiringStorage.sweep w fun _ w' =>
    ∃ s', Has J s' t w' ∧ Evicted LawfulMap.ofAList s t s'
  := by
  rintro _ r w₁ rfl hexec
  rcases replies_of_execFile laws harmless h hexec nofun with
    ⟨⟨message, rfl⟩, -, hsame⟩ | ⟨s', hhas, ⟨l, rfl, hperm⟩, rfl⟩
  · exact ⟨s, hsame, evicted_refl s⟩
  · apply (performs_collectExpired laws harmless hhas l).bind
    rintro ks w₂ ⟨rfl, h₂⟩
    apply performs_deleteAll laws harmless h₂
    intro k hk v hv
    obtain ⟨⟨k', x⟩, hx, rfl⟩ := List.mem_map.mp hk
    obtain ⟨hmem, hexp⟩ := List.mem_filter.mp hx
    have hlookup : s'.lookup k' = some x :=
      (LawfulMap.ofAList.mem_entries s' k' x).mp (hperm.mem_iff.mp hmem)
    obtain rfl := Option.some.inj (hlookup.symm.trans hv)
    apply hexp

/-- An operation failed because of the file system. -/
def ExpiringVal.failed : ExpiringVal → Bool
  | .found (.error (.io _)) | .has (.error (.io _)) | .stored (.error (.io _))
  | .deleted (.error (.io _)) | .listed (.error (.io _)) => true
  | _ => false

/-- A deadline is a number of 64 bits in seconds. -/
def ExpiringOp.Fits : ExpiringOp → Prop
  | .setExpiring _ _ (some t) => asSecs t < UInt64.size
  | _ => True

/-- What an operation returns according to the reference map; a deletion tells of every entry that
is shown, and of no entry that the reference map does not have. -/
structure Reference.Allows (ref : Reference) (now : SystemTime) (op : ExpiringOp)
    (val : ExpiringVal) : Prop where
  answers : ref.Answers now op val
  deleted : ∀ k, op = .delete k → ∃ existed, val = .deleted (.ok existed) ∧
    (existed = true → (ref k).isSome) ∧ (existed = false → ref.visible now k = none)

/-- What the reference map answers is all that is known of an operation other than a deletion. -/
theorem Reference.Allows.of_answers {ref : Reference} {now : SystemTime} {op : ExpiringOp}
    {val : ExpiringVal} (h : ref.Answers now op val) (hop : ∀ k, op ≠ .delete k) :
  ref.Allows now op val
  := ⟨h, fun k hk => absurd hk (hop k)⟩

/-- A deletion tells whether there was an entry, shown or not. -/
theorem Simulates.allows_delete {ref : Reference} (h : Simulates LawfulMap.ofAList t s ref)
    (k : Str) :
  ref.Allows t (.delete k) (.deleted (.ok (s.lookup k).isSome))
  := by
  constructor
  case answers => trivial
  case deleted =>
    rintro _ ⟨⟩
    refine ⟨_, rfl, ?_⟩
    rcases h k with hk | ⟨hk, hv⟩
    · have same : s.lookup k = (ref k).map Reference.wrap := hk
      rw [same, Option.isSome_map]
      refine ⟨id, ?_⟩
      intro hsome
      have absent : ref k = none := by
        rwa [Option.isSome_eq_false_iff, Option.isNone_iff_eq_none] at hsome
      rw [Reference.visible, absent]
      rfl
    · have gone : s.lookup k = none := hk
      rw [gone]
      exact ⟨fun hsome => absurd hsome Bool.false_ne_true, fun _ => hv⟩

variable (J s t faults) in
/-- An operation failed because of a fault and has changed nothing, or it answers as the
reference map does and has changed what that changes. -/
def Explains (op : ExpiringOp) (val : ExpiringVal) (w : World File) : Prop :=
  (val.failed = true ∧ (∃ c, faults c ≠ .none) ∧ Has J s t w) ∨
    (val.failed = false ∧ ∀ ref, Simulates LawfulMap.ofAList t s ref →
      ref.Allows t op val ∧
        ∃ s', Has J s' t w ∧ Simulates LawfulMap.ofAList t s' (ref.step t op))

theorem performs_set (laws : J.Lawful) (harmless : Harmless faults) (h : Has J s t w)
    (op : ExpiringOp) (k v : Str) (deadline : Option SystemTime)
    (hstep : ∀ ref : Reference, ref.step t op = Function.update ref k (some (v, deadline)))
    (hanswer : ∀ ref : Reference, ref.Allows t op (.stored (.ok ())))
    (hfits : (ExpiresWrapper.new v deadline).Fits) :
  Performs J faults (do
      return .stored (← Prog.call (SourceCmd.set k (ExpiresWrapper.new v deadline)))) w
    (Explains J s t faults op)
  := by
  rintro _ r w' rfl hexec
  have fits : ∀ k' v', SourceCmd.set k (ExpiresWrapper.new v deadline) = .set k' v' →
      v'.Fits := by
    rintro k' v' ⟨⟩
    apply hfits
  rcases replies_of_execFile laws harmless h hexec fits with
    ⟨⟨message, rfl⟩, hfault, hsame⟩ | ⟨s', hhas, rfl, rfl⟩
  · exact .inl ⟨rfl, hfault, hsame⟩
  · right
    use rfl
    intro ref hsim
    refine ⟨hanswer ref, _, hhas, ?_⟩
    rw [hstep]
    apply hsim.set k (v, deadline)

/-- What every operation ensures. -/
theorem performs_impl (laws : J.Lawful) (harmless : Harmless faults) (h : Has J s t w)
    (op : ExpiringOp) (hfits : op.Fits) :
  Performs J faults op.impl w (Explains J s t faults op)
  := by
  cases op with
  | get k =>
      apply (performs_get laws harmless h k).bind
      rintro r w' (⟨⟨message, rfl⟩, hfault, hsame⟩ | ⟨rfl, s', hhas, hevicted⟩)
      · exact .inl ⟨rfl, hfault, hsame⟩
      · right
        use rfl
        intro ref hsim
        have answers : ref.Answers t (.get k) (.found (.ok (liveValue LawfulMap.ofAList s t k))) :=
          congrArg (fun v => ExpiringVal.found (.ok v)) (hsim.liveValue_eq k)
        exact ⟨.of_answers answers (by simp), s', hhas, hsim.evicted hevicted⟩
  | has k =>
      have has : Performs J faults (WrappedExpiringStorage.has k) w fun r w' =>
          ((∃ message, r = .error (.io message)) ∧ (∃ c, faults c ≠ .none) ∧ Has J s t w') ∨
            (r = .ok (liveValue LawfulMap.ofAList s t k).isSome ∧
              ∃ s', Has J s' t w' ∧ Evicted LawfulMap.ofAList s t s') := by
        apply (performs_get laws harmless h k).bind
        rintro r w' (⟨⟨message, rfl⟩, rest⟩ | ⟨rfl, rest⟩)
        · exact .inl ⟨⟨message, rfl⟩, rest⟩
        · exact .inr ⟨rfl, rest⟩
      apply has.bind
      rintro r w' (⟨⟨message, rfl⟩, hfault, hsame⟩ | ⟨rfl, s', hhas, hevicted⟩)
      · exact .inl ⟨rfl, hfault, hsame⟩
      · right
        use rfl
        intro ref hsim
        have answers : ref.Answers t (.has k)
            (.has (.ok (liveValue LawfulMap.ofAList s t k).isSome)) :=
          congrArg (fun v : Option Str => ExpiringVal.has (.ok v.isSome)) (hsim.liveValue_eq k)
        exact ⟨.of_answers answers (by simp), s', hhas, hsim.evicted hevicted⟩
  | set k v =>
      exact performs_set laws harmless h _ k v none (fun _ => rfl)
        (fun _ => .of_answers rfl (by simp)) (ExpiresWrapper.fits_none v)
  | setExpiring k v deadline =>
      cases deadline with
      | none =>
          exact performs_set laws harmless h _ k v none (fun _ => rfl)
            (fun _ => .of_answers rfl (by simp)) (ExpiresWrapper.fits_none v)
      | some deadline =>
          rw [ExpiringOp.impl, WrappedExpiringStorage.setExpiring_some, Prog.act_bind]
          rintro _ now w₁ rfl hexec
          rcases replies_of_execFile laws harmless h hexec (by simp) with
            ⟨hfails, -⟩ | ⟨s', hhas, rfl, rfl⟩
          · cases hfails
          · dsimp only
            split
            · right
              use rfl
              intro ref hsim
              rw [Reference.step, if_pos ‹_›]
              refine ⟨.of_answers ?_ (by simp), s', hhas, hsim⟩
              rw [Reference.Answers, if_pos ‹_›]
            · apply performs_set laws harmless hhas _ k v (some deadline)
              · intro ref
                rw [Reference.step, if_neg ‹_›]
              · intro ref
                apply Reference.Allows.of_answers _ (by simp)
                rw [Reference.Answers, if_neg ‹_›]
              · rintro exp ⟨⟩
                apply hfits
  | delete k =>
      rintro _ r w' rfl hexec
      rcases replies_of_execFile laws harmless h hexec (by simp) with
        ⟨⟨message, rfl⟩, hfault, hsame⟩ | ⟨s', hhas, rfl, rfl⟩
      · exact .inl ⟨rfl, hfault, hsame⟩
      · right
        use rfl
        intro ref hsim
        exact ⟨hsim.allows_delete k, _, hhas, hsim.delete k⟩
  | entries =>
      apply (performs_entries laws harmless h).bind
      rintro r w' (⟨⟨message, rfl⟩, hfault, hsame⟩ | ⟨l, rfl, hnodup, hl, hhas⟩)
      · exact .inl ⟨rfl, hfault, hsame⟩
      · right
        use rfl
        intro ref hsim
        refine ⟨.of_answers ⟨l, rfl, hnodup, ?_⟩ (by simp), s, hhas, hsim⟩
        intro k v
        rw [hl, hsim.liveValue_eq]
  | sweep =>
      apply (performs_sweep laws harmless h).bind
      rintro _ w' ⟨s', hhas, hevicted⟩
      right
      use rfl
      intro ref hsim
      exact ⟨.of_answers rfl (by simp), s', hhas, hsim.evicted hevicted⟩

/-- Unless a write is stopped, no command crashes. -/
theorem execFile_total {fault : Fault} (hfault : ∀ missing stop, fault ≠ .write missing stop)
    (c : SourceCmd) (w : World File) :
  ∃ r w', c.execFile J fault w = some (r, w')
  := by
  have writes : ∀ m file, ∃ r, (writeMap (envelopes J) fault m file).result = some r := by
    intro m file
    rw [writeMap]
    cases fault with
    | createDir message => exact ⟨_, rfl⟩
    | write missing stop => exact absurd rfl (hfault missing stop)
    | none | read _ =>
        simp only [Fs.createDirAll]
        split
        · exact ⟨_, rfl⟩
        · exact ⟨_, rfl⟩
  cases c with
  | get _ | entries | now => exact ⟨_, _, rfl⟩
  | set k v =>
      simp only [SourceCmd.execFile, JsonFileStorage.set]
      cases readMap (envelopes J) fault w.source with
      | error e => exact ⟨_, _, rfl⟩
      | ok m =>
          have hvalue : (envelopes J).toValue v = .ok (ExpiresWrapper.serde.serialize v) := rfl
          obtain ⟨r, hr⟩ := writes (m.insert k (ExpiresWrapper.serde.serialize v)) w.source
          simp only [hvalue, hr]
          exact ⟨_, _, rfl⟩
  | delete k =>
      simp only [SourceCmd.execFile, JsonFileStorage.delete]
      cases readMap (envelopes J) fault w.source with
      | error e => exact ⟨_, _, rfl⟩
      | ok m =>
          obtain ⟨r, hr⟩ := writes (m.erase k) w.source
          dsimp only
          split
          · simp only [Ended.map, hr]
            exact ⟨_, _, rfl⟩
          · exact ⟨_, _, rfl⟩

end

/-! ### Runs -/

/-- An operation executed at the time `now`, with the faults that come with its commands. -/
structure FileStep where
  op : ExpiringOp
  now : SystemTime
  faults : SourceCmd → Fault

section

open JsonFileStorage

variable (J : JsonCrate)

/-- What a step returns, and the file after it, unless the server crashes. -/
def performFile (st : FileStep) (file : File) : Option (ExpiringVal × File) :=
  (st.op.impl.runOption (fun c => c.execFile J (st.faults c)) ⟨file, st.now⟩).map fun r =>
    (r.1, r.2.source)

/-- What the steps return that are executed one after another, and the file after them. -/
def performAllFile : List FileStep → File → Option (List ExpiringVal × File)
  | [], file => some ([], file)
  | st :: run, file => do
      let (val, file) ← performFile J st file
      let (vals, file) ← performAllFile run file
      return (val :: vals, file)

/-- Every step has failed because of a fault and changed nothing, or answered as the reference
map does. -/
def Conforms : Reference → List FileStep → List ExpiringVal → Prop
  | _, [], vals => vals = []
  | ref, st :: run, vals => ∃ val rest, vals = val :: rest ∧
      if val.failed then (∃ c, st.faults c ≠ .none) ∧ Conforms ref run rest
      else ref.Allows st.now st.op val ∧ Conforms (ref.step st.now st.op) run rest

variable {J}

theorem performFile_explains (laws : J.Lawful) {st : FileStep} (harmless : Harmless st.faults)
    (hfits : st.op.Fits) {file : File} {s : Envelopes} (h : Stores J file s) :
  ∃ val file', performFile J st file = some (val, file') ∧
    Explains J s st.now st.faults st.op val ⟨file', st.now⟩
  := by
  have performs := performs_impl laws harmless (w := ⟨file, st.now⟩) ⟨h, rfl⟩ st.op hfits
  obtain ⟨val, ⟨file', now⟩, hrun, hexplains⟩ :=
    performs.runOption fun c => execFile_total (harmless c) c
  have hnow : now = st.now := by
    rcases hexplains with ⟨-, -, -, hnow⟩ | ⟨-, hanswers⟩
    · apply hnow
    · obtain ⟨-, s', ⟨-, hnow⟩, -⟩ := hanswers _ (simulates_ofSource st.now s)
      apply hnow
  subst hnow
  refine ⟨val, file', ?_, hexplains⟩
  rw [performFile, hrun]
  rfl

/-- The steps of a run agree with the reference map that the file simulates. -/
theorem performAllFile_agrees (laws : J.Lawful) {run : List FileStep}
    (harmless : ∀ st ∈ run, Harmless st.faults) (hfits : ∀ st ∈ run, st.op.Fits)
    (order : (run.map FileStep.now).Pairwise (· ≤ ·)) {now : SystemTime}
    (hnow : ∀ st ∈ run, now ≤ st.now) {file : File} {s : Envelopes} {ref : Reference}
    (h : Stores J file s) (hsim : Simulates LawfulMap.ofAList now s ref) :
  ∃ vals file', performAllFile J run file = some (vals, file') ∧ Conforms ref run vals
  := by
  induction run generalizing now file s ref with
  | nil => exact ⟨[], file, rfl, rfl⟩
  | cons st run ih =>
      rw [List.forall_mem_cons] at harmless hfits hnow
      obtain ⟨later, order⟩ := List.pairwise_cons.mp order
      have later : ∀ st' ∈ run, st.now ≤ st'.now := fun st' hst' =>
        later _ (List.mem_map_of_mem hst')
      have hsim := hsim.mono hnow.1
      obtain ⟨val, file₁, hval, hexplains⟩ := performFile_explains laws harmless.1 hfits.1 h
      have first : ∀ {vals file'}, performAllFile J run file₁ = some (vals, file') →
          performAllFile J (st :: run) file = some (val :: vals, file') := by
        intro vals file' hvals
        simp only [performAllFile, hval, Option.bind_eq_bind, Option.bind_some, hvals]
        rfl
      rcases hexplains with ⟨hfailed, hfault, hsame, -⟩ | ⟨hfailed, hanswers⟩
      · obtain ⟨vals, file', hvals, hagrees⟩ := ih harmless.2 hfits.2 order later hsame hsim
        refine ⟨val :: vals, file', first hvals, val, vals, rfl, ?_⟩
        rw [if_pos hfailed]
        exact ⟨hfault, hagrees⟩
      · obtain ⟨hanswer, s', ⟨hstores', -⟩, hsim'⟩ := hanswers ref hsim
        obtain ⟨vals, file', hvals, hagrees⟩ := ih harmless.2 hfits.2 order later hstores' hsim'
        refine ⟨val :: vals, file', first hvals, val, vals, rfl, ?_⟩
        rw [hfailed, if_neg Bool.false_ne_true]
        exact ⟨hanswer, hagrees⟩

/-- When operations with deadlines of 64 bits are executed one after another in a file that
stores envelopes, in the order of their times and without a write being stopped, every one
either fails because of a fault and changes nothing, or answers as the reference map does to
which those that did not fail were applied. -/
theorem file_ttl_reference (laws : J.Lawful) (run : List FileStep)
    (harmless : ∀ st ∈ run, Harmless st.faults) (hfits : ∀ st ∈ run, st.op.Fits)
    (order : (run.map FileStep.now).Pairwise (· ≤ ·)) {file : File} {s : Envelopes}
    (h : Stores J file s) :
  ∃ vals file', performAllFile J run file = some (vals, file') ∧
    Conforms (Reference.ofSource LawfulMap.ofAList s) run vals
  := by
  cases run with
  | nil => exact ⟨[], file, rfl, rfl⟩
  | cons st run =>
      apply performAllFile_agrees laws harmless hfits order _ h (simulates_ofSource st.now s)
      rw [List.forall_mem_cons]
      use Int.le_refl _
      intro st' hst'
      apply (List.pairwise_cons.mp order).1 _ (List.mem_map_of_mem hst')

end

/-- A value is stored that expires after two seconds, the file cannot be read, and then the value
is read in time, and deleted too late. -/
def unreadableOnce : List FileStep :=
  [⟨.setExpiring "k".toList "v".toList (some (ofSecs 2)), 0, fun _ => .none⟩,
    ⟨.get "k".toList, 0, fun _ => .read "denied".toList⟩,
    ⟨.get "k".toList, ofSecs 1, fun _ => .none⟩, ⟨.delete "k".toList, ofSecs 3, fun _ => .none⟩]

theorem file_ttl_reference_unreadableOnce :
  ∃ vals file', performAllFile (.laidOut .pretty) unreadableOnce none = some (vals, file') ∧
    Conforms (Reference.ofSource LawfulMap.ofAList (∅ : JsonFileStorage.Envelopes)) unreadableOnce
      vals
  := by
  apply file_ttl_reference (JsonCrate.laidOut_lawful .pretty)
  case harmless => simp [unreadableOnce, Harmless]
  case hfits => simp [unreadableOnce, ExpiringOp.Fits, asSecs, ofSecs]
  case order => simp [unreadableOnce, ofSecs]
  case h => exact JsonFileStorage.Stores.missing

end Storage
