import SolidServer.Library.Layering
import SolidServer.Storage.Atomicity
import SolidServer.Storage.ExpiringFile
import SolidServer.Storage.FileLock

/-!
# Expiring storage in a shared file

Clients and background sweeps use a `WrappedExpiringStorage` over one `JsonFileStorage` at the
same time.  Taking the lock of the file, reading the file, writing it, giving the lock back and
reading the clock are separate steps, and those of different calls come between each other.
Every run has the calls and the returns of a run over a map whose operations are executed at once
(`shared_file_refines`), so that what is known of those holds here as well.
-/

open Text Atomic HttpTypes

namespace Storage

open JsonFileStorage

section

variable (J : JsonCrate)

/-- How a command is answered: by a call of the storage in the file, or by the clock. -/
def SourceCmd.serve : (c : SourceCmd) →
    Serving (LockCmd FileCmd) (LockCmd.Answer FileCmd.Answer) (KeyValueCall ExpiresWrapper)
      (KeyValueResult ExpiresWrapper) SystemTime c.Answer
  | .get k => .object (.get k) ((Locked.get (envelopes J) k).withLock .read) .value
  | .set k v => .object (.set k v) ((Locked.set (envelopes J) k v).withLock .write) .unit
  | .delete k => .object (.delete k) ((Locked.delete (envelopes J) k).withLock .write) .flag
  | .entries => .object .entries ((Locked.entries (envelopes J)).withLock .read) .listing
  | .now => .beside fun clock => (clock, clock)

/-- The clock moves on. -/
def passTime (t clock : SystemTime) : Option SystemTime :=
  if clock ≤ t then some t else none

/-- The expiring storage over a storage in a file, used by clients and sweeps at the same time. -/
def sharedFile :
    Machine (LayerCmd SourceCmd (LockCmd FileCmd))
      (LayerCmd.Answer SourceCmd.Answer (LockCmd.Answer FileCmd.Answer))
      (Atomic.Locked File × SystemTime) ExpiringOp ExpiringVal SystemTime :=
  layeredMachine (SourceCmd.serve J) ExpiringOp.impl (Locked.fileMachine (envelopes J)) passTime

/-- The configurations of the storage in the file. -/
abbrev SharedConfig (Client : Type) :=
  Config Client (LayerCmd SourceCmd (LockCmd FileCmd))
    (LayerCmd.Answer SourceCmd.Answer (LockCmd.Answer FileCmd.Answer))
    (Atomic.Locked File × SystemTime) ExpiringOp ExpiringVal

/-- A file with the entries that it stores is a map, whose entries are listed in the order of the
file. -/
def ofFile : LawfulMap (File × Envelopes) Str ExpiresWrapper where
  get s k := s.2.lookup k
  set s k v := ((JsonFileStorage.set (envelopes J) .none k v s.1).file, s.2.insert k v)
  delete s k := ((s.2.lookup k).isSome,
    ((JsonFileStorage.delete (envelopes J) .none k s.1).file, s.2.erase k))
  entries s :=
    match JsonFileStorage.entries (envelopes J) .none s.1 with
    | .ok l =>
        if l.Perm (LawfulMap.ofAList.entries s.2) then l else LawfulMap.ofAList.entries s.2
    | .error _ => LawfulMap.ofAList.entries s.2
  get_set s := LawfulMap.ofAList.get_set s.2
  get_delete s := LawfulMap.ofAList.get_delete s.2
  delete_existed _ _ := rfl
  nodup_entries s := by
    have nodup := LawfulMap.ofAList.nodup_entries s.2
    split
    · split
      case isTrue hperm => apply ((hperm.map Prod.fst).nodup_iff).mpr nodup
      case isFalse => apply nodup
    · apply nodup
  mem_entries s k v := by
    have mem := LawfulMap.ofAList.mem_entries s.2 k v
    split
    · split
      case isTrue hperm => apply hperm.mem_iff.trans mem
      case isFalse => apply mem
    · apply mem

/-- The file has the entries of the map, and it is the time. -/
def SameFile (file : File) (clock : SystemTime) (w : World (File × Envelopes)) : Prop :=
  w.source.1 = file ∧ Stores J file w.source.2 ∧ w.clock = clock

end

variable {J : JsonCrate}

theorem Locked.lockSpec_eq {call : KeyValueCall ExpiresWrapper} {file file' : File}
    {r : KeyValueResult ExpiresWrapper}
    (h : JsonFileStorage.perform (envelopes J) .none call file = (some r, file')) :
  lockSpec (Locked.body (envelopes J)) FileCmd.exec call file = (r, file')
  := by
  rw [Locked.perform_eq] at h
  obtain ⟨hval, hfile⟩ := Prod.mk.inj h
  rw [← Option.some.inj hval, ← hfile]

/-- The storage in the file does what a map does. -/
theorem realizes_sharedFile (laws : J.Lawful) :
  Realizes (SourceCmd.serve J) (expiringMachine (ofFile J)) (Locked.fileMachine (envelopes J))
    passTime (lockSpec (Locked.body (envelopes J)) FileCmd.exec)
    (fun c => ∀ k v, c = .set k v → v.Fits) (SameFile J)
  := by
  constructor
  case calls =>
    rintro c op p wrap hserve
    cases c <;> cases hserve
    all_goals
      constructor
      · apply Prog.withLock_bind_ret
      · intro r r' h
        injection h
  case object =>
    have harmless : ∀ missing stop, Fault.none ≠ .write missing stop := by
      rintro missing stop ⟨⟩
    rintro c op p wrap file clock w hserve hfits ⟨rfl, stores, rfl⟩
    cases c with
    | get k =>
        cases hserve
        have performed : JsonFileStorage.perform (envelopes J) .none (.get k) w.source.1
            = (some (.value (.ok (w.source.2.lookup k))), w.source.1) := by
          rw [JsonFileStorage.perform, stores.inStep.get_eq k]
          rfl
        rw [Locked.lockSpec_eq performed]
        exact ⟨_, _, rfl, rfl, rfl, stores, rfl⟩
    | set k v =>
        cases hserve
        rcases stores.set laws harmless k (hfits k v rfl) with ⟨-, hne, -⟩ | ⟨file, hset, stores'⟩
        · cases hne rfl
        · have performed : JsonFileStorage.perform (envelopes J) .none (.set k v) w.source.1
              = (some (.unit (.ok ())), file) := by
            rw [JsonFileStorage.perform, hset]
            rfl
          rw [Locked.lockSpec_eq performed]
          exact ⟨_, _, rfl, rfl, congrArg Ended.file hset, stores', rfl⟩
    | delete k =>
        cases hserve
        rcases stores.delete laws harmless k with ⟨-, hne, -⟩ | ⟨file, hdelete, stores'⟩
        · cases hne rfl
        · have performed : JsonFileStorage.perform (envelopes J) .none (.delete k) w.source.1
              = (some (.flag (.ok (w.source.2.lookup k).isSome)), file) := by
            rw [JsonFileStorage.perform, hdelete]
            rfl
          rw [Locked.lockSpec_eq performed]
          exact ⟨_, _, rfl, rfl, congrArg Ended.file hdelete, stores', rfl⟩
    | entries =>
        cases hserve
        obtain ⟨l, hl, hperm⟩ := stores.inStep.entries_perm
        have performed : JsonFileStorage.perform (envelopes J) .none .entries w.source.1
            = (some (.listing (.ok l)), w.source.1) := by
          rw [JsonFileStorage.perform, hl]
        rw [Locked.lockSpec_eq performed]
        refine ⟨_, _, rfl, ?_, rfl, stores, rfl⟩
        simp only [ofFile, hl, if_pos hperm]
    | now => cases hserve
  case beside =>
    rintro c exec file clock w hserve - ⟨rfl, stores, rfl⟩
    cases c <;> cases hserve
    exact ⟨_, rfl, rfl, stores, rfl⟩
  case env =>
    rintro t file clock clock' w hclock ⟨rfl, stores, rfl⟩
    obtain ⟨ht, h⟩ := Option.ite_none_right_eq_some.mp hclock
    obtain rfl := Option.some.inj h
    exact ⟨_, if_pos ht, rfl, stores, rfl⟩

/-- What is stored with a deadline of 64 bits can be read back. -/
theorem issues_fits {op : ExpiringOp} (h : op.Fits) :
  op.impl.Issues fun c => ∀ k v, c = .set k v → v.Fits
  := by
  apply (issues_expiring op).mono
  rintro _ stores k w rfl
  obtain ⟨v, t, hwrites, rfl⟩ := stores
  cases t with
  | none => apply ExpiresWrapper.fits_none
  | some t =>
      rcases hwrites with ⟨-, ht⟩ | rfl
      · cases ht
      · intro exp hexp
        obtain rfl := Option.some.inj hexp
        apply h

/-- What is seen of an operation, not counting what it did not show. -/
theorem Sees.sound {Client σ : Type} {M : LawfulMap σ Str ExpiresWrapper} {w : World σ}
    {cfg : ExpiringConfig Client σ} {now : SystemTime} {exact : Prop} {op : ExpiringOp}
    {val : ExpiringVal} (h : Sees M w cfg now exact op val) :
  Sees M w cfg now False op val
  := by
  cases op with
  | get k | has k | delete k =>
      obtain ⟨r, hval, hshown, -⟩ := h
      exact ⟨r, hval, hshown, False.elim⟩
  | entries =>
      obtain ⟨l, hval, nodup, hshown, -⟩ := h
      exact ⟨l, hval, nodup, hshown, False.elim⟩
  | set _ _ | setExpiring _ _ _ | sweep => exact h

/-- The turn is no call with a deadline of more than 64 bits. -/
def TurnFits {Client : Type} : Turn Client ExpiringOp SystemTime → Prop
  | .call _ op => op.Fits
  | .act _ | .ret _ | .env _ => True

section

variable {Client : Type} [DecidableEq Client]

/-- The calls and the returns in `cfg` are those in `cfg'`, which is reached from `w` when the
storage is over a map: the file stores its entries unless it is being written, and a value that
was shown was that of the last update of its key, and had not expired, at a moment of the
operation that showed it. -/
structure ActsAsMap (J : JsonCrate) (w : World (File × Envelopes)) (cfg : SharedConfig Client)
    (cfg' : ExpiringConfig Client (File × Envelopes)) : Prop where
  reached : (expiringMachine (ofFile J)).Reachable (Config.init w) cfg'
  observed : observed cfg'.history = observed cfg.history
  clock : cfg'.shared.clock = cfg.shared.2
  quiescent : cfg.Quiescent → cfg.shared.1.writing = false
  content : cfg.shared.1.writing = false → Stores J cfg.shared.1.inner cfg'.shared.source.2
  returned : ∀ n op val, .ret n op val ∈ cfg.history →
    ∃ cfg₁, (expiringMachine (ofFile J)).Moment (fun _ _ => True) w cfg' n op cfg₁ ∧
      Sees (ofFile J) w cfg₁ cfg.shared.2 False op val

/-- The storage over a file that clients and sweeps share behaves as over a map whose operations
are executed at once. -/
theorem shared_file_refines (laws : J.Lawful) {file : File} {s : Envelopes} {t : SystemTime}
    (stores : Stores J file s) {cfg : SharedConfig Client}
    (h : (sharedFile J).Reaches (fun _ l => TurnFits l) (Config.init (⟨file, 0, false⟩, t)) cfg) :
  ∃ cfg', ActsAsMap J ⟨(file, s), t⟩ cfg cfg'
  := by
  have readers := Locked.reading_keeps (envelopes J)
  have start : SameFile J file t ⟨(file, s), t⟩ := ⟨rfl, stores, rfl⟩
  obtain ⟨locked, cfg', hlocked, hcfg', layered⟩ := layered_refines (realizes_sharedFile laws)
    (lock_effectiveAtEnd readers file) start (fun _ _ fits => issues_fits fits) h
  have reached := hcfg'.mono fun _ _ _ => trivial
  obtain ⟨hfile, hstores, hclock⟩ := layered.same
  use cfg'
  constructor
  case reached => apply reached
  case observed => apply layered.observed
  case clock => apply hclock
  case quiescent =>
    intro hquiescent
    rw [layered.shared]
    apply writing_of_quiescent readers hlocked (layered.quiescent hquiescent)
  case content =>
    intro hwriting
    rw [layered.shared] at hwriting ⊢
    rw [(lock_linearizes readers hlocked).2.2 hwriting]
    apply hstores
  case returned =>
    intro n op val hret
    rw [← mem_observed_iff, ← layered.observed, mem_observed_iff] at hret
    obtain ⟨cfg₂, last, cfg₁, moment, hsees⟩ := sees_of_ret reached hret
    use cfg₁, moment.mono last.later
    rw [← hclock]
    apply (hsees.mono (clock_mono last.later)).sound

end

/-- What is stored until the second second is read while the file is written, and a second
passes. -/
def readDuringWrite : List (Turn Bool ExpiringOp SystemTime) :=
  [.call true (.setExpiring "k".toList "v".toList (some (ofSecs 2))), .act true, .act true,
    .call false (.get "k".toList), .act true, .env (ofSecs 1), .act true, .act true, .act true,
    .act false, .act false, .ret true, .act false, .act false, .ret false]

theorem shared_file_refines_readDuringWrite :
  ∃ cfg', ActsAsMap (.laidOut .pretty) ⟨(none, ∅), 0⟩
    ((sharedFile (.laidOut .pretty)).after (Config.init (⟨none, 0, false⟩, 0)) readDuringWrite) cfg'
  := by
  have fits : ∀ l ∈ readDuringWrite, TurnFits l := by
    simp [readDuringWrite, TurnFits, ExpiringOp.Fits, asSecs, ofSecs, UInt64.size]
  apply shared_file_refines (JsonCrate.laidOut_lawful .pretty) Stores.missing
  apply Machine.reaches_after
  intro x hx
  apply fits x.2 (Machine.mem_of_mem_turns hx)

end Storage
