import SolidServer.Library.HashMap
import SolidServer.Library.Program
import SolidServer.Library.Runs
import SolidServer.HttpTypes

/-!
# Client credentials

`BaseClientCredentialsStore` holds the tokens by their ids, and the ids of the tokens by their
labels.  Each of the two maps is behind a lock of its own: a `CredentialsCmd` is what an
operation does under one of them.  The ids and the secrets are drawn at random, so those of a
new token are arguments of `create` here.

The index by labels is right as long as no token is deleted whose label another token has:
`create` does not look whether the label is in use, and `delete` removes the entry of the
label, whosever it is.
-/

open Text Atomic HttpTypes

namespace Identity

/-- A token that lets a service account authenticate as a WebID. -/
structure ClientCredentials where
  id : Str
  label : Str
  webId : Url
  accountId : Str
  secret : Str
deriving DecidableEq

/-- The in-memory store: the tokens by id, and the ids by label. -/
structure BaseClientCredentialsStore where
  byId : HashMap Str ClientCredentials
  byLabel : HashMap Str Str

/-- What an operation does under one of the locks, from its acquisition to its release. -/
inductive CredentialsCmd where
  | getById (id : Str)
  | getByLabel (label : Str)
  | filterById (accountId : Str) (order : IterationOrder (Str × ClientCredentials))
  | insertById (id : Str) (creds : ClientCredentials)
  | insertByLabel (label id : Str)
  | removeById (id : Str)
  | removeByLabel (label : Str)

namespace CredentialsCmd

/-- What the operation knows when it has released the lock. -/
def Answer : CredentialsCmd → Type
  | getById _ => Option ClientCredentials
  | getByLabel _ => Option Str
  | filterById _ _ => List ClientCredentials
  | insertById _ _ => Unit
  | insertByLabel _ _ => Unit
  | removeById _ => Option ClientCredentials
  | removeByLabel _ => Unit

/-- The effect of a section on the store. -/
def exec : (c : CredentialsCmd) → BaseClientCredentialsStore →
    c.Answer × BaseClientCredentialsStore
  | getById id, s => (s.byId.lookup id, s)
  | getByLabel label, s => (s.byLabel.lookup label, s)
  | filterById accountId order, s =>
      ((s.byId.values order).filter fun c => c.accountId = accountId, s)
  | insertById id creds, s => ((), { s with byId := s.byId.insert id creds })
  | insertByLabel label id, s => ((), { s with byLabel := s.byLabel.insert label id })
  | removeById id, s => (s.byId.lookup id, { s with byId := s.byId.erase id })
  | removeByLabel label, s => ((), { s with byLabel := s.byLabel.erase label })

end CredentialsCmd

/-- A program of sections. -/
abbrev CredentialsProg := Prog CredentialsCmd CredentialsCmd.Answer

namespace BaseClientCredentialsStore

open CredentialsCmd

/-- The store without tokens. -/
def new : BaseClientCredentialsStore where
  byId := ∅
  byLabel := ∅

/-- The token with an id. -/
def get (id : Str) : CredentialsProg (Except Str (Option ClientCredentials)) := do
  return .ok (← Prog.call (getById id))

/-- The token with a label. -/
def findByLabel (label : Str) : CredentialsProg (Except Str (Option ClientCredentials)) := do
  match (← Prog.call (getByLabel label) : Option Str) with
  | some id => return .ok (← Prog.call (getById id))
  | none => return .ok none

/-- The tokens of an account. -/
def findByAccount (accountId : Str) (order : IterationOrder (Str × ClientCredentials)) :
    CredentialsProg (Except Str (List ClientCredentials)) := do
  return .ok (← Prog.call (filterById accountId order))

/-- Store a new token, with the id and the secret drawn for it. -/
def create (label : Str) (webId : Url) (accountId id secret : Str) :
    CredentialsProg (Except Str ClientCredentials) := do
  let creds : ClientCredentials := ⟨id, label, webId, accountId, secret⟩
  Prog.call (insertById id creds)
  Prog.call (insertByLabel label id)
  return .ok creds

/-- Remove the token with an id. -/
def delete (id : Str) : CredentialsProg (Except Str Unit) := do
  match (← Prog.call (removeById id) : Option ClientCredentials) with
  | some creds =>
      Prog.call (removeByLabel creds.label)
      return .ok ()
  | none => return .error ("client credentials not found: ".toList ++ id)

end BaseClientCredentialsStore

/-- A call on the store. -/
inductive CredentialsCall where
  | get (id : Str)
  | findByLabel (label : Str)
  | findByAccount (accountId : Str) (order : IterationOrder (Str × ClientCredentials))
  | create (label : Str) (webId : Url) (accountId id secret : Str)
  | delete (id : Str)

/-- What a call returns. -/
inductive CredentialsResult where
  | token (r : Except Str (Option ClientCredentials))
  | tokens (r : Except Str (List ClientCredentials))
  | created (r : Except Str ClientCredentials)
  | deleted (r : Except Str Unit)

namespace CredentialsCall

open BaseClientCredentialsStore in
/-- The program of a call. -/
def impl : CredentialsCall → CredentialsProg CredentialsResult
  | get id => return .token (← BaseClientCredentialsStore.get id)
  | findByLabel label => return .token (← BaseClientCredentialsStore.findByLabel label)
  | findByAccount accountId order =>
      return .tokens (← BaseClientCredentialsStore.findByAccount accountId order)
  | create label webId accountId id secret =>
      return .created (← BaseClientCredentialsStore.create label webId accountId id secret)
  | delete id => return .deleted (← BaseClientCredentialsStore.delete id)

/-- A call while nothing else runs. -/
def perform (call : CredentialsCall) (s : BaseClientCredentialsStore) :
    CredentialsResult × BaseClientCredentialsStore :=
  call.impl.run CredentialsCmd.exec s

/-- The token that a call creates. -/
def token : CredentialsCall → Option ClientCredentials
  | create label webId accountId id secret => some ⟨id, label, webId, accountId, secret⟩
  | _ => none

/-- The id drawn for a new token. -/
def drawn (call : CredentialsCall) : Option Str :=
  call.token.map ClientCredentials.id

end CredentialsCall

/-! ### The index by labels -/

namespace BaseClientCredentialsStore

/-- What `findByLabel` returns in a store. -/
def found (s : BaseClientCredentialsStore) (label : Str) :
    Except Str (Option ClientCredentials) :=
  ((findByLabel label).run CredentialsCmd.exec s).1

theorem found_eq (s : BaseClientCredentialsStore) (label : Str) :
  s.found label = .ok ((s.byLabel.lookup label).bind fun id => s.byId.lookup id)
  := by
  have key : s.found label = match s.byLabel.lookup label with
      | some id => .ok (s.byId.lookup id)
      | none => .ok none := by
    unfold found findByLabel
    simp only [Prog.call_bind, Prog.run_act, CredentialsCmd.exec]
    cases s.byLabel.lookup label <;> rfl
  rw [key]
  cases s.byLabel.lookup label <;> rfl

theorem found_eq_ok_iff {s : BaseClientCredentialsStore} {label : Str} {t : ClientCredentials} :
  s.found label = .ok (some t) ↔
    ∃ id, s.byLabel.lookup label = some id ∧ s.byId.lookup id = some t
  := by
  rw [found_eq, Except.ok.injEq, Option.bind_eq_some_iff]

/-- A label finds a token exactly if a stored token has it, and the token it finds is such
a one. -/
structure Consistent (s : BaseClientCredentialsStore) : Prop where
  found_iff : ∀ label, (∃ t, s.found label = .ok (some t)) ↔
    ∃ id t, s.byId.lookup id = some t ∧ t.label = label
  of_found : ∀ label t, s.found label = .ok (some t) →
    t.label = label ∧ ∃ id, s.byId.lookup id = some t

/-- The labels of all tokens are in the index, and the index leads from a label to a token
that has it. -/
structure Indexed (s : BaseClientCredentialsStore) : Prop where
  indexed : ∀ id t, s.byId.lookup id = some t → ∃ id', s.byLabel.lookup t.label = some id'
  sound : ∀ label id, s.byLabel.lookup label = some id →
    ∃ t, s.byId.lookup id = some t ∧ t.label = label

end BaseClientCredentialsStore

namespace CredentialsCall

open BaseClientCredentialsStore

/-- The call deletes a token whose label another stored token has. -/
def DeletesShared (s : BaseClientCredentialsStore) : CredentialsCall → Prop
  | delete id => ∃ t, s.byId.lookup id = some t ∧
      ∃ id' t', id' ≠ id ∧ s.byId.lookup id' = some t' ∧ t'.label = t.label
  | _ => False

/-- If the call deletes a token, every other token that its label finds is still found. -/
def KeepsFindable (s : BaseClientCredentialsStore) (call : CredentialsCall) : Prop :=
  ∀ id, call = delete id → ∀ id' t, id' ≠ id → s.byId.lookup id' = some t →
    s.found t.label = .ok (some t) → (call.perform s).2.found t.label = .ok (some t)

theorem perform_create (label : Str) (webId : Url) (accountId id secret : Str)
    (s : BaseClientCredentialsStore) :
  (create label webId accountId id secret).perform s
    = (.created (.ok ⟨id, label, webId, accountId, secret⟩),
        ⟨s.byId.insert id ⟨id, label, webId, accountId, secret⟩, s.byLabel.insert label id⟩)
  := rfl

theorem perform_delete_of_some {s : BaseClientCredentialsStore} {id : Str}
    {t : ClientCredentials} (h : s.byId.lookup id = some t) :
  (delete id).perform s = (.deleted (.ok ()), ⟨s.byId.erase id, s.byLabel.erase t.label⟩)
  := by
  unfold perform impl BaseClientCredentialsStore.delete
  simp only [Prog.call_bind, Prog.act_bind, Prog.run_act, CredentialsCmd.exec, h]
  rfl

theorem perform_delete_of_none {s : BaseClientCredentialsStore} {id : Str}
    (h : s.byId.lookup id = none) :
  (delete id).perform s
    = (.deleted (.error ("client credentials not found: ".toList ++ id)),
        ⟨s.byId.erase id, s.byLabel⟩)
  := by
  unfold perform impl BaseClientCredentialsStore.delete
  simp only [Prog.call_bind, Prog.act_bind, Prog.run_act, CredentialsCmd.exec, h]
  rfl

/-- Deleting a token whose label no other token has keeps the others findable. -/
theorem keepsFindable {call : CredentialsCall} {s : BaseClientCredentialsStore}
    (alone : ¬ call.DeletesShared s) :
  call.KeepsFindable s
  := by
  rintro id rfl id' t hne ht hfound
  obtain ⟨id'', hid'', ht''⟩ := found_eq_ok_iff.mp hfound
  apply found_eq_ok_iff.mpr
  use id''
  cases hu : s.byId.lookup id with
  | none =>
      rw [perform_delete_of_none hu]
      use hid''
      rw [HashMap.lookup_erase, if_neg, ht'']
      rintro rfl
      rw [hu] at ht''
      cases ht''
  | some u =>
      rw [perform_delete_of_some hu]
      have other : t.label ≠ u.label := by
        intro hlabel
        exact alone ⟨u, hu, id', t, hne, ht, hlabel⟩
      constructor
      · rw [HashMap.lookup_erase, if_neg other, hid'']
      · rw [HashMap.lookup_erase, if_neg, ht'']
        rintro rfl
        obtain rfl := Option.some.inj (hu.symm.trans ht'')
        contradiction

/-- Looking for a label changes nothing. -/
theorem perform_findByLabel (label : Str) (s : BaseClientCredentialsStore) :
  ((findByLabel label).perform s).2 = s
  := by
  unfold perform impl BaseClientCredentialsStore.findByLabel
  simp only [Prog.call_bind, Prog.act_bind, Prog.run_act, CredentialsCmd.exec]
  cases s.byLabel.lookup label <;> rfl

/-- Only the token of a `create` is new. -/
theorem mem_byId_of_perform {call : CredentialsCall} {s : BaseClientCredentialsStore} {id : Str}
    (h : id ∈ (call.perform s).2.byId) :
  id ∈ s.byId ∨ call.drawn = some id
  := by
  cases call with
  | get _ | findByAccount _ _ => exact .inl h
  | findByLabel label =>
      rw [perform_findByLabel] at h
      exact .inl h
  | create label webId accountId id' secret =>
      rcases (AList.mem_insert s.byId).mp h with rfl | h
      · exact .inr rfl
      · exact .inl h
  | delete id' =>
      left
      cases ht : s.byId.lookup id' with
      | none =>
          rw [perform_delete_of_none ht] at h
          exact (AList.mem_erase.mp h).2
      | some t =>
          rw [perform_delete_of_some ht] at h
          exact (AList.mem_erase.mp h).2

end CredentialsCall

namespace BaseClientCredentialsStore

namespace Indexed

variable {s : BaseClientCredentialsStore}

theorem new :
  new.Indexed
  := by
  constructor
  · intro id t h
    cases h
  · intro label id h
    cases h

theorem consistent (h : s.Indexed) :
  s.Consistent
  := by
  constructor
  case found_iff =>
    intro label
    constructor
    · rintro ⟨t, ht⟩
      obtain ⟨id, hid, -⟩ := found_eq_ok_iff.mp ht
      obtain ⟨u, hu, hlabel⟩ := h.sound label id hid
      exact ⟨id, u, hu, hlabel⟩
    · rintro ⟨id, t, ht, rfl⟩
      obtain ⟨id', hid'⟩ := h.indexed id t ht
      obtain ⟨u, hu, -⟩ := h.sound _ _ hid'
      use u
      apply found_eq_ok_iff.mpr
      use id'
  case of_found =>
    intro label t ht
    obtain ⟨id, hid, ht⟩ := found_eq_ok_iff.mp ht
    obtain ⟨u, hu, hlabel⟩ := h.sound label id hid
    obtain rfl := Option.some.inj (ht.symm.trans hu)
    exact ⟨hlabel, id, ht⟩

theorem create (h : s.Indexed) {id : Str} (fresh : id ∉ s.byId) (label : Str) (webId : Url)
    (accountId secret : Str) :
  ((CredentialsCall.create label webId accountId id secret).perform s).2.Indexed
  := by
  rw [CredentialsCall.perform_create]
  constructor
  case indexed =>
    intro id' t ht
    rw [HashMap.lookup_insert]
    rcases HashMap.lookup_insert_eq_some_iff.mp ht with ⟨-, rfl⟩ | ⟨-, ht⟩
    · use id
      exact if_pos rfl
    · obtain ⟨id'', hid''⟩ := h.indexed id' t ht
      by_cases hlabel : t.label = label
      · use id
        exact if_pos hlabel
      · use id''
        rw [if_neg hlabel, hid'']
  case sound =>
    intro label' id' hid'
    rw [HashMap.lookup_insert]
    rcases HashMap.lookup_insert_eq_some_iff.mp hid' with ⟨rfl, rfl⟩ | ⟨-, hid'⟩
    · exact ⟨_, if_pos rfl, rfl⟩
    · obtain ⟨t, ht, hlabel⟩ := h.sound label' id' hid'
      have hne : id' ≠ id := by
        rintro rfl
        rw [AList.lookup_eq_none.mpr fresh] at ht
        cases ht
      exact ⟨t, (if_neg hne).trans ht, hlabel⟩

/-- Deleting a token whose label no other token has. -/
theorem delete (h : s.Indexed) {id : Str}
    (alone : ¬ (CredentialsCall.delete id).DeletesShared s) :
  ((CredentialsCall.delete id).perform s).2.Indexed
  := by
  cases ht : s.byId.lookup id with
  | none =>
      rw [CredentialsCall.perform_delete_of_none ht,
        HashMap.erase_of_notMem (AList.lookup_eq_none.mp ht)]
      exact h
  | some t =>
      rw [CredentialsCall.perform_delete_of_some ht]
      have other : ∀ {id' t'}, id' ≠ id → s.byId.lookup id' = some t' → t'.label ≠ t.label := by
        intro id' t' hne ht' hlabel
        exact alone ⟨t, ht, id', t', hne, ht', hlabel⟩
      constructor
      case indexed =>
        intro id' t' ht'
        obtain ⟨hne, ht'⟩ := HashMap.lookup_erase_eq_some_iff.mp ht'
        rw [HashMap.lookup_erase, if_neg (other hne ht')]
        apply h.indexed id' t' ht'
      case sound =>
        intro label id' hid'
        obtain ⟨hlabel, hid'⟩ := HashMap.lookup_erase_eq_some_iff.mp hid'
        obtain ⟨t', ht', rfl⟩ := h.sound label id' hid'
        have hne : id' ≠ id := by
          rintro rfl
          obtain rfl := Option.some.inj (ht.symm.trans ht')
          exact hlabel rfl
        exact ⟨t', HashMap.lookup_erase_eq_some_iff.mpr ⟨hne, ht'⟩, rfl⟩

end Indexed

/-- Deleting a token whose label another token has leaves a label that finds nothing. -/
theorem not_consistent_of_deletesShared {s : BaseClientCredentialsStore}
    {call : CredentialsCall} (h : call.DeletesShared s) :
  ¬ (call.perform s).2.Consistent
  := by
  cases call with
  | delete id =>
      obtain ⟨t, ht, id', t', hne, ht', hlabel⟩ := h
      rw [CredentialsCall.perform_delete_of_some ht]
      intro consistent
      obtain ⟨u, hu⟩ := (consistent.found_iff t.label).mpr
        ⟨id', t', by rw [HashMap.lookup_erase, if_neg hne, ht'], hlabel⟩
      obtain ⟨id'', hid'', -⟩ := found_eq_ok_iff.mp hu
      rw [HashMap.lookup_erase, if_pos rfl] at hid''
      cases hid''
  | _ => cases h

/-- A call keeps the index right, unless it deletes a token whose label another token has. -/
theorem Indexed.perform {s : BaseClientCredentialsStore} (h : s.Indexed) {call : CredentialsCall}
    (fresh : ∀ id, call.drawn = some id → id ∉ s.byId) (alone : ¬ call.DeletesShared s) :
  (call.perform s).2.Indexed
  := by
  cases call with
  | get _ | findByAccount _ _ => exact h
  | findByLabel label =>
      rw [CredentialsCall.perform_findByLabel]
      exact h
  | create label webId accountId id secret => apply h.create (fresh id rfl)
  | delete id => apply h.delete alone

theorem Indexed.throughout_iff {s : BaseClientCredentialsStore} (h : s.Indexed)
    {calls : List CredentialsCall} (fresh : (calls.filterMap CredentialsCall.drawn).Nodup)
    (unused : ∀ call ∈ calls, ∀ id, call.drawn = some id → id ∉ s.byId) :
  (Run.Throughout CredentialsCall.perform Consistent calls s ∧
      Run.Each CredentialsCall.perform (fun call s => call.KeepsFindable s) calls s)
    ↔ Run.Each CredentialsCall.perform (fun call s => ¬ call.DeletesShared s) calls s
  := by
  induction calls generalizing s with
  | nil => exact ⟨fun _ => trivial, fun _ => ⟨h.consistent, trivial⟩⟩
  | cons call calls ih =>
      have head := unused call List.mem_cons_self
      have rest : ∀ call' ∈ calls, ∀ id, call'.drawn = some id → id ∉ (call.perform s).2.byId := by
        intro call' hcall' id hid hmem
        rcases CredentialsCall.mem_byId_of_perform hmem with hmem | hdrawn
        · apply unused call' (List.mem_cons_of_mem _ hcall') id hid hmem
        · rw [List.filterMap_cons_some hdrawn, List.nodup_cons] at fresh
          apply fresh.1
          apply List.mem_filterMap.mpr
          use call'
      have tail : (calls.filterMap CredentialsCall.drawn).Nodup := by
        cases hdrawn : call.drawn with
        | none => rwa [List.filterMap_cons_none hdrawn] at fresh
        | some id =>
            rw [List.filterMap_cons_some hdrawn, List.nodup_cons] at fresh
            exact fresh.2
      constructor
      · rintro ⟨⟨-, consistent⟩, -, keeps⟩
        have alone : ¬ call.DeletesShared s :=
          fun shared => not_consistent_of_deletesShared shared consistent.start
        use alone
        apply (ih (h.perform head alone) tail rest).mp ⟨consistent, keeps⟩
      · rintro ⟨alone, hrest⟩
        obtain ⟨consistent, keeps⟩ := (ih (h.perform head alone) tail rest).mpr hrest
        exact ⟨⟨h.consistent, consistent⟩, call.keepsFindable alone, keeps⟩

/-- In a run of calls with fresh ids labels find the tokens that have them, and deleting a token
never makes another one unfindable, exactly if no call deletes a token whose label another
token has. -/
theorem labels_find_iff (calls : List CredentialsCall)
    (fresh : (calls.filterMap CredentialsCall.drawn).Nodup) :
  (Run.Throughout CredentialsCall.perform Consistent calls new ∧
      Run.Each CredentialsCall.perform (fun call s => call.KeepsFindable s) calls new)
    ↔ Run.Each CredentialsCall.perform (fun call s => ¬ call.DeletesShared s) calls new
  := by
  apply Indexed.new.throughout_iff fresh
  intro call _ id _ h
  apply AList.notMem_empty id h

/-- Two accounts create a token with the given labels, and the first token is deleted. -/
def createTwo (label label' : String) : List CredentialsCall :=
  [.create label.toList ⟨"https://a/#me".toList⟩ "a".toList "1".toList "s".toList,
    .create label'.toList ⟨"https://b/#me".toList⟩ "b".toList "2".toList "t".toList,
    .delete "1".toList]

theorem labels_find_iff_createTwo :
  Run.Throughout CredentialsCall.perform Consistent (createTwo "app" "wiki") new ∧
    Run.Each CredentialsCall.perform (fun call s => call.KeepsFindable s)
      (createTwo "app" "wiki") new
  := by
  apply (labels_find_iff (createTwo "app" "wiki") (by decide)).mpr
  use id, id
  constructor
  · rintro ⟨t, ht, id', t', hne, ht', hlabel⟩
    obtain rfl := Option.some.inj ht
    simp only [CredentialsCall.perform_create, HashMap.lookup_insert, if_neg hne] at ht'
    split at ht'
    · obtain rfl := Option.some.inj ht'
      revert hlabel
      decide
    · cases ht'
  · trivial

/-- Two accounts may use the same label: when one of them deletes its token, the label finds
nothing, although the token of the other one is stored. -/
theorem not_labels_find :
  ¬ ∀ calls : List CredentialsCall, (calls.filterMap CredentialsCall.drawn).Nodup →
    Run.Throughout CredentialsCall.perform Consistent calls new ∧
      Run.Each CredentialsCall.perform (fun call s => call.KeepsFindable s) calls new
  := by
  intro h
  obtain ⟨⟨-, -, -, last⟩, -⟩ := h (createTwo "app" "app") (by decide)
  have shared : (CredentialsCall.delete "1".toList).DeletesShared
      (Run.state CredentialsCall.perform ((createTwo "app" "app").take 2) new) :=
    ⟨_, rfl, "2".toList, _, by decide, rfl, rfl⟩
  apply not_consistent_of_deletesShared shared last

end BaseClientCredentialsStore

end Identity
