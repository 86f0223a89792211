import SolidServer.Identity.Pod
import Mathlib.Data.List.Nodup
import Mathlib.Data.Option.Basic

/-!
# Owners of pods

The rows of owners are a map from pods and WebIDs to visibilities: `Represents` relates them to
it, and says that no two rows are about the same pod and WebID.  As long as the ids that are
drawn are new, every call keeps this, answers what the map answers and changes nothing about the
owners of other pods (`owners_refine`).

A pod that has owners exists as long as no call makes a WebID an owner of a pod that does not
exist (`owners_housed_iff`): `updateOwner` does not look for the pod.
-/

open Text HttpTypes

namespace Identity

/-- The visibility of the owners, by pod and WebID. -/
abbrev OwnerMap := Str × Url → Option Bool

/-- No two rows are about the same pod and WebID. -/
def UniqueOwners (owners : HashMap Str OwnerRow) : Prop :=
  ∀ k k' row row', owners.lookup k = some row → owners.lookup k' = some row' →
    row.podId = row'.podId → row.webId = row'.webId → k = k'

/-- The rows are those of the map, and there is one for each of its entries. -/
structure Represents (owners : HashMap Str OwnerRow) (m : OwnerMap) : Prop where
  keyed : ∀ k row, owners.lookup k = some row → row.id = k
  unique : UniqueOwners owners
  entry : ∀ p w v, m (p, w) = some v ↔
    ∃ k row, owners.lookup k = some row ∧ row.podId = p ∧ row.webId = w ∧ row.visible = v

/-- The answer lists the owners in a map, in any order. -/
inductive Lists (f : Url → Option Bool) : Except Str (Option (List PodOwner)) → Prop where
  | nobody (h : ∀ w, f w = none) : Lists f (.ok none)
  | listed {owners : List PodOwner} (ne_nil : owners ≠ []) (nodup : (owners.map (·.webId)).Nodup)
      (mem : ∀ o, o ∈ owners ↔ f o.webId = some o.visible) : Lists f (.ok (some owners))

namespace PodCall

/-- What a call does to the map, and what it finds if it asks for owners. -/
def onMap : PodCall → OwnerMap → Option (Url → Option Bool) × OwnerMap
  | create _ settings _ podId _, m =>
      match settings.webId with
      | some webId => (none, Function.update m (podId, webId) (some false))
      | none => (none, m)
  | getOwners id _, m => (some fun webId => m (id, webId), m)
  | updateOwner id webId visible _ _, m =>
      (none, Function.update m (id, webId) (some visible))
  | removeOwner id webId _, m => (none, Function.update m (id, webId) none)
  | _, m => (none, m)

/-- The pod that a call may change the owners of. -/
def pod? : PodCall → Option Str
  | create _ _ _ podId _ => some podId
  | updateOwner id _ _ _ _ => some id
  | removeOwner id _ _ => some id
  | _ => none

/-- The ids that a call draws do not occur in the store. -/
def Fresh (s : BasePodStore) : PodCall → Prop
  | create _ _ _ podId ownerId =>
      podId ∉ s.pods ∧ (∀ k row, s.owners.lookup k = some row → row.podId ≠ podId) ∧
        ownerId ∉ s.owners
  | updateOwner _ _ _ ownerId _ => ownerId ∉ s.owners
  | _ => True

end PodCall

/-- The result of a call agrees with what the map says. -/
def PodResult.Agrees : PodResult → Option (Url → Option Bool) → Prop
  | owners r, some f => Lists f r
  | _, _ => True

/-- The same owners are listed, in any order. -/
def SameOwners (r r' : Except Str (Option (List PodOwner))) : Prop :=
  ∃ o o', r = .ok o ∧ r' = .ok o' ∧ Option.Rel List.Perm o o'

/-- Two listings of the same owners differ in their order only. -/
theorem Lists.same {f : Url → Option Bool} {r r' : Except Str (Option (List PodOwner))}
    (h : Lists f r) (h' : Lists f r') :
  SameOwners r r'
  := by
  have empty : ∀ {owners : List PodOwner}, owners ≠ [] →
      (∀ o, o ∈ owners ↔ f o.webId = some o.visible) → ¬ ∀ w, f w = none := by
    intro owners ne_nil mem hnone
    obtain ⟨o, os, rfl⟩ := List.exists_cons_of_ne_nil ne_nil
    have ho := (mem o).mp List.mem_cons_self
    rw [hnone] at ho
    cases ho
  cases h with
  | nobody hnone =>
      cases h' with
      | nobody _ => exact ⟨_, _, rfl, rfl, .none⟩
      | listed ne_nil _ mem => exact absurd hnone (empty ne_nil mem)
  | listed ne_nil nodup mem =>
      cases h' with
      | nobody hnone => exact absurd hnone (empty ne_nil mem)
      | listed _ nodup' mem' =>
          refine ⟨_, _, rfl, rfl, .some ?_⟩
          apply (List.perm_ext_iff_of_nodup nodup.of_map nodup'.of_map).mpr
          exact fun o => (mem o).trans (mem' o).symm

namespace Represents

variable {owners : HashMap Str OwnerRow} {m : OwnerMap}

theorem empty :
  Represents ∅ fun _ => none
  := by
  constructor
  case keyed => rintro k row ⟨⟩
  case unique => rintro k k' row row' ⟨⟩
  case entry =>
    intro p w v
    constructor
    · rintro ⟨⟩
    · rintro ⟨k, row, ⟨⟩, -⟩

/-- The row of a pod and a WebID is written under the one key where there may be one. -/
theorem insert (h : Represents owners m) {k p : Str} {w : Url}
    (own : ∀ k' row, owners.lookup k' = some row →
      (k' = k ↔ row.podId = p ∧ row.webId = w)) (v : Bool) :
  Represents (owners.insert k ⟨k, p, w, v⟩) (Function.update m (p, w) (some v))
  := by
  constructor
  case keyed =>
    intro k' row hrow
    rcases HashMap.lookup_insert_eq_some_iff.mp hrow with ⟨rfl, rfl⟩ | ⟨-, hrow⟩
    · rfl
    · exact h.keyed k' row hrow
  case unique =>
    intro k₁ k₂ row₁ row₂ hrow₁ hrow₂ hpod hweb
    rcases HashMap.lookup_insert_eq_some_iff.mp hrow₁ with ⟨rfl, rfl⟩ | ⟨-, hold₁⟩
    · rcases HashMap.lookup_insert_eq_some_iff.mp hrow₂ with ⟨rfl, rfl⟩ | ⟨-, hold₂⟩
      · rfl
      · exact ((own k₂ row₂ hold₂).mpr ⟨hpod.symm, hweb.symm⟩).symm
    · rcases HashMap.lookup_insert_eq_some_iff.mp hrow₂ with ⟨rfl, rfl⟩ | ⟨-, hold₂⟩
      · exact (own k₁ row₁ hold₁).mpr ⟨hpod, hweb⟩
      · exact h.unique k₁ k₂ row₁ row₂ hold₁ hold₂ hpod hweb
  case entry =>
    intro p' w' v'
    by_cases hkey : (p', w') = (p, w)
    · obtain ⟨rfl, rfl⟩ := Prod.mk.inj hkey
      rw [Function.update_self]
      constructor
      · rintro ⟨⟩
        exact ⟨k, ⟨k, p', w', v⟩, AList.lookup_insert owners, rfl, rfl, rfl⟩
      · rintro ⟨k', row, hrow, hpod, hweb, hvisible⟩
        rcases HashMap.lookup_insert_eq_some_iff.mp hrow with ⟨rfl, rfl⟩ | ⟨hne, hrow⟩
        · rw [← hvisible]
        · exact absurd ((own k' row hrow).mpr ⟨hpod, hweb⟩) hne
    · rw [Function.update_of_ne hkey, h.entry]
      constructor
      · rintro ⟨k', row, hrow, rfl, rfl, hvisible⟩
        refine ⟨k', row, ?_, rfl, rfl, hvisible⟩
        apply HashMap.lookup_insert_eq_some_iff.mpr
        refine .inr ⟨?_, hrow⟩
        intro hk
        obtain ⟨hp, hw⟩ := (own k' row hrow).mp hk
        exact hkey (Prod.ext hp hw)
      · rintro ⟨k', row, hrow, rfl, rfl, hvisible⟩
        rcases HashMap.lookup_insert_eq_some_iff.mp hrow with ⟨rfl, rfl⟩ | ⟨-, hrow⟩
        · exact absurd rfl hkey
        · exact ⟨k', row, hrow, rfl, rfl, hvisible⟩

/-- The one row of a pod and a WebID is removed. -/
theorem erase (h : Represents owners m) {k p : Str} {w : Url}
    (own : ∀ k' row, owners.lookup k' = some row →
      (k' = k ↔ row.podId = p ∧ row.webId = w)) :
  Represents (owners.erase k) (Function.update m (p, w) none)
  := by
  constructor
  case keyed =>
    intro k' row hrow
    exact h.keyed k' row (HashMap.lookup_erase_eq_some_iff.mp hrow).2
  case unique =>
    intro k₁ k₂ row₁ row₂ hrow₁ hrow₂
    exact h.unique k₁ k₂ row₁ row₂ (HashMap.lookup_erase_eq_some_iff.mp hrow₁).2
      (HashMap.lookup_erase_eq_some_iff.mp hrow₂).2
  case entry =>
    intro p' w' v'
    by_cases hkey : (p', w') = (p, w)
    · obtain ⟨rfl, rfl⟩ := Prod.mk.inj hkey
      rw [Function.update_self]
      constructor
      · rintro ⟨⟩
      · rintro ⟨k', row, hrow, hpod, hweb, -⟩
        obtain ⟨hne, hrow⟩ := HashMap.lookup_erase_eq_some_iff.mp hrow
        exact absurd ((own k' row hrow).mpr ⟨hpod, hweb⟩) hne
    · rw [Function.update_of_ne hkey, h.entry]
      constructor
      · rintro ⟨k', row, hrow, rfl, rfl, hvisible⟩
        refine ⟨k', row, HashMap.lookup_erase_eq_some_iff.mpr ⟨?_, hrow⟩, rfl, rfl, hvisible⟩
        intro hk
        obtain ⟨hp, hw⟩ := (own k' row hrow).mp hk
        exact hkey (Prod.ext hp hw)
      · rintro ⟨k', row, hrow, rfl, rfl, hvisible⟩
        exact ⟨k', row, (HashMap.lookup_erase_eq_some_iff.mp hrow).2, rfl, rfl, hvisible⟩

/-- Where there is no row of a pod and a WebID, the map has no entry. -/
theorem eq_none (h : Represents owners m) {p : Str} {w : Url}
    (absent : ∀ k row, owners.lookup k = some row → ¬ (row.podId = p ∧ row.webId = w)) :
  m (p, w) = none
  := by
  apply Option.eq_none_iff_forall_ne_some.mpr
  intro v hv
  obtain ⟨k, row, hrow, hpod, hweb, -⟩ := (h.entry p w v).mp hv
  exact absent k row hrow ⟨hpod, hweb⟩

end Represents

/-! ### What the calls do -/

theorem OwnerRow.matches_iff {row : OwnerRow} {p : Str} {w : Url} :
  row.matches p w = true ↔ row.podId = p ∧ row.webId = w
  := by
  rw [OwnerRow.matches, Bool.and_eq_true, decide_eq_true_eq, decide_eq_true_eq]

/-- A call changes the entries of its own pod only. -/
theorem PodCall.onMap_of_ne {call : PodCall} {p : Str} (hp : call.pod? ≠ some p) (m : OwnerMap)
    (w : Url) :
  (call.onMap m).2 (p, w) = m (p, w)
  := by
  have other : ∀ {q : Str} {v : Url} {x : Option Bool}, some q ≠ some p →
      Function.update m (q, v) x (p, w) = m (p, w) := by
    intro q v x hq
    apply Function.update_of_ne
    rintro ⟨⟩
    exact hq rfl
  cases call with
  | create _ settings _ podId _ =>
      obtain ⟨base, webId, issuer⟩ := settings
      cases webId with
      | none => rfl
      | some webId => exact other hp
  | updateOwner _ _ _ _ _ | removeOwner _ _ _ => exact other hp
  | _ => rfl

namespace Represents

variable {s : BasePodStore} {m : OwnerMap}

/-- The owners that are listed are those in the map. -/
theorem lists (h : Represents s.owners m) (p : Str) (order : IterationOrder (Str × OwnerRow)) :
  Lists (fun w => m (p, w)) (s.getOwners p order)
  := by
  have listed : ((s.owners.values order).filter fun row => row.podId = p).map OwnerRow.owner
      = ((s.owners.iter order).filter fun e => e.2.podId = p).map fun e => e.2.owner := by
    rw [HashMap.values, List.filter_map, List.map_map]
    rfl
  rw [BasePodStore.getOwners, listed]
  generalize hentries : (s.owners.iter order).filter (fun e => e.2.podId = p) = entries
  have mem_entries : ∀ {k row}, (k, row) ∈ entries ↔
      s.owners.lookup k = some row ∧ row.podId = p := by
    intro k row
    rw [← hentries, List.mem_filter, HashMap.mem_iter, decide_eq_true_eq]
  have mem : ∀ o, (o ∈ entries.map fun e => e.2.owner) ↔ m (p, o.webId) = some o.visible := by
    intro o
    rw [h.entry, List.mem_map]
    constructor
    · rintro ⟨⟨k, row⟩, hmem, rfl⟩
      obtain ⟨hrow, hpod⟩ := mem_entries.mp hmem
      exact ⟨k, row, hrow, hpod, rfl, rfl⟩
    · rintro ⟨k, row, hrow, hpod, hweb, hvisible⟩
      use (k, row), mem_entries.mpr ⟨hrow, hpod⟩
      rw [OwnerRow.owner, hweb, hvisible]
  cases hcases : entries.map fun e => e.2.owner with
  | nil =>
      apply Lists.nobody
      intro w
      apply Option.eq_none_iff_forall_ne_some.mpr
      intro v hv
      have hmem := (mem ⟨w, v⟩).mpr hv
      rw [hcases] at hmem
      cases hmem
  | cons o os =>
      rw [← hcases, List.isEmpty_eq_false_iff.mpr (by simp [hcases]), if_neg Bool.false_ne_true]
      apply Lists.listed _ _ mem
      · simp [hcases]
      · rw [List.map_map]
        apply List.Nodup.map_on
        · rintro ⟨k, row⟩ hrow ⟨k', row'⟩ hrow' hweb
          obtain ⟨hlookup, hpod⟩ := mem_entries.mp hrow
          obtain ⟨hlookup', hpod'⟩ := mem_entries.mp hrow'
          obtain rfl := h.unique k k' row row' hlookup hlookup' (hpod.trans hpod'.symm) hweb
          rw [Option.some.inj (hlookup.symm.trans hlookup')]
        · rw [← hentries]
          exact (s.owners.nodup_iter order).filter _

/-- A row that matches is the only one. -/
theorem own (h : Represents s.owners m) {k : Str} {row : OwnerRow} {p : Str} {w : Url}
    (hrow : s.owners.lookup k = some row) (hmatches : row.matches p w = true) :
  ∀ k' row', s.owners.lookup k' = some row' → (k' = k ↔ row'.podId = p ∧ row'.webId = w)
  := by
  obtain ⟨rfl, rfl⟩ := OwnerRow.matches_iff.mp hmatches
  intro k' row' hrow'
  constructor
  · rintro rfl
    rw [Option.some.inj (hrow.symm.trans hrow')]
    exact ⟨rfl, rfl⟩
  · rintro ⟨hpod, hweb⟩
    exact h.unique k' k row' row hrow' hrow hpod hweb

/-- A new key is not that of a row, so it may be taken where no row matches. -/
theorem own_of_new {k p : Str} {w : Url} (hk : k ∉ s.owners)
    (absent : ∀ k' row, s.owners.lookup k' = some row → ¬ (row.podId = p ∧ row.webId = w)) :
  ∀ k' row, s.owners.lookup k' = some row → (k' = k ↔ row.podId = p ∧ row.webId = w)
  := by
  intro k' row hrow
  constructor
  · rintro rfl
    exact absurd hrow (HashMap.notMem_iff_lookup.mp hk row)
  · exact fun hmatches => absurd hmatches (absent k' row hrow)

/-- `updateOwner` writes the row that there is, or a new one. -/
theorem updateOwner (h : Represents s.owners m) (id : Str) (webId : Url) (visible : Bool)
    {ownerId : Str} (fresh : ownerId ∉ s.owners) (order : IterationOrder (Str × OwnerRow)) :
  Represents (s.updateOwner id webId visible ownerId order).2.owners
    (Function.update m (id, webId) (some visible))
  := by
  rw [BasePodStore.updateOwner]
  cases hfind : (s.owners.iter order).find? fun e => e.2.matches id webId with
  | none =>
      apply h.insert (own_of_new fresh _)
      intro k row hrow hmatches
      apply List.find?_eq_none.mp hfind (k, row) (HashMap.mem_iter.mpr hrow)
      exact OwnerRow.matches_iff.mpr hmatches
  | some e =>
      obtain ⟨key, row⟩ := e
      have hrow := HashMap.mem_iter.mp (List.mem_of_find?_eq_some hfind)
      have hmatches := List.find?_some hfind
      have written : { row with visible := visible } = ⟨key, id, webId, visible⟩ := by
        obtain ⟨hpod, hweb⟩ := OwnerRow.matches_iff.mp hmatches
        rw [h.keyed key row hrow, hpod, hweb]
      have kept := h.insert (h.own hrow hmatches) visible
      rw [← written] at kept
      exact kept

/-- `removeOwner` removes the row that there is, if there is one. -/
theorem removeOwner (h : Represents s.owners m) (id : Str) (webId : Url)
    (order : IterationOrder (Str × OwnerRow)) :
  Represents (s.removeOwner id webId order).2.owners (Function.update m (id, webId) none)
  := by
  rw [BasePodStore.removeOwner]
  cases hfind : (s.owners.values order).find? fun row => row.matches id webId with
  | none =>
      have absent : m (id, webId) = none := by
        apply h.eq_none
        intro k row hrow hmatches
        apply List.find?_eq_none.mp hfind row
        · exact List.mem_map.mpr ⟨(k, row), HashMap.mem_iter.mpr hrow, rfl⟩
        · exact OwnerRow.matches_iff.mpr hmatches
      have same : Function.update m (id, webId) none = m := by
        rw [← absent, Function.update_eq_self]
      rw [same]
      exact h
  | some row =>
      obtain ⟨⟨key, row⟩, hmem, rfl⟩ := List.mem_map.mp (List.mem_of_find?_eq_some hfind)
      have hrow := HashMap.mem_iter.mp hmem
      have kept := h.erase (h.own hrow (List.find?_some hfind))
      rw [← h.keyed key row hrow] at kept
      exact kept

/-- Every call keeps the rows in step with the map, and answers what the map answers. -/
theorem perform (h : Represents s.owners m) {call : PodCall} (fresh : call.Fresh s) :
  (call.perform s).1.Agrees (call.onMap m).1 ∧
    Represents (call.perform s).2.owners (call.onMap m).2
  := by
  cases call with
  | create accountId settings overwrite podId ownerId =>
      obtain ⟨-, hpod, howner⟩ := fresh
      obtain ⟨base, webId, issuer⟩ := settings
      cases webId with
      | none => exact ⟨trivial, h⟩
      | some webId =>
          use trivial
          apply h.insert (own_of_new howner _)
          exact fun k row hrow hmatches => hpod k row hrow hmatches.1
  | get _ | findPods _ _ | findByBaseUrl _ _ => exact ⟨trivial, h⟩
  | getOwners id order => exact ⟨h.lists id order, h⟩
  | updateOwner id webId visible ownerId order =>
      exact ⟨trivial, h.updateOwner id webId visible fresh order⟩
  | removeOwner id webId order => exact ⟨trivial, h.removeOwner id webId order⟩

/-- A call does not change the owners of other pods. -/
theorem sameOwners (h : Represents s.owners m) {call : PodCall} (fresh : call.Fresh s) {p : Str}
    (hp : call.pod? ≠ some p) (order order' : IterationOrder (Str × OwnerRow)) :
  SameOwners (s.getOwners p order) ((call.perform s).2.getOwners p order')
  := by
  have after := (h.perform fresh).2.lists p order'
  simp only [call.onMap_of_ne hp] at after
  exact (h.lists p order).same after

end Represents

/-- In every run in which the ids drawn are new, the rows of owners are those of a map: calls
answer what they answer on the map, no two rows are about the same pod and WebID, and a call
does not change the owners of other pods. -/
theorem BasePodStore.owners_refine (calls : List PodCall)
    (fresh : Run.Each PodCall.perform (fun call s => call.Fresh s) calls new) :
  List.Forall₂ PodResult.Agrees (Run.results PodCall.perform calls new)
      (Run.results PodCall.onMap calls fun _ => none) ∧
    Run.Throughout PodCall.perform (fun s => UniqueOwners s.owners) calls new ∧
    Run.Each PodCall.perform (fun call s => ∀ p, call.pod? ≠ some p → ∀ order order',
      SameOwners (s.getOwners p order) ((call.perform s).2.getOwners p order')) calls new
  := by
  have start : Represents new.owners fun _ => none := Represents.empty
  have simulated := fresh.simulates (fun s m => Represents s.owners m) PodResult.Agrees
    (fun call s m hcall hm => hm.perform hcall) start
  have keep : ∀ (call : PodCall) s, call.Fresh s → (∃ m, Represents s.owners m) →
      (∃ m, Represents (call.perform s).2.owners m) ∧
        ∀ p, call.pod? ≠ some p → ∀ order order',
          SameOwners (s.getOwners p order) ((call.perform s).2.getOwners p order') := by
    rintro call s hcall ⟨m, hm⟩
    exact ⟨⟨_, (hm.perform hcall).2⟩, fun p hp => hm.sameOwners hcall hp⟩
  obtain ⟨throughout, each⟩ := fresh.keeps keep ⟨_, start⟩
  use simulated.1
  exact ⟨throughout.mono fun s ⟨m, hm⟩ => hm.unique, each⟩

/-- A pod gets two owners, the first of whom is removed. -/
def changeOwner : List PodCall :=
  [.create "a".toList ⟨⟨"https://pod/".toList⟩, some ⟨"https://me/".toList⟩, none⟩ false
      "1".toList "o".toList,
    .updateOwner "1".toList ⟨"https://you/".toList⟩ true "p".toList (.listed _),
    .removeOwner "1".toList ⟨"https://me/".toList⟩ (.reversed _),
    .getOwners "1".toList (.listed _)]

theorem BasePodStore.owners_refine_changeOwner :
  List.Forall₂ PodResult.Agrees (Run.results PodCall.perform changeOwner new)
      (Run.results PodCall.onMap changeOwner fun _ => none) ∧
    Run.Throughout PodCall.perform (fun s => UniqueOwners s.owners) changeOwner new ∧
    Run.Each PodCall.perform (fun call s => ∀ p, call.pod? ≠ some p → ∀ order order',
      SameOwners (s.getOwners p order) ((call.perform s).2.getOwners p order')) changeOwner new
  := by
  apply owners_refine changeOwner
  refine ⟨⟨?_, ?_, ?_⟩, ?_, trivial, trivial, trivial⟩
  · exact AList.notMem_empty _
  · rintro k row ⟨⟩
  · exact AList.notMem_empty _
  · change "p".toList ∉ _
    decide

/-! ### Pods of owners -/

namespace BasePodStore

/-- Every row of owners is about a stored pod. -/
def Housed (s : BasePodStore) : Prop :=
  ∀ k row, s.owners.lookup k = some row → row.podId ∈ s.pods

/-- A pod with owners is found. -/
def OwnersFound (s : BasePodStore) : Prop :=
  ∀ id order owners, s.getOwners id order = .ok (some owners) → ∃ info, s.get id = .ok (some info)

end BasePodStore

/-- If the call lets a WebID be an owner of a pod, the pod is stored. -/
def PodCall.OwnsStored (s : BasePodStore) : PodCall → Prop
  | updateOwner id _ _ _ _ => id ∈ s.pods
  | _ => True

namespace BasePodStore

/-- A pod has owners exactly if some row is about it. -/
theorem exists_getOwners_iff {s : BasePodStore} {id : Str}
    {order : IterationOrder (Str × OwnerRow)} :
  (∃ owners, s.getOwners id order = .ok (some owners))
    ↔ ∃ k row, s.owners.lookup k = some row ∧ row.podId = id
  := by
  have listed : (∃ owners, s.getOwners id order = .ok (some owners))
      ↔ ((s.owners.values order).filter fun row => row.podId = id) ≠ [] := by
    rw [getOwners]
    cases (s.owners.values order).filter fun row => row.podId = id <;> simp
  rw [listed]
  constructor
  · intro hne
    obtain ⟨row, hmem⟩ := List.exists_mem_of_ne_nil _ hne
    obtain ⟨hvalue, hpod⟩ := List.mem_filter.mp hmem
    obtain ⟨⟨k, row⟩, hentry, rfl⟩ := List.mem_map.mp hvalue
    exact ⟨k, row, HashMap.mem_iter.mp hentry, of_decide_eq_true hpod⟩
  · rintro ⟨k, row, hrow, hpod⟩
    apply List.ne_nil_of_mem (a := row)
    apply List.mem_filter.mpr
    use List.mem_map.mpr ⟨(k, row), HashMap.mem_iter.mpr hrow, rfl⟩
    exact decide_eq_true hpod

theorem exists_get_iff {s : BasePodStore} {id : Str} :
  (∃ info, s.get id = .ok (some info)) ↔ id ∈ s.pods
  := by
  rw [HashMap.mem_iff_lookup, get]
  cases s.pods.lookup id <;> simp

/-- Rows are about stored pods exactly if the pods with owners are found. -/
theorem housed_iff_ownersFound (s : BasePodStore) :
  s.Housed ↔ s.OwnersFound
  := by
  constructor
  · intro housed id order owners howners
    obtain ⟨k, row, hrow, rfl⟩ := exists_getOwners_iff.mp ⟨owners, howners⟩
    exact exists_get_iff.mpr (housed k row hrow)
  · intro found k row hrow
    obtain ⟨owners, howners⟩ := exists_getOwners_iff.mpr ⟨k, row, hrow, rfl⟩
    exact exists_get_iff.mp (found row.podId (.listed _) owners howners)

theorem Housed.new :
  new.Housed
  := by
  rintro k row ⟨⟩

/-- A call keeps the pods of owners stored exactly if the pod that it gives an owner is. -/
theorem Housed.perform_iff {s : BasePodStore} (h : s.Housed) (call : PodCall) :
  (call.perform s).2.Housed ↔ call.OwnsStored s
  := by
  cases call with
  | create accountId settings overwrite podId ownerId =>
      have stored : ∀ {k row}, s.owners.lookup k = some row →
          row.podId ∈ s.pods.insert podId ⟨podId, settings.base, accountId⟩ :=
        fun hrow => (AList.mem_insert _).mpr (.inr (h _ _ hrow))
      apply iff_of_true _ trivial
      obtain ⟨base, webId, issuer⟩ := settings
      cases webId with
      | none => exact fun k row hrow => stored hrow
      | some webId =>
          intro k row hrow
          rcases HashMap.lookup_insert_eq_some_iff.mp hrow with ⟨-, rfl⟩ | ⟨-, hrow⟩
          · exact (AList.mem_insert _).mpr (.inl rfl)
          · exact stored hrow
  | get _ | findPods _ _ | findByBaseUrl _ _ | getOwners _ _ => exact iff_of_true h trivial
  | updateOwner id webId visible ownerId order =>
      rw [PodCall.perform, updateOwner]
      cases hfind : (s.owners.iter order).find? fun e => e.2.matches id webId with
      | none =>
          constructor
          · intro housed
            exact housed ownerId _ (AList.lookup_insert s.owners)
          · intro hstored k row hrow
            rcases HashMap.lookup_insert_eq_some_iff.mp hrow with ⟨-, rfl⟩ | ⟨-, hrow⟩
            · exact hstored
            · exact h k row hrow
      | some e =>
          obtain ⟨key, old⟩ := e
          have hold := h key old (HashMap.mem_iter.mp (List.mem_of_find?_eq_some hfind))
          have hmatches := List.find?_some hfind
          obtain ⟨rfl, -⟩ := OwnerRow.matches_iff.mp hmatches
          apply iff_of_true _ hold
          intro k row hrow
          rcases HashMap.lookup_insert_eq_some_iff.mp hrow with ⟨-, rfl⟩ | ⟨-, hrow⟩
          · exact hold
          · exact h k row hrow
  | removeOwner id webId order =>
      apply iff_of_true _ trivial
      rw [PodCall.perform, removeOwner]
      cases (s.owners.values order).find? fun row => row.matches id webId with
      | none => exact h
      | some old =>
          intro k row hrow
          exact h k row (HashMap.lookup_erase_eq_some_iff.mp hrow).2

/-- In a run all owners are owners of stored pods exactly if every call that gives a pod an owner
finds the pod. -/
theorem owners_housed_iff (calls : List PodCall) :
  Run.Throughout PodCall.perform (fun s => s.Housed ∧ s.OwnersFound) calls new
    ↔ Run.Each PodCall.perform (fun call s => call.OwnsStored s) calls new
  := by
  have keeps : ∀ (call : PodCall) s, True → s.Housed ∧ s.OwnersFound →
      (((call.perform s).2.Housed ∧ (call.perform s).2.OwnersFound) ∧ True
        ↔ call.OwnsStored s) := by
    rintro call s - ⟨housed, -⟩
    rw [← housed_iff_ownersFound, and_self, and_true]
    exact housed.perform_iff call
  have start := (housed_iff_ownersFound new).mp Housed.new
  have runs := Run.keeps_iff keeps (Run.each_true calls new) ⟨Housed.new, start⟩
  rwa [and_iff_left (Run.each_true calls new)] at runs

/-- An owner of a pod that was never created. -/
def strayOwner : List PodCall :=
  [.updateOwner "1".toList ⟨"https://me/".toList⟩ true "o".toList (.listed _)]

theorem not_owners_housed :
  ¬ ∀ calls : List PodCall,
    Run.Throughout PodCall.perform (fun s => s.Housed ∧ s.OwnersFound) calls new
  := by
  intro h
  obtain ⟨-, housed, -⟩ := h strayOwner
  have stored := housed "o".toList _ rfl
  revert stored
  decide

end BasePodStore

end Identity
