import SolidServer.Library.HashMap
import SolidServer.Library.Runs
import SolidServer.HttpTypes

/-!
# Pods

`BasePodStore` holds the pods by their ids, and the owners of the pods by ids of their own.
The ids are drawn at random, so they are arguments of the operations here; an operation that
looks for an entry visits the entries in an order that is not specified.

A base URL belongs to one pod as long as no pod is created with the base URL of a stored one:
`create` does not look for it, whatever `overwrite` is.
-/

open Text HttpTypes

namespace Identity

/-- The settings of a new pod. -/
structure PodSettings where
  base : Url
  webId : Option Url
  oidcIssuer : Option Url

/-- A pod, as it is shown. -/
structure PodInfo where
  id : Str
  baseUrl : Url
  accountId : Str
deriving DecidableEq

/-- An owner of a pod, as it is shown. -/
structure PodOwner where
  webId : Url
  visible : Bool
deriving DecidableEq

/-- A pod, as it is stored. -/
structure PodRow where
  id : Str
  baseUrl : Url
  accountId : Str

/-- An owner of a pod, as it is stored. -/
structure OwnerRow where
  id : Str
  podId : Str
  webId : Url
  visible : Bool

/-- The pods and the owners. -/
structure BasePodStore where
  pods : HashMap Str PodRow
  owners : HashMap Str OwnerRow

/-- What is shown of a pod. -/
def PodRow.info (row : PodRow) : PodInfo :=
  ⟨row.id, row.baseUrl, row.accountId⟩

/-- What is shown of an owner. -/
def OwnerRow.owner (row : OwnerRow) : PodOwner :=
  ⟨row.webId, row.visible⟩

/-- The row says that the WebID owns the pod. -/
def OwnerRow.matches (id : Str) (webId : Url) (row : OwnerRow) : Bool :=
  row.podId = id && row.webId = webId

namespace BasePodStore

/-- The store without pods. -/
def new : BasePodStore where
  pods := ∅
  owners := ∅

/-- Store a new pod, and its first owner if there is one. -/
def create (accountId : Str) (settings : PodSettings) (_overwrite : Bool) (podId ownerId : Str)
    (s : BasePodStore) : Except Str Str × BasePodStore :=
  let pods := s.pods.insert podId ⟨podId, settings.base, accountId⟩
  match settings.webId with
  | some webId =>
      (.ok podId, ⟨pods, s.owners.insert ownerId ⟨ownerId, podId, webId, false⟩⟩)
  | none => (.ok podId, ⟨pods, s.owners⟩)

/-- The pod with an id. -/
def get (id : Str) (s : BasePodStore) : Except Str (Option PodInfo) :=
  .ok ((s.pods.lookup id).map PodRow.info)

/-- The pods of an account. -/
def findPods (accountId : Str) (order : IterationOrder (Str × PodRow)) (s : BasePodStore) :
    Except Str (List PodInfo) :=
  .ok (((s.pods.values order).filter fun row => row.accountId = accountId).map PodRow.info)

/-- The first pod with a base URL. -/
def findByBaseUrl (baseUrl : Url) (order : IterationOrder (Str × PodRow)) (s : BasePodStore) :
    Except Str (Option PodInfo) :=
  .ok (((s.pods.values order).find? fun row => row.baseUrl = baseUrl).map PodRow.info)

/-- The owners of a pod, if there are any. -/
def getOwners (id : Str) (order : IterationOrder (Str × OwnerRow)) (s : BasePodStore) :
    Except Str (Option (List PodOwner)) :=
  let owners := ((s.owners.values order).filter fun row => row.podId = id).map OwnerRow.owner
  .ok (if owners.isEmpty then none else some owners)

/-- Let a WebID be an owner of a pod, with the given visibility. -/
def updateOwner (id : Str) (webId : Url) (visible : Bool) (ownerId : Str)
    (order : IterationOrder (Str × OwnerRow)) (s : BasePodStore) :
    Except Str Unit × BasePodStore :=
  match (s.owners.iter order).find? fun e => e.2.matches id webId with
  | some (key, row) =>
      (.ok (), { s with owners := s.owners.insert key { row with visible := visible } })
  | none => (.ok (), { s with owners := s.owners.insert ownerId ⟨ownerId, id, webId, visible⟩ })

/-- Let a WebID be no owner of a pod any more. -/
def removeOwner (id : Str) (webId : Url) (order : IterationOrder (Str × OwnerRow))
    (s : BasePodStore) : Except Str Unit × BasePodStore :=
  match (s.owners.values order).find? fun row => row.matches id webId with
  | some row => (.ok (), { s with owners := s.owners.erase row.id })
  | none => (.ok (), s)

end BasePodStore

/-- A call on the store, with the ids that it draws. -/
inductive PodCall where
  | create (accountId : Str) (settings : PodSettings) (overwrite : Bool) (podId ownerId : Str)
  | get (id : Str)
  | findPods (accountId : Str) (order : IterationOrder (Str × PodRow))
  | findByBaseUrl (baseUrl : Url) (order : IterationOrder (Str × PodRow))
  | getOwners (id : Str) (order : IterationOrder (Str × OwnerRow))
  | updateOwner (id : Str) (webId : Url) (visible : Bool) (ownerId : Str)
      (order : IterationOrder (Str × OwnerRow))
  | removeOwner (id : Str) (webId : Url) (order : IterationOrder (Str × OwnerRow))

/-- What a call returns. -/
inductive PodResult where
  | created (r : Except Str Str)
  | pod (r : Except Str (Option PodInfo))
  | pods (r : Except Str (List PodInfo))
  | owners (r : Except Str (Option (List PodOwner)))
  | done (r : Except Str Unit)

namespace PodCall

/-- The result of a call and the store it leaves. -/
def perform : PodCall → BasePodStore → PodResult × BasePodStore
  | create accountId settings overwrite podId ownerId, s =>
      let (r, s') := s.create accountId settings overwrite podId ownerId
      (.created r, s')
  | get id, s => (.pod (s.get id), s)
  | findPods accountId order, s => (.pods (s.findPods accountId order), s)
  | findByBaseUrl baseUrl order, s => (.pod (s.findByBaseUrl baseUrl order), s)
  | getOwners id order, s => (.owners (s.getOwners id order), s)
  | updateOwner id webId visible ownerId order, s =>
      let (r, s') := s.updateOwner id webId visible ownerId order
      (.done r, s')
  | removeOwner id webId order, s =>
      let (r, s') := s.removeOwner id webId order
      (.done r, s')

/-- The call overwrites a pod, if it creates one. -/
def overwrites : PodCall → Bool
  | create _ _ overwrite _ _ => overwrite
  | _ => false

end PodCall

/-! ### Base URLs -/

namespace BasePodStore

/-- No two pods have the same base URL. -/
def UniqueBases (s : BasePodStore) : Prop :=
  ∀ id id' row row', s.pods.lookup id = some row → s.pods.lookup id' = some row' →
    row.baseUrl = row'.baseUrl → id = id'

/-- A pod with the base URL is stored. -/
def Allocated (s : BasePodStore) (baseUrl : Url) : Prop :=
  ∃ id row, s.pods.lookup id = some row ∧ row.baseUrl = baseUrl

/-- The order in which the pods are visited makes no difference to what is found. -/
def Determined (s : BasePodStore) : Prop :=
  ∀ baseUrl order order', s.findByBaseUrl baseUrl order = s.findByBaseUrl baseUrl order'

end BasePodStore

/-- If the call creates a pod with a base URL that is allocated, it fails and changes
nothing. -/
def PodCall.RefusesAllocated (call : PodCall) (s : BasePodStore) : Prop :=
  ∀ accountId settings overwrite podId ownerId,
    call = .create accountId settings overwrite podId ownerId → s.Allocated settings.base →
    (∃ e, (call.perform s).1 = .created (.error e)) ∧ (call.perform s).2 = s

/-- The call creates a pod with a base URL that is allocated. -/
def PodCall.CreatesAllocated (s : BasePodStore) : PodCall → Prop
  | create _ settings _ _ _ => s.Allocated settings.base
  | _ => False

namespace BasePodStore

theorem UniqueBases.new :
  new.UniqueBases
  := by
  intro id id' row row' h
  cases h

theorem UniqueBases.determined {s : BasePodStore} (h : s.UniqueBases) :
  s.Determined
  := by
  intro baseUrl order order'
  have key : ∀ order, (s.pods.values order).find? (fun row => row.baseUrl = baseUrl)
      = ((s.pods.iter order).find? fun e => e.2.baseUrl = baseUrl).map Prod.snd :=
    fun order => List.find?_map
  have same : ((s.pods.iter order).find? fun e => e.2.baseUrl = baseUrl)
      = (s.pods.iter order').find? fun e => e.2.baseUrl = baseUrl := by
    apply find?_eq_of_perm ((order.perm _).trans (order'.perm _).symm)
    rintro ⟨id, row⟩ hrow ⟨id', row'⟩ hrow' hbase hbase'
    rw [← HashMap.iter, HashMap.mem_iter] at hrow hrow'
    obtain rfl := h id id' row row' hrow hrow'
      ((of_decide_eq_true hbase).trans (of_decide_eq_true hbase').symm)
    rw [Option.some.inj (hrow.symm.trans hrow')]
  rw [findByBaseUrl, findByBaseUrl, key, key, same]

end BasePodStore

/-- A call other than `create` leaves the pods as they are. -/
theorem PodCall.pods_perform {call : PodCall} (s : BasePodStore)
    (h : ∀ accountId settings overwrite podId ownerId,
      call ≠ .create accountId settings overwrite podId ownerId) :
  (call.perform s).2.pods = s.pods
  := by
  cases call with
  | create accountId settings overwrite podId ownerId => exact absurd rfl (h _ _ _ _ _)
  | get _ | findPods _ _ | findByBaseUrl _ _ | getOwners _ _ => rfl
  | updateOwner id webId visible ownerId order =>
      simp only [perform, BasePodStore.updateOwner]
      split <;> rfl
  | removeOwner id webId order =>
      simp only [perform, BasePodStore.removeOwner]
      split <;> rfl

theorem PodCall.perform_create (accountId : Str) (settings : PodSettings) (overwrite : Bool)
    (podId ownerId : Str) (s : BasePodStore) :
  ((create accountId settings overwrite podId ownerId).perform s).1 = .created (.ok podId) ∧
    ((create accountId settings overwrite podId ownerId).perform s).2.pods
      = s.pods.insert podId ⟨podId, settings.base, accountId⟩
  := by
  simp only [perform, BasePodStore.create]
  split <;> exact ⟨rfl, rfl⟩

/-- A call keeps the base URLs different, unless it creates a pod with an allocated one. -/
theorem BasePodStore.UniqueBases.perform {s : BasePodStore} (h : s.UniqueBases) {call : PodCall}
    (free : ¬ call.CreatesAllocated s) :
  (call.perform s).2.UniqueBases
  := by
  cases call with
  | create accountId settings overwrite podId ownerId =>
      have other : ∀ {id row}, s.pods.lookup id = some row → row.baseUrl ≠ settings.base :=
        fun hrow hbase => free ⟨_, _, hrow, hbase⟩
      intro id id' row row' hrow hrow' hbase
      rw [(PodCall.perform_create ..).2, HashMap.lookup_insert_eq_some_iff] at hrow hrow'
      rcases hrow with ⟨rfl, rfl⟩ | ⟨-, hrow⟩
      · rcases hrow' with ⟨rfl, -⟩ | ⟨-, hrow'⟩
        · rfl
        · exact absurd hbase.symm (other hrow')
      · rcases hrow' with ⟨-, rfl⟩ | ⟨-, hrow'⟩
        · exact absurd hbase (other hrow)
        · exact h id id' row row' hrow hrow' hbase
  | _ =>
      intro id id' row row'
      rw [PodCall.pods_perform s (by rintro _ _ _ _ _ ⟨⟩)]
      exact h id id' row row'

/-- A call that creates a pod with an allocated base URL does not fail. -/
theorem PodCall.not_refusesAllocated {call : PodCall} {s : BasePodStore}
    (h : call.CreatesAllocated s) :
  ¬ call.RefusesAllocated s
  := by
  cases call with
  | create accountId settings overwrite podId ownerId =>
      intro hrefuses
      obtain ⟨⟨e, he⟩, -⟩ := hrefuses _ _ _ _ _ rfl h
      rw [(perform_create ..).1] at he
      cases he
  | _ => cases h

theorem PodCall.refusesAllocated {call : PodCall} {s : BasePodStore}
    (h : ¬ call.CreatesAllocated s) :
  call.RefusesAllocated s
  := by
  rintro accountId settings overwrite podId ownerId rfl hallocated
  exact absurd hallocated h

namespace BasePodStore

/-- In a run base URLs stay different, what is found by a base URL does not depend on the order
in which the pods are visited, and a pod with an allocated base URL is never created, exactly if
no call of the run tries to. -/
theorem base_urls_unique_iff (calls : List PodCall) :
  (Run.Throughout PodCall.perform (fun s => s.UniqueBases ∧ s.Determined) calls new ∧
      Run.Each PodCall.perform (fun call s => call.RefusesAllocated s) calls new)
    ↔ Run.Each PodCall.perform (fun call s => ¬ call.CreatesAllocated s) calls new
  := by
  apply Run.keeps_iff _ (Run.each_true calls new) ⟨UniqueBases.new, UniqueBases.new.determined⟩
  rintro call s - ⟨unique, -⟩
  constructor
  · rintro ⟨-, refuses⟩ hcreates
    exact PodCall.not_refusesAllocated hcreates refuses
  · intro free
    have kept := unique.perform free
    exact ⟨⟨kept, kept.determined⟩, PodCall.refusesAllocated free⟩

/-- Two accounts create a pod with the same base URL. -/
def createTwice : List PodCall :=
  [.create "a".toList ⟨⟨"https://pod/".toList⟩, none, none⟩ false "1".toList "o".toList,
    .create "b".toList ⟨⟨"https://pod/".toList⟩, none, none⟩ false "2".toList "p".toList]

/-- Two pods may have the same base URL, and then which one is found is not determined. -/
theorem not_base_urls_unique :
  ¬ ∀ calls : List PodCall, (∀ call ∈ calls, call.overwrites = false) →
    Run.Throughout PodCall.perform (fun s => s.UniqueBases ∧ s.Determined) calls new ∧
      Run.Each PodCall.perform (fun call s => call.RefusesAllocated s) calls new
  := by
  intro h
  obtain ⟨⟨-, -, -, determined⟩, -⟩ := h createTwice (by decide)
  have same := determined ⟨"https://pod/".toList⟩ (.listed _) (.reversed _)
  revert same
  decide

end BasePodStore

end Identity
