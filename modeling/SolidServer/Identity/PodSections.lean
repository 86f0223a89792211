import SolidServer.Library.FreshCalls
import SolidServer.Library.Observation
import SolidServer.Identity.PodOwners

/-!
# Pods under concurrent calls

The pods and the owners are behind locks of their own, and `create` takes one after the other:
a new pod is seen before its first owner is.  The calls are put in order table by table: what is
returned about pods is explained by one sequential order of the calls, and what is returned about
owners by another one (`tables_linearizable`).

If ids are drawn that are new, and the owners of a pod are changed by clients only to whom its
creation has returned, the owners that are listed are those of a map from pods and WebIDs to
visibilities, which the calls change one after another (`owners_listed`).
-/

open Text Atomic HttpTypes

namespace Identity

/-- What a call does under one of the locks. -/
inductive PodCmd where
  | insertPod (podId : Str) (row : PodRow)
  | insertOwner (ownerId : Str) (row : OwnerRow)
  | get (id : Str)
  | findPods (accountId : Str) (order : IterationOrder (Str × PodRow))
  | findByBaseUrl (baseUrl : Url) (order : IterationOrder (Str × PodRow))
  | getOwners (id : Str) (order : IterationOrder (Str × OwnerRow))
  | updateOwner (id : Str) (webId : Url) (visible : Bool) (ownerId : Str)
      (order : IterationOrder (Str × OwnerRow))
  | removeOwner (id : Str) (webId : Url) (order : IterationOrder (Str × OwnerRow))

namespace PodCmd

/-- What the call knows when it has released the lock. -/
def Answer : PodCmd → Type
  | insertPod _ _ | insertOwner _ _ => Unit
  | get _ | findByBaseUrl _ _ => Except Str (Option PodInfo)
  | findPods _ _ => Except Str (List PodInfo)
  | getOwners _ _ => Except Str (Option (List PodOwner))
  | updateOwner _ _ _ _ _ | removeOwner _ _ _ => Except Str Unit

/-- The effect of a section on the store. -/
def exec : (c : PodCmd) → BasePodStore → c.Answer × BasePodStore
  | insertPod podId row, s => ((), { s with pods := s.pods.insert podId row })
  | insertOwner ownerId row, s => ((), { s with owners := s.owners.insert ownerId row })
  | get id, s => (s.get id, s)
  | findPods accountId order, s => (s.findPods accountId order, s)
  | findByBaseUrl baseUrl order, s => (s.findByBaseUrl baseUrl order, s)
  | getOwners id order, s => (s.getOwners id order, s)
  | updateOwner id webId visible ownerId order, s => s.updateOwner id webId visible ownerId order
  | removeOwner id webId order, s => s.removeOwner id webId order

/-- The section is about the owners. -/
def onOwners : PodCmd → Bool
  | insertOwner _ _ | getOwners _ _ | updateOwner _ _ _ _ _ | removeOwner _ _ _ => true
  | _ => false

/-- A section leaves the table alone that it is not about. -/
theorem exec_other (c : PodCmd) (s : BasePodStore) :
  (c.onOwners = true → (c.exec s).2.pods = s.pods) ∧
    (c.onOwners = false → (c.exec s).2.owners = s.owners)
  := by
  cases c with
  | updateOwner id webId visible ownerId order =>
      constructor
      · intro _
        simp only [exec, BasePodStore.updateOwner]
        split <;> rfl
      · rintro ⟨⟩
  | removeOwner id webId order =>
      constructor
      · intro _
        simp only [exec, BasePodStore.removeOwner]
        split <;> rfl
      · rintro ⟨⟩
  | insertPod _ _ | get _ | findPods _ _ | findByBaseUrl _ _ =>
      constructor
      · rintro ⟨⟩
      · intro _
        rfl
  | insertOwner _ _ | getOwners _ _ =>
      constructor
      · intro _
        rfl
      · rintro ⟨⟩

end PodCmd

namespace PodCall

/-- The sections of a call. -/
def impl : PodCall → Prog PodCmd PodCmd.Answer PodResult
  | create accountId settings _ podId ownerId => do
      Prog.call (PodCmd.insertPod podId ⟨podId, settings.base, accountId⟩)
      match settings.webId with
      | some webId =>
          Prog.call (PodCmd.insertOwner ownerId ⟨ownerId, podId, webId, false⟩)
          return .created (.ok podId)
      | none => return .created (.ok podId)
  | get id => do return .pod (← Prog.call (PodCmd.get id))
  | findPods accountId order => do
      return .pods (← Prog.call (PodCmd.findPods accountId order))
  | findByBaseUrl baseUrl order => do
      return .pod (← Prog.call (PodCmd.findByBaseUrl baseUrl order))
  | getOwners id order => do return .owners (← Prog.call (PodCmd.getOwners id order))
  | updateOwner id webId visible ownerId order => do
      return .done (← Prog.call (PodCmd.updateOwner id webId visible ownerId order))
  | removeOwner id webId order => do
      return .done (← Prog.call (PodCmd.removeOwner id webId order))

/-- Alone, the sections do what the call does. -/
theorem run_impl (call : PodCall) (s : BasePodStore) :
  call.impl.run PodCmd.exec s = call.perform s
  := by
  cases call with
  | create accountId settings overwrite podId ownerId =>
      obtain ⟨base, webId, issuer⟩ := settings
      cases webId <;> rfl
  | _ => rfl

end PodCall

/-- A store that clients call concurrently. -/
def podMachine : Machine PodCmd PodCmd.Answer BasePodStore PodCall PodResult Empty where
  impl := PodCall.impl
  exec c s := some (c.exec s)
  env e := e.elim

/-- The configurations of the store. -/
abbrev PodConfig (Client : Type) :=
  Config Client PodCmd PodCmd.Answer BasePodStore PodCall PodResult

/-! ### Table by table -/

namespace PodCall

/-- The call has a section about the pods. -/
def onPods : PodCall → Bool
  | create _ _ _ _ _ | get _ | findPods _ _ | findByBaseUrl _ _ => true
  | _ => false

/-- The call has a section about the owners. -/
def onOwners : PodCall → Bool
  | create _ settings _ _ _ => settings.webId.isSome
  | getOwners _ _ | updateOwner _ _ _ _ _ | removeOwner _ _ _ => true
  | _ => false

/-- The call returns something about the pods. -/
def readsPods : PodCall → Bool
  | get _ | findPods _ _ | findByBaseUrl _ _ => true
  | _ => false

/-- The call returns something about the owners. -/
def readsOwners : PodCall → Bool
  | getOwners _ _ => true
  | _ => false

end PodCall

/-- The pods, and what is returned but about the owners, with a call placed at its section about
the pods. -/
def podsView : View PodCmd BasePodStore PodCall PodResult where
  spec := PodCall.perform
  Same s t := s.pods = t.pods
  Observed call := call.readsOwners = false
  atCall call := !call.onPods
  atCommand _ c := !c.onOwners

/-- The owners, and what is returned but about the pods, with a call placed at its section about
the owners. -/
def ownersView : View PodCmd BasePodStore PodCall PodResult where
  spec := PodCall.perform
  Same s t := s.owners = t.owners
  Observed call := call.readsPods = false
  atCall call := !call.onOwners
  atCommand _ c := c.onOwners

theorem silent_podsView {c : PodCmd} (h : c.onOwners = true) :
  podMachine.Silent podsView c
  := by
  intro t u r u' same hexec
  obtain ⟨rfl, rfl⟩ := Prod.mk.inj (Option.some.inj hexec)
  apply same.trans ((c.exec_other u).1 h).symm

theorem silent_ownersView {c : PodCmd} (h : c.onOwners = false) :
  podMachine.Silent ownersView c
  := by
  intro t u r u' same hexec
  obtain ⟨rfl, rfl⟩ := Prod.mk.inj (Option.some.inj hexec)
  apply same.trans ((c.exec_other u).2 h).symm

/-- Changing the owners does not fail. -/
theorem answer_updateOwner {id ownerId : Str} {webId : Url} {visible : Bool}
    {order : IterationOrder (Str × OwnerRow)} {r : Except Str Unit}
    (h : podMachine.Answers (.updateOwner id webId visible ownerId order) r) :
  r = .ok ()
  := by
  obtain ⟨s, t, hexec⟩ := h
  obtain ⟨rfl, -⟩ := Prod.mk.inj (Option.some.inj hexec)
  change (s.updateOwner id webId visible ownerId order).1 = .ok ()
  rw [BasePodStore.updateOwner]
  split <;> rfl

theorem answer_removeOwner {id : Str} {webId : Url} {order : IterationOrder (Str × OwnerRow)}
    {r : Except Str Unit} (h : podMachine.Answers (.removeOwner id webId order) r) :
  r = .ok ()
  := by
  obtain ⟨s, t, hexec⟩ := h
  obtain ⟨rfl, -⟩ := Prod.mk.inj (Option.some.inj hexec)
  change (s.removeOwner id webId order).1 = .ok ()
  rw [BasePodStore.removeOwner]
  split <;> rfl

theorem faithful_podsView :
  podMachine.Faithful podsView
  := by
  intro call
  cases call with
  | create accountId settings overwrite podId ownerId =>
      right
      refine ⟨rfl, .inl ⟨rfl, ?_⟩⟩
      intro t u r u' same hexec
      obtain ⟨rfl, rfl⟩ := Prod.mk.inj (Option.some.inj hexec)
      obtain ⟨value, pods⟩ := PodCall.perform_create accountId settings overwrite podId ownerId t
      constructor
      · apply pods.trans (congrArg (AList.insert podId _) same)
      · use .created (.ok podId)
        obtain ⟨base, webId, issuer⟩ := settings
        cases webId with
        | none => exact ⟨fun _ => rfl, fun _ => value⟩
        | some webId =>
            exact ⟨⟨rfl, silent_podsView rfl, fun _ _ _ => rfl⟩, fun _ => value⟩
  | get id =>
      right
      refine ⟨rfl, .inl ⟨rfl, ?_⟩⟩
      intro t u r u' same hexec
      obtain ⟨rfl, rfl⟩ := Prod.mk.inj (Option.some.inj hexec)
      refine ⟨same, .pod (u.get id), fun _ => rfl, fun _ => ?_⟩
      apply congrArg (fun pods => PodResult.pod (BasePodStore.get id ⟨pods, u.owners⟩)) same
  | findPods accountId order =>
      right
      refine ⟨rfl, .inl ⟨rfl, ?_⟩⟩
      intro t u r u' same hexec
      obtain ⟨rfl, rfl⟩ := Prod.mk.inj (Option.some.inj hexec)
      refine ⟨same, .pods (u.findPods accountId order), fun _ => rfl, fun _ => ?_⟩
      apply congrArg (fun pods => PodResult.pods
        (BasePodStore.findPods accountId order ⟨pods, u.owners⟩)) same
  | findByBaseUrl baseUrl order =>
      right
      refine ⟨rfl, .inl ⟨rfl, ?_⟩⟩
      intro t u r u' same hexec
      obtain ⟨rfl, rfl⟩ := Prod.mk.inj (Option.some.inj hexec)
      refine ⟨same, .pod (u.findByBaseUrl baseUrl order), fun _ => rfl, fun _ => ?_⟩
      apply congrArg (fun pods => PodResult.pod
        (BasePodStore.findByBaseUrl baseUrl order ⟨pods, u.owners⟩)) same
  | getOwners id order =>
      left
      refine ⟨rfl, .owners (.ok none), ⟨rfl, silent_podsView rfl, fun _ _ => nofun⟩, ?_⟩
      exact fun t u same => ⟨same, nofun⟩
  | updateOwner id webId visible ownerId order =>
      left
      refine ⟨rfl, .done (.ok ()), ⟨rfl, silent_podsView rfl, ?_⟩, ?_⟩
      · exact fun r hr _ => congrArg PodResult.done (answer_updateOwner hr)
      · intro t u same
        constructor
        · have kept := (PodCmd.exec_other (.updateOwner id webId visible ownerId order) t).1 rfl
          apply kept.trans same
        · exact fun _ => congrArg PodResult.done (answer_updateOwner ⟨t, _, rfl⟩)
  | removeOwner id webId order =>
      left
      refine ⟨rfl, .done (.ok ()), ⟨rfl, silent_podsView rfl, ?_⟩, ?_⟩
      · exact fun r hr _ => congrArg PodResult.done (answer_removeOwner hr)
      · intro t u same
        constructor
        · have kept := (PodCmd.exec_other (.removeOwner id webId order) t).1 rfl
          apply kept.trans same
        · exact fun _ => congrArg PodResult.done (answer_removeOwner ⟨t, _, rfl⟩)

theorem faithful_ownersView :
  podMachine.Faithful ownersView
  := by
  intro call
  cases call with
  | create accountId settings overwrite podId ownerId =>
      obtain ⟨base, webId, issuer⟩ := settings
      cases webId with
      | none =>
          left
          refine ⟨rfl, .created (.ok podId), ⟨rfl, silent_ownersView rfl, fun _ _ _ => rfl⟩, ?_⟩
          exact fun t u same => ⟨same, fun _ => rfl⟩
      | some webId =>
          right
          refine ⟨rfl, .inr ⟨rfl, silent_ownersView rfl, fun _ _ => .inl ⟨rfl, ?_⟩⟩⟩
          intro t u r u' same hexec
          obtain ⟨rfl, rfl⟩ := Prod.mk.inj (Option.some.inj hexec)
          refine ⟨?_, .created (.ok podId), fun _ => rfl, fun _ => rfl⟩
          apply congrArg (AList.insert ownerId _) same
  | get id =>
      left
      refine ⟨rfl, .pod (.ok none), ⟨rfl, silent_ownersView rfl, fun _ _ => nofun⟩, ?_⟩
      exact fun t u same => ⟨same, nofun⟩
  | findPods accountId order =>
      left
      refine ⟨rfl, .pods (.ok []), ⟨rfl, silent_ownersView rfl, fun _ _ => nofun⟩, ?_⟩
      exact fun t u same => ⟨same, nofun⟩
  | findByBaseUrl baseUrl order =>
      left
      refine ⟨rfl, .pod (.ok none), ⟨rfl, silent_ownersView rfl, fun _ _ => nofun⟩, ?_⟩
      exact fun t u same => ⟨same, nofun⟩
  | getOwners id order =>
      right
      refine ⟨rfl, .inl ⟨rfl, ?_⟩⟩
      intro t u r u' same hexec
      obtain ⟨rfl, rfl⟩ := Prod.mk.inj (Option.some.inj hexec)
      refine ⟨same, .owners (u.getOwners id order), fun _ => rfl, fun _ => ?_⟩
      apply congrArg (fun owners => PodResult.owners
        (BasePodStore.getOwners id order ⟨u.pods, owners⟩)) same
  | updateOwner id webId visible ownerId order =>
      right
      refine ⟨rfl, .inl ⟨rfl, ?_⟩⟩
      intro t u r u' same hexec
      obtain ⟨rfl, rfl⟩ := Prod.mk.inj (Option.some.inj hexec)
      refine ⟨?_, .done (.ok ()), ?_, ?_⟩
      · change (t.updateOwner id webId visible ownerId order).2.owners
          = (u.updateOwner id webId visible ownerId order).2.owners
        rw [BasePodStore.updateOwner, BasePodStore.updateOwner, show t.owners = u.owners from same]
        split <;> rfl
      · exact fun _ => congrArg PodResult.done (answer_updateOwner ⟨u, _, rfl⟩)
      · exact fun _ => congrArg PodResult.done (answer_updateOwner ⟨t, _, rfl⟩)
  | removeOwner id webId order =>
      right
      refine ⟨rfl, .inl ⟨rfl, ?_⟩⟩
      intro t u r u' same hexec
      obtain ⟨rfl, rfl⟩ := Prod.mk.inj (Option.some.inj hexec)
      refine ⟨?_, .done (.ok ()), ?_, ?_⟩
      · change (t.removeOwner id webId order).2.owners = (u.removeOwner id webId order).2.owners
        rw [BasePodStore.removeOwner, BasePodStore.removeOwner, show t.owners = u.owners from same]
        split
        · rfl
        · apply same
      · exact fun _ => congrArg PodResult.done (answer_removeOwner ⟨u, _, rfl⟩)
      · exact fun _ => congrArg PodResult.done (answer_removeOwner ⟨t, _, rfl⟩)

section

variable {Client : Type} [DecidableEq Client]

/-- In every run the calls have two sequential orders: one that explains what is returned about
pods, and the pods, and one that explains what is returned about owners, and the owners. -/
theorem tables_linearizable (s : BasePodStore) (cfg : PodConfig Client)
    (h : podMachine.Reachable (Config.init s) cfg) :
  (∃ order, Linearizes cfg.history order ∧
    (∀ n call r, .ret n call r ∈ cfg.history → call.readsOwners = false →
      (n, r) ∈ outcomes PodCall.perform order s) ∧
    (final PodCall.perform order s).pods = cfg.shared.pods) ∧
  ∃ order, Linearizes cfg.history order ∧
    (∀ n call r, .ret n call r ∈ cfg.history → call.readsPods = false →
      (n, r) ∈ outcomes PodCall.perform order s) ∧
    (final PodCall.perform order s).owners = cfg.shared.owners
  := by
  constructor
  · apply Machine.linearizes_of_faithful faithful_podsView rfl h
  · apply Machine.linearizes_of_faithful faithful_ownersView rfl h

end

/-- A pod is seen before its owner is, and gets another owner when it has been created. -/
def seenBeforeOwner : List (Turn Bool PodCall Empty) :=
  [.call false (.create "a".toList ⟨⟨"https://pod/".toList⟩, some ⟨"https://me/".toList⟩, none⟩
      false "1".toList "o".toList), .act false,
    .call true (.get "1".toList), .act true, .ret true,
    .call true (.getOwners "1".toList (.listed _)), .act true, .ret true,
    .act false, .ret false,
    .call true (.updateOwner "1".toList ⟨"https://you/".toList⟩ true "p".toList (.listed _)),
    .act true, .ret true,
    .call true (.getOwners "1".toList (.reversed _)), .act true, .ret true]

theorem tables_linearizable_seenBeforeOwner :
  let cfg := podMachine.after (Config.init .new) seenBeforeOwner
  (∃ order, Linearizes cfg.history order ∧
    (∀ n call r, .ret n call r ∈ cfg.history → call.readsOwners = false →
      (n, r) ∈ outcomes PodCall.perform order .new) ∧
    (final PodCall.perform order .new).pods = cfg.shared.pods) ∧
  ∃ order, Linearizes cfg.history order ∧
    (∀ n call r, .ret n call r ∈ cfg.history → call.readsPods = false →
      (n, r) ∈ outcomes PodCall.perform order .new) ∧
    (final PodCall.perform order .new).owners = cfg.shared.owners
  := tables_linearizable .new _ (Machine.reachable_after seenBeforeOwner)

/-! ### The owners of created pods -/

namespace PodCall

/-- The id drawn for a new pod. -/
def drawnPod : PodCall → Option Str
  | create _ _ _ podId _ => some podId
  | _ => none

/-- The id drawn for a new row of owners. -/
def drawnOwner : PodCall → Option Str
  | create _ _ _ _ ownerId | updateOwner _ _ _ ownerId _ => some ownerId
  | _ => none

/-- The pod that the call may give an owner. -/
def owned : PodCall → Option Str
  | create _ _ _ podId _ | updateOwner podId _ _ _ _ => some podId
  | _ => none

end PodCall

/-- A pod is given an owner only when its creation has returned. -/
def ownsCreated {Client : Type} (cfg : PodConfig Client) : Turn Client PodCall Empty → Bool
  | .call _ (.updateOwner id _ _ _ _) => cfg.history.any fun e =>
      match e with
      | .ret _ call _ => call.drawnPod = some id
      | _ => false
  | _ => true

/-- The ids drawn are new, and pods are given owners only when their creation has returned. -/
def careful {Client : Type} (cfg : PodConfig Client) (turn : Turn Client PodCall Empty) : Bool :=
  freshCall PodCall.drawnPod cfg turn && freshCall PodCall.drawnOwner cfg turn &&
    ownsCreated cfg turn

theorem careful_iff {Client : Type} {cfg : PodConfig Client} {turn : Turn Client PodCall Empty} :
  careful cfg turn = true ↔ freshCall PodCall.drawnPod cfg turn = true ∧
    freshCall PodCall.drawnOwner cfg turn = true ∧ ownsCreated cfg turn = true
  := by
  simp only [careful, Bool.and_eq_true, and_assoc]

/-- Everything in the store was drawn or named by one of the calls. -/
structure Known (ops : List (ℕ × PodCall)) (s : BasePodStore) : Prop where
  pod : ∀ id ∈ s.pods, ∃ x ∈ ops, x.2.drawnPod = some id
  key : ∀ k row, s.owners.lookup k = some row → ∃ x ∈ ops, x.2.drawnOwner = some k
  row : ∀ k row, s.owners.lookup k = some row → ∃ x ∈ ops, x.2.owned = some row.podId

namespace Known

variable {ops : List (ℕ × PodCall)} {s : BasePodStore}

theorem append (h : Known ops s) (l : List (ℕ × PodCall)) :
  Known (ops ++ l) s
  := by
  constructor
  · intro id hid
    obtain ⟨x, hx, hpod⟩ := h.pod id hid
    exact ⟨x, List.mem_append_left l hx, hpod⟩
  · intro k row hrow
    obtain ⟨x, hx, hkey⟩ := h.key k row hrow
    exact ⟨x, List.mem_append_left l hx, hkey⟩
  · intro k row hrow
    obtain ⟨x, hx, howned⟩ := h.row k row hrow
    exact ⟨x, List.mem_append_left l hx, howned⟩

/-- A row is written that one of the calls has drawn or named. -/
theorem insert (h : Known ops s) {k : Str} {row : OwnerRow}
    (hkey : ∃ x ∈ ops, x.2.drawnOwner = some k) (hrow : ∃ x ∈ ops, x.2.owned = some row.podId) :
  Known ops { s with owners := s.owners.insert k row }
  := by
  constructor
  · apply h.pod
  · intro k' row' hrow'
    rcases HashMap.lookup_insert_eq_some_iff.mp hrow' with ⟨rfl, -⟩ | ⟨-, hold⟩
    · apply hkey
    · apply h.key k' row' hold
  · intro k' row' hrow'
    rcases HashMap.lookup_insert_eq_some_iff.mp hrow' with ⟨-, rfl⟩ | ⟨-, hold⟩
    · apply hrow
    · apply h.row k' row' hold

theorem concat (h : Known ops s) (n : ℕ) (call : PodCall) :
  Known (ops ++ [(n, call)]) (call.perform s).2
  := by
  have kept := h.append [(n, call)]
  have last : (n, call) ∈ ops ++ [(n, call)] :=
    List.mem_append_right _ (List.mem_singleton_self _)
  cases call with
  | create accountId settings overwrite podId ownerId =>
      have pods : Known (ops ++ [(n, .create accountId settings overwrite podId ownerId)])
          { s with pods := s.pods.insert podId ⟨podId, settings.base, accountId⟩ } := by
        refine ⟨?_, kept.key, kept.row⟩
        intro id hid
        rcases (AList.mem_insert _).mp hid with rfl | hid
        · exact ⟨_, last, rfl⟩
        · apply kept.pod id hid
      obtain ⟨base, webId, issuer⟩ := settings
      cases webId with
      | none => apply pods
      | some webId => apply pods.insert ⟨_, last, rfl⟩ ⟨_, last, rfl⟩
  | get _ | findPods _ _ | findByBaseUrl _ _ | getOwners _ _ => apply kept
  | updateOwner id webId visible ownerId order =>
      simp only [PodCall.perform, BasePodStore.updateOwner]
      split
      case h_1 key row hfind =>
        have hrow := HashMap.mem_iter.mp (List.mem_of_find?_eq_some hfind)
        exact kept.insert (kept.key key row hrow) (kept.row key row hrow)
      case h_2 => exact kept.insert ⟨_, last, rfl⟩ ⟨_, last, rfl⟩
  | removeOwner id webId order =>
      simp only [PodCall.perform, BasePodStore.removeOwner]
      split
      · refine ⟨kept.pod, ?_, ?_⟩
        · exact fun k row hrow => kept.key k row (HashMap.lookup_erase_eq_some_iff.mp hrow).2
        · exact fun k row hrow => kept.row k row (HashMap.lookup_erase_eq_some_iff.mp hrow).2
      · apply kept

theorem of_final (ops : List (ℕ × PodCall)) :
  Known ops (final PodCall.perform ops .new)
  := by
  induction ops using List.reverseRecOn with
  | nil =>
      constructor
      case pod => rintro id ⟨⟩
      case key | row => rintro k row ⟨⟩
  | append_singleton ops x ih =>
      rw [final_append]
      apply ih.concat x.1 x.2

end Known

/-- Calls whose drawn ids are different, and which give a pod an owner only after creating it,
find every id that they draw new. -/
theorem fresh_of_order {before : List (ℕ × PodCall)} {call : PodCall}
    (pods : ∀ x ∈ before, ∀ id, call.drawnPod = some id → x.2.drawnPod ≠ some id)
    (rows : ∀ x ∈ before, ∀ id, call.drawnOwner = some id → x.2.drawnOwner ≠ some id)
    (owned : ∀ x ∈ before, ∀ id, call.drawnPod = some id → x.2.owned ≠ some id) :
  call.Fresh (final PodCall.perform before .new)
  := by
  have known := Known.of_final before
  have unknown : ∀ {k}, call.drawnOwner = some k →
      k ∉ (final PodCall.perform before BasePodStore.new).owners := by
    intro k hk
    apply HashMap.notMem_iff_lookup.mpr
    intro row hrow
    obtain ⟨x, hx, hkey⟩ := known.key k row hrow
    apply rows x hx k hk hkey
  cases call with
  | create accountId settings overwrite podId ownerId =>
      refine ⟨?_, ?_, unknown rfl⟩
      · intro hmem
        obtain ⟨x, hx, hpod⟩ := known.pod podId hmem
        apply pods x hx podId rfl hpod
      · rintro k row hrow rfl
        obtain ⟨x, hx, howned⟩ := known.row k row hrow
        apply owned x hx row.podId rfl howned
  | updateOwner id webId visible ownerId order => apply unknown rfl
  | get _ | findPods _ _ | findByBaseUrl _ _ | getOwners _ _ | removeOwner _ _ _ => trivial

/-- As long as all calls find their ids new, the rows are those of the map. -/
theorem represents_final {order : List (ℕ × PodCall)}
    (fresh : ∀ before x after, order = before ++ x :: after →
      x.2.Fresh (final PodCall.perform before .new)) :
  Represents (final PodCall.perform order .new).owners
    (final PodCall.onMap order fun _ => none)
  := by
  induction order using List.reverseRecOn with
  | nil => apply Represents.empty
  | append_singleton order x ih =>
      have earlier := ih fun before y after hsplit =>
        fresh before y (after ++ [x]) (by rw [hsplit, List.append_assoc, List.cons_append])
      rw [final_append, final_append]
      apply (earlier.perform (fresh order x [] rfl)).2

section

variable {Client : Type} [DecidableEq Client] {cfg : PodConfig Client}

/-- In a sequential order of careful calls, every call finds the ids new that it draws. -/
theorem fresh_of_linearizes
    (h : podMachine.Reaches (fun cfg turn => careful cfg turn) (Config.init .new) cfg)
    {order : List (ℕ × PodCall)} (linearizes : Linearizes cfg.history order)
    {before after : List (ℕ × PodCall)} {x : ℕ × PodCall} (hsplit : order = before ++ x :: after) :
  x.2.Fresh (final PodCall.perform before .new)
  := by
  have freshPods : FreshCalls PodCall.drawnPod cfg :=
    FreshCalls.of_reaches h fun cfg l hl => (careful_iff.mp hl).1
  have freshOwners : FreshCalls PodCall.drawnOwner cfg :=
    FreshCalls.of_reaches h fun cfg l hl => (careful_iff.mp hl).2.1
  have nodup := linearizes.nodup
  rw [hsplit, List.map_append, List.map_cons, List.nodup_middle, List.nodup_cons,
    List.mem_append, not_or] at nodup
  -- a call before it has another ticket, and so another key
  have other : ∀ {key : PodCall → Option Str}, FreshCalls key cfg → ∀ y ∈ before, ∀ id,
      key x.2 = some id → key y.2 ≠ some id := by
    intro key fresh y hy id hx hkey
    obtain ⟨i, hi⟩ := linearizes.called y.1 y.2 (hsplit ▸ List.mem_append_left _ hy)
    obtain ⟨j, hj⟩ := linearizes.called x.1 x.2
      (hsplit ▸ List.mem_append_right _ List.mem_cons_self)
    obtain ⟨-, same, -⟩ := Event.call.inj (fresh.event_eq hi hj hkey hx)
    apply nodup.1.1 (same ▸ List.mem_map_of_mem hy)
  apply fresh_of_order (other freshPods) (other freshOwners)
  intro y hy id hx howned
  obtain ⟨n, call⟩ := y
  cases call with
  | create accountId settings overwrite podId ownerId =>
      apply other freshPods _ hy id hx howned
  | updateOwner id' webId visible ownerId o =>
      obtain rfl : id' = id := Option.some.inj howned
      -- the pod was created before the owner was given to it
      obtain ⟨i, hi⟩ := linearizes.called n _ (hsplit ▸ List.mem_append_left _ hy)
      obtain ⟨l₁, l₂, hl⟩ := List.append_of_mem hi
      obtain ⟨cfg₁, -, rfl, hcall⟩ := h.allowed_of_history hl
      obtain ⟨e, he, hpod⟩ := List.any_eq_true.mp (careful_iff.mp hcall).2.2
      cases e with
      | call | act => cases hpod
      | ret m call r =>
          have hdrawn : call.drawnPod = some id' := of_decide_eq_true hpod
          have hbefore : Before cfg.history (.ret m call r)
              (.call i n (.updateOwner id' webId visible ownerId o)) :=
            ⟨cfg₁.history, _, hl, he, List.mem_cons_self⟩
          have created := linearizes.realTime _ _ _ _ _ _ hbefore
            (hsplit ▸ List.mem_append_left _ hy)
          obtain ⟨j, hj⟩ := linearizes.called m call created.left_mem
          obtain ⟨k, hk⟩ := linearizes.called x.1 x.2
            (hsplit ▸ List.mem_append_right _ List.mem_cons_self)
          obtain ⟨-, rfl, rfl⟩ := Event.call.inj (freshPods.event_eq hj hk hdrawn hx)
          apply created.asymm linearizes.nodup.of_map
          rw [hsplit]
          exact ⟨before, x :: after, rfl, hy, List.mem_cons_self⟩
  | _ => cases howned

/-- In every run in which the ids drawn are new and pods are given owners only when their
creation has returned, no two rows are about the same pod and WebID, and owners are listed as
they are in the map that the calls change one after another. -/
theorem owners_listed
    (h : podMachine.Reaches (fun cfg turn => careful cfg turn) (Config.init .new) cfg) :
  UniqueOwners cfg.shared.owners ∧
    ∃ order, Linearizes cfg.history order ∧
      ∀ n id o r, .ret n (.getOwners id o) r ∈ cfg.history →
        ∃ before after listed, order = before ++ (n, .getOwners id o) :: after ∧
          r = .owners listed ∧
          Lists (fun webId => final PodCall.onMap before (fun _ => none) (id, webId)) listed
  := by
  obtain ⟨order, linearizes, values, howners⟩ :=
    Machine.linearizes_of_faithful faithful_ownersView rfl h
  have fresh : ∀ before x after, order = before ++ x :: after →
      x.2.Fresh (final PodCall.perform before .new) :=
    fun before x after hsplit => fresh_of_linearizes h linearizes hsplit
  constructor
  · rw [← (howners : _ = cfg.shared.owners)]
    apply (represents_final fresh).unique
  · refine ⟨order, linearizes, ?_⟩
    intro n id o r hr
    obtain ⟨before, after, hsplit⟩ := List.append_of_mem (linearizes.returned _ _ _ hr)
    have value := values n _ r hr rfl
    rw [hsplit] at value
    have represents : Represents (final PodCall.perform before .new).owners
        (final PodCall.onMap before fun _ => none) :=
      represents_final fun before' y after' hsplit' =>
        fresh before' y (after' ++ (n, .getOwners id o) :: after)
          (by rw [hsplit, hsplit', List.append_assoc, List.cons_append])
    refine ⟨before, after, _, hsplit, ?_, represents.lists id o⟩
    apply eq_of_mem_outcomes _ (hsplit ▸ linearizes.nodup) value

end

theorem owners_listed_seenBeforeOwner :
  let cfg := podMachine.after (Config.init .new) seenBeforeOwner
  UniqueOwners cfg.shared.owners ∧
    ∃ order, Linearizes cfg.history order ∧
      ∀ n id o r, .ret n (.getOwners id o) r ∈ cfg.history →
        ∃ before after listed, order = before ++ (n, .getOwners id o) :: after ∧
          r = .owners listed ∧
          Lists (fun webId => final PodCall.onMap before (fun _ => none) (id, webId)) listed
  := owners_listed (Machine.reaches_after seenBeforeOwner (by decide))

end Identity
