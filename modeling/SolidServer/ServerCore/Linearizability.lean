import SolidServer.ServerCore.Concurrency
import Mathlib.Data.List.Permutation

/-!
# Linearizability of the store operations

Concurrent store operations are linearizable lock section by lock section: a put counts as
two operations, the walk over the ancestors and the insertion.  Whole operations are
linearizable as far as document keys are concerned, in the order of their key sections, for
the walks do not touch document keys.  On container keys they are not: between the sections
of `put "/a/b"` another client can see that `/a/` exists and `/a/b` does not.
-/

open Text Http Atomic

namespace ServerCore

/-- An operation executed alone. -/
def storeSpec (op : StoreOp) (s : LdpStore) : StoreVal × LdpStore :=
  op.impl.run StoreCmd.exec s

/-- The stores have the same documents. -/
def SameDocuments (s t : LdpStore) : Prop :=
  ∀ k, endsWith k '/' = false → s.lookup k = t.lookup k

theorem SameDocuments.mem_iff {s t : LdpStore} (h : SameDocuments s t) {k : Str}
    (hk : endsWith k '/' = false) :
  k ∈ s ↔ k ∈ t
  := by
  rw [← LdpStore.isSome_lookup_iff, ← LdpStore.isSome_lookup_iff, h k hk]

/-- On the documents an operation executed alone does what its key section does, and on a
document key it returns its answer. -/
theorem SameDocuments.storeSpec {s t : LdpStore} (h : SameDocuments s t) (op : StoreOp) :
  SameDocuments (storeSpec op s).2 (op.keySection.exec t).2 ∧
    (endsWith op.key '/' = false →
      (ServerCore.storeSpec op s).1 = op.value (op.keySection.exec t).1)
  := by
  cases op with
  | get path =>
      use h
      intro hk
      exact congrArg StoreVal.entry (h _ hk)
  | exists_ path =>
      use h
      intro hk
      exact congrArg StoreVal.flag (decide_eq_decide.mpr (h.mem_iff hk))
  | put path body ct =>
      constructor
      · intro k hk
        change ((s.ensureAncestors _).insert _ _).lookup k = (t.insert _ _).lookup k
        rw [LdpStore.lookup_insert, LdpStore.lookup_insert,
          LdpStore.lookup_ensureAncestors_document s _ hk, h k hk]
      · intro hk
        have same : LdpStore.key path ∈ s.ensureAncestors (LdpStore.key path)
            ↔ LdpStore.key path ∈ t := by
          rw [← h.mem_iff (k := LdpStore.key path) hk, ← LdpStore.isSome_lookup_iff,
            ← LdpStore.isSome_lookup_iff,
            LdpStore.lookup_ensureAncestors_document (k := LdpStore.key path) s _ hk]
        exact congrArg (fun b => StoreVal.flag (!b)) (decide_eq_decide.mpr same)
  | delete path =>
      constructor
      · intro k hk
        change (s.erase _).lookup k = (t.erase _).lookup k
        rw [LdpStore.lookup_erase, LdpStore.lookup_erase, h k hk]
      · intro hk
        exact congrArg StoreVal.flag (decide_eq_decide.mpr (h.mem_iff hk))

variable {Client : Type}

/-- The operations in the order of their key sections. -/
def keyOrder (history : List (StoreEvent Client)) : List (ℕ × StoreOp) :=
  history.filterMap (Event.pointed StoreCmd.isKeySection)

theorem keyOrder_concat (history : List (StoreEvent Client)) (e : StoreEvent Client) :
  keyOrder (history ++ [e])
    = keyOrder history ++ (e.pointed StoreCmd.isKeySection).toList
  := by
  rw [keyOrder, List.filterMap_append, List.filterMap_cons]
  cases e.pointed StoreCmd.isKeySection <;> rfl

theorem isKeySection_keySection (op : StoreOp) :
  op.keySection.isKeySection = true
  := by
  cases op <;> rfl

/-- The operations executed one after another in the order of their key sections leave the
same documents, and return on document keys what the sections answered. -/
structure Replayed (s : LdpStore) (cfg : StoreConfig Client) : Prop where
  documents : SameDocuments (final storeSpec (keyOrder cfg.history) s) cfg.shared
  values : ∀ n op r, .act n op op.keySection r ∈ cfg.history → endsWith op.key '/' = false →
    (n, op.value r) ∈ outcomes storeSpec (keyOrder cfg.history) s

/-- A step without a command leaves the sequential execution as it is. -/
theorem Replayed.of_no_command {cfg cfg' : StoreConfig Client} {s : LdpStore}
    (h : Replayed s cfg) {e : StoreEvent Client} (he : e.answer = none)
    (hshared : cfg'.shared = cfg.shared)
    (hhistory : cfg'.history = cfg.history ++ [e]) :
  Replayed s cfg'
  := by
  have order : keyOrder cfg'.history = keyOrder cfg.history := by
    rw [hhistory, keyOrder_concat]
    cases e with
    | act _ _ _ _ => cases he
    | call _ _ _ | ret _ _ _ => apply List.append_nil
  constructor
  case documents =>
    rw [order, hshared]
    apply h.documents
  case values =>
    intro n op r hact hk
    rw [hhistory, List.mem_append, List.mem_singleton] at hact
    rw [order]
    rcases hact with hact | rfl
    · apply h.values n op r hact hk
    · cases he

variable [DecidableEq Client] {cfg : StoreConfig Client} {s : LdpStore}

/-- A lock section extends the sequential execution by its operation if it is the key
section, and by nothing otherwise. -/
theorem Replayed.acted (h : Replayed s cfg) (i : Client)
    (t : Thread StoreCmd StoreCmd.Answer StoreOp StoreVal) {c : StoreCmd}
    (hc : c = t.op.keySection ∨ c = .ensureAncestors t.op.key) (p : StoreProg StoreVal) :
  Replayed s (cfg.acted i t c (c.exec cfg.shared).1 (c.exec cfg.shared).2 p)
  := by
  rcases hc with rfl | rfl
  · have order : keyOrder (cfg.history ++
        [.act t.ticket t.op t.op.keySection (t.op.keySection.exec cfg.shared).1])
          = keyOrder cfg.history ++ [(t.ticket, t.op)] := by
      rw [keyOrder_concat, Event.pointed, if_pos (isKeySection_keySection t.op)]
      rfl
    obtain ⟨documents, value⟩ := h.documents.storeSpec t.op
    constructor
    case documents =>
      simp only [Config.acted, order, final_append]
      apply documents
    case values =>
      intro n op r hact hk
      simp only [Config.acted, order, outcomes_append, List.mem_append] at hact ⊢
      rcases hact with hact | hact
      · left
        apply h.values n op r hact hk
      · right
        obtain ⟨rfl, rfl, -, hr⟩ := Event.act.inj (List.mem_singleton.mp hact)
        obtain rfl := eq_of_heq hr
        rw [← value hk]
        apply List.mem_singleton_self
  · have order : keyOrder (cfg.history ++ [.act t.ticket t.op (.ensureAncestors t.op.key)
        ((StoreCmd.ensureAncestors t.op.key).exec cfg.shared).1]) = keyOrder cfg.history := by
      rw [keyOrder_concat]
      apply List.append_nil
    constructor
    case documents =>
      simp only [Config.acted, order]
      intro k hk
      rw [h.documents k hk]
      symm
      apply LdpStore.lookup_ensureAncestors_document _ _ hk
    case values =>
      intro n op r hact hk
      simp only [Config.acted, order, List.mem_append] at hact ⊢
      rcases hact with hact | hact
      · apply h.values n op r hact hk
      · obtain ⟨-, -, hsection, -⟩ := Event.act.inj (List.mem_singleton.mp hact)
        have := isKeySection_keySection op
        rw [hsection] at this
        cases this

theorem replayed_of_reaches (h : storeMachine.Reachable (Config.init s) cfg) :
  Replayed s cfg
  := by
  induction h with
  | refl =>
      constructor
      · intro k _
        rfl
      · intro n op r hact
        cases hact
  | step before allowed hs ih =>
      have reached := before.step allowed hs
      cases hs with
      | call _ => exact ih.of_no_command (e := .call _ _ _) rfl rfl rfl
      | ret _ => exact ih.of_no_command (e := .ret _ _ _) rfl rfl rfl
      | env _ => exact isEmptyElim (α := Empty) ‹Empty›
      | act _ hexec =>
          obtain ⟨rfl, rfl⟩ := storeMachine_exec hexec
          apply ih.acted
          apply issued_of_reaches issues_impl reached
          apply List.mem_append_right _ (List.mem_singleton_self _)

/-- One client puts `/a/b`, and between the two sections of the put another one asks whether
`/a/` and then whether `/a/b` exists. -/
def interruptedPut : List (Turn Bool StoreOp Empty) :=
  [.call false (.put "/a/b".toList [] []), .act false,
    .call true (.exists_ "/a/".toList), .act true, .ret true,
    .call true (.exists_ "/a/b".toList), .act true, .ret true,
    .act false, .ret false]

/-- Concurrent store operations have a sequential order lock section by lock section, which
gives every answer and the shared store, and one of whole operations, which gives what is
returned on document keys and the documents of the shared store. -/
theorem store_linearizable (h : storeMachine.Reachable (Config.init s) cfg) :
  (∃ order, Sequential storeMachine s cfg order) ∧
    ∃ order, Linearizes cfg.history order ∧
      (∀ n op v, .ret n op v ∈ cfg.history → endsWith op.key '/' = false →
        (n, v) ∈ outcomes storeSpec order s) ∧
      ∀ k, endsWith k '/' = false →
        (final storeSpec order s).lookup k = cfg.shared.lookup k
  := by
  have replayed := replayed_of_reaches h
  constructor
  · use sections cfg.history
    apply sequential_of_reaches h
  · use keyOrder cfg.history, linearizes_of_onePoint h onePoint_impl
    constructor
    · intro n op v hv hk
      obtain ⟨r, rfl, hact, -⟩ := exists_keySection h hv
      apply replayed.values n op r hact hk
    · apply replayed.documents

theorem store_linearizable_interruptedPut :
  let cfg := storeMachine.after (Config.init LdpStore.new) interruptedPut
  (∃ order, Sequential storeMachine LdpStore.new cfg order) ∧
    ∃ order, Linearizes cfg.history order ∧
      (∀ n op v, .ret n op v ∈ cfg.history → endsWith op.key '/' = false →
        (n, v) ∈ outcomes storeSpec order LdpStore.new) ∧
      ∀ k, endsWith k '/' = false →
        (final storeSpec order LdpStore.new).lookup k = cfg.shared.lookup k
  := store_linearizable (Machine.reachable_after interruptedPut)

/-! ### Whole operations on containers -/

/-- What happens when the put is interrupted. -/
def interruptedHistory : List (StoreEvent Bool) :=
  [.call false 0 (.put "/a/b".toList [] []),
    .act 0 (.put "/a/b".toList [] []) (.ensureAncestors "/a/b".toList) (),
    .call true 1 (.exists_ "/a/".toList),
    .act 1 (.exists_ "/a/".toList) (.containsKey "/a/".toList) true,
    .ret 1 (.exists_ "/a/".toList) (.flag true),
    .call true 2 (.exists_ "/a/b".toList),
    .act 2 (.exists_ "/a/b".toList) (.containsKey "/a/b".toList) false,
    .ret 2 (.exists_ "/a/b".toList) (.flag false),
    .act 0 (.put "/a/b".toList [] []) (.insert "/a/b".toList ⟨[], [], false⟩) true,
    .ret 0 (.put "/a/b".toList [] []) (.flag true)]

/-- The operations of the interrupted put, with their tickets. -/
def interruptedOps : List (ℕ × StoreOp) :=
  [(0, .put "/a/b".toList [] []), (1, .exists_ "/a/".toList), (2, .exists_ "/a/b".toList)]

/-- A sequential order of the operations of the interrupted put is a permutation of them, with
those of the second client in the order of their calls. -/
theorem interruptedOps_order {order : List (ℕ × StoreOp)}
    (h : Linearizes interruptedHistory order) :
  order.Perm interruptedOps ∧
    Before order (1, .exists_ "/a/".toList) (2, .exists_ "/a/b".toList)
  := by
  constructor
  · apply (List.perm_ext_iff_of_nodup h.nodup.of_map (by decide)).mpr
    rintro ⟨n, op⟩
    constructor
    · intro hn
      obtain ⟨i, hi⟩ := h.called n op hn
      simp only [interruptedHistory, List.mem_cons, Event.call.injEq, reduceCtorEq,
        List.not_mem_nil, or_false, false_or] at hi
      rcases hi with ⟨-, rfl, rfl⟩ | ⟨-, rfl, rfl⟩ | ⟨-, rfl, rfl⟩ <;> simp [interruptedOps]
    · intro hn
      simp only [interruptedOps, List.mem_cons, Prod.mk.injEq, List.not_mem_nil,
        or_false] at hn
      rcases hn with ⟨rfl, rfl⟩ | ⟨rfl, rfl⟩ | ⟨rfl, rfl⟩
      · apply h.returned 0 _ (.flag true)
        simp [interruptedHistory]
      · apply h.returned 1 _ (.flag true)
        simp [interruptedHistory]
      · apply h.returned 2 _ (.flag false)
        simp [interruptedHistory]
  · apply h.programOrder true
    · simp [interruptedHistory, Before.cons_iff]
    · apply h.returned 2 _ (.flag false)
      simp [interruptedHistory]

/-- No such order returns what the interrupted put and the other operations returned. -/
theorem interruptedOps_not_sequential :
  ∀ order ∈ interruptedOps.permutations',
    ¬ (Before order (1, .exists_ "/a/".toList) (2, .exists_ "/a/b".toList) ∧
      (1, .flag true) ∈ outcomes storeSpec order LdpStore.new ∧
      (2, .flag false) ∈ outcomes storeSpec order LdpStore.new)
  := by
  decide

/-- The store operations are not linearizable as whole operations. -/
theorem not_linearizable :
  ¬ ∀ cfg : StoreConfig Bool, storeMachine.Reachable (Config.init LdpStore.new) cfg →
    cfg.Quiescent → ∃ order, Linearizes cfg.history order ∧
      (∀ n op v, .ret n op v ∈ cfg.history → (n, v) ∈ outcomes storeSpec order LdpStore.new) ∧
      final storeSpec order LdpStore.new = cfg.shared
  := by
  intro h
  have history : (storeMachine.after (Config.init LdpStore.new) interruptedPut).history
      = interruptedHistory := by
    rfl
  have quiescent : (storeMachine.after (Config.init LdpStore.new) interruptedPut).Quiescent := by
    intro i
    cases i <;> rfl
  obtain ⟨order, linearizes, values, -⟩ := h _ (Machine.reachable_after _) quiescent
  rw [history] at linearizes values
  obtain ⟨perm, before⟩ := interruptedOps_order linearizes
  apply interruptedOps_not_sequential order (List.mem_permutations'.mpr perm)
  use before
  constructor
  · apply values 1 (.exists_ "/a/".toList)
    simp [interruptedHistory]
  · apply values 2 (.exists_ "/a/b".toList)
    simp [interruptedHistory]

end ServerCore
