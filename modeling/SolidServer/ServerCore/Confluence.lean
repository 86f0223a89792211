import SolidServer.Library.Commuting
import SolidServer.ServerCore.Server

/-!
# Requests that do not interfere

Two accepted requests do not interfere if they do not write the same key and neither removes
a key that the other one writes or walks over.  If any two of a number of concurrent requests
do not interfere, it does not matter how their steps are interleaved: when all are answered,
the store, containers included, is the one that they leave when they are answered one after
another, in whatever order.
-/

open Text Http HttpTypes Authz Atomic

namespace ServerCore

/-! ### Sections that commute -/

/-- The sections do not write the same key, and neither removes a key that the other one
writes or whose container the walk before it may add. -/
def StoreCmd.Apart : StoreCmd → StoreCmd → Prop
  | .insert k _, .insert k' _ => k ≠ k'
  | .insert k _, .remove k' => k' ≠ k ∧ k' ∉ LdpStore.ancestorKeys k
  | .remove k', .insert k _ => k' ≠ k ∧ k' ∉ LdpStore.ancestorKeys k
  | _, _ => True

/-- What a section does to the store. -/
def StoreCmd.effect (c : StoreCmd) (s : LdpStore) : LdpStore :=
  (c.exec s).2

/-- The effects of two sections can be exchanged. -/
def StoreCmd.Exchangeable (c d : StoreCmd) : Prop :=
  ∀ s, c.effect (d.effect s) = d.effect (c.effect s)

theorem StoreCmd.Exchangeable.symm {c d : StoreCmd} (h : c.Exchangeable d) :
  d.Exchangeable c
  := fun s => (h s).symm

theorem exchangeable_walk_walk (k k' : Str) :
  (StoreCmd.ensureAncestors k).Exchangeable (.ensureAncestors k')
  := by
  intro s
  apply LdpStore.ext
  intro x
  change ((s.ensureAncestors k').ensureAncestors k).lookup x
    = ((s.ensureAncestors k).ensureAncestors k').lookup x
  simp only [LdpStore.lookup_ensureAncestors]
  cases s.lookup x with
  | some e => rfl
  | none =>
      by_cases h : x ∈ LdpStore.ancestorKeys k <;> by_cases h' : x ∈ LdpStore.ancestorKeys k' <;>
        simp [h, h']

theorem exchangeable_walk_insert (k k' : Str) (e : Entry) :
  (StoreCmd.ensureAncestors k).Exchangeable (.insert k' e)
  := by
  intro s
  apply LdpStore.ext
  intro x
  change ((s.insert k' e).ensureAncestors k).lookup x
    = ((s.ensureAncestors k).insert k' e).lookup x
  simp only [LdpStore.lookup_ensureAncestors, LdpStore.lookup_insert]
  by_cases h : x = k' <;> simp [h]

theorem exchangeable_walk_remove {k k' : Str} (h : k' ∉ LdpStore.ancestorKeys k) :
  (StoreCmd.ensureAncestors k).Exchangeable (.remove k')
  := by
  intro s
  apply LdpStore.ext
  intro x
  change ((s.erase k').ensureAncestors k).lookup x = ((s.ensureAncestors k).erase k').lookup x
  simp only [LdpStore.lookup_ensureAncestors, LdpStore.lookup_erase]
  by_cases hx : x = k'
  · subst hx
    simp [h]
  · simp [hx]

theorem exchangeable_insert_insert {k k' : Str} (h : k ≠ k') (e e' : Entry) :
  (StoreCmd.insert k e).Exchangeable (.insert k' e')
  := by
  intro s
  apply LdpStore.ext
  intro x
  change ((s.insert k' e').insert k e).lookup x = ((s.insert k e).insert k' e').lookup x
  simp only [LdpStore.lookup_insert]
  by_cases hx : x = k
  · subst hx
    simp [h]
  · simp [hx]

theorem exchangeable_insert_remove {k k' : Str} (h : k' ≠ k) (e : Entry) :
  (StoreCmd.insert k e).Exchangeable (.remove k')
  := by
  intro s
  apply LdpStore.ext
  intro x
  change ((s.erase k').insert k e).lookup x = ((s.insert k e).erase k').lookup x
  simp only [LdpStore.lookup_insert, LdpStore.lookup_erase]
  by_cases hx : x = k
  · subst hx
    simp [h.symm]
  · simp [hx]

theorem exchangeable_remove_remove (k k' : Str) :
  (StoreCmd.remove k).Exchangeable (.remove k')
  := by
  intro s
  apply LdpStore.ext
  intro x
  change ((s.erase k').erase k).lookup x = ((s.erase k).erase k').lookup x
  simp only [LdpStore.lookup_erase]
  by_cases hx : x = k <;> simp [hx]

/-- The sections of a request that change the store: the one that it is about, after the walk
over ancestors. -/
def changingSections (c : StoreCmd) : List StoreCmd :=
  match c with
  | .insert k e => [.ensureAncestors k, .insert k e]
  | .remove k => [.remove k]
  | _ => []

/-- The sections of one request can be exchanged, though they never are. -/
theorem exchangeable_self {c d d' : StoreCmd} (h : d ∈ changingSections c)
    (h' : d' ∈ changingSections c) :
  d.Exchangeable d'
  := by
  cases c with
  | insert k e =>
      simp only [changingSections, List.mem_cons, List.not_mem_nil, or_false] at h h'
      rcases h with rfl | rfl <;> rcases h' with rfl | rfl
      · apply exchangeable_walk_walk k k
      · apply exchangeable_walk_insert k k e
      · apply (exchangeable_walk_insert k k e).symm
      · exact fun _ => rfl
  | remove k =>
      obtain rfl := List.mem_singleton.mp h
      obtain rfl := List.mem_singleton.mp h'
      exact fun _ => rfl
  | get _ | containsKey _ | ensureAncestors _ => cases h

/-- The sections of two requests that are apart can be exchanged. -/
theorem StoreCmd.Apart.exchangeable {c c' d d' : StoreCmd} (apart : c.Apart c')
    (h : d ∈ changingSections c) (h' : d' ∈ changingSections c') :
  d.Exchangeable d'
  := by
  cases c with
  | insert k e =>
      simp only [changingSections, List.mem_cons, List.not_mem_nil, or_false] at h
      cases c' with
      | insert k' e' =>
          simp only [changingSections, List.mem_cons, List.not_mem_nil, or_false] at h'
          rcases h with rfl | rfl <;> rcases h' with rfl | rfl
          · apply exchangeable_walk_walk k k'
          · apply exchangeable_walk_insert k k' e'
          · apply (exchangeable_walk_insert k' k e).symm
          · apply exchangeable_insert_insert apart e e'
      | remove k' =>
          obtain rfl := List.mem_singleton.mp h'
          rcases h with rfl | rfl
          · apply exchangeable_walk_remove apart.2
          · apply exchangeable_insert_remove apart.1 e
      | get _ | containsKey _ | ensureAncestors _ => cases h'
  | remove k =>
      obtain rfl := List.mem_singleton.mp h
      cases c' with
      | insert k' e' =>
          simp only [changingSections, List.mem_cons, List.not_mem_nil, or_false] at h'
          rcases h' with rfl | rfl
          · apply (exchangeable_walk_remove apart.2).symm
          · apply (exchangeable_insert_remove apart.1 e').symm
      | remove k' =>
          obtain rfl := List.mem_singleton.mp h'
          apply exchangeable_remove_remove k k'
      | get _ | containsKey _ | ensureAncestors _ => cases h'
  | get _ | containsKey _ | ensureAncestors _ => cases h

/-! ### The scripts of requests -/

/-- The commands of an accepted request that change the store. -/
def requestScript (authz : AuthzState) : Script PipelineCmd LdpStore Exchange where
  effect c s := (c.exec authz s).2
  changes
    | .store (.ensureAncestors _) | .store (.insert _ _) | .store (.remove _) => true
    | _ => false
  commands x :=
    ((acceptedSection authz x).elim [] changingSections).map PipelineCmd.store

variable {authz : AuthzState}

theorem scripted_buildRouter (x : Exchange) :
  (serverMachine authz).Scripted (requestScript authz) ((requestScript authz).commands x)
    (buildRouter x.1 x.2)
  := by
  apply buildRouter_of_decided
    ((serverMachine authz).Scripted (requestScript authz) ((requestScript authz).commands x))
  · cases h : acceptedSection authz x with
    | none =>
        obtain ⟨response, hr⟩ := decided_of_no_section h
        rw [hr]
        simp [Machine.Scripted, requestScript, h]
    | some c =>
        have script : (requestScript authz).commands x
            = (changingSections c).map PipelineCmd.store := by
          simp [requestScript, h]
        rw [script]
        obtain ⟨f, ⟨hwalk, hf⟩ | ⟨k, hwalk, hf⟩⟩ := decided_of_section h
        · rw [hf]
          cases c with
          | get k => exact fun _ _ => rfl
          | containsKey k => exact fun _ _ => rfl
          | remove k => exact ⟨_, rfl, fun _ _ => rfl⟩
          | ensureAncestors k => exact absurd h (acceptedSection_ne_walk x k)
          | insert k e => cases hwalk
        · rw [hf]
          cases c with
          | insert k' e =>
              obtain rfl := Option.some.inj hwalk
              exact ⟨_, rfl, fun _ _ => ⟨_, rfl, fun _ _ => rfl⟩⟩
          | get _ | containsKey _ | ensureAncestors _ | remove _ => cases hwalk
  · intro c next hc ih
    cases c with
    | store c => exact absurd rfl (hc c)
    | read credentials modes => apply ih
    | authorize credentials modes permissions => apply ih

theorem obeys_requestScript (authz : AuthzState) :
  (serverMachine authz).Obeys (requestScript authz)
  := by
  constructor
  case exec =>
    intro c s r t h
    apply (congrArg Prod.snd (Option.some.inj h)).symm
  case still =>
    intro c s hc
    cases c with
    | store c =>
        cases c with
        | get _ | containsKey _ => rfl
        | ensureAncestors _ | insert _ _ | remove _ => cases hc
    | read _ _ | authorize _ _ _ => rfl
  case scripted => exact scripted_buildRouter

/-- The commands of a request that change the store are sections of its handler. -/
theorem exists_section_of_mem_commands {x : Exchange} {c : PipelineCmd}
    (h : c ∈ (requestScript authz).commands x) :
  ∃ d e, acceptedSection authz x = some e ∧ d ∈ changingSections e ∧ c = .store d
  := by
  obtain ⟨d, hd, rfl⟩ := List.mem_map.mp h
  cases hx : acceptedSection authz x with
  | none =>
      rw [hx] at hd
      cases hd
  | some e =>
      rw [hx] at hd
      exact ⟨d, e, rfl, hd, rfl⟩

/-- Two requests are apart: where both are accepted, their sections are. -/
def Apart (authz : AuthzState) (x y : Exchange) : Prop :=
  ∀ c d, acceptedSection authz x = some c → acceptedSection authz y = some d → c.Apart d

/-- When concurrent requests have all been answered, and any two of them are apart, the store is
the one that they leave when they are answered one after another, in whatever order. -/
theorem requests_confluent {Client : Type} [DecidableEq Client] (authz : AuthzState)
    (s : LdpStore)
    (cfg : Config Client PipelineCmd PipelineCmd.Answer LdpStore Exchange Response)
    (h : (serverMachine authz).Reachable (Config.init s) cfg) (quiescent : cfg.Quiescent)
    (apart : ∀ i n x j m y, .call i n x ∈ cfg.history → .call j m y ∈ cfg.history → n ≠ m →
      Apart authz x y)
    (order : List (ℕ × Exchange)) (nodup : (order.map Prod.fst).Nodup)
    (all : ∀ n x, (n, x) ∈ order ↔ ∃ i, .call i n x ∈ cfg.history) :
  final (serverSpec authz) order s = cfg.shared
  := by
  apply Machine.final_of_commuting (fun _ _ => rfl) (obeys_requestScript authz) h quiescent
    nodup all
  intro x hx y hy c hc d hd t
  obtain ⟨c', cx, hcx, hc', rfl⟩ := exists_section_of_mem_commands hc
  obtain ⟨d', dy, hdy, hd', rfl⟩ := exists_section_of_mem_commands hd
  suffices h : c'.Exchangeable d' from h t
  obtain ⟨i, hi⟩ := (all x.1 x.2).mp hx
  obtain ⟨j, hj⟩ := (all y.1 y.2).mp hy
  by_cases hne : x.1 = y.1
  · have same : x.2 = y.2 := (Sound.of_reaches h).op_eq hi hj hne
    rw [← same, hcx] at hdy
    obtain rfl := Option.some.inj hdy
    apply exchangeable_self hc' hd'
  · apply (apart i x.1 x.2 j y.1 y.2 hi hj hne cx dy hcx hdy).exchangeable hc' hd'

/-- `DELETE` of a resource. -/
def deleteRequest (path : Str) : Exchange :=
  (zeroSlug, ⟨.delete, path, [], .ok []⟩)

/-- One client puts `/a/b`, and in the middle of that another one deletes `/c`. -/
def overlappingRequests : List (Turn Bool Exchange Empty) :=
  [.call false (putRequest "/a/b".toList [1]), .act false, .act false, .act false,
    .call true (deleteRequest "/c".toList), .act true, .act true, .act true, .ret true,
    .act false, .ret false]

theorem requests_confluent_overlappingRequests :
  let cfg := (serverMachine .passThrough).after (Config.init LdpStore.new) overlappingRequests
  final (serverSpec .passThrough)
      [(1, deleteRequest "/c".toList), (0, putRequest "/a/b".toList [1])] LdpStore.new
    = cfg.shared
  := by
  intro cfg
  have hcalls : calls cfg.history
      = [(0, putRequest "/a/b".toList [1]), (1, deleteRequest "/c".toList)] := rfl
  have hput : acceptedSection .passThrough (putRequest "/a/b".toList [1])
      = some (.insert "/a/b".toList ⟨[1], "application/octet-stream".toList, false⟩) := rfl
  have hdelete : acceptedSection .passThrough (deleteRequest "/c".toList)
      = some (.remove "/c".toList) := rfl
  have missed : "/c".toList ≠ "/a/b".toList ∧
      "/c".toList ∉ LdpStore.ancestorKeys "/a/b".toList := by decide
  apply requests_confluent .passThrough LdpStore.new cfg
    (Machine.reachable_after overlappingRequests)
  · intro i
    cases i <;> rfl
  · intro i n x j m y hx hy hne c d hc hd
    have hmem := mem_calls.mpr ⟨i, hx⟩
    have hmem' := mem_calls.mpr ⟨j, hy⟩
    rw [hcalls] at hmem hmem'
    simp only [List.mem_cons, Prod.mk.injEq, List.not_mem_nil, or_false] at hmem hmem'
    rcases hmem with ⟨rfl, rfl⟩ | ⟨rfl, rfl⟩ <;> rcases hmem' with ⟨rfl, rfl⟩ | ⟨rfl, rfl⟩
    · exact absurd rfl hne
    · obtain rfl := Option.some.inj (hput.symm.trans hc)
      obtain rfl := Option.some.inj (hdelete.symm.trans hd)
      apply missed
    · obtain rfl := Option.some.inj (hdelete.symm.trans hc)
      obtain rfl := Option.some.inj (hput.symm.trans hd)
      apply missed
    · exact absurd rfl hne
  · decide
  · intro n x
    rw [← mem_calls, hcalls]
    simp only [List.mem_cons, List.not_mem_nil, or_false]
    apply or_comm

end ServerCore
