import SolidServer.Library.Repetition
import SolidServer.ServerCore.Confluence

/-!
# Where entries come from

Whatever requests are interleaved, an entry of the store is one that was there at the start, or
the one that a request writes which was granted write access, or the container that the walk of
such a request adds above its key; and a key that is missing was missing at the start, or a
request that was granted write access deletes it.  Two writes never mix.
-/

open Text Http HttpTypes Authz Atomic

namespace ServerCore

variable {authz : AuthzState}

/-- The request is accepted with write access to its path. -/
def Granted (authz : AuthzState) (x : Exchange) : Prop :=
  accessMap x.2 = (∅ : AccessMap).insert ⟨x.2.path⟩ {.write} ∧
    ∃ permissions, decision authz x.2 = .accepted permissions

/-- What is stored under a key, given where it comes from: the start, or a request that was
called and granted write access. -/
inductive Provenance {Client : Type} (authz : AuthzState) (s : LdpStore)
    (history : List (Event Client PipelineCmd PipelineCmd.Answer Exchange Response)) (k : Str) :
    Option Entry → Prop where
  | initial : Provenance authz s history k (s.lookup k)
  | written {i n x e} (call : .call i n x ∈ history) (granted : Granted authz x)
      (writes : mainSection x = some (.insert k e)) : Provenance authz s history k (some e)
  | above {i n x k' e} (call : .call i n x ∈ history) (granted : Granted authz x)
      (writes : mainSection x = some (.insert k' e)) (ancestor : k ∈ LdpStore.ancestorKeys k') :
      Provenance authz s history k (some Entry.autoContainer)
  | removed {i n x} (call : .call i n x ∈ history) (granted : Granted authz x)
      (removes : mainSection x = some (.remove k)) : Provenance authz s history k none

/-- A request with a section that changes the store was granted write access. -/
theorem granted_of_acceptedSection {x : Exchange} {c d : StoreCmd}
    (h : acceptedSection authz x = some c) (hd : d ∈ changingSections c) :
  Granted authz x ∧ mainSection x = some c
  := by
  rw [acceptedSection] at h
  cases hdecision : decision authz x.2 with
  | readerFailed | rejected _ _ => simp [hdecision] at h
  | accepted permissions =>
      simp only [hdecision] at h
      refine ⟨⟨?_, permissions, hdecision⟩, h⟩
      suffices hmode : accessMode x.2.method = .write by rw [accessMap, hmode]
      rw [mainSection] at h
      split at h
      case h_1 | h_2 =>
        obtain rfl := Option.some.inj h
        cases hd
      case h_3 hm _ _ | h_4 hm _ _ | h_5 hm _ => rw [hm, accessMode]
      case h_6 => cases h

/-- A section of a request that was called leaves entries that have their provenance. -/
theorem Provenance.section {Client : Type} {s t : LdpStore}
    {history : List (Event Client PipelineCmd PipelineCmd.Answer Exchange Response)} {k : Str}
    (before : Provenance authz s history k (t.lookup k)) {i : Client} {n : ℕ} {x : Exchange}
    (call : .call i n x ∈ history) {c d : StoreCmd} (hx : acceptedSection authz x = some c)
    (hd : d ∈ changingSections c) :
  Provenance authz s history k ((d.exec t).2.lookup k)
  := by
  obtain ⟨granted, hmain⟩ := granted_of_acceptedSection hx hd
  cases c with
  | insert k' e =>
      rcases List.mem_pair.mp hd with rfl | rfl
      · change Provenance authz s history k ((t.ensureAncestors k').lookup k)
        rw [LdpStore.lookup_ensureAncestors]
        cases ht : t.lookup k with
        | some e' =>
            rw [ht] at before
            apply before
        | none =>
            rw [ht] at before
            by_cases hk : k ∈ LdpStore.ancestorKeys k'
            · rw [if_pos hk]
              exact .above call granted hmain hk
            · rw [if_neg hk]
              apply before
      · change Provenance authz s history k ((t.insert k' e).lookup k)
        rw [LdpStore.lookup_insert]
        split
        · subst_vars
          exact .written call granted hmain
        · apply before
  | remove k' =>
      obtain rfl := List.mem_singleton.mp hd
      change Provenance authz s history k ((t.erase k').lookup k)
      rw [LdpStore.lookup_erase]
      split
      · subst_vars
        exact .removed call granted hmain
      · apply before
  | get _ | containsKey _ | ensureAncestors _ => cases hd

/-- Every entry of the store comes from the start or from a request that was called and granted
write access, in every interleaving of requests. -/
theorem entries_have_provenance {Client : Type} [DecidableEq Client] (authz : AuthzState)
    (s : LdpStore)
    (cfg : Config Client PipelineCmd PipelineCmd.Answer LdpStore Exchange Response)
    (h : (serverMachine authz).Reachable (Config.init s) cfg) (k : Str) :
  Provenance authz s cfg.history k (cfg.shared.lookup k)
  := by
  have obeys := obeys_requestScript authz
  suffices earlier : ∀ l l', cfg.history = l ++ l' →
      Provenance authz s cfg.history k (((requestScript authz).after l s).lookup k) by
    rw [Machine.shared_eq_play obeys h]
    apply earlier cfg.history [] (List.append_nil _).symm
  intro l
  induction l using List.reverseRecOn with
  | nil => exact fun _ _ => .initial
  | append_singleton l e ih =>
      intro l' hl
      have before := ih (e :: l') (by rw [hl, List.append_assoc, List.singleton_append])
      rw [Script.after_concat]
      cases e with
      | call _ _ _ | ret _ _ _ => apply before
      | act n x c r =>
          by_cases hc : (requestScript authz).changes c = true
          · have hact : .act n x c r ∈ cfg.history := by
              rw [hl]
              apply List.mem_append_left l' (List.mem_append_right l (List.mem_singleton_self _))
            obtain ⟨i, called⟩ := (Sound.of_reaches h).opened _ hact
            obtain ⟨d, c', hx, hd, rfl⟩ :=
              exists_section_of_mem_commands (Machine.mem_commands obeys h hact hc)
            simp only [Script.change, if_pos hc, Option.elim_some]
            apply before.section called hx hd
          · simp only [Script.change, if_neg hc]
            apply before

theorem entries_have_provenance_interruptedRequest :
  let cfg := (serverMachine .passThrough).after (Config.init LdpStore.new) interruptedRequest
  Provenance .passThrough LdpStore.new cfg.history "/a/".toList (cfg.shared.lookup "/a/".toList)
  := entries_have_provenance .passThrough LdpStore.new _
    (Machine.reachable_after interruptedRequest) "/a/".toList

end ServerCore
