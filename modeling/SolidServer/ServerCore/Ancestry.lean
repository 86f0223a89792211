import SolidServer.Library.Sections
import SolidServer.ServerCore.Confluence

/-!
# Containers under concurrent requests

The walk over the ancestors of a key and the insertion of the key are separate lock sections, so
that a container can be deleted between them: the resource is then stored without it.  The walk
ends at a depth of 98 segments, so that deeper containers may be missing anyway.  This is all that
can go wrong.  When a request that writes a resource has been answered, every container above the
resource that is not deeper is stored, unless a request to delete it was not answered before the
first one was called.
-/

open Text Http HttpTypes Authz Atomic

namespace ServerCore

variable {authz : AuthzState}

/-- A command keeps a key in the store, unless it removes it. -/
theorem mem_exec (c : PipelineCmd) {s : LdpStore} {a : Str} (h : a ∈ s) :
  a ∈ (c.exec authz s).2 ∨ c = .store (.remove a)
  := by
  cases c with
  | read _ _ | authorize _ _ _ => exact .inl h
  | store c =>
      cases c with
      | get _ | containsKey _ => exact .inl h
      | ensureAncestors k =>
          left
          apply LdpStore.mem_ensureAncestors_iff.mpr (.inl h)
      | insert k e =>
          left
          rw [← LdpStore.isSome_lookup_iff] at h ⊢
          change ((s.insert k e).lookup a).isSome = true
          rw [LdpStore.lookup_insert]
          split
          · rfl
          · exact h
      | remove k =>
          rcases eq_or_ne a k with rfl | hne
          · exact .inr rfl
          · left
            rw [← LdpStore.isSome_lookup_iff] at h ⊢
            change ((s.erase k).lookup a).isSome = true
            rw [LdpStore.lookup_erase, if_neg hne]
            exact h

/-- A request with the removal of a key among its commands is accepted and deletes the key. -/
theorem acceptedSection_of_remove {x : Exchange} {a : Str}
    (h : PipelineCmd.store (.remove a) ∈ (requestScript authz).commands x) :
  acceptedSection authz x = some (.remove a)
  := by
  obtain ⟨d, c, hx, hd, heq⟩ := exists_section_of_mem_commands h
  obtain rfl := PipelineCmd.store.inj heq
  rw [hx]
  cases c with
  | insert k e => simp [changingSections] at hd
  | remove k =>
      obtain rfl := StoreCmd.remove.inj (List.mem_singleton.mp hd)
      rfl
  | get _ | containsKey _ | ensureAncestors _ => cases hd

/-- Every operation for which `P` holds has returned before the one with the ticket was called. -/
def ReturnedBefore {Client C : Type} {R : C → Type} {Op Val : Type}
    (history : List (Event Client C R Op Val)) (P : Op → Prop) (n : ℕ) : Prop :=
  ∀ j m op, .call j m op ∈ history → P op →
    ∃ v i op', Before history (.ret m op v) (.call i n op')

/-- When a request that writes a resource has been answered, every container above it with at most
98 segments is stored, if all requests to delete the container were answered before the first one
was called. -/
theorem containers_stand {Client : Type} [DecidableEq Client] (authz : AuthzState)
    (s : LdpStore)
    (cfg : Config Client PipelineCmd PipelineCmd.Answer LdpStore Exchange Response)
    (h : (serverMachine authz).Reachable (Config.init s) cfg)
    (x : Exchange) (k : Str) (e : Entry) (hx : acceptedSection authz x = some (.insert k e))
    (n : ℕ) (response : Response) (hret : .ret n x response ∈ cfg.history)
    (a : Str) (above : LdpStore.ContainerAbove k a) (shallow : a.count '/' ≤ 99)
    (earlier : ReturnedBefore cfg.history
      (fun y => acceptedSection authz y = some (.remove a)) n) :
  a ∈ cfg.shared
  := by
  have sound := Sound.of_reaches h
  have obeys := obeys_requestScript authz
  -- the request has walked over the ancestors of its key
  have walked : .act n x (.store (.ensureAncestors k)) () ∈ cfg.history := by
    have issued := Machine.commands_of_returned obeys h hret
    have hmem : PipelineCmd.store (.ensureAncestors k) ∈ (requestScript authz).commands x := by
      simp [requestScript, hx, changingSections]
    rw [← issued] at hmem
    obtain ⟨hmem, -⟩ := List.mem_filter.mp hmem
    obtain ⟨⟨c, r⟩, ho, rfl⟩ := List.mem_map.mp hmem
    obtain ⟨y, hy⟩ := mem_answersOf_iff.mp ho
    obtain rfl : y = x := sound.op_eq hy hret rfl
    apply hy
  have outcome := kept_or_broken (fun s => a ∈ s) (fun o => o.1 = .store (.remove a))
    (fun s t hexec => by
      obtain rfl := (Prod.mk.inj (Option.some.inj hexec)).2
      apply LdpStore.mem_ensureAncestors_iff.mpr (.inr (above.mem_ancestorKeys shallow)))
    (fun c s r t hexec hs => by
      obtain ⟨rfl, rfl⟩ := Prod.mk.inj (Option.some.inj hexec)
      apply mem_exec c hs)
    (fun e _ _ _ _ => e.elim) h walked
  rcases outcome with held | ⟨m, y, c, r, rfl, hbefore⟩
  · apply held
  · -- the request that removed the container was answered too early for that
    have hy := acceptedSection_of_remove (Machine.mem_commands obeys h hbefore.right_mem rfl)
    obtain ⟨j, hj⟩ := sound.opened _ hbefore.right_mem
    obtain ⟨v, i, z, hz⟩ := earlier j m y hj hy
    exact absurd hbefore (sound.not_before hz rfl rfl)

/-- The container `/a/` is deleted before `/a/b` is written, and `/c/` while it is. -/
def deletedBefore : List (Turn Bool Exchange Empty) :=
  [.call true (deleteRequest "/a/".toList), .act true, .act true, .act true, .ret true,
    .call false (putRequest "/a/b".toList [1]), .act false, .act false, .act false,
    .call true (deleteRequest "/c/".toList), .act true, .act true, .act true, .ret true,
    .act false, .ret false]

/-- The configuration that the schedule leads to. -/
def writtenAfter : Config Bool PipelineCmd PipelineCmd.Answer LdpStore Exchange Response :=
  (serverMachine .passThrough).after (Config.init LdpStore.new) deletedBefore

theorem containers_stand_deletedBefore :
  "/a/".toList ∈ writtenAfter.shared
  := by
  have hret : .ret 1 (putRequest "/a/b".toList [1])
      (serverSpec .passThrough (putRequest "/a/b".toList [1]) LdpStore.new).1
        ∈ writtenAfter.history :=
    List.mem_of_getElem? (i := 15) rfl
  have hcalls : calls writtenAfter.history = [(0, deleteRequest "/a/".toList),
      (1, putRequest "/a/b".toList [1]), (2, deleteRequest "/c/".toList)] := rfl
  apply containers_stand .passThrough LdpStore.new writtenAfter
    (Machine.reachable_after deletedBefore) _ "/a/b".toList
    (writtenEntry (putRequest "/a/b".toList [1]).2 "/a/b".toList [1]) rfl 1 _ hret _
    ⟨by decide, rfl, rfl, by decide⟩ (by decide)
  intro j m y hy hremove
  have hmem := mem_calls.mpr ⟨j, hy⟩
  rw [hcalls] at hmem
  simp only [List.mem_cons, Prod.mk.injEq, List.not_mem_nil, or_false] at hmem
  rcases hmem with ⟨rfl, rfl⟩ | ⟨-, rfl⟩ | ⟨-, rfl⟩
  · use (serverSpec .passThrough (deleteRequest "/a/".toList) LdpStore.new).1, false,
      putRequest "/a/b".toList [1]
    use writtenAfter.history.take 5, writtenAfter.history.drop 5, rfl
    exact ⟨List.mem_of_getElem? (i := 4) rfl, List.mem_of_getElem? (i := 0) rfl⟩
  · cases hremove
  · have other : some (StoreCmd.remove "/c/".toList) = some (.remove "/a/".toList) := hremove
    exact absurd (StoreCmd.remove.inj (Option.some.inj other)) (by decide)

end ServerCore
