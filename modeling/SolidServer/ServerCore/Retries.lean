import SolidServer.Library.Repetition
import SolidServer.ServerCore.Confluence

/-!
# Requests that are sent again

A client that has lost the response to a request sends it again.  Unless the request is a POST,
which creates another resource each time, this is harmless: if no request comes in between
that interferes with it, nothing that is done for the second one changes the store, whatever else
is going on.
-/

open Text Http HttpTypes Authz Atomic

namespace ServerCore

variable {authz : AuthzState}

/-- A section that changes the store has an effect only once. -/
theorem effect_effect {c d : StoreCmd} (h : d ∈ changingSections c) (s : LdpStore) :
  d.effect (d.effect s) = d.effect s
  := by
  have walk : ∀ k, (s.ensureAncestors k).ensureAncestors k = s.ensureAncestors k := by
    intro k
    apply LdpStore.ext
    intro k'
    change ((s.ensureAncestors k).ensureAncestors k).lookup k' = (s.ensureAncestors k).lookup k'
    rw [LdpStore.lookup_ensureAncestors, LdpStore.lookup_ensureAncestors, Option.or_assoc,
      Option.or_self]
  cases c with
  | insert k e =>
      rcases List.mem_pair.mp h with rfl | rfl
      · apply walk k
      · apply LdpStore.ext
        intro k'
        change ((s.insert k e).insert k e).lookup k' = (s.insert k e).lookup k'
        simp only [LdpStore.lookup_insert]
        split <;> rfl
  | remove k =>
      obtain rfl := List.mem_singleton.mp h
      apply LdpStore.ext
      intro k'
      change ((s.erase k).erase k).lookup k' = (s.erase k).lookup k'
      simp only [LdpStore.lookup_erase]
      split <;> rfl
  | get _ | containsKey _ | ensureAncestors _ => cases h

/-- A request other than a POST has the same section whenever it is sent. -/
theorem acceptedSection_again {x x' : Exchange} (same : x'.2 = x.2) (hpost : x.2.method ≠ .post) :
  acceptedSection authz x' = acceptedSection authz x
  := by
  have main : mainSection x' = mainSection x := by
    rw [mainSection, mainSection, same]
    cases hm : x.2.method with
    | post => exact absurd hm hpost
    | get | head | put | delete | options | patch | other _ =>
        cases requestKey x.2.path <;> cases x.2.body <;> rfl
  rw [acceptedSection, acceptedSection, main, same]

/-- If a request other than a POST is sent again after it was answered, and no request that is
not apart from it comes between the first call and the second answer, the second one changes
nothing: the store is always the one that all the other requests leave. -/
theorem retries_change_nothing {Client : Type} [DecidableEq Client] (authz : AuthzState)
    (s : LdpStore)
    (cfg : Config Client PipelineCmd PipelineCmd.Answer LdpStore Exchange Response)
    (h : (serverMachine authz).Reachable (Config.init s) cfg)
    (x x' : Exchange) (same : x'.2 = x.2) (hpost : x.2.method ≠ .post)
    (a b : ℕ) (i : Client) (response : Response)
    (hab : Before cfg.history (.ret a x response) (.call i b x'))
    (secluded : Secluded cfg.history (fun y => Apart authz x y) a b) :
  cfg.shared = (requestScript authz).after (cfg.history.filter (·.ticket ≠ b)) s
  := by
  apply Machine.shared_eq_after_others (obeys_requestScript authz) h _ _ _ hab
  · intro j m y hy ha hb
    apply (secluded j m y hy ha hb).imp_left
    intro apart c hc d hd t
    obtain ⟨c', cx, hcx, hc', rfl⟩ := exists_section_of_mem_commands hc
    obtain ⟨d', dy, hdy, hd', rfl⟩ := exists_section_of_mem_commands hd
    apply (apart cx dy hcx hdy).exchangeable hc' hd' t
  · simp only [requestScript, acceptedSection_again same hpost]
  · intro c hc t
    obtain ⟨c', cx, -, hc', rfl⟩ := exists_section_of_mem_commands hc
    apply effect_effect hc' t
  · intro c hc d hd t
    obtain ⟨c', cx, hcx, hc', rfl⟩ := exists_section_of_mem_commands hc
    obtain ⟨d', dx, hdx, hd', rfl⟩ := exists_section_of_mem_commands hd
    obtain rfl := Option.some.inj (hcx.symm.trans hdx)
    apply exchangeable_self hc' hd' t

/-- `/a` is put, and put again while `/b` is. -/
def putAgain : List (Turn Bool Exchange Empty) :=
  [.call false (putRequest "/a".toList [1]), .act false, .act false, .act false, .act false,
    .ret false,
    .call true (putRequest "/b".toList [2]), .act true, .act true,
    .call false (putRequest "/a".toList [1]), .act false, .act true, .act false, .act false,
    .act true, .act false, .ret false]

/-- The configuration that the schedule leads to. -/
def putTwice : Config Bool PipelineCmd PipelineCmd.Answer LdpStore Exchange Response :=
  (serverMachine .passThrough).after (Config.init LdpStore.new) putAgain

theorem retries_change_nothing_putAgain :
  putTwice.shared
    = (requestScript .passThrough).after (putTwice.history.filter (·.ticket ≠ 2)) LdpStore.new
  := by
  have hab : Before putTwice.history
      (.ret 0 (putRequest "/a".toList [1])
        (serverSpec .passThrough (putRequest "/a".toList [1]) LdpStore.new).1)
      (.call false 2 (putRequest "/a".toList [1])) := by
    use putTwice.history.take 6, putTwice.history.drop 6, rfl
    exact ⟨List.mem_of_getElem? (i := 5) rfl, List.mem_of_getElem? (i := 3) rfl⟩
  have hcalls : calls putTwice.history = [(0, putRequest "/a".toList [1]),
      (1, putRequest "/b".toList [2]), (2, putRequest "/a".toList [1])] := rfl
  apply retries_change_nothing .passThrough LdpStore.new putTwice
    (Machine.reachable_after putAgain) _ _ rfl (by decide) 0 2 false _ hab
  intro j m y hy ha hb
  have hmem := mem_calls.mpr ⟨j, hy⟩
  rw [hcalls] at hmem
  simp only [List.mem_cons, Prod.mk.injEq, List.not_mem_nil, or_false] at hmem
  rcases hmem with ⟨rfl, -⟩ | ⟨-, rfl⟩ | ⟨rfl, -⟩
  · exact absurd rfl ha
  · left
    intro c d hc hd
    obtain rfl := Option.some.inj hc
    obtain rfl := Option.some.inj hd
    have apart : "/a".toList ≠ "/b".toList := by decide
    apply apart
  · exact absurd rfl hb

end ServerCore
