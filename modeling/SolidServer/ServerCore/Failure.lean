import SolidServer.ServerCore.Requests

/-!
# Failed requests

A request that is answered with a 4xx or a 5xx leaves the store as it was, with one
exception: `handlePost` stores the new resource before it builds the response, and the
response cannot be built when the key of the container has an octet that is not allowed in
the `Location` header.
-/

open Text Http Atomic

namespace ServerCore

/-- The encoding of the key has an octet that is not allowed in header values: a control
character other than the tab, or DEL. -/
def Malformed (k : Str) : Prop :=
  ∃ b ∈ utf8 k, isValid b = false

instance : DecidablePred Malformed :=
  fun _ => inferInstanceAs (Decidable (∃ b ∈ _, _))

/-- The request is a POST, with a readable body, to a container with a malformed key. -/
def PostsToMalformed (req : Request) : Prop :=
  req.method = .post ∧ (∃ body, req.body = .ok body) ∧
    ∃ k, requestKey req.path = some k ∧ Malformed k

/-- The new key in a container is a header value unless the container's key is malformed. -/
theorem isSome_fromStr_childKey_iff (k : Str) (slug : Uuid) :
  (HeaderValue.fromStr (childKey k slug)).isSome ↔ ¬ Malformed k
  := by
  obtain ⟨n, hn⟩ := exists_trimEndMatches_append k '/'
  have slash : ∀ b ∈ utf8 (List.replicate n '/'), isValid b = true := by
    intro b hb
    obtain ⟨c, hc, hb⟩ := List.mem_flatMap.mp hb
    rw [List.eq_of_mem_replicate hc] at hb
    obtain rfl := List.mem_singleton.mp hb
    rfl
  have trimmed : Malformed k ↔ Malformed (trimEndMatches k '/') := by
    rw [Malformed, Malformed]
    conv_lhs => rw [hn]
    constructor
    · rintro ⟨b, hb, hv⟩
      rw [utf8, List.flatMap_append, List.mem_append] at hb
      rcases hb with hb | hb
      · use b, hb
      · rw [slash b hb] at hv
        cases hv
    · rintro ⟨b, hb, hv⟩
      use b
      rw [utf8, List.flatMap_append]
      use List.mem_append_left _ hb
  rw [HeaderValue.isSome_fromStr_iff, trimmed, childKey]
  constructor
  · rintro h ⟨b, hb, hv⟩
    have := h b (by
      rw [utf8, List.flatMap_append]
      apply List.mem_append_left _ hb)
    rw [hv] at this
    cases this
  · intro h b hb
    rw [utf8, List.flatMap_append, List.flatMap_cons] at hb
    rcases List.mem_append.mp hb with hb | hb
    · by_contra hv
      apply h
      use b, hb, Bool.eq_false_iff.mpr hv
    · rcases List.mem_append.mp hb with hb | hb
      · obtain rfl := List.mem_singleton.mp hb
        rfl
      · apply slug.isValid_of_mem hb

/-- A request other than such a POST leaves the store as it was when it fails. -/
theorem store_eq_of_isError {s : LdpStore} {x : Exchange} (h : ¬ PostsToMalformed x.2)
    (hfail : (serve x s).1.status.isError = true) :
  (serve x s).2 = s
  := by
  cases hk : requestKey x.2.path with
  | none => apply (serve_of_no_key s hk).2.1
  | some k =>
      rw [serve_of_key s hk] at hfail ⊢
      simp only [answer, effect, hk] at hfail ⊢
      cases hm : x.2.method with
      | get | head | options | patch | other => rfl
      | put =>
          cases hbody : x.2.body with
          | error e => rfl
          | ok body =>
              -- a PUT that reaches the store succeeds
              simp only [hm, hbody, putResponse_status, putStatus_not_error] at hfail
              cases hfail
      | post =>
          cases hbody : x.2.body with
          | error e => rfl
          | ok body =>
              have wellFormed : ¬ Malformed k := by
                intro hmal
                apply h
                use hm, ⟨body, hbody⟩, k, hk
              simp only [hm, hbody, postResponse_status,
                (isSome_fromStr_childKey_iff k x.1).mpr wellFormed, if_true] at hfail
              cases hfail
      | delete =>
          simp only [hm] at hfail
          split at hfail
          · cases hfail
          · apply LdpStore.erase_of_not_mem ‹_›

/-- A POST to a container with a malformed key fails, and has stored the new resource. -/
theorem stored_of_postsToMalformed {s : LdpStore} {x : Exchange} {k : Str}
    (h : PostsToMalformed x.2) (hk : requestKey x.2.path = some k) :
  (serve x s).1.status = .internalServerError ∧ childKey k x.1 ∈ (serve x s).2
  := by
  obtain ⟨hm, ⟨body, hbody⟩, k', hk', hmal⟩ := h
  obtain rfl := Option.some.inj (hk'.symm.trans hk)
  rw [serve_of_key s hk]
  simp only [answer, effect, hm, hbody, hk]
  constructor
  · rw [postResponse_status, if_neg]
    intro hsome
    apply (isSome_fromStr_childKey_iff k' x.1).mp hsome hmal
  · rw [← LdpStore.isSome_lookup_iff, lookup_write, if_pos rfl]
    rfl

/-- A failed request leaves the store as it was if and only if it is not a POST with a
readable body to a container with a malformed key, provided the slug is fresh. -/
theorem failed_request_changes_nothing_iff (s : LdpStore) (x : Exchange)
    (fresh : ∀ k, requestKey x.2.path = some k → childKey k x.1 ∉ s) :
  ((serve x s).1.status.isError = true → (serve x s).2 = s) ↔ ¬ PostsToMalformed x.2
  := by
  constructor
  · rintro h hpost
    obtain ⟨-, -, k, hk, -⟩ := id hpost
    obtain ⟨hstatus, hmem⟩ := stored_of_postsToMalformed (s := s) hpost hk
    apply fresh k hk
    rw [← h (by rw [hstatus]; rfl)]
    apply hmem
  · intro h hfail
    apply store_eq_of_isError h hfail

/-- `POST /%0A` -/
def postToNewline : Exchange :=
  (zeroSlug, ⟨.post, "/%0A".toList, [], .ok []⟩)

theorem failed_request_changes_nothing_iff_newline :
  ((serve postToNewline LdpStore.new).1.status.isError = true →
      (serve postToNewline LdpStore.new).2 = LdpStore.new) ↔
    ¬ PostsToMalformed postToNewline.2
  := by
  apply failed_request_changes_nothing_iff
  intro k hk
  obtain rfl := Option.some.inj (hk.symm.trans (show _ = some ['/', '\n'] by decide))
  decide

/-- `POST /%0A` on a new store is answered with 500 and leaves a new resource in it. -/
theorem failed_post_changes_store :
  ¬ ∀ (s : LdpStore) (x : Exchange), Reachable s →
    (serve x s).1.status.isError = true → (serve x s).2 = s
  := by
  intro h
  have key := h LdpStore.new postToNewline reachable_new (by decide)
  have mem : childKey ['/', '\n'] zeroSlug ∈ (serve postToNewline LdpStore.new).2 := by
    decide
  rw [key] at mem
  revert mem
  decide

end ServerCore
