import SolidServer.ServerCore.Failure

/-!
# The location of a new resource

A POST request is answered with the key of the new resource in the `Location` header, as it
is.  The key came out of a decoded path, and a path made of it is decoded again: it leads back
to the resource exactly if the key is a plain path, which the router leaves alone.
-/

open Text Http Atomic

namespace ServerCore

/-- The response is a success with what a request posted. -/
structure Returns (response : Response) (posted : Request) : Prop where
  status : response.status = .ok
  body : posted.body = .ok response.body
  contentType : (response.headers.get .contentType).bind HeaderValue.toStr
    = some (requestContentType posted)

/-- If a request is answered with 201 and a location, then a GET request for this location that
accepts what was posted returns it. -/
def LeadsBack (x : Exchange) (s : LdpStore) : Prop :=
  ∀ location, (serve x s).1.status = .created → (.location, location) ∈ (serve x s).1.headers →
    ∀ y : Exchange, y.2.method = .get → utf8 y.2.path = location.octets →
      (∀ a, readHeader y.2 .accept = some a →
        acceptSatisfied a (requestContentType x.2) = true) →
      Returns (serve y (serve x s).2).1 x.2

/-- The key, less the slashes at its end, has no escapes and does not begin with two slashes. -/
def Unambiguous (k : Str) : Prop :=
  startsWith (trimEndMatches k '/').tail '/' = false ∧
    hasEscape (utf8 (trimEndMatches k '/')) = false

instance : DecidablePred Unambiguous :=
  fun _ => inferInstanceAs (Decidable (_ ∧ _))

/-! ### Decoding child keys -/

theorem hasEscape_utf8_append (s t : Str) :
  hasEscape (utf8 (s ++ '/' :: t)) = (hasEscape (utf8 s) || hasEscape (utf8 t))
  := by
  have encoded : utf8 (s ++ '/' :: t) = utf8 s ++ 0x2F :: utf8 t := List.flatMap_append
  rw [encoded]
  apply hasEscape_append (by decide) rfl

/-- A slug has no escapes. -/
theorem hasEscape_slug (slug : Uuid) :
  hasEscape (utf8 slug.text) = false
  := by
  have percent : ∀ b ∈ utf8 slug.text, (b != 0x25) = true := by
    intro b hb
    apply slug.forall_octets _ hb
    decide
  apply hasEscape_eq_false fun b hb => bne_iff_ne.mp (percent b hb)

/-- Less its trailing slashes, a key is nothing or a slash and something. -/
theorem trimEndMatches_key {k : Str} (hk : startsWith k '/' = true) :
  trimEndMatches k '/' = [] ∨ ∃ c t, trimEndMatches k '/' = '/' :: c :: t
  := by
  obtain ⟨rest, rfl⟩ := startsWith_iff.mp hk
  have pre := trimEndMatches_prefix ('/' :: rest) '/'
  have last := endsWith_trimEndMatches ('/' :: rest) '/'
  cases htrim : trimEndMatches ('/' :: rest) '/' with
  | nil => exact .inl rfl
  | cons d t =>
      rw [htrim] at pre last
      obtain ⟨rfl, -⟩ := List.cons_prefix_cons.mp pre
      cases t with
      | nil => cases last
      | cons c t => exact .inr ⟨c, t, rfl⟩

/-- The key of a child is a plain path exactly if that of its container is unambiguous. -/
theorem plain_childKey_iff {k : Str} (hk : startsWith k '/' = true) (slug : Uuid) :
  Plain (childKey k slug) ↔ Unambiguous k
  := by
  have slash := startsWith_eq_false slug.slash_free
  rw [Plain, Unambiguous, startsWith_childKey hk, childKey]
  rcases trimEndMatches_key hk with hbase | ⟨c, t, hbase⟩
  · rw [hbase]
    have empty : startsWith [] '/' = false ∧ hasEscape (utf8 []) = false := by decide
    simp [slash, hasEscape_slug, empty]
  · have front : hasEscape (utf8 ('/' :: c :: t)) = hasEscape (utf8 (c :: t)) :=
      hasEscape_utf8_append [] (c :: t)
    have back : hasEscape (utf8 (c :: t ++ '/' :: slug.text)) = hasEscape (utf8 (c :: t)) := by
      rw [hasEscape_utf8_append, hasEscape_slug, Bool.or_false]
    have same : startsWith (c :: t ++ '/' :: slug.text) '/' = startsWith (c :: t) '/' := rfl
    rw [hbase, List.cons_append, List.tail_cons, List.tail_cons, front, back, same]
    simp only [true_and]

/-- Decoding keeps the slug at the end. -/
theorem suffix_of_percentDecode {s p : Str} {slug : Uuid}
    (h : percentDecode (s ++ '/' :: slug.text) = some p) :
  slug.text <:+ p
  := by
  have encoded : utf8 (s ++ '/' :: slug.text) = utf8 s ++ 0x2F :: utf8 slug.text :=
    List.flatMap_append
  have hp := utf8_of_fromUtf8 h
  rw [encoded, unescape_append (by decide) rfl, unescape_eq_self (hasEscape_slug slug)] at hp
  obtain ⟨t, u, rfl, -, hu⟩ := exists_of_utf8_eq_append (d := '/') rfl hp
  rw [utf8_injective hu]
  use t ++ ['/']
  simp

/-- The key that the key of a child is decoded to ends with the slug. -/
theorem suffix_of_requestKey {k k' : Str} {slug : Uuid} (hk : startsWith k '/' = true)
    (h : requestKey (childKey k slug) = some k') :
  slug.text <:+ k'
  := by
  have resolved : ∀ p, slug.text <:+ p → slug.text <:+ resolvePath (some p) := by
    intro p hp
    cases p with
    | nil => apply absurd (List.suffix_nil.mp hp) slug.ne_nil
    | cons c p =>
        rw [resolvePath]
        · split
          · exact hp
          · apply hp.trans (List.suffix_cons _ _)
        · apply List.cons_ne_nil
  rcases trimEndMatches_key hk with hbase | ⟨c, t, hbase⟩
  · have plain : Plain (childKey k slug) := by
      rw [plain_childKey_iff hk, Unambiguous, hbase]
      decide
    rw [requestKey_eq_self_iff.mpr plain] at h
    rw [← Option.some.inj h]
    apply (List.suffix_cons _ _).trans (List.suffix_append _ _)
  · have key : requestKey (childKey k slug) =
        (percentDecode (c :: t ++ '/' :: slug.text)).map fun p => resolvePath (some p) := by
      rw [childKey, hbase]
      rfl
    rw [key] at h
    obtain ⟨p, hp, rfl⟩ := Option.map_eq_some_iff.mp h
    apply resolved p (suffix_of_percentDecode hp)

/-! ### Following the location -/

/-- The answer to a POST request whose child key is a header value. -/
theorem serve_post {x : Exchange} (hmethod : x.2.method = .post) {k : Str}
    (hk : requestKey x.2.path = some k) {body : List UInt8} (hbody : x.2.body = .ok body)
    {location : HeaderValue} (hlocation : HeaderValue.fromStr (childKey k x.1) = some location)
    (s : LdpStore) :
  serve x s = (⟨.created, [(.location, location)], []⟩,
    (Effect.write (childKey k x.1) body (requestContentType x.2)).apply s)
  := by
  rw [serve_of_key s hk]
  simp only [answer, effect, hmethod, hk, hbody, postResponse, hlocation]
  rfl

/-- A POST request that is answered with 201 has a path with a key and a readable body, and its
child key is a header value. -/
theorem exists_of_created {x : Exchange} (hmethod : x.2.method = .post) {s : LdpStore}
    (hstatus : (serve x s).1.status = .created) :
  ∃ k body location, requestKey x.2.path = some k ∧ x.2.body = .ok body ∧
    HeaderValue.fromStr (childKey k x.1) = some location
  := by
  cases hk : requestKey x.2.path with
  | none =>
      have herror := (serve_of_no_key s hk).1
      rw [hstatus] at herror
      cases herror
  | some k =>
      rw [serve_of_key s hk] at hstatus
      cases hbody : x.2.body with
      | error e => simp [answer, hmethod, hbody, Response.ofStatus] at hstatus
      | ok body =>
          simp only [answer, hmethod, hbody, postResponse_status] at hstatus
          cases hlocation : HeaderValue.fromStr (childKey k x.1) with
          | none => simp [hlocation] at hstatus
          | some location => exact ⟨k, body, location, rfl, rfl, hlocation⟩

/-- A GET request for a key, accepting what is stored there, returns it. -/
theorem returns_of_lookup {s : LdpStore} {k : Str} {posted : Request} {body : List UInt8}
    {flag : Bool} (hs : s.lookup k = some ⟨body, requestContentType posted, flag⟩)
    (hbody : posted.body = .ok body) {y : Exchange} (hmethod : y.2.method = .get)
    (hk : requestKey y.2.path = some k)
    (haccept : ∀ a, readHeader y.2 .accept = some a →
      acceptSatisfied a (requestContentType posted) = true) :
  Returns (serve y s).1 posted
  := by
  have satisfied : unsatisfied (readHeader y.2 .accept)
      ⟨body, requestContentType posted, flag⟩ = none := by
    rw [unsatisfied, Option.filter_eq_none_iff]
    intro a ha
    simp [haccept a ha]
  obtain ⟨v, hv, htext⟩ := fromStr_requestContentType posted
  have response : (serve y s).1 = getResponse ⟨body, requestContentType posted, flag⟩ := by
    rw [serve_of_key s hk]
    simp only [answer, hmethod, getResult, hs, satisfied]
  rw [response, getResponse_eq hv]
  exact ⟨rfl, hbody, htext⟩

/-- Where the decoded key of a child is another one, nothing is found. -/
theorem not_found_child {k k' : Str} {slug : Uuid} (hk : startsWith k '/' = true)
    {s : LdpStore} (fresh : ∀ k ∈ s, ¬ slug.text <:+ k)
    (h : requestKey (childKey k slug) = some k') (hne : k' ≠ childKey k slug)
    (body : List UInt8) (contentType : Str) :
  ((Effect.write (childKey k slug) body contentType).apply s).lookup k' = none
  := by
  have hsuffix := suffix_of_requestKey hk h
  have notMem : k' ∉ s := fun hmem => fresh k' hmem hsuffix
  have notAncestor : k' ∉ LdpStore.ancestorKeys (childKey k slug) := by
    intro ha
    obtain ⟨t, rfl⟩ := hsuffix
    have hend := LdpStore.endsWith_ancestor ha
    rw [endsWith_append slug.ne_nil, endsWith_eq_false slug.slash_free] at hend
    cases hend
  rw [lookup_write, if_neg hne, if_neg notAncestor, LdpStore.lookup_eq_none_iff.mpr notMem]
  rfl

/-- Where the location leads back, the key of the container is unambiguous. -/
theorem unambiguous_of_leadsBack {s : LdpStore} {x : Exchange} (hmethod : x.2.method = .post)
    (fresh : ∀ k ∈ s, ¬ x.1.text <:+ k) (h : LeadsBack x s) {k : Str}
    (hk : requestKey x.2.path = some k) {body : List UInt8} (hbody : x.2.body = .ok body)
    (hvalid : ¬ Malformed k) :
  Unambiguous k
  := by
  have hslash := startsWith_requestKey hk
  obtain ⟨location, hlocation⟩ :=
    Option.isSome_iff_exists.mp ((isSome_fromStr_childKey_iff k x.1).mpr hvalid)
  -- follow the location with a GET request without headers
  let y : Exchange := (x.1, ⟨.get, childKey k x.1, [], .ok []⟩)
  have back := h location
  rw [serve_post hmethod hk hbody hlocation] at back
  have found := back rfl List.mem_cons_self y rfl
    (HeaderValue.octets_of_fromStr hlocation).symm (by rintro a ⟨⟩)
  by_contra ambiguous
  rw [← plain_childKey_iff hslash x.1, ← requestKey_eq_self_iff] at ambiguous
  cases hk' : requestKey (childKey k x.1) with
  | none =>
      have herror := (serve_of_no_key (x := y)
        ((Effect.write (childKey k x.1) body (requestContentType x.2)).apply s) hk').1
      rw [found.status] at herror
      cases herror
  | some k' =>
      have hne : k' ≠ childKey k x.1 := by
        rintro rfl
        apply ambiguous hk'
      have status := found.status
      rw [serve_of_key (x := y) _ hk'] at status
      simp only [answer, y, not_found_child hslash fresh hk' hne] at status
      cases status

/-- Where the key of the container is unambiguous, the location leads back. -/
theorem leadsBack_of_unambiguous {s : LdpStore} {x : Exchange} (hmethod : x.2.method = .post)
    (h : ∀ k, requestKey x.2.path = some k → (∃ body, x.2.body = .ok body) → ¬ Malformed k →
      Unambiguous k) :
  LeadsBack x s
  := by
  intro location hstatus hmem y hget hpath haccept
  obtain ⟨k, body, location', hk, hbody, hlocation⟩ := exists_of_created hmethod hstatus
  rw [serve_post hmethod hk hbody hlocation] at hmem ⊢
  have hvalid : ¬ Malformed k := by
    rw [← isSome_fromStr_childKey_iff k x.1, hlocation]
    rfl
  have plain := (plain_childKey_iff (startsWith_requestKey hk) x.1).mpr
    (h k hk ⟨body, hbody⟩ hvalid)
  have hsame : y.2.path = childKey k x.1 := by
    obtain ⟨-, rfl⟩ : HeaderName.location = .location ∧ location = location' := by
      simpa using hmem
    apply utf8_injective
    rw [hpath, HeaderValue.octets_of_fromStr hlocation]
  have stored : ((Effect.write (childKey k x.1) body (requestContentType x.2)).apply s).lookup
      (childKey k x.1) = some ⟨body, requestContentType x.2, endsWith (childKey k x.1) '/'⟩ := by
    rw [lookup_write, if_pos rfl]
  apply returns_of_lookup stored hbody hget _ haccept
  rw [hsame]
  apply requestKey_eq_self_iff.mpr plain

/-- The location of a new resource leads back to it exactly if the key of the container is
unambiguous. -/
theorem location_leads_back_iff {s : LdpStore} {x : Exchange} (hmethod : x.2.method = .post)
    (fresh : ∀ k ∈ s, ¬ x.1.text <:+ k) :
  LeadsBack x s ↔
    ∀ k, requestKey x.2.path = some k → (∃ body, x.2.body = .ok body) → ¬ Malformed k →
      Unambiguous k
  := by
  constructor
  · rintro h k hk ⟨body, hbody⟩ hvalid
    apply unambiguous_of_leadsBack hmethod fresh h hk hbody hvalid
  · apply leadsBack_of_unambiguous hmethod

/-- In a new store no key ends with a slug. -/
theorem fresh_new (slug : Uuid) :
  ∀ k ∈ LdpStore.new, ¬ slug.text <:+ k
  := by
  intro k hk h
  rw [← LdpStore.isSome_lookup_iff, LdpStore.lookup_new] at hk
  split at hk
  · subst_vars
    have long := h.length_le
    rw [slug.length_eq] at long
    apply absurd long
    decide
  · cases hk

/-- `POST /a/`, on a new server -/
theorem location_leads_back_of_plain :
  LeadsBack (zeroSlug, ⟨.post, "/a/".toList, [], .ok [1]⟩) LdpStore.new ↔
    ∀ k, requestKey "/a/".toList = some k →
      (∃ body, (Except.ok [1] : Except Unit (List UInt8)) = .ok body) → ¬ Malformed k →
      Unambiguous k
  := location_leads_back_iff (x := (zeroSlug, ⟨.post, "/a/".toList, [], .ok [1]⟩)) rfl
    (fresh_new zeroSlug)

/-- `POST /%2541/` -/
def postEscaped : Exchange :=
  (zeroSlug, ⟨.post, "/%2541/".toList, [], .ok [1]⟩)

/-- The location of a resource in the container `/%41/` leads to the container `/A/`. -/
theorem not_location_leads_back :
  ¬ ∀ (s : LdpStore) (x : Exchange), Reachable s → x.2.method = .post →
    (∀ k ∈ s, ¬ x.1.text <:+ k) → LeadsBack x s
  := by
  intro h
  have leads := h LdpStore.new postEscaped reachable_new rfl (fresh_new zeroSlug)
  have unambiguous := unambiguous_of_leadsBack rfl (fresh_new zeroSlug) leads
    (k := "/%41/".toList) (by decide) rfl (by decide)
  revert unambiguous
  decide

end ServerCore
