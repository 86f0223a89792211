import SolidServer.ServerCore.Requests

/-!
# Durability

Abstractly the server remembers the latest write of every key since its last removal.
`latestWrite` computes it from the requests alone, and `touchedBelow` whether, since the
last removal of a key, that key or one below it was written.  After any run of requests the
store has, under every key, the entry of the latest write; if there is none, it has an
empty container or nothing, and nothing if the key was not touched either.
-/

open Text Http

namespace ServerCore

/-- The body and the content type of the latest write of a key, after one more effect. -/
def Effect.latest (k : Str) : Effect → Option (List UInt8 × Str) → Option (List UInt8 × Str)
  | .nothing, w => w
  | .write k' body ct, w => if k' = k then some (body, ct) else w
  | .remove k', w => if k' = k then none else w

/-- The body and the content type of the latest write of a key since its last removal. -/
def latestWrite (k : Str) (xs : List Exchange) : Option (List UInt8 × Str) :=
  xs.foldl (fun w x => (effect x).latest k w) none

/-- Whether a key was touched, after one more effect. -/
def Effect.touches (k : Str) : Effect → Bool → Bool
  | .nothing, t => t
  | .write k' _ _, t => t || k.isPrefixOf k'
  | .remove k', t => if k' = k then false else t

/-- Whether, since its last removal, a key or one that it is an initial part of was written.
The root is touched from the start. -/
def touchedBelow (k : Str) (xs : List Exchange) : Bool :=
  xs.foldl (fun t x => (effect x).touches k t) (k == ['/'])

theorem latestWrite_concat (k : Str) (xs : List Exchange) (x : Exchange) :
  latestWrite k (xs ++ [x]) = (effect x).latest k (latestWrite k xs)
  := by
  rw [latestWrite, List.foldl_append]
  rfl

theorem touchedBelow_concat (k : Str) (xs : List Exchange) (x : Exchange) :
  touchedBelow k (xs ++ [x]) = (effect x).touches k (touchedBelow k xs)
  := by
  rw [touchedBelow, List.foldl_append]
  rfl

/-- What is stored under a key, given its latest write and whether it was touched. -/
structure Remembers (k : Str) (stored : Option Entry) (latest : Option (List UInt8 × Str))
    (touched : Bool) : Prop where
  written : ∀ body ct, latest = some (body, ct) →
    stored = some ⟨body, ct, endsWith k '/'⟩ ∧ touched = true
  auto : ∀ e, latest = none → stored = some e →
    e = Entry.autoContainer ∧ endsWith k '/' = true ∧ touched = true

/-- One effect keeps the store and the record of it in agreement. -/
theorem Remembers.apply {k : Str} {s : LdpStore} {w : Option (List UInt8 × Str)} {t : Bool}
    (h : Remembers k (s.lookup k) w t) (x : Exchange) :
  Remembers k (((effect x).apply s).lookup k) ((effect x).latest k w) ((effect x).touches k t)
  := by
  cases heff : effect x with
  | nothing => apply h
  | remove k' =>
      rw [lookup_remove]
      simp only [Effect.latest, Effect.touches, eq_comm (a := k) (b := k')]
      split
      · constructor
        · intro body ct hw
          cases hw
        · intro e _ he
          cases he
      · apply h
  | write k' body' ct' =>
      have hk' := startsWith_of_effect_eq_write heff
      rw [lookup_write]
      simp only [Effect.latest, Effect.touches, eq_comm (a := k) (b := k')]
      by_cases hkk : k' = k
      · subst hkk
        simp only [if_true]
        constructor
        · intro body ct hw
          obtain ⟨rfl, rfl⟩ := Prod.mk.inj (Option.some.inj hw)
          simp
        · intro e hw
          cases hw
      · simp only [if_neg hkk]
        constructor
        · intro body ct hw
          obtain ⟨hstored, htouched⟩ := h.written body ct hw
          rw [hstored, htouched]
          simp
        · intro e hw he
          rcases Option.or_eq_some_iff.mp he with he | ⟨-, he⟩
          · obtain ⟨h₁, h₂, h₃⟩ := h.auto e hw he
            use h₁, h₂
            rw [h₃, Bool.true_or]
          · -- the key is an ancestor, hence an initial part, of the written one
            obtain ⟨hmem, he⟩ := Option.ite_none_right_eq_some.mp he
            obtain ⟨hpre, -, hends, -⟩ := LdpStore.ancestor_spec hk' hmem
            use (Option.some.inj he).symm, hends
            rw [List.isPrefixOf_iff_prefix.mpr hpre, Bool.or_true]

/-- After every run the store and the record of it agree. -/
theorem remembers_serveAll (xs : List Exchange) (k : Str) :
  Remembers k ((serveAll xs LdpStore.new).lookup k) (latestWrite k xs) (touchedBelow k xs)
  := by
  induction xs using List.reverseRecOn with
  | nil =>
      constructor
      · intro body ct hw
        cases hw
      · intro e _ he
        have key := LdpStore.lookup_new k
        change LdpStore.new.lookup k = some e at he
        rw [he] at key
        obtain ⟨rfl, he'⟩ := Option.ite_none_right_eq_some.mp key.symm
        use (Option.some.inj he').symm, rfl
        rfl
  | append_singleton xs x ih =>
      rw [serveAll_concat, serve_store, latestWrite_concat, touchedBelow_concat]
      apply ih.apply

/-- The content type of the latest write of a key is that of a request. -/
theorem exists_requestContentType {xs : List Exchange} {k : Str} {body : List UInt8} {ct : Str}
    (h : latestWrite k xs = some (body, ct)) :
  ∃ req, ct = requestContentType req
  := by
  induction xs using List.reverseRecOn with
  | nil => cases h
  | append_singleton xs x ih =>
      rw [latestWrite_concat] at h
      cases heff : effect x with
      | nothing =>
          rw [heff] at h
          apply ih h
      | remove k' =>
          rw [heff, Effect.latest] at h
          split at h
          · cases h
          · apply ih h
      | write k' body' ct' =>
          rw [heff, Effect.latest] at h
          split at h
          · obtain ⟨-, rfl⟩ := Prod.mk.inj (Option.some.inj h)
            use x.2
            apply contentType_of_effect_eq_write heff
          · apply ih h

/-- The content types in a reachable store can be sent in a header. -/
theorem Reachable.exists_header {s : LdpStore} (h : Reachable s) {k : Str} {entry : Entry}
    (hentry : s.lookup k = some entry) :
  ∃ v, HeaderValue.fromStr entry.contentType = some v
  := by
  obtain ⟨xs, rfl⟩ := h
  have remembers := remembers_serveAll xs k
  cases hw : latestWrite k xs with
  | none =>
      obtain ⟨rfl, -⟩ := remembers.auto entry hw hentry
      use ⟨utf8 "text/turtle".toList, by decide⟩
      rfl
  | some w =>
      obtain ⟨body, ct⟩ := w
      obtain ⟨req, rfl⟩ := exists_requestContentType hw
      obtain ⟨v, hv, -⟩ := fromStr_requestContentType req
      have hstored := (remembers.written _ _ hw).1
      rw [hentry] at hstored
      obtain rfl := Option.some.inj hstored
      use v, hv

/-- A GET request without an Accept header is answered with what is stored. -/
theorem serve_get {x : Exchange} {k : Str} (hmethod : x.2.method = .get)
    (hk : requestKey x.2.path = some k) (haccept : x.2.headers.get .accept = none)
    (s : LdpStore) :
  (serve x s).1 = getResult k none (s.lookup k)
  := by
  rw [serve_of_key s hk]
  simp only [answer, hmethod, readHeader, haccept, Option.bind_none]

/-- After any run of requests on a new store, a GET of a key without an Accept header returns
the body and the content type of the latest write of the key since its last removal, and
404 if since then neither the key nor one below it was written; an entry that was not
written is an empty Turtle container. -/
theorem durability (xs : List Exchange) (x : Exchange) (k : Str)
    (hmethod : x.2.method = .get) (hk : requestKey x.2.path = some k)
    (haccept : x.2.headers.get .accept = none) :
  let s := serveAll xs LdpStore.new
  let response := (serve x s).1
  (∀ body ct, latestWrite k xs = some (body, ct) →
      response.status = .ok ∧ response.body = body ∧
        (response.headers.get .contentType).bind HeaderValue.toStr = some ct) ∧
    (touchedBelow k xs = false → response.status = .notFound) ∧
    ∀ e, latestWrite k xs = none → s.lookup k = some e →
      e = ⟨[], "text/turtle".toList, true⟩ ∧ endsWith k '/' = true
  := by
  have remembers := remembers_serveAll xs k
  simp only [serve_get hmethod hk haccept]
  constructor
  · intro body ct hw
    obtain ⟨req, rfl⟩ := exists_requestContentType hw
    obtain ⟨v, hv, htext⟩ := fromStr_requestContentType req
    have response : getResult k none ((serveAll xs LdpStore.new).lookup k)
        = getResponse ⟨body, requestContentType req, endsWith k '/'⟩ := by
      rw [(remembers.written _ _ hw).1]
      rfl
    rw [response, getResponse_eq hv]
    exact ⟨rfl, rfl, htext⟩
  · constructor
    · intro htouched
      cases hs : (serveAll xs LdpStore.new).lookup k with
      | none => rfl
      | some e =>
          have : touchedBelow k xs = true := by
            cases hw : latestWrite k xs with
            | none => apply (remembers.auto e hw hs).2.2
            | some w => apply (remembers.written w.1 w.2 hw).2
          rw [htouched] at this
          cases this
    · intro e hw he
      obtain ⟨h₁, h₂, -⟩ := remembers.auto e hw he
      use h₁, h₂

/-- `PUT /a/b`, then `GET /a/` -/
theorem durability_put_below :
  let put : Exchange := (zeroSlug, ⟨.put, "/a/b".toList, [], .ok [1]⟩)
  let get : Exchange := (zeroSlug, ⟨.get, "/a/".toList, [], .ok []⟩)
  let s := serveAll [put] LdpStore.new
  (∀ body ct, latestWrite "/a/".toList [put] = some (body, ct) →
      (serve get s).1.status = .ok ∧ (serve get s).1.body = body ∧
        ((serve get s).1.headers.get .contentType).bind HeaderValue.toStr = some ct) ∧
    (touchedBelow "/a/".toList [put] = false → (serve get s).1.status = .notFound) ∧
    ∀ e, latestWrite "/a/".toList [put] = none → s.lookup "/a/".toList = some e →
      e = ⟨[], "text/turtle".toList, true⟩ ∧ endsWith "/a/".toList '/' = true
  := durability [(zeroSlug, ⟨.put, "/a/b".toList, [], .ok [1]⟩)]
    (zeroSlug, ⟨.get, "/a/".toList, [], .ok []⟩) "/a/".toList rfl (by decide) rfl

end ServerCore
