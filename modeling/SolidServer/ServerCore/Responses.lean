import SolidServer.Library.Runs
import SolidServer.ServerCore.Concurrency
import SolidServer.ServerCore.Durability
import SolidServer.ServerCore.Hierarchy

/-!
# What responses say about the store

A PUT is answered with 201 if its key was not stored and with 204 if it was, except that a
PUT of a missing root is answered with 204: the walk over the ancestors puts the root back
before it is looked for.  In a store that a server has, keys begin with a slash, entries are
marked as containers exactly under keys that end with one, and content types are header
values, so that GET and HEAD requests never fail.  A HEAD request is answered as the GET
request is, except that the `Link` header of a document is missing.
-/

open Text Http Atomic

namespace ServerCore

/-! ### Creation -/

theorem startsWith_key (path : Str) :
  startsWith (LdpStore.key path) '/' = true
  := by
  rw [LdpStore.key]
  split
  · assumption
  · rfl

/-- Only the root is an ancestor of itself. -/
theorem mem_ancestorKeys_self_iff {k : Str} (hk : startsWith k '/' = true) :
  k ∈ LdpStore.ancestorKeys k ↔ k = ['/']
  := by
  constructor
  · intro h
    apply (LdpStore.ancestor_spec hk h).2.2.2 rfl
  · rintro rfl
    decide

/-- The key of a put is there after the walk if it was before, or is the root. -/
theorem mem_ensureAncestors_self_iff {s : LdpStore} {k : Str} (hk : startsWith k '/' = true) :
  k ∈ s.ensureAncestors k ↔ k ∈ s ∨ k = ['/']
  := by
  rw [LdpStore.mem_ensureAncestors_iff, mem_ancestorKeys_self_iff hk]

/-- What `put` on the path returns, and the status of the response to a PUT request for its key,
tell whether the key was stored. -/
structure ReportsCreation (s : LdpStore) (path : Str) : Prop where
  put : ∀ body contentType,
    ((LdpStore.put path body contentType).run StoreCmd.exec s).1 = true ↔ LdpStore.key path ∉ s
  created : ∀ capture req body, resolvePath capture = LdpStore.key path → req.body = .ok body →
    (((handlePut capture req).run StoreCmd.exec s).1.status = .created ↔ LdpStore.key path ∉ s)
  noContent : ∀ capture req body, resolvePath capture = LdpStore.key path →
    req.body = .ok body →
    (((handlePut capture req).run StoreCmd.exec s).1.status = .noContent ↔
      LdpStore.key path ∈ s)

theorem run_put_eq_true_iff (s : LdpStore) (path : Str) (body : List UInt8) (contentType : Str) :
  ((LdpStore.put path body contentType).run StoreCmd.exec s).1 = true ↔
    LdpStore.key path ∉ s ∧ LdpStore.key path ≠ ['/']
  := by
  rw [run_put, Bool.not_eq_true', decide_eq_false_iff_not,
    mem_ensureAncestors_self_iff (startsWith_key path), not_or]

theorem handlePut_status (s : LdpStore) (capture : Option Str) {req : Request}
    {body : List UInt8} (hbody : req.body = .ok body) :
  ((handlePut capture req).run StoreCmd.exec s).1.status =
    if resolvePath capture ∈ s ∨ resolvePath capture = ['/'] then .noContent else .created
  := by
  have key := mem_ensureAncestors_self_iff (s := s) (startsWith_resolvePath capture)
  rw [run_handlePut s capture hbody, putResponse_status, putStatus]
  by_cases h : resolvePath capture ∈ s.ensureAncestors (resolvePath capture)
  · rw [if_pos (key.mp h)]
    simp [h]
  · rw [if_neg (mt key.mpr h)]
    simp [h]

/-- Creation is reported truthfully unless the root is put when it is missing. -/
theorem put_reports_creation_iff (s : LdpStore) (path : Str) :
  ReportsCreation s path ↔ (LdpStore.key path = ['/'] → ['/'] ∈ s)
  := by
  constructor
  · intro h hroot
    by_contra hmem
    have hput := (h.put [] []).mpr (by rwa [hroot])
    apply ((run_put_eq_true_iff s path [] []).mp hput).2 hroot
  · intro h
    have key : LdpStore.key path ∈ s ∨ LdpStore.key path = ['/'] ↔ LdpStore.key path ∈ s := by
      constructor
      · rintro (hmem | hroot)
        · exact hmem
        · rw [hroot]
          exact h hroot
      · exact .inl
    constructor
    case put =>
      intro body contentType
      rw [run_put_eq_true_iff, ← not_or, key]
    case created =>
      intro capture req body hcapture hbody
      rw [handlePut_status s capture hbody, hcapture, if_congr key rfl rfl]
      split <;> simp [*]
    case noContent =>
      intro capture req body hcapture hbody
      rw [handlePut_status s capture hbody, hcapture, if_congr key rfl rfl]
      split <;> simp [*]

/-- Perform a store operation while nothing else runs. -/
def StoreOp.perform (op : StoreOp) (s : LdpStore) : StoreVal × LdpStore :=
  op.impl.run StoreCmd.exec s

/-- After the root was deleted, putting it back is not reported as a creation. -/
theorem not_reports_creation :
  ¬ ∀ (ops : List StoreOp) (path : Str),
    ReportsCreation (Run.state StoreOp.perform ops LdpStore.new) path
  := by
  intro h
  have created := ((h [.delete "/".toList] "/".toList).put [] []).mpr (by decide)
  apply ((run_put_eq_true_iff _ _ _ _).mp created).2 rfl

/-! ### Reads -/

/-- Keys begin with a slash, entries are marked as containers exactly under keys that end with
one, and content types are header values. -/
structure WellFormed (s : LdpStore) : Prop where
  slash : ∀ k e, s.lookup k = some e → startsWith k '/' = true
  flagged : Flagged s
  sendable : ∀ k e, s.lookup k = some e → ∃ v, HeaderValue.fromStr e.contentType = some v

/-- A request stores entries under keys that begin with a slash. -/
theorem startsWith_of_serve {s : LdpStore} (h : ∀ k e, s.lookup k = some e →
    startsWith k '/' = true) (x : Exchange) {k : Str} {e : Entry}
    (he : (serve x s).2.lookup k = some e) :
  startsWith k '/' = true
  := by
  rw [serve_store] at he
  cases heff : effect x with
  | nothing =>
      rw [heff] at he
      apply h k e he
  | write k' body ct =>
      rw [heff, lookup_write] at he
      split at he
      · subst_vars
        apply startsWith_of_effect_eq_write heff
      · rcases Option.or_eq_some_iff.mp he with he | ⟨-, he⟩
        · apply h k e he
        · obtain ⟨hmem, -⟩ := Option.ite_none_right_eq_some.mp he
          apply (LdpStore.ancestor_spec (startsWith_of_effect_eq_write heff) hmem).2.1
  | remove k' =>
      rw [heff, lookup_remove] at he
      split at he
      · cases he
      · apply h k e he

theorem wellFormed_serveAll (xs : List Exchange) :
  WellFormed (serveAll xs LdpStore.new)
  := by
  constructor
  case slash =>
    induction xs using List.reverseRecOn with
    | nil =>
        intro k e he
        change LdpStore.new.lookup k = some e at he
        rw [LdpStore.lookup_new] at he
        obtain ⟨rfl, -⟩ := Option.ite_none_right_eq_some.mp he
        rfl
    | append_singleton xs x ih =>
        intro k e he
        rw [serveAll_concat] at he
        apply startsWith_of_serve ih x he
  case flagged => apply flagged_serveAll
  case sendable =>
    intro k e he
    apply Reachable.exists_header ⟨xs, rfl⟩ he

/-- The response to a read of the key is not the fallback for a response that cannot be built,
and if it is a success it links to the type of containers exactly if the key is that of one. -/
structure ReadAnswered (k : Str) (r : Response) : Prop where
  built : r.status ≠ .internalServerError
  link : r.status = .ok → ((.link, containerLink) ∈ r.headers ↔ endsWith k '/' = true)

theorem WellFormed.readAnswered_getResponse {s : LdpStore} (h : WellFormed s) {k : Str}
    {e : Entry} (he : s.lookup k = some e) :
  ReadAnswered k (getResponse e)
  := by
  obtain ⟨v, hv⟩ := h.sendable k e he
  rw [getResponse_eq hv, h.flagged k e he]
  constructor
  case built => rintro ⟨⟩
  case link =>
    rintro -
    cases endsWith k '/' with
    | true => simp
    | false =>
        have other : containerLink ≠ resourceLink := by decide
        simp [other]

/-- The response to a HEAD request for an entry whose content type is a header value. -/
theorem headResponse_eq {entry : Entry} {v : HeaderValue}
    (hv : HeaderValue.fromStr entry.contentType = some v) :
  headResponse entry = ⟨.ok,
    (.contentType, v) :: if entry.isContainer then [(.link, containerLink)] else [], []⟩
  := by
  rw [headResponse, hv]
  cases entry.isContainer <;> rfl

theorem WellFormed.readAnswered_headResponse {s : LdpStore} (h : WellFormed s) {k : Str}
    {e : Entry} (he : s.lookup k = some e) :
  ReadAnswered k (headResponse e)
  := by
  obtain ⟨v, hv⟩ := h.sendable k e he
  rw [headResponse_eq hv, h.flagged k e he]
  constructor
  case built => rintro ⟨⟩
  case link =>
    rintro -
    cases endsWith k '/' <;> simp

/-- A response that is neither a success nor the fallback. -/
theorem readAnswered_of_status {k : Str} {r : Response}
    (h : r.status = .notFound ∨ r.status = .notAcceptable) :
  ReadAnswered k r
  := by
  constructor
  case built => rcases h with h | h <;> simp [h]
  case link => rcases h with h | h <;> simp [h]

/-- In the store of every server, after any requests, entries are well formed, and reads of
every path are answered. -/
theorem reads_answered (xs : List Exchange) :
  let s := serveAll xs LdpStore.new
  WellFormed s ∧ ∀ path req,
    ReadAnswered (resolvePath path) ((handleGet path req).run StoreCmd.exec s).1 ∧
      ReadAnswered (resolvePath path) ((handleHead path req).run StoreCmd.exec s).1
  := by
  have wellFormed := wellFormed_serveAll xs
  use wellFormed
  intro path req
  rw [run_handleGet, run_handleHead]
  simp only [getResult, headResult]
  cases he : (serveAll xs LdpStore.new).lookup (resolvePath path) with
  | none => exact ⟨readAnswered_of_status (.inl rfl), readAnswered_of_status (.inl rfl)⟩
  | some e =>
      dsimp only
      cases unsatisfied (readHeader req .accept) e with
      | some a => exact ⟨readAnswered_of_status (.inr rfl), readAnswered_of_status (.inr rfl)⟩
      | none =>
          exact ⟨wellFormed.readAnswered_getResponse he, wellFormed.readAnswered_headResponse he⟩

/-! ### HEAD and GET -/

/-- Two responses have the same fields with the given name. -/
def SameField (name : HeaderName) (r r' : Response) : Prop :=
  r.headers.filter (fun field => field.1 = name) = r'.headers.filter fun field => field.1 = name

/-- Two responses have the same status and say the same about the resource. -/
structure Mirrors (r r' : Response) : Prop where
  status : r.status = r'.status
  contentType : SameField .contentType r r'
  link : SameField .link r r'

theorem Mirrors.refl (r : Response) :
  Mirrors r r
  := ⟨rfl, rfl, rfl⟩

/-- The path leads to a document that satisfies the request and can be sent. -/
def FindsDocument (s : LdpStore) (path : Option Str) (req : Request) : Prop :=
  ∃ e, s.lookup (resolvePath path) = some e ∧ unsatisfied (readHeader req .accept) e = none ∧
    (HeaderValue.fromStr e.contentType).isSome ∧ e.isContainer = false

/-- The responses for one entry agree unless it is a document that can be sent. -/
theorem mirrors_response_iff (e : Entry) :
  Mirrors (headResponse e) (getResponse e) ↔
    ¬ ((HeaderValue.fromStr e.contentType).isSome ∧ e.isContainer = false)
  := by
  cases hv : HeaderValue.fromStr e.contentType with
  | none =>
      have same : headResponse e = getResponse e := by
        rw [headResponse, getResponse, hv]
        cases e.isContainer <;> rfl
      rw [same]
      simp [Mirrors.refl]
  | some v =>
      rw [headResponse_eq hv, getResponse_eq hv]
      cases e.isContainer with
      | true => simpa using ⟨rfl, rfl, rfl⟩
      | false =>
          simp only [Option.isSome_some, and_self, not_true, iff_false]
          rintro ⟨-, -, hlink⟩
          simp [SameField] at hlink

/-- A HEAD request is answered with the status and the headers of the GET request exactly if it
does not find a document. -/
theorem head_mirrors_get_iff (s : LdpStore) (path : Option Str) (req : Request) :
  Mirrors ((handleHead path req).run StoreCmd.exec s).1
      ((handleGet path req).run StoreCmd.exec s).1
    ↔ ¬ FindsDocument s path req
  := by
  rw [run_handleGet, run_handleHead, FindsDocument]
  simp only [getResult, headResult]
  cases he : s.lookup (resolvePath path) with
  | none => simp [Mirrors.refl]
  | some e =>
      cases hu : unsatisfied (readHeader req .accept) e with
      | some a => simp [Mirrors.refl, hu]
      | none => simp [mirrors_response_iff, hu]

instance (name : HeaderName) (r r' : Response) : Decidable (SameField name r r') :=
  inferInstanceAs (Decidable (_ = _))

/-- `PUT /a` -/
def putDocument : Exchange :=
  (zeroSlug, ⟨.put, "/a".toList, [], .ok []⟩)

/-- After `PUT /a`, `HEAD /a` is answered without the `Link` header of `GET /a`. -/
theorem not_head_mirrors_get :
  ¬ ∀ (s : LdpStore) (path : Option Str) (req : Request),
    Mirrors ((handleHead path req).run StoreCmd.exec s).1
      ((handleGet path req).run StoreCmd.exec s).1
  := by
  intro h
  have link := (h (serve putDocument LdpStore.new).2 (some "a".toList)
    ⟨.head, "/a".toList, [], .ok []⟩).link
  revert link
  decide

end ServerCore
