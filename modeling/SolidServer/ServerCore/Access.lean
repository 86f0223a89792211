import SolidServer.ServerCore.Pipeline
import SolidServer.ServerCore.Durability
import SolidServer.Library.Interleaving

/-!
# Access control

The handler of a request runs only if the authorizer has accepted the request for the
resource named by its path.  When the path is plain, that is the resource the handler
touches, except that a PUT also goes through the ancestors of the resource, where it adds
missing containers and keeps what there is.  A denied request learns nothing about the
store and changes nothing in it.
-/

open Text Http HttpTypes Authz Atomic

namespace ServerCore

/-- The keys a lock section reads, writes or removes. -/
def StoreCmd.keys : StoreCmd → List Str
  | .get k | .containsKey k | .insert k _ | .remove k => [k]
  | .ensureAncestors k => LdpStore.ancestorKeys k

section

variable {P : StoreCmd → Prop} (path : Option Str) (req : Request)

theorem issues_handleGet (h : P (.get (resolvePath path))) :
  (handleGet path req).Issues P
  := by
  apply Prog.Issues.bind
  · rw [LdpStore.get, key_resolvePath]
    exact ⟨h, fun _ => trivial⟩
  · intro found
    split
    · trivial
    · split <;> trivial

theorem issues_handleHead (h : P (.get (resolvePath path))) :
  (handleHead path req).Issues P
  := by
  apply Prog.Issues.bind
  · rw [LdpStore.get, key_resolvePath]
    exact ⟨h, fun _ => trivial⟩
  · intro found
    split
    · trivial
    · split <;> trivial

theorem issues_handlePut (h : P (.ensureAncestors (resolvePath path)))
    (h' : ∀ entry, P (.insert (resolvePath path) entry)) :
  (handlePut path req).Issues P
  := by
  rw [handlePut]
  split
  · trivial
  · apply Prog.Issues.bind
    · rw [LdpStore.put, key_resolvePath]
      exact ⟨h, fun _ => ⟨h' _, fun _ => trivial⟩⟩
    · intro created
      trivial

theorem issues_handleDelete (h : P (.remove (resolvePath path))) :
  (handleDelete path).Issues P
  := by
  apply Prog.Issues.bind
  · rw [LdpStore.delete, key_resolvePath]
    exact ⟨h, fun _ => trivial⟩
  · intro removed
    split <;> trivial

end

/-- What the handler of a GET, a HEAD, a PUT or a DELETE issues: sections on the key of the
request only, and for a PUT the walk over its ancestors. -/
theorem issues_ldpRouter (slug : Uuid) {req : Request} {k : Str}
    (hmethod : req.method ∈ [.get, .head, .put, .delete])
    (hk : requestKey req.path = some k) :
  (ldpRouter slug req).Issues fun c =>
    c.keys = [k] ∨ (req.method = .put ∧ c = .ensureAncestors k)
  := by
  obtain ⟨path, rfl, hr⟩ := ldpRouter_of_key slug hk
  rw [hr, handler]
  simp only [List.mem_cons, List.not_mem_nil, or_false] at hmethod
  rcases hmethod with hm | hm | hm | hm <;> simp only [hm]
  · apply issues_handleGet
    left
    rfl
  · apply issues_handleHead
    left
    rfl
  · apply issues_handlePut
    · right
      exact ⟨trivial, rfl⟩
    · intro entry
      left
      rfl
  · apply issues_handleDelete
    left
    rfl

/-- The access map of a request has its path only. -/
theorem keys_accessMap (req : Request) :
  (accessMap req).keys = {⟨req.path⟩}
  := by
  ext r
  rw [Finmap.mem_keys, accessMap, Finmap.mem_insert, Finset.mem_singleton]
  simp [Finmap.notMem_empty]

/-- The permission reader and the authorizer are asked about the credentials and the access
map of the request. -/
theorem asked_about_request {authz : AuthzState} {slug : Uuid} {req : Request} {s : LdpStore}
    {o : Σ c, PipelineCmd.Answer c}
    (h : o ∈ (buildRouter slug req).trace (PipelineCmd.exec authz) s) :
  (∀ credentials modes, o.1 = .read credentials modes →
      credentials = extractCredentials req ∧ modes = accessMap req) ∧
    ∀ credentials modes permissions, o.1 = .authorize credentials modes permissions →
      credentials = extractCredentials req ∧ modes = accessMap req
  := by
  rw [trace_buildRouter] at h
  rcases List.mem_cons.mp h with rfl | h
  · simp only [PipelineCmd.read.injEq, reduceCtorEq, false_implies, implies_true, and_true]
    rintro credentials modes ⟨rfl, rfl⟩
    exact ⟨rfl, rfl⟩
  · cases hd : decision authz req with
    | readerFailed => simp [hd] at h
    | rejected permissions e =>
        simp only [hd] at h
        obtain rfl := List.mem_singleton.mp h
        simp only [PipelineCmd.authorize.injEq, reduceCtorEq, false_implies, implies_true,
          true_and]
        rintro credentials modes _ ⟨rfl, rfl, -⟩
        exact ⟨rfl, rfl⟩
    | accepted permissions =>
        simp only [hd] at h
        rcases List.mem_cons.mp h with rfl | h
        · simp only [PipelineCmd.authorize.injEq, reduceCtorEq, false_implies, implies_true,
            true_and]
          rintro credentials modes _ ⟨rfl, rfl, -⟩
          exact ⟨rfl, rfl⟩
        · obtain ⟨o', -, rfl⟩ := List.mem_map.mp h
          simp

/-- The pipeline issues for an accepted request what its handler issues. -/
theorem store_mem_trace {authz : AuthzState} {slug : Uuid} {req : Request} {s : LdpStore}
    {permissions : PermissionMap} (hd : decision authz req = .accepted permissions)
    {c : StoreCmd} {a : c.Answer} (h : ⟨c, a⟩ ∈ (ldpRouter slug req).trace StoreCmd.exec s) :
  ⟨.store c, a⟩ ∈ (buildRouter slug req).trace (PipelineCmd.exec authz) s
  := by
  rw [trace_buildRouter, hd]
  apply List.mem_cons_of_mem
  apply List.mem_cons_of_mem
  exact List.mem_map.mpr ⟨⟨c, a⟩, h, rfl⟩

/-- A handler runs only after the authorizer has accepted the request for its path. -/
theorem authorized_before {authz : AuthzState} {slug : Uuid} {req : Request} {s : LdpStore}
    {c : StoreCmd} {a : c.Answer}
    (h : ⟨.store c, a⟩ ∈ (buildRouter slug req).trace (PipelineCmd.exec authz) s) :
  (∃ credentials modes permissions,
      Before ((buildRouter slug req).trace (PipelineCmd.exec authz) s)
        ⟨.authorize credentials modes permissions, .ok ()⟩ ⟨.store c, a⟩ ∧
      modes.keys = {⟨req.path⟩}) ∧
    ⟨c, a⟩ ∈ (ldpRouter slug req).trace StoreCmd.exec s ∧
    (serve (slug, req) s).2 = ((buildRouter slug req).run (PipelineCmd.exec authz) s).2
  := by
  rw [run_buildRouter]
  rw [trace_buildRouter] at h ⊢
  cases hd : decision authz req with
  | readerFailed => simp [hd] at h
  | rejected permissions e => simp [hd] at h
  | accepted permissions =>
      simp only [hd, List.mem_cons, reduceCtorEq, Sigma.mk.injEq, false_and, false_or] at h
      obtain ⟨o, ho, heq⟩ := List.mem_map.mp h
      obtain ⟨hc, ha⟩ := Sigma.mk.inj heq
      obtain rfl := PipelineCmd.store.inj hc
      obtain rfl := eq_of_heq ha
      constructor
      · use extractCredentials req, accessMap req, permissions
        refine ⟨?_, keys_accessMap req⟩
        apply Before.cons_iff.mpr
        right
        apply Before.cons_iff.mpr
        left
        exact ⟨rfl, h⟩
      · exact ⟨ho, rfl⟩

/-- A PUT keeps what is stored under other keys than its own, and adds nothing but empty
containers. -/
theorem serve_put_lookup {x : Exchange} {k k' : Str} (hmethod : x.2.method = .put)
    (hk : requestKey x.2.path = some k) (hne : k' ≠ k) (s : LdpStore) :
  (serve x s).2.lookup k' = s.lookup k' ∨
    (s.lookup k' = none ∧ (serve x s).2.lookup k' = some Entry.autoContainer)
  := by
  rw [serve_store, effect, hmethod, hk]
  cases x.2.body with
  | error e =>
      left
      rfl
  | ok body =>
      simp only [lookup_write, if_neg hne]
      cases s.lookup k' with
      | some e =>
          left
          rfl
      | none => by_cases hmem : k' ∈ LdpStore.ancestorKeys k <;> simp [hmem]

/-- In a GET, a HEAD, a PUT or a DELETE with a plain path, everything the handler touches is
the resource that the authorizer accepted the request for, or, in a PUT, a container above
it, where the handler keeps what there is and adds nothing but an empty container. -/
theorem authorized_access (authz : AuthzState) (slug : Uuid) (req : Request) (s : LdpStore)
    (hmethod : req.method ∈ [.get, .head, .put, .delete]) (plain : Plain req.path)
    (c : StoreCmd) (a : c.Answer)
    (hc : ⟨.store c, a⟩ ∈ (buildRouter slug req).trace (PipelineCmd.exec authz) s)
    (k : Str) (hk : k ∈ c.keys) :
  (∃ credentials modes permissions,
      Before ((buildRouter slug req).trace (PipelineCmd.exec authz) s)
        ⟨.authorize credentials modes permissions, .ok ()⟩ ⟨.store c, a⟩ ∧
      modes.keys = {⟨req.path⟩}) ∧
    (k = req.path ∨
      (req.method = .put ∧ k <+: req.path ∧ endsWith k '/' = true ∧
        let t := ((buildRouter slug req).run (PipelineCmd.exec authz) s).2
        (t.lookup k = s.lookup k ∨
          (s.lookup k = none ∧ t.lookup k = some ⟨[], "text/turtle".toList, true⟩))))
  := by
  obtain ⟨authorized, htrace, hstore⟩ := authorized_before hc
  use authorized
  have hkey := requestKey_eq_self_iff.mpr plain
  rcases (issues_ldpRouter slug hmethod hkey).of_mem_trace _ htrace with hkeys | ⟨hput, rfl⟩
  · left
    rw [hkeys] at hk
    apply List.mem_singleton.mp hk
  · by_cases hne : k = req.path
    · left
      apply hne
    · right
      use hput, (LdpStore.ancestor_spec plain.1 hk).1, LdpStore.endsWith_ancestor hk
      rw [← hstore]
      apply serve_put_lookup hput hkey hne

/-- `PUT /a/b` -/
def putBelowMissing : Request :=
  ⟨.put, "/a/b".toList, [], .ok []⟩

theorem putBelowMissing_walks :
  ⟨.store (.ensureAncestors "/a/b".toList), ()⟩ ∈
    (buildRouter zeroSlug putBelowMissing).trace (PipelineCmd.exec .passThrough) LdpStore.new
  := by
  have hd : decision .passThrough putBelowMissing
      = .accepted ((∅ : PermissionMap).insert ⟨"/a/b".toList⟩ (permitAll {.write})) := by
    rfl
  have trace : (ldpRouter zeroSlug putBelowMissing).trace StoreCmd.exec LdpStore.new
      = [⟨.ensureAncestors "/a/b".toList, ()⟩,
        ⟨.insert "/a/b".toList ⟨[], "application/octet-stream".toList, false⟩, true⟩] := by
    rfl
  apply store_mem_trace hd
  rw [trace]
  apply List.mem_cons_self

theorem authorized_access_put :
  let t := (buildRouter zeroSlug putBelowMissing).trace
    (PipelineCmd.exec .passThrough) LdpStore.new
  (∃ credentials modes permissions,
      Before t ⟨.authorize credentials modes permissions, .ok ()⟩
        ⟨.store (.ensureAncestors "/a/b".toList), ()⟩ ∧
      modes.keys = {⟨putBelowMissing.path⟩}) ∧
    ("/a/".toList = putBelowMissing.path ∨
      (putBelowMissing.method = .put ∧ "/a/".toList <+: putBelowMissing.path ∧
        endsWith "/a/".toList '/' = true ∧
        let t := ((buildRouter zeroSlug putBelowMissing).run
          (PipelineCmd.exec .passThrough) LdpStore.new).2
        (t.lookup "/a/".toList = LdpStore.new.lookup "/a/".toList ∨
          (LdpStore.new.lookup "/a/".toList = none ∧
            t.lookup "/a/".toList = some ⟨[], "text/turtle".toList, true⟩))))
  := authorized_access .passThrough zeroSlug putBelowMissing LdpStore.new (by decide) (by decide)
    (.ensureAncestors "/a/b".toList) () putBelowMissing_walks "/a/".toList (by decide)

/-- `PUT /a/b` on a new store touches `/a/`, for which nobody was authorized. -/
theorem not_authorized_for_ancestors :
  ¬ ∀ (authz : AuthzState) (slug : Uuid) (req : Request) (s : LdpStore),
    req.method ∈ [.get, .head, .put, .delete] →
    ∀ (c : StoreCmd) (a : c.Answer),
      ⟨.store c, a⟩ ∈ (buildRouter slug req).trace (PipelineCmd.exec authz) s →
      ∀ k ∈ c.keys, ∃ credentials modes permissions,
        ⟨.authorize credentials modes permissions, .ok ()⟩
            ∈ (buildRouter slug req).trace (PipelineCmd.exec authz) s ∧
          modes.keys = {⟨k⟩}
  := by
  intro h
  obtain ⟨credentials, modes, permissions, hmem, hkeys⟩ :=
    h .passThrough zeroSlug putBelowMissing LdpStore.new (by decide)
      (.ensureAncestors "/a/b".toList) () putBelowMissing_walks "/a/".toList (by decide)
  obtain ⟨-, rfl⟩ := (asked_about_request hmem).2 credentials modes permissions rfl
  rw [keys_accessMap] at hkeys
  revert hkeys
  decide

/-! ### Denied requests -/

/-- The permission reader fails for the request, or the authorizer rejects it. -/
def Denied (authz : AuthzState) (req : Request) : Prop :=
  (∃ e, authz.permissionReader (extractCredentials req) (accessMap req) = .error e) ∨
    ∃ permissions e,
      authz.permissionReader (extractCredentials req) (accessMap req) = .ok permissions ∧
        authz.authorizer (extractCredentials req) (accessMap req) permissions = .error e

/-- The response to a denied request does not depend on the store, which is left alone. -/
theorem run_of_denied {authz : AuthzState} {req : Request} (denied : Denied authz req) :
  ∃ response, ∀ slug s,
    (buildRouter slug req).run (PipelineCmd.exec authz) s = (response, s)
  := by
  simp only [run_buildRouter, decision]
  rcases denied with ⟨e, he⟩ | ⟨permissions, e, hp, he⟩
  · simp only [he]
    exact ⟨_, fun _ _ => rfl⟩
  · simp only [hp, he]
    exact ⟨_, fun _ _ => rfl⟩

/-- A request with no header but Authorization. -/
def authorizationOnly (v : Option HeaderValue) : Request :=
  ⟨.get, [], (v.map fun v => (.authorization, v)).toList, .ok []⟩

/-- The credentials depend on nothing else. -/
theorem extractCredentials_eq (req : Request) :
  extractCredentials req
    = extractCredentials (authorizationOnly (req.headers.get .authorization))
  := by
  rw [extractCredentials, extractCredentials, readHeader, readHeader, authorizationOnly]
  cases req.headers.get .authorization <;> rfl

/-- The response to a denied request is the same for any two stores, and neither is changed;
and the credentials that the reader and the authorizer see are a function of the
Authorization header of the request. -/
theorem denied_request :
  (∀ authz req, Denied authz req → ∀ slug slug' s s',
      ((buildRouter slug req).run (PipelineCmd.exec authz) s).1
          = ((buildRouter slug' req).run (PipelineCmd.exec authz) s').1 ∧
        ((buildRouter slug req).run (PipelineCmd.exec authz) s).2 = s ∧
        ((buildRouter slug' req).run (PipelineCmd.exec authz) s').2 = s') ∧
    ∃ f : Option HeaderValue → Credentials, ∀ authz slug req s,
      ∀ o ∈ (buildRouter slug req).trace (PipelineCmd.exec authz) s,
        (∀ credentials modes, o.1 = .read credentials modes →
          credentials = f (req.headers.get .authorization)) ∧
        (∀ credentials modes permissions, o.1 = .authorize credentials modes permissions →
          credentials = f (req.headers.get .authorization))
  := by
  constructor
  · intro authz req denied slug slug' s s'
    obtain ⟨response, hr⟩ := run_of_denied denied
    rw [hr slug s, hr slug' s']
    exact ⟨rfl, rfl, rfl⟩
  · use fun v => extractCredentials (authorizationOnly v)
    intro authz slug req s o ho
    obtain ⟨hread, hauthorize⟩ := asked_about_request ho
    constructor
    · intro credentials modes hr
      rw [(hread credentials modes hr).1, extractCredentials_eq]
    · intro credentials modes permissions hr
      rw [(hauthorize credentials modes permissions hr).1, extractCredentials_eq]

/-- A set-up whose authorizer rejects every request. -/
def denyAll : AuthzState :=
  ⟨passThroughPermissionReader, fun _ _ _ => .error (.forbidden [])⟩

theorem denied_request_get :
  let req : Request := ⟨.get, "/a".toList, [], .ok []⟩
  let s := (Effect.write "/a".toList [1] []).apply LdpStore.new
  ((buildRouter zeroSlug req).run (PipelineCmd.exec denyAll) LdpStore.new).1
      = ((buildRouter zeroSlug req).run (PipelineCmd.exec denyAll) s).1 ∧
    ((buildRouter zeroSlug req).run (PipelineCmd.exec denyAll) LdpStore.new).2
      = LdpStore.new ∧
    ((buildRouter zeroSlug req).run (PipelineCmd.exec denyAll) s).2 = s
  := denied_request.1 denyAll ⟨.get, "/a".toList, [], .ok []⟩ (.inr ⟨_, _, rfl, rfl⟩)
    zeroSlug zeroSlug LdpStore.new ((Effect.write "/a".toList [1] []).apply LdpStore.new)

/-! ### ACL documents -/

/-- The request is a GET without an Authorization header of a path that ends in `.acl`. -/
def AnonymousAclGet (req : Request) : Prop :=
  req.method = .get ∧ ".acl".toList <:+ req.path ∧ req.headers.get .authorization = none

/-- The response of the default pipeline to a request. -/
def respond (slug : Uuid) (req : Request) (s : LdpStore) : Response :=
  ((buildRouter slug req).run (PipelineCmd.exec .passThrough) s).1

/-- The default pipeline answers the request with 401 and with a body that is the same for
every store. -/
structure Withheld (slug : Uuid) (req : Request) (s : LdpStore) : Prop where
  status : (respond slug req s).status = .unauthorized
  body : ∀ s', Reachable s' → (respond slug req s').body = (respond slug req s).body

/-- The default pipeline answers a request as the handlers do, with CORS headers. -/
theorem respond_eq (slug : Uuid) (req : Request) (s : LdpStore) :
  respond slug req s = withCorsHeaders (req.headers.get .origin) (serve (slug, req) s).1
  := by
  rw [respond, run_buildRouter]
  rfl

theorem getResult_status_ne (key : Str) (accept : Option Str) (found : Option Entry) :
  (getResult key accept found).status ≠ .unauthorized
  := by
  unfold getResult
  split
  · simp [notFound, Response.ofText]
  · rename_i entry
    split
    · simp [notAcceptable, Response.ofText]
    · rw [getResponse]
      cases HeaderValue.fromStr entry.contentType <;> cases entry.isContainer <;> rintro ⟨⟩

/-- The handlers never answer a GET with 401. -/
theorem serve_get_status_ne {x : Exchange} (hmethod : x.2.method = .get) (s : LdpStore) :
  (serve x s).1.status ≠ .unauthorized
  := by
  cases hk : requestKey x.2.path with
  | none =>
      obtain ⟨response, hmem, hr⟩ := ldpRouter_of_no_key x.1 hk
      have hstatus : ∀ r ∈ routingErrors, r.status ≠ .unauthorized := by
        decide
      rw [serve, hr]
      apply hstatus response hmem
  | some k =>
      rw [serve_of_key s hk]
      simp only [answer, hmethod]
      apply getResult_status_ne

/-- The default pipeline withholds no ACL document from anonymous agents: none of their GET
requests is answered with 401, and one for a stored document that satisfies the Accept
header is answered with the document. -/
theorem acl_never_withheld {req : Request} (h : AnonymousAclGet req) {s : LdpStore}
    (hs : Reachable s) (slug : Uuid) :
  ¬ Withheld slug req s ∧
    ∀ k entry, requestKey req.path = some k → s.lookup k = some entry →
      unsatisfied (readHeader req .accept) entry = none →
      (respond slug req s).status = .ok ∧ (respond slug req s).body = entry.body
  := by
  constructor
  · intro withheld
    have hstatus := withheld.status
    rw [respond_eq] at hstatus
    apply serve_get_status_ne (x := (slug, req)) h.1 s hstatus
  · intro k entry hk hentry hsat
    obtain ⟨v, hv⟩ := hs.exists_header hentry
    have hserve : (serve (slug, req) s).1 = getResponse entry := by
      rw [serve_of_key s hk]
      simp only [answer, h.1, getResult, hentry, hsat]
    rw [respond_eq, hserve, getResponse_eq hv]
    exact ⟨rfl, rfl⟩

/-- `GET /a.acl` -/
def getAcl : Request :=
  ⟨.get, "/a.acl".toList, [], .ok []⟩

/-- `PUT /a.acl` -/
def putAcl (body : List UInt8) : Exchange :=
  (zeroSlug, ⟨.put, "/a.acl".toList, [], .ok body⟩)

theorem anonymousAclGet_getAcl :
  AnonymousAclGet getAcl
  := ⟨rfl, by decide, rfl⟩

theorem acl_never_withheld_getAcl :
  let s := serveAll [putAcl [1]] LdpStore.new
  ¬ Withheld zeroSlug getAcl s ∧
    ∀ k entry, requestKey getAcl.path = some k → s.lookup k = some entry →
      unsatisfied (readHeader getAcl .accept) entry = none →
      (respond zeroSlug getAcl s).status = .ok ∧ (respond zeroSlug getAcl s).body = entry.body
  := acl_never_withheld anonymousAclGet_getAcl ⟨[putAcl [1]], rfl⟩ zeroSlug

/-- After `PUT /a.acl`, the document is sent to whoever asks for it. -/
theorem not_acl_withheld :
  ¬ ∀ req s, AnonymousAclGet req → Reachable s → ∀ slug, Withheld slug req s
  := by
  intro h
  have withheld := h getAcl (serveAll [putAcl [1]] LdpStore.new) anonymousAclGet_getAcl
    ⟨[putAcl [1]], rfl⟩ zeroSlug
  have hstatus := withheld.status
  rw [respond_eq] at hstatus
  apply serve_get_status_ne (x := (zeroSlug, getAcl)) rfl _ hstatus

end ServerCore
