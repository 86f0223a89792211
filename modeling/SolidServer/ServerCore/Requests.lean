import SolidServer.ServerCore.Routing

/-!
# What requests do

`serve` answers a request, together with the slug the server draws if it needs one.  The
`effect` of a request, read off the request alone, is what it does to the store: nothing,
a write of a key, or the removal of a key (`serve_store`).  The rest of the module
describes the responses.
-/

open Text Http Atomic

namespace ServerCore

/-- A request, and the slug the server draws for it. -/
abbrev Exchange := Uuid × Request

/-- Answer a request. -/
def serve (x : Exchange) (s : LdpStore) : Response × LdpStore :=
  (ldpRouter x.1 x.2).run StoreCmd.exec s

/-- The store after answering requests one after another. -/
def serveAll (xs : List Exchange) (s : LdpStore) : LdpStore :=
  xs.foldl (fun s x => (serve x s).2) s

@[simp]
theorem serveAll_concat (xs : List Exchange) (x : Exchange) (s : LdpStore) :
  serveAll (xs ++ [x]) s = (serve x (serveAll xs s)).2
  := by
  rw [serveAll, List.foldl_append]
  rfl

/-- The store is that of a server which has answered some requests. -/
def Reachable (s : LdpStore) : Prop :=
  ∃ xs, s = serveAll xs LdpStore.new

theorem reachable_new :
  Reachable LdpStore.new
  := ⟨[], rfl⟩

/-! ### Effects -/

/-- What a request does to the store. -/
inductive Effect where
  | nothing
  | write (k : Str) (body : List UInt8) (contentType : Str)
  | remove (k : Str)
deriving DecidableEq

/-- The store after an effect. -/
def Effect.apply : Effect → LdpStore → LdpStore
  | .nothing, s => s
  | .write k body contentType, s =>
      (s.ensureAncestors k).insert k ⟨body, contentType, endsWith k '/'⟩
  | .remove k, s => s.erase k

/-- The effect of a request. -/
def effect (x : Exchange) : Effect :=
  match x.2.method, requestKey x.2.path, x.2.body with
  | .put, some k, .ok body => .write k body (requestContentType x.2)
  | .post, some k, .ok body => .write (childKey k x.1) body (requestContentType x.2)
  | .delete, some k, _ => .remove k
  | _, _, _ => .nothing

/-- An entry after a write. -/
theorem lookup_write (k : Str) (body : List UInt8) (contentType : Str) (s : LdpStore)
    (k' : Str) :
  ((Effect.write k body contentType).apply s).lookup k' =
    if k' = k then some ⟨body, contentType, endsWith k '/'⟩
    else (s.lookup k').or
      (if k' ∈ LdpStore.ancestorKeys k then some Entry.autoContainer else none)
  := by
  rw [Effect.apply, LdpStore.lookup_insert, LdpStore.lookup_ensureAncestors]

/-- An entry after a removal. -/
theorem lookup_remove (k : Str) (s : LdpStore) (k' : Str) :
  ((Effect.remove k).apply s).lookup k' = if k' = k then none else s.lookup k'
  := by
  rw [Effect.apply, LdpStore.lookup_erase]

/-- The key a request writes begins with a slash. -/
theorem startsWith_of_effect_eq_write {x : Exchange} {k : Str} {body : List UInt8} {ct : Str}
    (h : effect x = .write k body ct) :
  startsWith k '/' = true
  := by
  unfold effect at h
  split at h
  · rename_i hk _
    obtain ⟨rfl, -, -⟩ := Effect.write.inj h
    apply startsWith_requestKey hk
  · rename_i hk _
    obtain ⟨rfl, -, -⟩ := Effect.write.inj h
    apply startsWith_childKey (startsWith_requestKey hk)
  · cases h
  · cases h

/-- The content type a request writes is that of the request. -/
theorem contentType_of_effect_eq_write {x : Exchange} {k : Str} {body : List UInt8} {ct : Str}
    (h : effect x = .write k body ct) :
  ct = requestContentType x.2
  := by
  unfold effect at h
  split at h
  · obtain ⟨-, -, rfl⟩ := Effect.write.inj h
    rfl
  · obtain ⟨-, -, rfl⟩ := Effect.write.inj h
    rfl
  · cases h
  · cases h

/-! ### Runs of the handlers -/

variable (s : LdpStore)

theorem run_get (path : Str) :
  (LdpStore.get path).run StoreCmd.exec s = (s.lookup (LdpStore.key path), s)
  := rfl

theorem run_put (path : Str) (body : List UInt8) (contentType : Str) :
  (LdpStore.put path body contentType).run StoreCmd.exec s =
    (!decide (LdpStore.key path ∈ s.ensureAncestors (LdpStore.key path)),
      (Effect.write (LdpStore.key path) body contentType).apply s)
  := rfl

theorem run_delete (path : Str) :
  (LdpStore.delete path).run StoreCmd.exec s =
    (decide (LdpStore.key path ∈ s), s.erase (LdpStore.key path))
  := rfl

/-- The response to a GET request that finds `found`. -/
def getResult (key : Str) (accept : Option Str) (found : Option Entry) : Response :=
  match found with
  | none => notFound key
  | some entry =>
      match unsatisfied accept entry with
      | some a => notAcceptable a entry.contentType
      | none => getResponse entry

/-- The response to a HEAD request that finds `found`. -/
def headResult (key : Str) (accept : Option Str) (found : Option Entry) : Response :=
  match found with
  | none => notFound key
  | some entry =>
      match unsatisfied accept entry with
      | some a => notAcceptable a entry.contentType
      | none => headResponse entry

theorem run_handleGet (path : Option Str) (req : Request) :
  (handleGet path req).run StoreCmd.exec s =
    (getResult (resolvePath path) (readHeader req .accept) (s.lookup (resolvePath path)), s)
  := by
  rw [handleGet, Prog.run_bind, run_get, key_resolvePath]
  cases s.lookup (resolvePath path) with
  | none => rfl
  | some entry =>
      simp only [getResult]
      cases unsatisfied (readHeader req .accept) entry <;> rfl

theorem run_handleHead (path : Option Str) (req : Request) :
  (handleHead path req).run StoreCmd.exec s =
    (headResult (resolvePath path) (readHeader req .accept) (s.lookup (resolvePath path)), s)
  := by
  rw [handleHead, Prog.run_bind, run_get, key_resolvePath]
  cases s.lookup (resolvePath path) with
  | none => rfl
  | some entry =>
      simp only [headResult]
      cases unsatisfied (readHeader req .accept) entry <;> rfl

theorem run_handlePut (path : Option Str) {req : Request} {body : List UInt8}
    (hbody : req.body = .ok body) :
  (handlePut path req).run StoreCmd.exec s =
    (putResponse (resolvePath path)
        (!decide (resolvePath path ∈ s.ensureAncestors (resolvePath path))),
      (Effect.write (resolvePath path) body (requestContentType req)).apply s)
  := by
  simp only [handlePut, hbody]
  rw [Prog.run_bind, run_put, key_resolvePath]
  rfl

theorem run_handlePost (slug : Uuid) (path : Option Str) {req : Request} {body : List UInt8}
    (hbody : req.body = .ok body) :
  (handlePost slug path req).run StoreCmd.exec s =
    (postResponse (childKey (resolvePath path) slug),
      (Effect.write (childKey (resolvePath path) slug) body (requestContentType req)).apply s)
  := by
  simp only [handlePost, hbody]
  rw [Prog.run_bind, run_put, key_childKey]
  rfl

theorem run_handleDelete (path : Option Str) :
  (handleDelete path).run StoreCmd.exec s =
    (if resolvePath path ∈ s then .ofStatus .noContent else notFound (resolvePath path),
      s.erase (resolvePath path))
  := by
  rw [handleDelete, Prog.run_bind, run_delete, key_resolvePath]
  by_cases h : resolvePath path ∈ s <;> simp [h]

/-- A body that cannot be read is answered with 400. -/
theorem handlePut_of_error (path : Option Str) {req : Request} {e : Unit}
    (hbody : req.body = .error e) :
  handlePut path req = .ret (.ofStatus .badRequest)
  := by
  simp only [handlePut, hbody]
  rfl

/-- A body that cannot be read is answered with 400. -/
theorem handlePost_of_error (slug : Uuid) (path : Option Str) {req : Request} {e : Unit}
    (hbody : req.body = .error e) :
  handlePost slug path req = .ret (.ofStatus .badRequest)
  := by
  simp only [handlePost, hbody]
  rfl

/-- The response to a request whose path has the key `k`. -/
def answer (x : Exchange) (k : Str) (s : LdpStore) : Response :=
  match x.2.method, x.2.body with
  | .get, _ => getResult k (readHeader x.2 .accept) (s.lookup k)
  | .head, _ => headResult k (readHeader x.2 .accept) (s.lookup k)
  | .put, .ok _ => putResponse k (!decide (k ∈ s.ensureAncestors k))
  | .put, .error _ => .ofStatus .badRequest
  | .post, .ok _ => postResponse (childKey k x.1)
  | .post, .error _ => .ofStatus .badRequest
  | .delete, _ => if k ∈ s then .ofStatus .noContent else notFound k
  | .options, _ => optionsResponse
  | .patch, _ => patchResponse
  | .other _, _ => methodNotAllowed

/-- A request whose path has a key is answered by `answer` and changes the store by its
effect. -/
theorem serve_of_key {x : Exchange} {k : Str} (hk : requestKey x.2.path = some k) :
  serve x s = (answer x k s, (effect x).apply s)
  := by
  obtain ⟨path, rfl, hr⟩ := ldpRouter_of_key x.1 hk
  rw [serve, hr, handler, effect, answer, hk]
  cases x.2.method with
  | get => apply run_handleGet
  | head => apply run_handleHead
  | put =>
      cases hbody : x.2.body with
      | error e =>
          simp only [handlePut_of_error path hbody]
          rfl
      | ok body => apply run_handlePut s path hbody
  | post =>
      cases hbody : x.2.body with
      | error e =>
          simp only [handlePost_of_error x.1 path hbody]
          rfl
      | ok body => apply run_handlePost s x.1 path hbody
  | delete => apply run_handleDelete
  | options => rfl
  | patch => rfl
  | other name => rfl

/-- A request whose path has no key is answered with an error and changes nothing. -/
theorem serve_of_no_key {x : Exchange} (hk : requestKey x.2.path = none) :
  (serve x s).1.status.isError = true ∧ (serve x s).2 = s ∧ effect x = .nothing
  := by
  obtain ⟨response, hmem, hr⟩ := ldpRouter_of_no_key x.1 hk
  have herror : ∀ r ∈ routingErrors, r.status.isError = true := by
    decide
  rw [serve, hr, effect, hk]
  use herror response hmem, rfl
  cases x.2.method <;> rfl

/-- Answering a request changes the store by the effect of the request. -/
theorem serve_store (x : Exchange) :
  (serve x s).2 = (effect x).apply s
  := by
  cases hk : requestKey x.2.path with
  | none =>
      obtain ⟨-, hs, he⟩ := serve_of_no_key s hk
      rw [hs, he]
      rfl
  | some k => rw [serve_of_key s hk]

/-! ### Responses -/

/-- The response to a GET request for an entry whose content type is a header value. -/
theorem getResponse_eq {entry : Entry} {v : HeaderValue}
    (hv : HeaderValue.fromStr entry.contentType = some v) :
  getResponse entry = ⟨.ok,
    [(.contentType, v), (.link, if entry.isContainer then containerLink else resourceLink)],
    entry.body⟩
  := by
  rw [getResponse, hv]
  cases entry.isContainer <;> rfl

/-- A PUT response never fails to be built. -/
theorem putResponse_status (key : Str) (created : Bool) :
  (putResponse key created).status = putStatus created
  := by
  rw [putResponse]
  cases LdpStore.isContainer key <;> rfl

theorem putStatus_not_error (created : Bool) :
  (putStatus created).isError = false
  := by
  cases created <;> rfl

/-- A POST response fails to be built exactly if the new key is not a header value. -/
theorem postResponse_status (child : Str) :
  (postResponse child).status =
    if (HeaderValue.fromStr child).isSome then .created else .internalServerError
  := by
  rw [postResponse]
  cases HeaderValue.fromStr child <;> rfl

/-- The content type a request is stored with can be sent back. -/
theorem fromStr_requestContentType (req : Request) :
  ∃ v, HeaderValue.fromStr (requestContentType req) = some v ∧
    v.toStr = some (requestContentType req)
  := by
  rw [requestContentType]
  cases h : readHeader req .contentType with
  | none =>
      use ⟨utf8 "application/octet-stream".toList, by decide⟩
      decide
  | some ct =>
      obtain ⟨v, -, hv⟩ := Option.bind_eq_some_iff.mp h
      use v, HeaderValue.fromStr_of_toStr hv, hv

end ServerCore
