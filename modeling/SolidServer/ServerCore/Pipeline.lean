import SolidServer.Authz
import SolidServer.ServerCore.Requests

/-!
# The request pipeline

A request passes `corsMiddleware`, which extracts its credentials and adds headers to the
response, then `authzMiddleware`, which asks the permission reader and the authorizer, and
then its handler.  The pipeline is a program whose commands are the questions to the
permission reader and the authorizer, and the lock sections of the store.
-/

open Text Http HttpTypes Authz Atomic

namespace ServerCore

/-- What the pipeline does besides computing. -/
inductive PipelineCmd where
  | store (c : StoreCmd)
  | read (credentials : Credentials) (requestedModes : AccessMap)
  | authorize (credentials : Credentials) (requestedModes : AccessMap)
      (availablePermissions : PermissionMap)

namespace PipelineCmd

/-- What the pipeline is answered. -/
@[reducible] def Answer : PipelineCmd → Type
  | store c => c.Answer
  | read _ _ => Except Unit PermissionMap
  | authorize _ _ _ => Except SolidError Unit

/-- The effect of a command of the pipeline. -/
def exec (authz : AuthzState) : (c : PipelineCmd) → LdpStore → c.Answer × LdpStore
  | store c, s => c.exec s
  | read credentials modes, s => (authz.permissionReader credentials modes, s)
  | authorize credentials modes permissions, s =>
      (authz.authorizer credentials modes permissions, s)

end PipelineCmd

/-- Programs of the pipeline. -/
abbrev PipelineProg := Prog PipelineCmd PipelineCmd.Answer

/-- A program of the store as a program of the pipeline. -/
def onStore {α : Type} (p : StoreProg α) : PipelineProg α :=
  p.translate fun c => Prog.call (PipelineCmd.store c)

/-! ### CORS and credentials -/

/-- Extract the credentials from a request: the token of `Authorization: Bearer <token>`, or
anonymous credentials. -/
def extractCredentials (req : Request) : Credentials :=
  match (readHeader req .authorization).bind (stripPrefix "Bearer ".toList) with
  | some token => ⟨some token, none⟩
  | none => ⟨none, none⟩

/-- `*` -/
def anyOrigin : HeaderValue :=
  ⟨utf8 "*".toList, by decide⟩

/-- The request headers that cross-origin requests may have. -/
def allowedHeaders : HeaderValue where
  octets := utf8 ("Authorization, Content-Type, If-Match, If-None-Match, " ++
    "If-Modified-Since, If-Unmodified-Since").toList
  valid := by decide

/-- The response headers that cross-origin requests may read. -/
def exposedHeaders : HeaderValue :=
  ⟨utf8 "ETag, Last-Modified, Location, Link, WAC-Allow".toList, by decide⟩

/-- Add the CORS headers to a response. -/
def withCorsHeaders (origin : Option HeaderValue) (res : Response) : Response :=
  let headers := res.headers.insert .accessControlAllowOrigin (origin.getD anyOrigin)
  let headers := headers.insert .accessControlAllowHeaders allowedHeaders
  let headers := headers.insert .accessControlExposeHeaders exposedHeaders
  { res with headers }

/-- Extract the credentials for the rest of the pipeline, and add CORS headers to its
response. -/
def corsMiddleware (req : Request) (next : Option Credentials → PipelineProg Response) :
    PipelineProg Response := do
  let origin := req.headers.get .origin
  let credentials := extractCredentials req
  let res ← next (some credentials)
  return withCorsHeaders origin res

/-! ### Authorization -/

/-- The access mode a method needs. -/
def accessMode : Method → AccessMode
  | .get | .head | .options => .read
  | .put | .post | .patch => .write
  | .delete => .write
  | .other _ => .read

/-- The access map of a request: its path, with the mode for its method. -/
def accessMap (req : Request) : AccessMap :=
  (∅ : AccessMap).insert ⟨req.path⟩ {accessMode req.method}

/-- `Bearer` -/
def bearer : HeaderValue :=
  ⟨utf8 "Bearer".toList, by decide⟩

/-- The response to a request that the authorizer rejects. -/
def unauthorized (e : SolidError) : Response where
  status := .unauthorized
  headers := [(.contentType, Response.plainText), (.wwwAuthenticate, bearer)]
  body := utf8 ("401 Unauthorized: ".toList ++ e.toStr)

/-- Enforce access control: run the rest of the pipeline only if the permission reader and the
authorizer agree. -/
def authzMiddleware (extension : Option Credentials) (req : Request)
    (next : PipelineProg Response) : PipelineProg Response := do
  let accessMap := accessMap req
  let credentials := extension.getD ⟨none, none⟩
  match ← Prog.call (PipelineCmd.read credentials accessMap) with
  | .error _ => return .ofStatus .internalServerError
  | .ok permissionMap =>
      match ← Prog.call (PipelineCmd.authorize credentials accessMap permissionMap) with
      | .error e => return unauthorized e
      | .ok _ => next

/-- The full router. -/
def buildRouter (slug : Uuid) (req : Request) : PipelineProg Response :=
  corsMiddleware req fun extension =>
    authzMiddleware extension req (onStore (ldpRouter slug req))

/-! ### Runs of the pipeline -/

/-- The answers a request gets from the permission reader and the authorizer. -/
inductive Decision where
  | readerFailed
  | rejected (permissions : PermissionMap) (e : SolidError)
  | accepted (permissions : PermissionMap)

/-- What the permission reader and the authorizer say to a request. -/
def decision (authz : AuthzState) (req : Request) : Decision :=
  match authz.permissionReader (extractCredentials req) (accessMap req) with
  | .error _ => .readerFailed
  | .ok permissions =>
      match authz.authorizer (extractCredentials req) (accessMap req) permissions with
      | .error e => .rejected permissions e
      | .ok _ => .accepted permissions

variable (authz : AuthzState) {α : Type}

/-- A program of the store does in the pipeline what it does alone. -/
theorem run_onStore (p : StoreProg α) (s : LdpStore) :
  (onStore p).run (PipelineCmd.exec authz) s = p.run StoreCmd.exec s
  := by
  apply Prog.run_translate
  intro c s
  rfl

/-- A program of the store issues in the pipeline what it issues alone. -/
theorem trace_onStore (p : StoreProg α) (s : LdpStore) :
  (onStore p).trace (PipelineCmd.exec authz) s =
    (p.trace StoreCmd.exec s).map fun o => ⟨.store o.1, o.2⟩
  := by
  induction p generalizing s with
  | ret a => rfl
  | act c next ih => exact congrArg (_ :: ·) (ih _ _)

/-- The response to a request and the store it leaves. -/
theorem run_buildRouter (slug : Uuid) (req : Request) (s : LdpStore) :
  (buildRouter slug req).run (PipelineCmd.exec authz) s =
    match decision authz req with
    | .readerFailed =>
        (withCorsHeaders (req.headers.get .origin) (.ofStatus .internalServerError), s)
    | .rejected _ e => (withCorsHeaders (req.headers.get .origin) (unauthorized e), s)
    | .accepted _ =>
        (withCorsHeaders (req.headers.get .origin) (serve (slug, req) s).1,
          (serve (slug, req) s).2)
  := by
  rw [buildRouter, corsMiddleware, Prog.run_bind, authzMiddleware, Prog.call_bind, Prog.run_act,
    decision]
  simp only [PipelineCmd.exec, Option.getD_some]
  cases authz.permissionReader (extractCredentials req) (accessMap req) with
  | error e => rfl
  | ok permissions =>
      simp only [Prog.call_bind, Prog.run_act, PipelineCmd.exec]
      cases authz.authorizer (extractCredentials req) (accessMap req) permissions with
      | error e => rfl
      | ok u =>
          simp only [run_onStore]
          rfl

/-- The commands the pipeline issues for a request: the question to the reader, then, if it is
answered, that to the authorizer, and then, if the request is accepted, the lock sections
of its handler. -/
theorem trace_buildRouter (slug : Uuid) (req : Request) (s : LdpStore) :
  (buildRouter slug req).trace (PipelineCmd.exec authz) s =
    ⟨.read (extractCredentials req) (accessMap req),
        authz.permissionReader (extractCredentials req) (accessMap req)⟩ ::
      match decision authz req with
      | .readerFailed => []
      | .rejected permissions e =>
          [⟨.authorize (extractCredentials req) (accessMap req) permissions, .error e⟩]
      | .accepted permissions =>
          ⟨.authorize (extractCredentials req) (accessMap req) permissions, .ok ()⟩ ::
            ((ldpRouter slug req).trace StoreCmd.exec s).map fun o => ⟨.store o.1, o.2⟩
  := by
  rw [buildRouter, corsMiddleware, Prog.trace_bind, authzMiddleware, Prog.call_bind,
    Prog.trace_act, decision]
  simp only [PipelineCmd.exec, Option.getD_some, Prog.pure_eq, Prog.trace_ret, List.append_nil]
  congr 1
  cases authz.permissionReader (extractCredentials req) (accessMap req) with
  | error e => rfl
  | ok permissions =>
      simp only [Prog.call_bind, Prog.trace_act, PipelineCmd.exec]
      cases authz.authorizer (extractCredentials req) (accessMap req) permissions with
      | error e => rfl
      | ok u => simp only [trace_onStore]

end ServerCore
