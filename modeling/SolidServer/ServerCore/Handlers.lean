import Mathlib.Data.Bool.AllAny
import SolidServer.ServerCore.Store
import SolidServer.Http.Message
import SolidServer.Library.Paths

/-!
# The LDP handlers

One handler for every method, each a program of lock sections of the store.  A handler
gets the decoded capture of the path wildcard, or nothing at the root, and resolves it to
the key of the resource.  `handlePost` also gets the slug it names the new resource with,
which the server draws at random.
-/

open Text Http Atomic

namespace ServerCore

/-- A slug for a new resource: a UUID in hyphenated form. -/
structure Uuid where
  text : Str
  length_eq : text.length = 36
  hyphenated : ∀ c ∈ text, c ∈ "0123456789abcdef-".toList
deriving DecidableEq

/-- A slug without random digits. -/
def zeroSlug : Uuid where
  text := "00000000-0000-4000-8000-000000000000".toList
  length_eq := by decide
  hyphenated := List.all_iff_forall_prop.mp (by decide)

namespace Uuid

theorem ne_nil (slug : Uuid) :
  slug.text ≠ []
  := by
  intro h
  have := slug.length_eq
  rw [h] at this
  cases this

theorem slash_free (slug : Uuid) :
  '/' ∉ slug.text
  := by
  intro h
  apply absurd (slug.hyphenated '/' h)
  decide

/-- A slug is a path segment. -/
def segment (slug : Uuid) : Segment :=
  ⟨slug.text, slug.ne_nil, slug.slash_free⟩

/-- What holds of the octets of digits and hyphens holds of those of a slug. -/
theorem forall_octets (slug : Uuid) {p : UInt8 → Bool}
    (h : ("0123456789abcdef-".toList.all fun c => (String.utf8EncodeChar c).all p) = true)
    {b : UInt8} (hb : b ∈ utf8 slug.text) :
  p b = true
  := by
  obtain ⟨c, hc, hb⟩ := List.mem_flatMap.mp hb
  apply List.all_eq_true.mp (List.all_eq_true.mp h c (slug.hyphenated c hc)) b hb

/-- The octets of a slug are allowed in header values. -/
theorem isValid_of_mem (slug : Uuid) {b : UInt8} (hb : b ∈ utf8 slug.text) :
  isValid b = true
  := by
  apply slug.forall_octets _ hb
  decide

end Uuid

/-! ### Helpers -/

/-- Resolve the request path to a store key. -/
def resolvePath : Option Str → Str
  | none => ['/']
  | some [] => ['/']
  | some p => if startsWith p '/' then p else '/' :: p

/-- A 404 response. -/
def notFound (path : Str) : Response :=
  .ofText .notFound ("404 Not Found: ".toList ++ path)

/-- A 406 response when the stored content type cannot satisfy the Accept header. -/
def notAcceptable (accept storedCt : Str) : Response :=
  .ofText .notAcceptable
    ("406 Not Acceptable: cannot serve '".toList ++ storedCt ++ "' as '".toList ++ accept
      ++ "'".toList)

/-- What precedes the first `;`, trimmed. -/
def withoutParameters (s : Str) : Str :=
  trim ((s.splitOn ';').head?.getD s)

/-- Whether a token of an Accept header, without its parameters, matches a content type. -/
def tokenSatisfied (ctBase token : Str) : Bool :=
  if token = "*/*".toList || token.isEmpty then true
  else
    match stripSuffix "/*".toList token with
    | some major => (major ++ ['/']).isPrefixOf ctBase
    | none => ctBase == token

/-- Whether the stored content type satisfies the Accept header. -/
def acceptSatisfied (acceptHeader contentType : Str) : Bool :=
  let ctBase := withoutParameters contentType
  (acceptHeader.splitOn ',').any fun token => tokenSatisfied ctBase (withoutParameters token)

/-- The `Link` header value for an LDP container. -/
def containerLink : HeaderValue where
  octets := utf8 ("<http://www.w3.org/ns/ldp#Container>; rel=\"type\", " ++
    "<http://www.w3.org/ns/ldp#Resource>; rel=\"type\"").toList
  valid := by decide

/-- The `Link` header value for an LDP resource. -/
def resourceLink : HeaderValue where
  octets := utf8 "<http://www.w3.org/ns/ldp#Resource>; rel=\"type\"".toList
  valid := by decide

/-- The text of a header field, if there is a readable one. -/
def readHeader (req : Request) (name : HeaderName) : Option Str :=
  (req.headers.get name).bind HeaderValue.toStr

/-- The content type of a request that writes. -/
def requestContentType (req : Request) : Str :=
  (readHeader req .contentType).getD "application/octet-stream".toList

/-- The built response, or a 500 response if the building failed. -/
def orInternalError (response : Option Response) : Response :=
  response.getD (.ofStatus .internalServerError)

/-! ### GET and HEAD -/

/-- The value of the Accept header that the entry does not satisfy, if there is one. -/
def unsatisfied (accept : Option Str) (entry : Entry) : Option Str :=
  accept.filter fun a => !acceptSatisfied a entry.contentType

/-- The response to a GET request for an entry. -/
def getResponse (entry : Entry) : Response :=
  let resp := (Builder.new .ok).header .contentType (HeaderValue.fromStr entry.contentType)
  let resp :=
    if entry.isContainer then resp.header .link (some containerLink)
    else resp.header .link (some resourceLink)
  orInternalError (resp.body entry.body)

def handleGet (path : Option Str) (req : Request) : StoreProg Response := do
  let key := resolvePath path
  let accept := readHeader req .accept
  match ← LdpStore.get key with
  | none => return notFound key
  | some entry =>
      match unsatisfied accept entry with
      | some a => return notAcceptable a entry.contentType
      | none => return getResponse entry

/-- The response to a HEAD request for an entry. -/
def headResponse (entry : Entry) : Response :=
  let resp := (Builder.new .ok).header .contentType (HeaderValue.fromStr entry.contentType)
  let resp := if entry.isContainer then resp.header .link (some containerLink) else resp
  orInternalError (resp.body [])

def handleHead (path : Option Str) (req : Request) : StoreProg Response := do
  let key := resolvePath path
  let accept := readHeader req .accept
  match ← LdpStore.get key with
  | none => return notFound key
  | some entry =>
      match unsatisfied accept entry with
      | some a => return notAcceptable a entry.contentType
      | none => return headResponse entry

/-! ### PUT and POST -/

/-- The status of a PUT response. -/
def putStatus (created : Bool) : StatusCode :=
  if created then .created else .noContent

/-- The response to a PUT request. -/
def putResponse (key : Str) (created : Bool) : Response :=
  let builder := Builder.new (putStatus created)
  let builder :=
    if LdpStore.isContainer key then builder.header .link (some containerLink) else builder
  orInternalError (builder.body [])

def handlePut (path : Option Str) (req : Request) : StoreProg Response := do
  let key := resolvePath path
  let contentType := requestContentType req
  match req.body with
  | .error _ => return .ofStatus .badRequest
  | .ok bodyBytes =>
      let created ← LdpStore.put key bodyBytes contentType
      return putResponse key created

/-- The key of a new resource in a container. -/
def childKey (containerKey : Str) (slug : Uuid) : Str :=
  trimEndMatches containerKey '/' ++ '/' :: slug.text

/-- The response to a POST request. -/
def postResponse (child : Str) : Response :=
  orInternalError (((Builder.new .created).header .location (HeaderValue.fromStr child)).body [])

def handlePost (slug : Uuid) (path : Option Str) (req : Request) : StoreProg Response := do
  let containerKey := resolvePath path
  let contentType := requestContentType req
  match req.body with
  | .error _ => return .ofStatus .badRequest
  | .ok bodyBytes =>
      let child := childKey containerKey slug
      let _ ← LdpStore.put child bodyBytes contentType
      return postResponse child

/-! ### DELETE, OPTIONS and PATCH -/

def handleDelete (path : Option Str) : StoreProg Response := do
  let key := resolvePath path
  if ← LdpStore.delete key then return .ofStatus .noContent else return notFound key

/-- The methods of the LDP server. -/
def allowedMethods : HeaderValue where
  octets := utf8 "GET, HEAD, PUT, POST, DELETE, OPTIONS, PATCH".toList
  valid := by decide

/-- The response to an OPTIONS request. -/
def optionsResponse : Response :=
  orInternalError (((Builder.new .noContent).header .allow (some allowedMethods)).body [])

def handleOptions : StoreProg Response := do
  return optionsResponse

/-- The response to a PATCH request. -/
def patchResponse : Response :=
  .ofText .unsupportedMediaType "415 Unsupported patch Content-Type".toList

def handlePatch : StoreProg Response := do
  return patchResponse

/-! ### Keys -/

theorem startsWith_resolvePath (path : Option Str) :
  startsWith (resolvePath path) '/' = true
  := by
  match path with
  | none => rfl
  | some [] => rfl
  | some (c :: p) =>
      rw [resolvePath]
      split
      · assumption
      · rfl
      · exact List.cons_ne_nil _ _

@[simp]
theorem key_resolvePath (path : Option Str) :
  LdpStore.key (resolvePath path) = resolvePath path
  := LdpStore.key_eq_self (startsWith_resolvePath path)

/-- The key of a child begins with that of its container. -/
theorem startsWith_childKey {containerKey : Str} (h : startsWith containerKey '/' = true)
    (slug : Uuid) :
  startsWith (childKey containerKey slug) '/' = true
  := by
  have hpre := trimEndMatches_prefix containerKey '/'
  obtain ⟨t, rfl⟩ := startsWith_iff.mp h
  rw [childKey]
  cases htrim : trimEndMatches ('/' :: t) '/' with
  | nil => rfl
  | cons c u =>
      rw [htrim] at hpre
      obtain ⟨rfl, -⟩ := List.cons_prefix_cons.mp hpre
      rfl

@[simp]
theorem key_childKey (path : Option Str) (slug : Uuid) :
  LdpStore.key (childKey (resolvePath path) slug) = childKey (resolvePath path) slug
  := LdpStore.key_eq_self (startsWith_childKey (startsWith_resolvePath path) slug)

/-- A child is a document. -/
theorem endsWith_childKey (containerKey : Str) (slug : Uuid) :
  endsWith (childKey containerKey slug) '/' = false
  := by
  have h : childKey containerKey slug
      = (trimEndMatches containerKey '/' ++ ['/']) ++ slug.text := by
    simp [childKey]
  rw [h, endsWith_append slug.ne_nil]
  apply endsWith_eq_false slug.slash_free

end ServerCore
