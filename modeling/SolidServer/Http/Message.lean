import SolidServer.Http.Header

/-!
# Requests and responses

A request has a method, the raw path of its URI, header fields, and a body, which may fail
to be read.  A response is either written out or made with a `Builder`, which fails when it
is given a header value that is not allowed.
-/

open Text

namespace Http

/-- Request methods. -/
inductive Method where
  | get
  | head
  | put
  | post
  | delete
  | options
  | patch
  | other (name : Str)
deriving DecidableEq

/-- The status codes the server answers with. -/
inductive StatusCode where
  | ok
  | created
  | noContent
  | badRequest
  | unauthorized
  | notFound
  | methodNotAllowed
  | notAcceptable
  | unsupportedMediaType
  | internalServerError
deriving DecidableEq

namespace StatusCode

/-- The number of a status code. -/
def asU16 : StatusCode → ℕ
  | ok => 200
  | created => 201
  | noContent => 204
  | badRequest => 400
  | unauthorized => 401
  | notFound => 404
  | methodNotAllowed => 405
  | notAcceptable => 406
  | unsupportedMediaType => 415
  | internalServerError => 500

/-- The status is a 4xx or a 5xx. -/
def isError (status : StatusCode) : Bool :=
  400 ≤ status.asU16 && status.asU16 < 600

end StatusCode

/-- A request; its body is the result of reading it. -/
structure Request where
  method : Method
  path : Str
  headers : HeaderMap
  body : Except Unit (List UInt8)

/-- A response. -/
structure Response where
  status : StatusCode
  headers : HeaderMap
  body : List UInt8
deriving DecidableEq

namespace Response

/-- The response with a status and nothing else. -/
def ofStatus (status : StatusCode) : Response :=
  ⟨status, [], []⟩

/-- `text/plain; charset=utf-8` -/
def plainText : HeaderValue :=
  ⟨utf8 "text/plain; charset=utf-8".toList, by decide⟩

/-- The response with a text as its body. -/
def ofText (status : StatusCode) (text : Str) : Response :=
  ⟨status, [(.contentType, plainText)], utf8 text⟩

end Response

/-- A response being built, unless the building failed. -/
abbrev Builder := Option Response

namespace Builder

/-- Begin to build a response. -/
def new (status : StatusCode) : Builder :=
  some (Response.ofStatus status)

/-- Add a header field; the building fails if the value is not allowed. -/
def header (builder : Builder) (name : HeaderName) (value : Option HeaderValue) : Builder :=
  builder.bind fun response =>
    value.map fun v => { response with headers := response.headers.append name v }

/-- Finish with a body. -/
def body (builder : Builder) (bytes : List UInt8) : Option Response :=
  builder.map fun response => { response with body := bytes }

end Builder

end Http
