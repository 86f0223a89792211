import SolidServer.HttpTypes.Metadata
import SolidServer.Library.Octets

/-!
# Errors as responses

An error is answered with its status code and a JSON object that has the phrase for the status and
the text of the error.  The crates for status codes and for JSON are parameters.  A client can tell
from the response which error it was, with its message, whatever characters the message has
(`recover_intoResponse`).
-/

open Text

namespace HttpTypes

/-- The response to an error. -/
structure ErrorResponse where
  status : UInt16
  contentType : Str
  body : List UInt8

/-- The functions of the crate `http` for status codes. -/
structure StatusCrate where
  fromU16 : UInt16 → Option UInt16
  canonicalReason : UInt16 → Option Str

/-- The numbers of three digits are status codes. -/
def StatusCrate.Lawful (H : StatusCrate) : Prop :=
  ∀ n, 100 ≤ n → n < 1000 → H.fromU16 n = some n

namespace SolidError

/-- The numeric HTTP status code for this error. -/
def statusCode : SolidError → UInt16
  | notModified => 304
  | badRequest _ => 400
  | unauthorized _ => 401
  | forbidden _ => 403
  | notFound _ => 404
  | methodNotAllowed _ => 405
  | notAcceptable _ => 406
  | conflict _ => 409
  | gone _ => 410
  | preconditionFailed _ => 412
  | unsupportedMediaType _ => 415
  | unprocessableEntity _ => 422
  | internal _ => 500
  | notImplemented _ => 501
  | serviceUnavailable _ => 503

/-- A 4xx client error. -/
def isClientError (e : SolidError) : Bool :=
  400 ≤ e.statusCode && e.statusCode < 500

/-- A 5xx server error. -/
def isServerError (e : SolidError) : Bool :=
  500 ≤ e.statusCode

/-- The body of the response to an error. -/
def toJson (H : StatusCrate) (status : UInt16) (e : SolidError) : Json :=
  .object [("error".toList, .string ((H.canonicalReason status).getD "Error".toList)),
    ("message".toList, .string e.toStr)]

/-- The response to an error, if its body can be written. -/
def intoResponse (H : StatusCrate) (J : JsonCrate) (e : SolidError) : Option ErrorResponse :=
  let status := (H.fromU16 e.statusCode).getD 500
  (J.toString (e.toJson H status)).map fun body =>
    ⟨status, "application/json".toList, utf8 body⟩

/-! ### Reading responses -/

/-- The errors with a message. -/
def kinds : List (Str → SolidError) :=
  [badRequest, unauthorized, forbidden, notFound, methodNotAllowed, notAcceptable, conflict, gone,
    preconditionFailed, unsupportedMediaType, unprocessableEntity, internal, notImplemented,
    serviceUnavailable]

/-- The error with a text. -/
def ofStr (text : Str) : Option SolidError :=
  if text = notModified.toStr then some notModified
  else kinds.findSome? fun kind => (stripPrefix (kind []).toStr text).map kind

/-- The error that a response tells of. -/
def recover (J : JsonCrate) (response : ErrorResponse) : Option SolidError := do
  let text ← fromUtf8 response.body
  match ← J.fromStr text with
  | .object members =>
      match ← members.lookup "message".toList with
      | .string message => ofStr message
      | _ => none
  | _ => none

theorem ofStr_toStr (e : SolidError) :
  ofStr e.toStr = some e
  := by
  cases e <;> rfl

/-- An error is one of the client or one of the server, unless nothing was modified. -/
theorem isServerError_iff (e : SolidError) :
  e.isServerError = true ↔ e.isClientError = false ∧ e ≠ notModified
  := by
  cases e <;> simp [isServerError, isClientError, statusCode]

/-- Every status code has three digits. -/
theorem statusCode_bounds (e : SolidError) :
  100 ≤ e.statusCode ∧ e.statusCode < 1000
  := by
  cases e <;> simp [statusCode]

/-- A response has the status of the error, and tells which error it is, with its message. -/
theorem recover_intoResponse {H : StatusCrate} {J : JsonCrate} (statusLaws : H.Lawful)
    (laws : J.Lawful) (e : SolidError) :
  ∃ response, intoResponse H J e = some response ∧ response.status = e.statusCode ∧
    recover J response = some e
  := by
  obtain ⟨lower, upper⟩ := e.statusCode_bounds
  have status : (H.fromU16 e.statusCode).getD 500 = e.statusCode := by
    rw [statusLaws _ lower upper]
    rfl
  have flat : (e.toJson H e.statusCode).depth < 128 := by
    simp [toJson, Json.depth, Json.depthMembers]
  obtain ⟨s, hs, hparse⟩ := laws _ flat
  refine ⟨_, by rw [intoResponse, status, hs]; rfl, rfl, ?_⟩
  rw [recover]
  simp only [fromUtf8_utf8, hparse, toJson, Option.bind_eq_bind, Option.bind_some]
  apply ofStr_toStr e

end SolidError

end HttpTypes
