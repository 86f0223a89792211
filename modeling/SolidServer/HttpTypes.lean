import SolidServer.Library.Text

/-!
# Shared HTTP types

The error type of the server with its texts, the identifiers of resources, the modes of
access to them, and URLs.
-/

open Text

namespace HttpTypes

/-- The error conditions that can arise inside the server. -/
inductive SolidError where
  | notModified
  | badRequest (message : Str)
  | unauthorized (message : Str)
  | forbidden (message : Str)
  | notFound (message : Str)
  | methodNotAllowed (message : Str)
  | notAcceptable (message : Str)
  | conflict (message : Str)
  | gone (message : Str)
  | preconditionFailed (message : Str)
  | unsupportedMediaType (message : Str)
  | unprocessableEntity (message : Str)
  | internal (message : Str)
  | notImplemented (message : Str)
  | serviceUnavailable (message : Str)
deriving DecidableEq

/-- The text of an error. -/
def SolidError.toStr : SolidError → Str
  | notModified => "304 Not Modified".toList
  | badRequest m => "400 Bad Request: ".toList ++ m
  | unauthorized m => "401 Unauthorized: ".toList ++ m
  | forbidden m => "403 Forbidden: ".toList ++ m
  | notFound m => "404 Not Found: ".toList ++ m
  | methodNotAllowed m => "405 Method Not Allowed: ".toList ++ m
  | notAcceptable m => "406 Not Acceptable: ".toList ++ m
  | conflict m => "409 Conflict: ".toList ++ m
  | gone m => "410 Gone: ".toList ++ m
  | preconditionFailed m => "412 Precondition Failed: ".toList ++ m
  | unsupportedMediaType m => "415 Unsupported Media Type: ".toList ++ m
  | unprocessableEntity m => "422 Unprocessable Entity: ".toList ++ m
  | internal m => "500 Internal Server Error: ".toList ++ m
  | notImplemented m => "501 Not Implemented: ".toList ++ m
  | serviceUnavailable m => "503 Service Unavailable: ".toList ++ m

/-- Identifies a resource on the server. -/
structure ResourceIdentifier where
  path : Str
deriving DecidableEq

/-- A URL that has been parsed: two URLs are equal when their serializations are. -/
structure Url where
  serialization : Str
deriving DecidableEq

/-- Access modes used by the authorization layer. -/
inductive AccessMode where
  | read
  | write
  | append
  | control
deriving DecidableEq

end HttpTypes
