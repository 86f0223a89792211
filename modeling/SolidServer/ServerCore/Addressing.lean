import SolidServer.ServerCore.Responses

/-!
# Addresses

The paths of requests are URIs, and keys are any strings: those of posted resources are what
the server makes of the decoded path of the container and a slug.  The `address` of a key is a
path of unreserved characters and escapes that resolves to the key, and there is one for
every key that begins with a slash.  So every resource that a server has stored can be read and
removed by a request that can be written down, whatever its key is.
-/

open Text Http

namespace ServerCore

/-- The path with the key percent-encoded after its first slash. -/
def address (k : Str) : Str :=
  '/' :: percentEncode k

/-- A key that begins with a slash is resolved from its address. -/
theorem requestKey_address {k : Str} (hk : startsWith k '/' = true) :
  requestKey (address k) = some k
  := by
  obtain ⟨rest, rfl⟩ := startsWith_iff.mp hk
  have captured : route (address ('/' :: rest)) = some (some (percentEncode ('/' :: rest))) :=
    rfl
  simp only [requestKey, captured, percentDecode_percentEncode, Option.map_some]
  rfl

/-- The keys of requests are those that begin with a slash. -/
theorem exists_requestKey_iff {k : Str} :
  (∃ path, requestKey path = some k) ↔ startsWith k '/' = true
  := by
  constructor
  · rintro ⟨path, h⟩
    apply startsWith_requestKey h
  · intro hk
    use address k
    apply requestKey_address hk

end ServerCore
