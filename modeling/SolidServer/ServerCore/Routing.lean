import SolidServer.ServerCore.Handlers
import SolidServer.ServerCore.Ancestors

/-!
# The route table

`ldpRouter` sends a request to the handler for its method.  The root path has no capture;
any other path that begins with `/` captures what follows, which is percent-decoded before
the handler runs.  `requestKey` is the key a request path resolves to.
-/

open Text Http Atomic

namespace ServerCore

/-- The capture of the wildcard in a request path: none at the root, and no route at all
unless the path begins with `/`. -/
def route : Str → Option (Option Str)
  | ['/'] => some none
  | '/' :: rest => some (some rest)
  | _ => none

/-- The response to a path whose capture does not decode. -/
def invalidPath : Response :=
  .ofText .badRequest "Invalid URL: Invalid UTF-8 in `path`".toList

/-- Run a handler on the decoded capture. -/
def withPath (capture : Option Str) (handler : Option Str → StoreProg Response) :
    StoreProg Response :=
  match capture with
  | none => handler none
  | some raw =>
      match percentDecode raw with
      | some path => handler (some path)
      | none => return invalidPath

/-- The response to a method the route does not have. -/
def methodNotAllowed : Response where
  status := .methodNotAllowed
  headers := [(.allow, ⟨utf8 "GET,HEAD,PUT,POST,DELETE,OPTIONS,PATCH".toList, by decide⟩)]
  body := []

/-- The handler for the method of a request. -/
def handler (slug : Uuid) (req : Request) : Option (Option Str → StoreProg Response) :=
  match req.method with
  | .get => some fun path => handleGet path req
  | .head => some fun path => handleHead path req
  | .put => some fun path => handlePut path req
  | .post => some fun path => handlePost slug path req
  | .delete => some handleDelete
  | .options => some fun _ => handleOptions
  | .patch => some fun _ => handlePatch
  | .other _ => none

/-- The LDP resource route table. -/
def ldpRouter (slug : Uuid) (req : Request) : StoreProg Response :=
  match route req.path with
  | none => return .ofStatus .notFound
  | some capture =>
      match handler slug req with
      | some h => withPath capture h
      | none => return methodNotAllowed

/-- The key a request path resolves to. -/
def requestKey (path : Str) : Option Str :=
  match route path with
  | none => none
  | some none => some (resolvePath none)
  | some (some raw) => (percentDecode raw).map fun p => resolvePath (some p)

/-- A request path with a key is answered by the handler for the method, called with a path
that resolves to the key. -/
theorem ldpRouter_of_key (slug : Uuid) {req : Request} {k : Str}
    (hk : requestKey req.path = some k) :
  ∃ path, resolvePath path = k ∧ ldpRouter slug req =
    match handler slug req with
    | some h => h path
    | none => return methodNotAllowed
  := by
  rw [requestKey] at hk
  simp only [ldpRouter]
  cases hroute : route req.path with
  | none =>
      rw [hroute] at hk
      cases hk
  | some capture =>
      rw [hroute] at hk
      cases capture with
      | none =>
          use none, Option.some.inj hk
          rfl
      | some raw =>
          obtain ⟨p, hp, rfl⟩ := Option.map_eq_some_iff.mp hk
          use some p, rfl
          simp only [withPath, hp]

/-- The responses to requests that no handler gets. -/
def routingErrors : List Response :=
  [.ofStatus .notFound, methodNotAllowed, invalidPath]

/-- A request path without a key is answered with an error, without touching the store. -/
theorem ldpRouter_of_no_key (slug : Uuid) {req : Request} (hk : requestKey req.path = none) :
  ∃ response ∈ routingErrors, ldpRouter slug req = .ret response
  := by
  rw [requestKey] at hk
  simp only [ldpRouter]
  cases hroute : route req.path with
  | none =>
      use .ofStatus .notFound
      simp [routingErrors]
  | some capture =>
      rw [hroute] at hk
      cases capture with
      | none => cases hk
      | some raw =>
          have hp := Option.map_eq_none_iff.mp hk
          cases handler slug req with
          | none =>
              use methodNotAllowed
              simp [routingErrors]
          | some h =>
              use invalidPath
              simp [routingErrors, withPath, hp]

theorem startsWith_requestKey {path k : Str} (h : requestKey path = some k) :
  startsWith k '/' = true
  := by
  rw [requestKey] at h
  split at h
  · cases h
  · obtain rfl := Option.some.inj h
    apply startsWith_resolvePath
  · obtain ⟨p, -, rfl⟩ := Option.map_eq_some_iff.mp h
    apply startsWith_resolvePath

/-! ### Plain paths -/

/-- The path begins with a single slash and has no escapes. -/
def Plain (path : Str) : Prop :=
  startsWith path '/' = true ∧ startsWith path.tail '/' = false ∧
    hasEscape (utf8 path.tail) = false

instance : DecidablePred Plain :=
  fun _ => inferInstanceAs (Decidable (_ ∧ _ ∧ _))

/-- The plain paths are those that resolve to themselves. -/
theorem requestKey_eq_self_iff {path : Str} :
  requestKey path = some path ↔ Plain path
  := by
  by_cases hstart : startsWith path '/' = true
  · obtain ⟨rest, rfl⟩ := startsWith_iff.mp hstart
    cases rest with
    | nil =>
        constructor
        · intro _
          decide
        · intro _
          rfl
    | cons c rest =>
        have hkey : requestKey ('/' :: c :: rest)
            = (percentDecode (c :: rest)).map fun p => resolvePath (some p) := rfl
        rw [hkey, Option.map_eq_some_iff]
        constructor
        · rintro ⟨p, hp, hres⟩
          have hlen := length_utf8_percentDecode_le hp
          cases p with
          | nil => cases hres
          | cons d p =>
              rw [resolvePath] at hres
              · split at hres
                · rw [hres] at hlen
                  simp only [utf8, List.flatMap_cons, List.length_append] at hlen
                  have : (String.utf8EncodeChar '/').length = 1 := rfl
                  omega
                · rename_i hd
                  rw [(List.cons.inj hres).2] at hp hd
                  use rfl, Bool.eq_false_iff.mpr hd, percentDecode_eq_some_self_iff.mp hp
              · apply List.cons_ne_nil
        · rintro ⟨-, hd, hesc⟩
          rw [List.tail_cons] at hd hesc
          use c :: rest, percentDecode_eq_some_self_iff.mpr hesc
          rw [resolvePath, if_neg (Bool.eq_false_iff.mp hd)]
          apply List.cons_ne_nil
  · constructor
    · intro h
      apply absurd (startsWith_requestKey h) hstart
    · rintro ⟨h, -⟩
      apply absurd h hstart

end ServerCore
