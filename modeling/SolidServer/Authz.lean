import SolidServer.HttpTypes
import Mathlib.Data.Finmap

/-!
# Authorization

Access is decided in two stages: a permission reader reports what the credentials of a
request permit, and an authorizer accepts or rejects the request.  Both are functions that
the server is set up with.
-/

open Text HttpTypes

namespace Authz

/-- Agent credentials extracted from a request. -/
structure Credentials where
  agent : Option Str
  issuer : Option Str
deriving DecidableEq

/-- The set of access modes requested for each resource. -/
abbrev AccessMap := Finmap fun _ : ResourceIdentifier => Finset AccessMode

/-- The access modes that are permitted for each resource. -/
abbrev PermissionMap := Finmap fun _ : ResourceIdentifier => Finmap fun _ : AccessMode => Bool

/-- Reads the permissions for credentials and requested access modes. -/
abbrev PermissionReader := Credentials → AccessMap → Except Unit PermissionMap

/-- Verifies that credentials have sufficient permission. -/
abbrev Authorizer := Credentials → AccessMap → PermissionMap → Except SolidError Unit

/-- The authorization set-up of a server. -/
structure AuthzState where
  permissionReader : PermissionReader
  authorizer : Authorizer

/-- Permit every mode in the set. -/
def permitAll (modes : Finset AccessMode) : Finmap fun _ : AccessMode => Bool where
  entries := modes.val.map fun mode => ⟨mode, true⟩
  nodupKeys := by
    apply Multiset.nodup_keys.mp
    simpa [Multiset.keys] using modes.nodup

/-- The reader that reports all modes as permitted. -/
def passThroughPermissionReader : PermissionReader := fun _ requestedModes =>
  .ok {
    entries := requestedModes.entries.map fun entry => ⟨entry.1, permitAll entry.2⟩
    nodupKeys := by
      apply Multiset.nodup_keys.mp
      have := Multiset.nodup_keys.mpr requestedModes.nodupKeys
      simpa [Multiset.keys] using this }

/-- The authorizer that permits every request. -/
def passThroughAuthorizer : Authorizer := fun _ _ _ =>
  .ok ()

/-- The default set-up, which permits every request. -/
def AuthzState.passThrough : AuthzState :=
  ⟨passThroughPermissionReader, passThroughAuthorizer⟩

end Authz
