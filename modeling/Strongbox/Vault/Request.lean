/-
  Strongbox.Vault.Request — what can be asked of a store, and what it answers.

  Writes are accepted or rejected; a rejection names its cause and is not a failure. A write for
  which there is no number left is neither: the addition overflows, and nothing is answered. Some
  requests are answered at once, without any storage call: those with a path that names no
  key, those that change nothing, and those with a bad argument.
-/

import Strongbox.KeyPath
import Strongbox.Record.View
import Strongbox.Storage.Error

namespace Strongbox

/-- Settings of a record to be changed; what is not supplied stays as it is. -/
structure RecordChanges where
  maxVersions : Option UInt32 := none
  casRequired : Option Bool := none
  /-- Seconds; zero clears the setting, a negative number is rejected. -/
  deleteVersionAfter : Option Int64 := none
  customMetadata : Option CustomMetadata := none
  deriving DecidableEq

/-- Whether anything is supplied. -/
def RecordChanges.hasUpdates (c : RecordChanges) : Bool :=
  c.maxVersions.isSome || c.casRequired.isSome || c.deleteVersionAfter.isSome ||
    c.customMetadata.isSome

/-- Settings of the policy to be changed; what is not supplied stays as it is. -/
structure PolicyChanges where
  maxVersions : Option UInt32 := none
  casRequired : Option Bool := none
  /-- Seconds; zero means no expiry, a negative number is rejected. -/
  deleteVersionAfter : Option Int64 := none
  deriving DecidableEq

inductive Rejection where
  | path (fault : KeyPath.Fault)
  | negativeExpiry
  | aboveCeiling (requested ceiling : UInt64)
  | customMetadata (violations : List CustomMetadata.Violation)
  | casMissing
  | casMismatch
  | noVersions
  deriving DecidableEq, Repr

def Rejection.message : Rejection → String
  | .path fault => fault.message
  | .negativeExpiry => "delete_version_after cannot be negative"
  | .aboveCeiling requested ceiling =>
    "delete_version_after " ++ Time.spanText requested.toNat ++ " exceeds the backend maximum of " ++
      Time.spanText ceiling.toNat
  | .customMetadata violations => CustomMetadata.report violations
  | .casMissing => "check-and-set parameter required for this call"
  | .casMismatch => "check-and-set parameter did not match the current version"
  | .noVersions => "no versions provided"

inductive Warning where
  /-- A record cannot waive what the policy mandates. -/
  | casMandated
  deriving DecidableEq, Repr

def Warning.message : Warning → String
  | .casMandated =>
    "\"cas_required\" set to false, but is mandated by backend config. This value will be ignored."

inductive Outcome (α : Type) where
  | accepted (value : α) (warnings : List Warning := [])
  | rejected (reason : Rejection)
  /-- A number did not fit in 64 bits: the operation was broken off there, and with it the program. -/
  | overflowed
  deriving DecidableEq

inductive Request where
  | writeMetadata (path : String) (changes : RecordChanges)
  | readMetadata (path : String)
  | listMetadata (path : String)
  | metadataExists (path : String)
  /-- Erases a key with all its versions. -/
  | deleteMetadata (path : String)
  | writeData (path : String) (data : Bytes) (cas : Option UInt64)
  /-- No version stands for the current one. -/
  | readData (path : String) (version : Option UInt64)
  /-- No versions stand for the current one. -/
  | deleteVersions (path : String) (versions : List UInt64)
  | undeleteVersions (path : String) (versions : List UInt64)
  | destroyVersions (path : String) (versions : List UInt64)
  | readPolicy
  | writePolicy (changes : PolicyChanges)
  deriving DecidableEq

namespace Request

abbrev Reply : Request → Type
  | .writeMetadata .. => Outcome Unit
  | .readMetadata _ => Option MetadataView
  | .listMetadata _ => List String
  | .metadataExists _ => Bool
  | .deleteMetadata _ => Unit
  | .writeData .. => Outcome WrittenVersion
  | .readData .. => Option SecretVersion
  | .deleteVersions .. => Outcome Unit
  | .undeleteVersions .. => Outcome Unit
  | .destroyVersions .. => Outcome Unit
  | .readPolicy => Policy
  | .writePolicy _ => Outcome Unit

/-- A rejection because of the path, or else of missing versions. -/
def versionsFault? (path : String) (versions : List UInt64) : Option (Outcome Unit) :=
  match KeyPath.fault? path with
  | some fault => some (.rejected (.path fault))
  | none => if versions = [] then some (.rejected .noVersions) else none

/-- The answer to a request that is answered without storage. -/
def immediate? : (r : Request) → Option r.Reply
  | .writeMetadata path changes =>
    match KeyPath.fault? path with
    | some fault => some (.rejected (.path fault))
    | none => if changes.hasUpdates then none else some (.accepted ())
  | .readMetadata path => (KeyPath.fault? path).map fun _ => none
  | .listMetadata _ => none
  | .metadataExists path => (KeyPath.fault? path).map fun _ => false
  | .deleteMetadata path => (KeyPath.fault? path).map fun _ => ()
  | .writeData path _ _ => (KeyPath.fault? path).map fun fault => .rejected (.path fault)
  | .readData path _ => (KeyPath.fault? path).map fun _ => none
  | .deleteVersions path _ => (KeyPath.fault? path).map fun fault => .rejected (.path fault)
  | .undeleteVersions path versions => versionsFault? path versions
  | .destroyVersions path versions => versionsFault? path versions
  | .readPolicy => none
  | .writePolicy changes =>
    if changes.deleteVersionAfter.any (· < 0) then some (.rejected .negativeExpiry) else none

/-- Asking whether a key exists is answered with no if the storage is read-only and was never
    set up; every other failure stands. -/
def settle : (r : Request) → Except Error r.Reply → Except Error r.Reply
  | .metadataExists _, .error (.storage .readOnly) => .ok false
  | _, reply => reply

end Request

end Strongbox
