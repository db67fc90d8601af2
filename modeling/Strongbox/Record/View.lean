/-
  Strongbox.Record.View — records, versions and secrets as they are shown.

  Times and spans are shown as text; an unset time is empty text. Versions are shown under
  their decimal numbers, ordered as texts, so 10 stands before 2.
-/

import Strongbox.Base64
import Strongbox.Record.Codec
import Strongbox.Time.Span

namespace Strongbox

open Time (Instant)

structure VersionView where
  createdTime : String
  deletionTime : String
  destroyed : Bool
  deriving DecidableEq

def VersionEntry.view (v : VersionEntry) : VersionView where
  createdTime := Time.Rfc3339.text v.createdTime
  deletionTime := Time.Rfc3339.textOrEmpty v.deletionTime
  destroyed := v.destroyed

structure MetadataView where
  versions : Std.ExtTreeMap String VersionView
  currentVersion : UInt64
  oldestVersion : UInt64
  createdTime : String
  updatedTime : String
  maxVersions : UInt32
  casRequired : Bool
  deleteVersionAfter : String
  customMetadata : CustomMetadata
  deriving DecidableEq

def KeyRecord.view (r : KeyRecord) : MetadataView where
  versions := r.versions.toList.foldl
    (fun shown (n, v) => shown.insert (Text.Decimal.text n.toNat) v.view) ∅
  currentVersion := r.currentVersion
  oldestVersion := r.oldestVersion
  createdTime := Time.Rfc3339.text r.createdTime
  updatedTime := Time.Rfc3339.text r.updatedTime
  maxVersions := r.maxVersions
  casRequired := r.casRequired
  deleteVersionAfter := Time.spanText (r.deleteVersionAfter.getD 0).toNat
  customMetadata := r.customMetadata

/-- A version that was written, with its number. -/
structure WrittenVersion where
  version : UInt64
  metadata : VersionView
  deriving DecidableEq

/-- A version that was read. There is no data if it is deleted, expired or destroyed. -/
structure SecretVersion where
  version : UInt64
  data : Option Bytes
  metadata : VersionView
  customMetadata : CustomMetadata
  deriving DecidableEq

/-! ## As JSON -/

def VersionView.members (v : VersionView) : List (String × Json) := [
  ("created_time", Json.ofText v.createdTime),
  ("deletion_time", Json.ofText v.deletionTime),
  ("destroyed", .bool v.destroyed)]

def MetadataView.toJson (m : MetadataView) : Json :=
  Json.ofMembers [
    ("versions", Json.ofMembers (m.versions.toList.map fun (n, v) => (n, Json.ofMembers v.members))),
    ("current_version", Json.ofNat m.currentVersion.toNat),
    ("oldest_version", Json.ofNat m.oldestVersion.toNat),
    ("created_time", Json.ofText m.createdTime),
    ("updated_time", Json.ofText m.updatedTime),
    ("max_versions", Json.ofNat m.maxVersions.toNat),
    ("cas_required", .bool m.casRequired),
    ("delete_version_after", Json.ofText m.deleteVersionAfter),
    ("custom_metadata", m.customMetadata.toJson)]

def WrittenVersion.toJson (w : WrittenVersion) : Json :=
  Json.ofMembers (("version", Json.ofNat w.version.toNat) :: w.metadata.members)

/-- Data that is a text is shown as it is, any other in base 64 under a name of its own. -/
def SecretVersion.dataMember : Option Bytes → List (String × Json)
  | none => []
  | some data =>
    match Bytes.text? data with
    | some text => [("data", Json.ofText text)]
    | none => [("data_base64", Json.ofText (Base64.common.encode data))]

def SecretVersion.toJson (s : SecretVersion) : Json :=
  Json.ofMembers (
    ("custom_metadata", s.customMetadata.toJson) :: dataMember s.data ++
    [("metadata", Json.ofMembers s.metadata.members), ("version", Json.ofNat s.version.toNat)])

end Strongbox
