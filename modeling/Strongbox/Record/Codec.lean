/-
  Strongbox.Record.Codec — records as JSON.

  Versions are an object whose names are the numbers, in ascending order; a number is spelled
  without sign or leading zero, so no two names are the same version. Fields that are unset are
  left out. Of repeated names in the versions or the custom metadata the last one counts.
-/

import Strongbox.Json.Reader
import Strongbox.Record.Basic
import Strongbox.Time.Rfc3339

namespace Strongbox

open Time (Instant)

def Time.Instant.toJson (t : Instant) : Json := Json.ofText (Time.Rfc3339.text t)

def Time.Instant.ofJson? (value : Json) : Option Instant := value.text?.bind Time.Rfc3339.ofText?

namespace VersionEntry

def toJson (v : VersionEntry) : Json :=
  Json.ofMembers (
    ("created_time", v.createdTime.toJson) ::
    v.deletionTime.elim [] (fun t => [("deletion_time", t.toJson)]) ++
    [("destroyed", .bool v.destroyed)])

def fieldNames : List String := ["created_time", "deletion_time", "destroyed"]

def ofJson? (value : Json) : Option VersionEntry := do
  match ← value.fields? fieldNames with
  | [createdTime, deletionTime, destroyed] =>
    some {
      createdTime := ← Json.required? Instant.ofJson? createdTime
      deletionTime := ← Json.withDefault? none (Json.option? Instant.ofJson?) deletionTime
      destroyed := ← Json.withDefault? false Json.bool? destroyed }
  | _ => none

end VersionEntry

namespace VersionTable

def toJson (versions : VersionTable) : Json :=
  .object (versions.toList.map fun (n, v) => (Json.spellNat n.toNat, v.toJson))

def ofJson? (value : Json) : Option VersionTable := do
  let entries ← (← value.spelledMembers?).mapM fun (name, entry) => do
    some (← Text.Decimal.word64? (← Json.readNat? name), ← VersionEntry.ofJson? entry)
  some (entries.foldl (fun table (n, v) => table.insert n v) ∅)

end VersionTable

namespace CustomMetadata

def toJson (entries : CustomMetadata) : Json :=
  Json.ofMembers (entries.toList.map fun (key, value) => (key, Json.ofText value))

/-- The map of these entries; of equal keys the last one counts. -/
def ofPairs (pairs : List (String × String)) : CustomMetadata :=
  pairs.foldl (fun entries (key, value) => entries.insert key value) ∅

def ofJson? (value : Json) : Option CustomMetadata := do
  some (ofPairs (← (← value.members?).mapM fun (key, value) => value.text?.map (key, ·)))

end CustomMetadata

namespace KeyRecord

def toJson (r : KeyRecord) : Json :=
  Json.ofMembers (
    [("key", Json.ofText r.key),
     ("versions", VersionTable.toJson r.versions),
     ("current_version", Json.ofNat r.currentVersion.toNat),
     ("oldest_version", Json.ofNat r.oldestVersion.toNat),
     ("created_time", r.createdTime.toJson),
     ("updated_time", r.updatedTime.toJson),
     ("max_versions", Json.ofNat r.maxVersions.toNat),
     ("cas_required", .bool r.casRequired)] ++
    r.deleteVersionAfter.elim [] (fun n => [("delete_version_after", Json.ofNat n.toNat)]) ++
    [("custom_metadata", CustomMetadata.toJson r.customMetadata)])

def fieldNames : List String := [
  "key", "versions", "current_version", "oldest_version", "created_time", "updated_time",
  "max_versions", "cas_required", "delete_version_after", "custom_metadata"]

def ofJson? (value : Json) : Option KeyRecord := do
  match ← value.fields? fieldNames with
  | [key, versions, currentVersion, oldestVersion, createdTime, updatedTime, maxVersions,
      casRequired, deleteVersionAfter, customMetadata] =>
    some {
      key := ← Json.required? Json.text? key
      versions := ← Json.withDefault? ∅ VersionTable.ofJson? versions
      currentVersion := ← Json.required? Json.word64? currentVersion
      oldestVersion := ← Json.required? Json.word64? oldestVersion
      createdTime := ← Json.required? Instant.ofJson? createdTime
      updatedTime := ← Json.required? Instant.ofJson? updatedTime
      maxVersions := ← Json.withDefault? 0 Json.word32? maxVersions
      casRequired := ← Json.withDefault? false Json.bool? casRequired
      deleteVersionAfter := ← Json.withDefault? none (Json.option? Json.word64?) deleteVersionAfter
      customMetadata := ← Json.withDefault? ∅ CustomMetadata.ofJson? customMetadata }
  | _ => none

def encode (r : KeyRecord) : Bytes := r.toJson.compact

def decode? (bytes : Bytes) : Option KeyRecord := (Json.ofBytes? bytes).bind ofJson?

end KeyRecord

end Strongbox
