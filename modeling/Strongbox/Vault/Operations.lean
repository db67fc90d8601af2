/-
  Strongbox.Vault.Operations — what each request does to records, payloads and policy.

  Every change of a key reads its record, changes it and writes it back as the last step; the
  record is what makes a change count. Payloads are written before the record that lists them
  and deleted before the record that gives them up.
-/

import Strongbox.Vault.Basic
import Strongbox.Vault.Request

namespace Strongbox

open Time (Instant)

/-! ## Changes of records and policies -/

/-- A number of seconds that is not negative. -/
def secondsOf (n : Int64) : UInt64 := n.toUInt64

def PolicyChanges.apply (c : PolicyChanges) (p : Policy) : Policy where
  maxVersions := c.maxVersions.getD p.maxVersions
  casRequired := c.casRequired.getD p.casRequired
  deleteVersionAfter := (c.deleteVersionAfter.map secondsOf).or p.deleteVersionAfter

def RecordChanges.apply (c : RecordChanges) (r : KeyRecord) : KeyRecord :=
  { r with
    maxVersions := c.maxVersions.getD r.maxVersions
    casRequired := c.casRequired.getD r.casRequired
    deleteVersionAfter := (c.deleteVersionAfter.map secondsOf).or r.deleteVersionAfter
    customMetadata := c.customMetadata.getD r.customMetadata }

/-- Why changes are rejected under a policy, if they are. -/
def RecordChanges.rejection? (c : RecordChanges) (policy : Policy) : Option Rejection :=
  let expiry := c.deleteVersionAfter.bind fun seconds =>
    if seconds < 0 then some .negativeExpiry
    else policy.ceiling?.bind fun ceiling =>
      if ceiling < secondsOf seconds then some (.aboveCeiling (secondsOf seconds) ceiling) else none
  let custom := c.customMetadata.bind fun entries =>
    match entries.violations with
    | [] => none
    | violations => some (.customMetadata violations)
  expiry.or custom

/-- The changes as they take effect: what the policy mandates cannot be waived. -/
def RecordChanges.underPolicy (c : RecordChanges) (policy : Policy) : RecordChanges × List Warning :=
  if c.casRequired = some false ∧ policy.casRequired then
    ({ c with casRequired := some true }, [.casMandated])
  else (c, [])

namespace KeyRecord

def setEntry (r : KeyRecord) (version : UInt64) (entry : VersionEntry) : KeyRecord :=
  { r with versions := r.versions.insert version entry }

/-- The record with one more version, which becomes the current one. -/
def appendVersion (r : KeyRecord) (version : UInt64) (now : Instant) : KeyRecord :=
  { r with
    versions := r.versions.insert version { createdTime := now }
    currentVersion := version
    oldestVersion := if r.oldestVersion = 0 then 1 else r.oldestVersion }

/-- The highest version number that falls out when so many are kept; zero keeps all. -/
def cutoff? (r : KeyRecord) (kept : UInt64) : Option UInt64 :=
  if 0 < kept ∧ kept < r.currentVersion then some (r.currentVersion - kept) else none

/-- The listed versions up to a number. -/
def upTo (r : KeyRecord) (cutoff : UInt64) : List UInt64 := r.versions.keys.filter (· ≤ cutoff)

/-- The record without the versions up to a number. -/
def dropUpTo (r : KeyRecord) (cutoff : UInt64) : KeyRecord :=
  { r with
    versions := r.versions.filter fun version _ => cutoff < version
    oldestVersion := max r.oldestVersion (cutoff + 1) }

/-- Marks a version deleted, unless it is destroyed or deleted already. -/
def markDeleted (now : Instant) (r : KeyRecord) (version : UInt64) : KeyRecord :=
  match r.versions[version]? with
  | some entry =>
    if entry.isReadable now then r.setEntry version { entry with deletionTime := some now } else r
  | none => r

/-- Takes the deletion of a version back, unless it is destroyed. -/
def clearDeleted (r : KeyRecord) (version : UInt64) : KeyRecord :=
  match r.versions[version]? with
  | some entry => if entry.destroyed then r else r.setEntry version { entry with deletionTime := none }
  | none => r

def secret (r : KeyRecord) (version : UInt64) (entry : VersionEntry) (data : Option Bytes) :
    SecretVersion :=
  ⟨version, data, entry.view, r.customMetadata⟩

end KeyRecord

/-! ## Operations -/

namespace Vault

variable (v : Vault) (now : Instant)

def writePolicyChanges (changes : PolicyChanges) : Access (Outcome Unit) := do
  let policy ← v.readPolicy
  writePolicy v.ring (changes.apply policy)
  return .accepted ()

def recordOrNew (path : String) : Access KeyRecord := do
  return (← readRecord v.ring path).getD (KeyRecord.new path now)

def writeMetadata (path : String) (changes : RecordChanges) : Access (Outcome Unit) := do
  let policy ← v.readPolicy
  match changes.rejection? policy with
  | some reason => return .rejected reason
  | none =>
    let (changes, warnings) := changes.underPolicy policy
    let record ← v.recordOrNew now path
    writeRecord v.ring ((changes.apply record).touch now)
    return .accepted () warnings

def readMetadata (path : String) : Access (Option MetadataView) := do
  return (← readRecord v.ring path).map KeyRecord.view

/-- Erases the payloads of the listed versions, then the record. If a payload cannot be erased
    the record stays, so that erasing again finishes the work. -/
def deleteMetadata (path : String) : Access Unit := do
  match ← readRecord v.ring path with
  | none => return ()
  | some record =>
    Access.forEach (deletePayload v.ring path) record.versions.keys
    deleteRecord v.ring path

/-- Why a write is rejected, if it is. -/
def casRejection? (record : KeyRecord) (policy : Policy) : Option UInt64 → Option Rejection
  | none => if record.needsCas policy then some .casMissing else none
  | some cas => if cas = record.currentVersion then none else some .casMismatch

/-- Deletes the payloads of the versions that fall out, and their entries. -/
def prune (record : KeyRecord) (kept : UInt64) : Access KeyRecord :=
  match record.cutoff? kept with
  | none => return record
  | some cutoff => do
    Access.forEach (deletePayload v.ring record.key) (record.upTo cutoff)
    return record.dropUpTo cutoff

def writeData (path : String) (data : Bytes) (cas : Option UInt64) :
    Access (Outcome WrittenVersion) := do
  let policy ← v.readPolicy
  let record ← v.recordOrNew now path
  match casRejection? record policy cas with
  | some reason => return .rejected reason
  | none =>
    match record.next? with
    | none => return .overflowed
    | some version =>
      writePayload v.ring path version data
      let record ← v.prune (record.appendVersion version now) (policy.retention record.maxVersions).toUInt64
      writeRecord v.ring (record.touch now)
      return .accepted ⟨version, ({ createdTime := now } : VersionEntry).view⟩

/-- Destroys a version that has expired: its payload first, then its entry. -/
def expire (record : KeyRecord) (version : UInt64) (entry : VersionEntry) (expiredAt : Instant) :
    Access KeyRecord := do
  deletePayload v.ring record.key version
  let tombstone := { entry with destroyed := true, deletionTime := some expiredAt }
  let record := ((record.setEntry version tombstone).advancedOldest).touch now
  writeRecord v.ring record
  return record

/-- What is shown of a version of a record. -/
def showVersion (record : KeyRecord) (version : UInt64) : Access (Option SecretVersion) :=
  match record.versions[version]? with
  | none => return none
  | some entry => do
    let data ← if entry.isReadable now then readPayload v.ring record.key version else pure none
    return some (record.secret version entry data)

def readData (path : String) (version : Option UInt64) : Access (Option SecretVersion) := do
  let policy ← v.readPolicy
  match ← readRecord v.ring path with
  | none => return none
  | some record =>
    let version := version.getD record.currentVersion
    match record.versions[version]? with
    | none => return none
    | some entry =>
      match entry.expired? (record.lifetime? policy) now with
      | none => v.showVersion now record version
      | some expiredAt =>
        let record ← v.expire now record version entry expiredAt
        v.showVersion now record version

/-- Writes a changed record back; one that did not change is not written. -/
def writeChanged (before after : KeyRecord) : Access (Outcome Unit) :=
  if after = before then return .accepted ()
  else do
    writeRecord v.ring (after.touch now)
    return .accepted ()

def deleteVersions (path : String) (versions : List UInt64) : Access (Outcome Unit) := do
  match ← readRecord v.ring path with
  | none => return .accepted ()
  | some record =>
    let targets := if versions = [] then [record.currentVersion] else versions
    v.writeChanged now record (targets.foldl (KeyRecord.markDeleted now) record)

def undeleteVersions (path : String) (versions : List UInt64) : Access (Outcome Unit) := do
  match ← readRecord v.ring path with
  | none => return .accepted ()
  | some record => v.writeChanged now record (versions.foldl KeyRecord.clearDeleted record)

/-- Destroys versions one after the other, payload before entry; those not listed or destroyed
    already are passed over. -/
def destroyEach : List UInt64 → KeyRecord → Access KeyRecord
  | [], record => return record
  | version :: rest, record =>
    match record.versions[version]? with
    | none => destroyEach rest record
    | some entry =>
      if entry.destroyed then destroyEach rest record
      else do
        deletePayload v.ring record.key version
        destroyEach rest (record.setEntry version { entry with destroyed := true })

def destroyVersions (path : String) (versions : List UInt64) : Access (Outcome Unit) := do
  match ← readRecord v.ring path with
  | none => return .accepted ()
  | some record =>
    let destroyed ← v.destroyEach versions record
    if destroyed = record then return .accepted ()
    else
      writeRecord v.ring (destroyed.advancedOldest.touch now)
      return .accepted ()

/-- What a request does that is not answered at once. -/
def perform : (r : Request) → Access r.Reply
  | .writeMetadata path changes => v.writeMetadata now path changes
  | .readMetadata path => v.readMetadata path
  | .listMetadata path => listRecords v.ring path
  | .metadataExists path => do return (← v.readMetadata path).isSome
  | .deleteMetadata path => v.deleteMetadata path
  | .writeData path data cas => v.writeData now path data cas
  | .readData path version => v.readData now path version
  | .deleteVersions path versions => v.deleteVersions now path versions
  | .undeleteVersions path versions => v.undeleteVersions now path versions
  | .destroyVersions path versions => v.destroyVersions now path versions
  | .readPolicy => v.readPolicy
  | .writePolicy changes => v.writePolicyChanges changes

end Vault

end Strongbox
