/-
  Strongbox.Record.Basic — what is known of a key and of each of its versions.

  A record lists versions by number. A listed version may be deleted, which can be taken back,
  or destroyed, which cannot: its payload is gone and the entry stays as a tombstone. Numbers
  are handed out in order from 1; `currentVersion` is the last one (0 before the first).
-/

import Strongbox.CustomMetadata
import Strongbox.Policy
import Strongbox.Time.Instant

namespace Strongbox

open Time (Instant)

structure VersionEntry where
  createdTime : Instant
  /-- When the version counts as deleted; may lie ahead. -/
  deletionTime : Option Instant := none
  destroyed : Bool := false
  deriving DecidableEq

namespace VersionEntry

def isDeleted (v : VersionEntry) (now : Instant) : Bool := v.deletionTime.any (· ≤ now)

/-- Whether the payload may be shown. -/
def isReadable (v : VersionEntry) (now : Instant) : Bool := !v.destroyed && !v.isDeleted now

/-- When a version that is not destroyed expired, if it has by now. -/
def expired? (v : VersionEntry) (lifetime : Option UInt64) (now : Instant) : Option Instant :=
  if v.destroyed then none
  else lifetime.bind fun seconds =>
    (v.createdTime.later? seconds.toNat).filter (· ≤ now)

end VersionEntry

/-- Entries by version number. -/
abbrev VersionTable := Std.ExtTreeMap UInt64 VersionEntry

structure KeyRecord where
  key : String
  versions : VersionTable := ∅
  /-- The highest number handed out. -/
  currentVersion : UInt64 := 0
  /-- The lower end of the live range. -/
  oldestVersion : UInt64 := 0
  createdTime : Instant
  updatedTime : Instant
  /-- How many versions to keep; zero leaves it to the policy. -/
  maxVersions : UInt32 := 0
  casRequired : Bool := false
  /-- Seconds until versions expire; zero is a cleared setting. -/
  deleteVersionAfter : Option UInt64 := none
  customMetadata : CustomMetadata := ∅
  deriving DecidableEq

namespace KeyRecord

/-- A record without versions. -/
def new (key : String) (now : Instant) : KeyRecord := { key, createdTime := now, updatedTime := now }

def touch (r : KeyRecord) (now : Instant) : KeyRecord := { r with updatedTime := now }

/-- Seconds until versions of this key expire: its own nonzero setting, at most what the policy
    allows, else the policy's. -/
def lifetime? (r : KeyRecord) (policy : Policy) : Option UInt64 :=
  match r.deleteVersionAfter.filter (0 < ·) with
  | some own => some (policy.ceiling?.elim own (min own))
  | none => policy.expiry?

/-- Whether writes must name the current version. -/
def needsCas (r : KeyRecord) (policy : Policy) : Bool := r.casRequired || policy.casRequired

/-- The number after the current one, if it fits in 64 bits. -/
def next? (r : KeyRecord) : Option UInt64 :=
  if r.currentVersion.toNat + 1 < UInt64.size then some (r.currentVersion + 1) else none

/-- Whether a number is not listed, or destroyed, so that the live range may start above it. -/
def isSpent (r : KeyRecord) (version : UInt64) : Bool := (r.versions[version]?).all (·.destroyed)

/-- The least live version from the oldest one on and below the current one, else the current. -/
def firstLive (r : KeyRecord) : UInt64 :=
  let live := r.versions.toList.filter fun (n, v) =>
    r.oldestVersion ≤ n && n < r.currentVersion && !v.destroyed
  live.head?.elim r.currentVersion (·.1)

/-- Moves the lower end of the live range past the versions that are spent. -/
def advancedOldest (r : KeyRecord) : KeyRecord :=
  if r.oldestVersion < r.currentVersion then { r with oldestVersion := r.firstLive } else r

end KeyRecord

end Strongbox
