/-
  Strongbox.Policy — what holds for every key unless the key says otherwise.

  How many versions are kept, whether writes must name the current version, and after how many
  seconds versions expire. An expiry of zero seconds means none; a nonzero one is also the most
  that a key may ask for.
-/

import Strongbox.Json.Fields
import Strongbox.Json.Reader

namespace Strongbox

structure Policy where
  maxVersions : UInt32 := 10
  casRequired : Bool := false
  deleteVersionAfter : Option UInt64 := none
  deriving DecidableEq, Repr

namespace Policy

/-- The seconds after which versions expire, if they do. -/
def expiry? (p : Policy) : Option UInt64 := p.deleteVersionAfter.filter (0 < ·)

/-- The most seconds that a key may set as its own expiry, if there is a bound. -/
def ceiling? (p : Policy) : Option UInt64 := p.expiry?

/-- How many versions are kept of a key with this setting of its own; zero is unset. -/
def retention (p : Policy) (own : UInt32) : UInt32 := if 0 < own then own else p.maxVersions

/-! ## As JSON -/

def toJson (p : Policy) : Json :=
  Json.ofMembers [
    ("max_versions", Json.ofNat p.maxVersions.toNat),
    ("cas_required", .bool p.casRequired),
    ("delete_version_after", p.deleteVersionAfter.elim .null fun n => Json.ofNat n.toNat)]

def fieldNames : List String := ["max_versions", "cas_required", "delete_version_after"]

/-- Reads a policy; a missing field has its default. -/
def ofJson? (value : Json) : Option Policy := do
  match ← value.fields? fieldNames with
  | [maxVersions, casRequired, deleteVersionAfter] =>
    some {
      maxVersions := ← Json.withDefault? 10 Json.word32? maxVersions
      casRequired := ← Json.withDefault? false Json.bool? casRequired
      deleteVersionAfter := ← Json.withDefault? none (Json.option? Json.word64?) deleteVersionAfter }
  | _ => none

def encode (p : Policy) : Bytes := p.toJson.compact

def decode? (bytes : Bytes) : Option Policy := (Json.ofBytes? bytes).bind ofJson?

end Policy

end Strongbox
