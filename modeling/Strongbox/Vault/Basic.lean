/-
  Strongbox.Vault.Basic — records, payloads and policy in storage.

  A vault is the key ring of a storage together with the policy that holds until one is
  stored. Records are stored under hidden paths below `metadata/`, payloads under the keyed
  identifier of their key and the version number below `versions/`, the policy under a key of
  its own; all are sealed.
-/

import Strongbox.KeyRing.Setup
import Strongbox.Record.Codec
import Strongbox.Storage.Sealed

namespace Strongbox

structure Vault where
  ring : KeyRing
  /-- The policy as long as none is stored. -/
  defaults : Policy

namespace Vault

/-! ## Records -/

def records (ring : KeyRing) : Sealed := { ring, below := "metadata/", hidesNames := true }

/-- Decodes what is stored for a key; a record must name the key it was found under. -/
def checkRecord (key : String) (bytes : Bytes) : Except Error KeyRecord :=
  match KeyRecord.decode? bytes with
  | none => .error (.corrupt key .undecodableRecord)
  | some record => if record.key = key then .ok record else .error (.corrupt key (.otherKey record.key))

def readRecord (ring : KeyRing) (key : String) : Access (Option KeyRecord) := do
  match ← (records ring).get key with
  | none => return none
  | some bytes => return some (← .done (checkRecord key bytes))

def writeRecord (ring : KeyRing) (record : KeyRecord) : Access Unit :=
  (records ring).put record.key record.encode

def deleteRecord (ring : KeyRing) (key : String) : Access Unit := (records ring).delete key

def listRecords (ring : KeyRing) (path : String) : Access (List String) := (records ring).list path

/-! ## Payloads -/

def payloads (ring : KeyRing) : Sealed := { ring, below := "versions/" }

/-- The key of a payload below `versions/`. -/
def payloadKey (ring : KeyRing) (key : String) (version : UInt64) : String :=
  ring.identifier key ++ "/" ++ Text.Decimal.text version.toNat

def readPayload (ring : KeyRing) (key : String) (version : UInt64) : Access (Option Bytes) :=
  (payloads ring).get (payloadKey ring key version)

def writePayload (ring : KeyRing) (key : String) (version : UInt64) (data : Bytes) : Access Unit :=
  (payloads ring).put (payloadKey ring key version) data

def deletePayload (ring : KeyRing) (key : String) (version : UInt64) : Access Unit :=
  (payloads ring).delete (payloadKey ring key version)

/-! ## Policy -/

def policyKey : String := "config"

def policies (ring : KeyRing) : Sealed := { ring }

/-- The stored policy, or the default one if none is stored. -/
def readPolicy (v : Vault) : Access Policy := do
  match ← (policies v.ring).get policyKey with
  | none => return v.defaults
  | some bytes =>
    match Policy.decode? bytes with
    | some policy => return policy
    | none => Access.fail (.corrupt policyKey .undecodablePolicy)

def writePolicy (ring : KeyRing) (policy : Policy) : Access Unit :=
  (policies ring).put policyKey policy.encode

end Vault

end Strongbox
