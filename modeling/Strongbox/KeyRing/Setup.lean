/-
  Strongbox.KeyRing.Setup — the salt of a storage and the check of its master key.

  The first use of a storage writes a random salt and, sealed, a fixed marker. Every later use
  reads the salt and opens the marker, so another master key is noticed instead of addressing
  keys of its own. A setup that was cut short between the two writes is finished by the next.
-/

import Strongbox.KeyRing.Basic
import Strongbox.Storage.Access

namespace Strongbox.KeyRing

/-- Where the salt is stored. -/
def saltKey : String := "salt"

/-- Where the sealed marker is stored. -/
def checkKey : String := "keycheck"

/-- What the sealed marker says. -/
def marker : Bytes := Bytes.utf8 "vkv/key-check/v1"

/-- Fails unless the stored marker opens with this key ring and says what it should. -/
def verify (ring : KeyRing) (sealed : Bytes) : Except StorageError Unit :=
  match ring.openSealed checkKey sealed with
  | .error _ => .error (.decryption checkKey .otherMasterKey)
  | .ok plain =>
    if plain = marker then .ok () else .error (.decryption checkKey .unexpectedCheck)

/-- The stored salt; a new one is drawn and stored if there is none. -/
def ensureSalt : Access Bytes := do
  match ← Access.get saltKey with
  | some salt => return salt
  | none =>
    let salt ← Access.random 32
    Access.put saltKey salt.bytes
    return salt.bytes

/-- Verifies the stored marker; it is sealed and stored if there is none. -/
def ensureCheck (ring : KeyRing) : Access Unit := do
  match ← Access.get checkKey with
  | some sealed => Access.ofExcept (ring.verify sealed)
  | none =>
    let nonce ← Access.random 12
    Access.put checkKey (ring.sealWith nonce checkKey marker)

/-- The key ring of a storage, set up on first use. -/
def setUp (master : MasterKey) : Access KeyRing := do
  let salt ← ensureSalt
  if salt.length ≠ 32 then
    Access.fail (.storage (.decryption saltKey (.saltSize salt.length)))
  else
    let ring := derive master salt
    ensureCheck ring
    return ring

end Strongbox.KeyRing
