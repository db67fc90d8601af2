/-
  Strongbox.KeyRing.Basic — the working keys of one storage, and what they do.

  Four keys are derived from the master key and the salt of the storage: for values, for
  names, for the nonces of names, and for identifiers.

  A sealed value is a version byte, a nonce and the value encrypted under that nonce and bound
  to the key it is stored under. A hidden name is a nonce computed from the name and the name
  encrypted under it, so equal names are hidden alike. Paths are hidden segment by segment,
  empty segments standing as they are, so the structure of paths is kept.
-/

import Strongbox.Base64
import Strongbox.Crypto.Aead
import Strongbox.KeyPath
import Strongbox.KeyRing.MasterKey
import Strongbox.Storage.Error

namespace Strongbox

structure KeyRing where
  valueKey : Block 32
  nameKey : Block 32
  nameNonceKey : Block 32
  identifierKey : Block 32
  deriving DecidableEq

namespace KeyRing

def derive (master : MasterKey) (salt : Bytes) : KeyRing :=
  let key (label : String) := Crypto.Hmac.derive salt master.key.bytes (Bytes.utf8 label)
  ⟨key "vkv/value-encryption", key "vkv/name-encryption", key "vkv/name-nonce",
    key "vkv/identifier-hash"⟩

/-! ## Values -/

/-- The first byte of every sealed value. -/
def sealVersion : UInt8 := 1

/-- Seals a value for the key it is stored under. -/
def sealWith (ring : KeyRing) (nonce : Block 12) (key : String) (plain : Bytes) : Bytes :=
  sealVersion :: nonce.bytes ++ Crypto.Aead.encrypt ring.valueKey nonce (Bytes.utf8 key) plain

/-- Splits off the first twelve bytes, if there are as many. -/
def splitNonce? (bytes : Bytes) : Option (Block 12 × Bytes) :=
  (Block.ofBytes? 12 (bytes.take 12)).map (·, bytes.drop 12)

/-- Opens a value that was sealed for this key. -/
def openSealed (ring : KeyRing) (key : String) (sealed : Bytes) : Except StorageError Bytes :=
  match sealed with
  | [] => .error (.decryption key .tooShort)
  | version :: rest =>
    match splitNonce? rest with
    | none => .error (.decryption key .tooShort)
    | some (nonce, boxed) =>
      if version ≠ sealVersion then .error (.decryption key (.unknownVersion version))
      else
        match Crypto.Aead.decrypt? ring.valueKey nonce (Bytes.utf8 key) boxed with
        | some plain => .ok plain
        | none => .error (.decryption key .notAuthentic)

/-! ## Names -/

/-- The nonce of a name: the start of its keyed digest. -/
def nameNonce (ring : KeyRing) (name : String) : Block 12 :=
  let digest := Crypto.Hmac.digest ring.nameNonceKey.bytes (Bytes.utf8 name)
  ⟨digest.bytes.take 12, by simp [digest.length_eq]⟩

def hideName (ring : KeyRing) (name : String) : String :=
  let nonce := ring.nameNonce name
  Base64.url.encode (nonce.bytes ++ Crypto.Aead.encrypt ring.nameKey nonce [] (Bytes.utf8 name))

def revealName (ring : KeyRing) (hidden : String) : Except StorageError String :=
  match Base64.url.decode? hidden with
  | none => .error (.decryption hidden .nameEncoding)
  | some bytes =>
    match splitNonce? bytes with
    | none => .error (.decryption hidden .nameTooShort)
    | some (nonce, boxed) =>
      match Crypto.Aead.decrypt? ring.nameKey nonce [] boxed with
      | none => .error (.decryption hidden .notAuthentic)
      | some plain =>
        match Bytes.text? plain with
        | none => .error (.decryption hidden .nameNotUtf8)
        | some name => .ok name

/-- Hides every segment that is not empty. -/
def hidePath (ring : KeyRing) (path : String) : String :=
  Text.join "/" ((KeyPath.segments path).map fun s => if s = "" then "" else ring.hideName s)

/-- A keyed identifier in hexadecimal. -/
def identifier (ring : KeyRing) (input : String) : String :=
  Hex.encode (Crypto.Hmac.digest ring.identifierKey.bytes (Bytes.utf8 input)).bytes

end KeyRing

end Strongbox
