/-
  Strongbox.KeyRing.MasterKey — the key that all others are derived from.

  Given as 64 hexadecimal digits with blanks around them allowed, or derived from a passphrase.
-/

import Strongbox.Crypto.Hmac
import Strongbox.Hex
import Strongbox.Text.Decimal
import Strongbox.Text.Pieces
import Strongbox.Text.Quoted

namespace Strongbox

structure MasterKey where
  key : Block 32
  deriving DecidableEq

namespace MasterKey

inductive Fault where
  | wrongLength (length : Nat)
  | hex (fault : Hex.Fault)
  | emptyPassphrase
  deriving DecidableEq, Repr

/-- What is wrong with hexadecimal digits; the character shown is the one with the byte's number. -/
def hexMessage : Hex.Fault → String
  | .oddLength => "Odd number of digits"
  | .notDigit byte position =>
    "Invalid character " ++ Text.quotedChar (Char.ofNat byte.toNat) ++ " at position " ++
      Text.Decimal.text position

def Fault.message (f : Fault) : String :=
  "Invalid key material: " ++
  match f with
  | .wrongLength length => "Key must be 32 bytes, got " ++ Text.Decimal.text length ++ " bytes"
  | .hex fault => "Invalid hex key: " ++ hexMessage fault
  | .emptyPassphrase => "Passphrase must not be empty"

def ofBytes (bytes : Bytes) : Except Fault MasterKey :=
  match Block.ofBytes? 32 bytes with
  | some key => .ok ⟨key⟩
  | none => .error (.wrongLength bytes.length)

def ofHex (text : String) : Except Fault MasterKey :=
  match Hex.decode (Text.trim text) with
  | .ok bytes => ofBytes bytes
  | .error fault => .error (.hex fault)

def ofPassphrase (passphrase : String) : Except Fault MasterKey :=
  if passphrase = "" then .error .emptyPassphrase
  else .ok ⟨Crypto.Hmac.derive (Bytes.utf8 "vkv/master-key/v1") (Bytes.utf8 passphrase)
    (Bytes.utf8 "master-key")⟩

def toHex (k : MasterKey) : String := Hex.encode k.key.bytes

/-- What is shown in place of the key. -/
def redacted (_ : MasterKey) : String := "MasterKey([REDACTED])"

end MasterKey

end Strongbox
