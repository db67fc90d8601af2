/-
  Strongbox.Crypto.Poly1305 — the one-time authenticator.

  The message is cut into pieces of 16 bytes, each with a one bit put on top, and evaluated as
  a polynomial modulo 2^130 - 5 at the first half of the key; the second half is added.
-/

import Strongbox.Bytes

namespace Strongbox.Crypto.Poly1305

/-- 2^130 - 5. -/
def modulus : Nat := 1361129467683753853853498429727072845819

/-- The bits of the evaluation point that are in use. -/
def clampMask : Nat := 0x0ffffffc0ffffffc0ffffffc0fffffff

def accumulate (point acc : Nat) (piece : Bytes) : Nat :=
  (acc + Bytes.ofLittleEndian (piece ++ [1])) * point % modulus

def tag (key : Block 32) (message : Bytes) : Block 16 :=
  let point := Bytes.ofLittleEndian (key.bytes.take 16) &&& clampMask
  let offset := Bytes.ofLittleEndian (key.bytes.drop 16)
  let value := (Bytes.chunks 16 message).foldl (accumulate point) 0
  ⟨Bytes.littleEndian 16 (value + offset), Bytes.length_littleEndian 16 _⟩

end Strongbox.Crypto.Poly1305
