/-
  Strongbox.Base64 — bytes in groups of six bits.

  Two spellings are in use. Names are written with the URL alphabet and no padding, and are
  read back strictly: no padding, no character outside the alphabet, no length that leaves a
  lone character, and the unused low bits of the last character are zero, so every byte
  string has one spelling. Shown values use the common alphabet with padding and are only
  written.
-/

import Strongbox.Bytes

namespace Strongbox.Base64

/-- The two characters in which the alphabets differ, and whether groups are padded. -/
structure Spelling where
  digit62 : Char
  digit63 : Char
  padded : Bool

def url : Spelling := ⟨'-', '_', false⟩

def common : Spelling := ⟨'+', '/', true⟩

/-- The character for a six-bit value. -/
def Spelling.digit (s : Spelling) (n : Nat) : Char :=
  if n < 26 then Char.ofNat (65 + n)
  else if n < 52 then Char.ofNat (71 + n)
  else if n < 62 then Char.ofNat (n - 4)
  else if n = 62 then s.digit62
  else s.digit63

/-- The six-bit value of a character. -/
def Spelling.value? (s : Spelling) (c : Char) : Option Nat :=
  if 'A' ≤ c ∧ c ≤ 'Z' then some (c.toNat - 65)
  else if 'a' ≤ c ∧ c ≤ 'z' then some (c.toNat - 71)
  else if '0' ≤ c ∧ c ≤ '9' then some (c.toNat + 4)
  else if c = s.digit62 then some 62
  else if c = s.digit63 then some 63
  else none

/-- The six-bit values of a byte string, the last one filled up with zero bits. -/
def sextets : Bytes → List Nat
  | [] => []
  | [a] => [a.toNat / 4, a.toNat % 4 * 16]
  | [a, b] => [a.toNat / 4, a.toNat % 4 * 16 + b.toNat / 16, b.toNat % 16 * 4]
  | a :: b :: c :: rest =>
    a.toNat / 4 :: (a.toNat % 4 * 16 + b.toNat / 16) :: (b.toNat % 16 * 4 + c.toNat / 64) ::
      c.toNat % 64 :: sextets rest

/-- The bytes that these six-bit values spell, if they are all used up. -/
def ofSextets? : List Nat → Option Bytes
  | [] => some []
  | [_] => none
  | [a, b] => if b % 16 = 0 then some [UInt8.ofNat (a * 4 + b / 16)] else none
  | [a, b, c] =>
    if c % 4 = 0 then some [UInt8.ofNat (a * 4 + b / 16), UInt8.ofNat (b % 16 * 16 + c / 4)] else none
  | a :: b :: c :: d :: rest =>
    (ofSextets? rest).map fun tail =>
      UInt8.ofNat (a * 4 + b / 16) :: UInt8.ofNat (b % 16 * 16 + c / 4) ::
        UInt8.ofNat (c % 4 * 64 + d) :: tail

def Spelling.encode (s : Spelling) (bytes : Bytes) : String :=
  let digits := (sextets bytes).map s.digit
  String.ofList (if s.padded then digits ++ List.replicate ((4 - digits.length % 4) % 4) '=' else digits)

/-- Reads an unpadded spelling. -/
def Spelling.decode? (s : Spelling) (text : String) : Option Bytes :=
  (text.toList.mapM s.value?).bind ofSextets?

end Strongbox.Base64
