/-
  Strongbox.Hex — bytes as pairs of hexadecimal digits.

  Writing gives lower-case digits; reading takes either case. A text with an odd number of
  bytes is refused before its digits are looked at; otherwise the first byte that is no
  digit is reported with its position.
-/

import Strongbox.Bytes

namespace Strongbox.Hex

def digit (n : Nat) : Char :=
  if n < 10 then Char.ofNat (48 + n) else Char.ofNat (87 + n)

def encode (bytes : Bytes) : String :=
  String.ofList (bytes.flatMap fun b => [digit (b.toNat / 16), digit (b.toNat % 16)])

inductive Fault where
  | oddLength
  /-- A byte that is no hexadecimal digit, and where it stands. -/
  | notDigit (byte : UInt8) (position : Nat)
  deriving DecidableEq, Repr

/-- The value of an ASCII hexadecimal digit. -/
def value? (byte : UInt8) : Option UInt8 :=
  if 48 ≤ byte ∧ byte ≤ 57 then some (byte - 48)
  else if 97 ≤ byte ∧ byte ≤ 102 then some (byte - 87)
  else if 65 ≤ byte ∧ byte ≤ 70 then some (byte - 55)
  else none

/-- Reads digit pairs; `position` is where the first of them stands. -/
def decodePairs (position : Nat) : Bytes → Except Fault Bytes
  | [] => .ok []
  | [_] => .error .oddLength
  | high :: low :: rest =>
    match value? high, value? low with
    | none, _ => .error (.notDigit high position)
    | some _, none => .error (.notDigit low (position + 1))
    | some h, some l => (decodePairs (position + 2) rest).map ((h <<< 4 ||| l) :: ·)

def decode (text : String) : Except Fault Bytes :=
  let digits := Bytes.utf8 text
  if digits.length % 2 = 1 then .error .oddLength else decodePairs 0 digits

end Strongbox.Hex
