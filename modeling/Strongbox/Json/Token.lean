/-
  Strongbox.Json.Token — strings and numbers as they are spelled.

  A spelled string is what stands between its quotes. Every well-formed string can be skipped,
  but not every one is a text: an escape may name half of a surrogate pair, and the bytes may
  be no UTF-8. So finding the end of a string and reading its text are separate steps:
  - `readText? (spellText t) = some t` for every text.
-/

import Strongbox.Bytes
import Strongbox.Text.Decimal

namespace Strongbox.Json

open Strongbox.Text

/-! ## Bytes with a meaning -/

def quote : UInt8 := 34

def backslash : UInt8 := 92

/-- The value of an ASCII hexadecimal digit. -/
def hexValue? (b : UInt8) : Option Nat :=
  if 48 ≤ b ∧ b ≤ 57 then some (b.toNat - 48)
  else if 97 ≤ b ∧ b ≤ 102 then some (b.toNat - 87)
  else if 65 ≤ b ∧ b ≤ 70 then some (b.toNat - 55)
  else none

def isDigitByte (b : UInt8) : Bool := 48 ≤ b && b ≤ 57

/-- The byte that a one-letter escape stands for. -/
def escapeValue? (letter : UInt8) : Option UInt8 :=
  if letter = 34 ∨ letter = 92 ∨ letter = 47 then some letter
  else if letter = 98 then some 8
  else if letter = 102 then some 12
  else if letter = 110 then some 10
  else if letter = 114 then some 13
  else if letter = 116 then some 9
  else none

/-! ## Strings -/

/-- Splits at the closing quote; what comes before it is a well-formed string. -/
def scanString? : Bytes → Option (Bytes × Bytes)
  | [] => none
  | b :: rest =>
    if b = quote then some ([], rest)
    else if b < 32 then none
    else if b = backslash then
      match rest with
      | 117 :: h1 :: h2 :: h3 :: h4 :: rest =>
        if (hexValue? h1).isSome && (hexValue? h2).isSome && (hexValue? h3).isSome &&
            (hexValue? h4).isSome then
          (scanString? rest).map fun (found, rest) =>
            (b :: 117 :: h1 :: h2 :: h3 :: h4 :: found, rest)
        else none
      | letter :: rest =>
        if (escapeValue? letter).isSome then
          (scanString? rest).map fun (found, rest) => (b :: letter :: found, rest)
        else none
      | [] => none
    else (scanString? rest).map fun (found, rest) => (b :: found, rest)

/-- The number that four hexadecimal digits spell. -/
def unit? (h1 h2 h3 h4 : UInt8) : Option Nat := do
  some ((← hexValue? h1) * 4096 + (← hexValue? h2) * 256 + (← hexValue? h3) * 16 + (← hexValue? h4))

/-- The UTF-8 form of a code point. -/
def utf8OfCode (code : Nat) : Bytes := Bytes.utf8 (String.singleton (Char.ofNat code))

/-- The bytes that a spelled string stands for, escapes resolved. -/
def unescape? : Bytes → Option Bytes
  | [] => some []
  | 92 :: 117 :: h1 :: h2 :: h3 :: h4 :: rest =>
    match unit? h1 h2 h3 h4 with
    | none => none
    | some high =>
      if high < 0xd800 ∨ 0xdfff < high then (unescape? rest).map (utf8OfCode high ++ ·)
      else
        match rest with
        | 92 :: 117 :: l1 :: l2 :: l3 :: l4 :: rest =>
          match unit? l1 l2 l3 l4 with
          | none => none
          | some low =>
            if high < 0xdc00 ∧ 0xdc00 ≤ low ∧ low ≤ 0xdfff then
              (unescape? rest).map
                (utf8OfCode (0x10000 + (high - 0xd800) * 1024 + (low - 0xdc00)) ++ ·)
            else none
        | _ => none
  | 92 :: letter :: rest =>
    match escapeValue? letter with
    | some b => (unescape? rest).map (b :: ·)
    | none => none
  | b :: rest => (unescape? rest).map (b :: ·)

/-- The text that a spelled string stands for. -/
def readText? (spelled : Bytes) : Option String := (unescape? spelled).bind Bytes.text?

def hexDigit (n : Nat) : UInt8 := if n < 10 then UInt8.ofNat (48 + n) else UInt8.ofNat (87 + n)

/-- How one byte of a text is spelled. -/
def spellByte (b : UInt8) : Bytes :=
  if b = quote ∨ b = backslash then [backslash, b]
  else if b = 8 then [backslash, 98]
  else if b = 9 then [backslash, 116]
  else if b = 10 then [backslash, 110]
  else if b = 12 then [backslash, 102]
  else if b = 13 then [backslash, 114]
  else if b < 32 then [backslash, 117, 48, 48, hexDigit (b.toNat / 16), hexDigit (b.toNat % 16)]
  else [b]

/-- A text as a spelled string: quotes, backslashes and controls are escaped, all else stands. -/
def spellText (text : String) : Bytes := (Bytes.utf8 text).flatMap spellByte

/-! ## Numbers -/

/-- One or more digits, and what follows them. -/
def scanDigits? (s : Bytes) : Option (Bytes × Bytes) :=
  let found := s.takeWhile isDigitByte
  if found = [] then none else some (found, s.dropWhile isDigitByte)

/-- An integer without leading zeros, and what follows it. -/
def scanInteger? : Bytes → Option (Bytes × Bytes)
  | 48 :: rest =>
    match rest with
    | b :: _ => if isDigitByte b then none else some ([48], rest)
    | [] => some ([48], rest)
  | s => scanDigits? s

/-- An optional fraction. -/
def scanFraction? : Bytes → Option (Bytes × Bytes)
  | 46 :: rest => (scanDigits? rest).map fun (found, rest) => (46 :: found, rest)
  | s => some ([], s)

/-- The digits of an exponent with an optional sign. -/
def scanSigned? : Bytes → Option (Bytes × Bytes)
  | 43 :: rest => (scanDigits? rest).map fun (found, rest) => (43 :: found, rest)
  | 45 :: rest => (scanDigits? rest).map fun (found, rest) => (45 :: found, rest)
  | s => scanDigits? s

/-- An optional exponent. -/
def scanExponent? : Bytes → Option (Bytes × Bytes)
  | 101 :: rest => (scanSigned? rest).map fun (found, rest) => (101 :: found, rest)
  | 69 :: rest => (scanSigned? rest).map fun (found, rest) => (69 :: found, rest)
  | s => some ([], s)

/-- A number without a sign, and what follows it. -/
def scanUnsigned? (s : Bytes) : Option (Bytes × Bytes) := do
  let (whole, s) ← scanInteger? s
  let (fraction, s) ← scanFraction? s
  let (exponent, s) ← scanExponent? s
  some (whole ++ fraction ++ exponent, s)

/-- A number as it is spelled, and what follows it. -/
def scanNumber? : Bytes → Option (Bytes × Bytes)
  | 45 :: rest => (scanUnsigned? rest).map fun (found, rest) => (45 :: found, rest)
  | s => scanUnsigned? s

def spellNat (n : Nat) : Bytes := Bytes.utf8 (Decimal.text n)

/-- The natural number that is spelled this way and no other. -/
def readNat? (spelled : Bytes) : Option Nat :=
  if spelled.all isDigitByte then Decimal.canonical? (spelled.map fun b => Char.ofNat b.toNat)
  else none

end Strongbox.Json
