/-
  Strongbox.Text.Decimal — natural numbers as decimal digits.

  A number is written without leading zeros. Three readers differ in what they admit:
  `natural?` any digits, `canonical?` only what is written, `signed?` an optional sign in
  front of digits.
-/

namespace Strongbox.Text.Decimal

def digits (n : Nat) : List Char := Nat.toDigits 10 n

def text (n : Nat) : String := String.ofList (digits n)

/-- The number padded with zeros to at least `width` digits. -/
def padded (width n : Nat) : List Char :=
  List.replicate (width - (digits n).length) '0' ++ digits n

def isDigit (c : Char) : Bool := '0' ≤ c && c ≤ '9'

def value (digits : List Char) : Nat :=
  digits.foldl (fun n c => 10 * n + (c.toNat - 48)) 0

/-- One or more digits. -/
def natural? (digits : List Char) : Option Nat :=
  if digits ≠ [] ∧ digits.all isDigit then some (value digits) else none

/-- Digits without a leading zero, except for zero itself. -/
def canonical? (digits : List Char) : Option Nat :=
  match digits with
  | '0' :: _ :: _ => none
  | _ => natural? digits

/-- Digits after an optional plus sign. -/
def unsigned? : List Char → Option Nat
  | '+' :: rest => natural? rest
  | rest => natural? rest

/-- Digits after an optional sign. -/
def signed? : List Char → Option Int
  | '-' :: rest => (natural? rest).map fun n => -(n : Int)
  | rest => (unsigned? rest).map fun n => (n : Int)

/-- A number below 2^32. -/
def word32? (n : Nat) : Option UInt32 := if n < UInt32.size then some (UInt32.ofNat n) else none

/-- A number below 2^64. -/
def word64? (n : Nat) : Option UInt64 := if n < UInt64.size then some (UInt64.ofNat n) else none

end Strongbox.Text.Decimal
