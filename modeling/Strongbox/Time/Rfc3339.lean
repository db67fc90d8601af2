/-
  Strongbox.Time.Rfc3339 — instants as text.

  Written: date, `T`, time, the shortest exact fraction of 0, 3, 6 or 9 digits, and `Z`; a leap
  second is second 60; a year outside 0 to 9999 has a sign and at least four digits.

  Read: any offset instead of `Z`, `t` or a space instead of `T`, blanks between the parts,
  parts with fewer digits, any number of fraction digits (those after the ninth are dropped).
-/

import Strongbox.Time.Calendar
import Strongbox.Time.Instant
import Strongbox.Text.Decimal
import Strongbox.Text.Pieces

namespace Strongbox.Time.Rfc3339

open Strongbox.Text (isBlank trimStart)
open Strongbox.Text.Decimal (isDigit padded value)

/-! ## Writing -/

def yearText (year : Int) : List Char :=
  if 0 ≤ year ∧ year ≤ 9999 then padded 4 year.toNat
  else if year < 0 then '-' :: padded 4 (-year).toNat
  else '+' :: padded 4 year.toNat

def fractionText (nanos : Nat) : List Char :=
  if nanos = 0 then []
  else if nanos % 1000000 = 0 then '.' :: padded 3 (nanos / 1000000)
  else if nanos % 1000 = 0 then '.' :: padded 6 (nanos / 1000)
  else '.' :: padded 9 nanos

/-- The characters of an instant. -/
def chars (t : Instant) : List Char :=
  let date := Date.ofDays (t.seconds / 86400)
  let ofDay := (t.seconds % 86400).toNat
  let second := ofDay % 60 + t.nanos / 1000000000
  yearText date.year ++ '-' :: padded 2 date.month ++ '-' :: padded 2 date.day ++
    'T' :: padded 2 (ofDay / 3600) ++ ':' :: padded 2 (ofDay / 60 % 60) ++ ':' :: padded 2 second ++
    fractionText (t.nanos % 1000000000) ++ ['Z']

def text (t : Instant) : String := String.ofList (chars t)

/-- The text of an instant that may be unset; unset is empty. -/
def textOrEmpty : Option Instant → String
  | some t => text t
  | none => ""

/-! ## Reading -/

/-- At least one and at most `most` digits, and what follows them. -/
def digits? (most : Nat) (s : List Char) : Option (List Char × List Char) :=
  let found := (s.take most).takeWhile isDigit
  if found = [] then none else some (found, s.drop found.length)

/-- A number of at most `most` digits after blanks. -/
def number? (most : Nat) (s : List Char) : Option (Nat × List Char) :=
  (digits? most (trimStart s)).map fun (found, rest) => (value found, rest)

/-- A year: up to four digits, or a sign and any number of digits. -/
def year? (s : List Char) : Option (Int × List Char) :=
  match trimStart s with
  | '-' :: rest => (digits? rest.length rest).map fun (found, rest) => (-(value found : Int), rest)
  | '+' :: rest => (digits? rest.length rest).map fun (found, rest) => ((value found : Int), rest)
  | rest => (digits? 4 rest).map fun (found, rest) => ((value found : Int), rest)

/-- A character after blanks. -/
def mark? (c : Char) (s : List Char) : Option (List Char) :=
  match trimStart s with
  | d :: rest => if d = c then some rest else none
  | [] => none

/-- A fraction in nanoseconds, zero if none is written. -/
def fraction? : List Char → Option (Nat × List Char)
  | '.' :: s =>
    (digits? 9 s).map fun (found, rest) =>
      (value (found ++ List.replicate (9 - found.length) '0'), rest.dropWhile isDigit)
  | s => some (0, s)

/-- Two digits. -/
def pair? : List Char → Option (Nat × List Char)
  | a :: b :: rest => if isDigit a && isDigit b then some (value [a, b], rest) else none
  | _ => none

/-- Hours and minutes east, in seconds. -/
def eastward? (s : List Char) : Option (Nat × List Char) := do
  let (hours, s) ← pair? s
  let (minutes, s) ← pair? (s.dropWhile fun c => c = ':' || isBlank c)
  if minutes < 60 then some (hours * 3600 + minutes * 60, s) else none

/-- An offset from UTC in seconds. -/
def offset? : List Char → Option (Int × List Char)
  | 'Z' :: rest => some (0, rest)
  | 'z' :: rest => some (0, rest)
  | '+' :: rest => (eastward? rest).map fun (n, rest) => ((n : Int), rest)
  | '-' :: rest => (eastward? rest).map fun (n, rest) => (-(n : Int), rest)
  | '\u2212' :: rest => (eastward? rest).map fun (n, rest) => (-(n : Int), rest)
  | u :: t :: c :: rest =>
    if u.toLower = 'u' ∧ t.toLower = 't' ∧ c.toLower = 'c' then some (0, rest) else none
  | _ => none

def firstYear : Int := -262143

def lastYear : Int := 262142

/-- The instant that the whole of a text stands for. -/
def ofChars? (s : List Char) : Option Instant := do
  let (year, s) ← year? s
  let (month, s) ← number? 2 (← mark? '-' s)
  let (day, s) ← number? 2 (← mark? '-' s)
  let (c, s) ← s.head?.map (·, s.tail)
  guard (c = 'T' ∨ c = 't' ∨ c = ' ')
  let (hour, s) ← number? 2 s
  let (minute, s) ← number? 2 (← mark? ':' s)
  let (second, s) ← number? 2 (← mark? ':' s)
  let (fraction, s) ← fraction? s
  let (offset, s) ← offset? (trimStart s)
  guard (trimStart s = [])
  let date : Date := ⟨year, month, day⟩
  guard (date.isValid && firstYear ≤ year && year ≤ lastYear)
  guard (hour < 24 ∧ minute < 60 ∧ second ≤ 60 ∧ offset.natAbs < 86400)
  let ofDay := hour * 3600 + minute * 60 + min second 59
  Instant.of? (date.toDays * 86400 + ofDay - offset) (fraction + 1000000000 * (second / 60))

def ofText? (text : String) : Option Instant := ofChars? text.toList

end Strongbox.Time.Rfc3339
