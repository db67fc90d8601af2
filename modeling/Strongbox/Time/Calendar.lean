/-
  Strongbox.Time.Calendar — the proleptic Gregorian calendar.

  Days are counted from 1970-01-01. Years are counted from March here, so that the leap day is
  the last day of its year, of its four years, of its century but for the last one, and of
  its 400 years; a day number is then split by plain division.
-/

namespace Strongbox.Time

structure Date where
  year : Int
  month : Nat
  day : Nat
  deriving DecidableEq, Repr

def isLeapYear (year : Int) : Bool := year % 4 = 0 && (year % 100 ≠ 0 || year % 400 = 0)

def daysInMonth (year : Int) (month : Nat) : Nat :=
  match month with
  | 2 => if isLeapYear year then 29 else 28
  | 4 => 30
  | 6 => 30
  | 9 => 30
  | 11 => 30
  | _ => 31

def Date.isValid (d : Date) : Bool :=
  1 ≤ d.month && d.month ≤ 12 && 1 ≤ d.day && d.day ≤ daysInMonth d.year d.month

/-- Days from 0000-03-01 to 1970-01-01. -/
def marchEra : Int := 719468

/-- Days from 0000-03-01 to the first of March of a year. -/
def daysBeforeYear (year : Int) : Int := 365 * year + year / 4 - year / 100 + year / 400

/-- Days from the first of March to the first day of a month, March being month 0. -/
def daysBeforeMonth (month : Nat) : Nat := (153 * month + 2) / 5

/-- The number of a date's day. -/
def Date.toDays (d : Date) : Int :=
  let marchYear := if d.month ≤ 2 then d.year - 1 else d.year
  let marchMonth := if d.month ≤ 2 then d.month + 9 else d.month - 3
  daysBeforeYear marchYear + daysBeforeMonth marchMonth + d.day - 1 - marchEra

/-- The date of a day. -/
def Date.ofDays (days : Int) : Date :=
  let fromEra := days + marchEra
  let cycles := fromEra / 146097
  let inCycle := (fromEra % 146097).toNat
  let centuries := min (inCycle / 36524) 3
  let inCentury := inCycle - 36524 * centuries
  let quads := inCentury / 1461
  let inQuad := inCentury % 1461
  let years := min (inQuad / 365) 3
  let inYear := inQuad - 365 * years
  let month := (5 * inYear + 2) / 153
  let day := inYear - daysBeforeMonth month + 1
  let year := 400 * cycles + 100 * centuries + 4 * quads + years
  if month < 10 then ⟨year, month + 3, day⟩ else ⟨year + 1, month - 9, day⟩

end Strongbox.Time
