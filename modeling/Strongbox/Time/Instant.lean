/-
  Strongbox.Time.Instant — points in time with nanoseconds and leap seconds.

  An instant is a second since 1970-01-01T00:00:00Z and a fraction. A leap second is the
  fraction of a second numbered 59 running on past 10^9 nanoseconds. Instants range from year
  -262143 to year 262142 and are ordered by second, then by fraction.
-/

namespace Strongbox.Time

/-- The first second of year -262143. -/
def firstSecond : Int := -8334601228800

/-- The last second of year 262142. -/
def lastSecond : Int := 8210266876799

@[ext] structure Instant where
  seconds : Int
  nanos : Nat
  inRange : firstSecond ≤ seconds ∧ seconds ≤ lastSecond
  fraction : nanos < 1000000000 ∨ (seconds % 60 = 59 ∧ nanos < 2000000000)
  deriving DecidableEq

namespace Instant

/-- The instant with this second and fraction, if there is one. -/
def of? (seconds : Int) (nanos : Nat) : Option Instant :=
  if h : (firstSecond ≤ seconds ∧ seconds ≤ lastSecond) ∧
      (nanos < 1000000000 ∨ (seconds % 60 = 59 ∧ nanos < 2000000000)) then
    some ⟨seconds, nanos, h.1, h.2⟩
  else none

/-- The start of 1970. -/
def epoch : Instant := ⟨0, 0, by decide, by decide⟩

instance : LE Instant where
  le a b := a.seconds < b.seconds ∨ (a.seconds = b.seconds ∧ a.nanos ≤ b.nanos)

instance (a b : Instant) : Decidable (a ≤ b) :=
  inferInstanceAs (Decidable (a.seconds < b.seconds ∨ (a.seconds = b.seconds ∧ a.nanos ≤ b.nanos)))

/-- The longest span of whole seconds that can be added at once: 2^63 - 1 milliseconds. -/
def longestSpan : Nat := 9223372036854775

/-- The instant so many seconds later. A leap second counts as the ordinary second it runs on
    from. There is none if the span is too long or the end of time is passed. -/
def later? (t : Instant) (span : Nat) : Option Instant :=
  if longestSpan < span then none
  else if span = 0 then some t
  else of? (t.seconds + span) (t.nanos % 1000000000)

end Instant

end Strongbox.Time
