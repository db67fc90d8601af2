/-
  Strongbox.Proofs.Time.Instant — points in time as numbers of nanoseconds.

  But for leap seconds, a point in time is a whole number of nanoseconds since 1970, and points in
  time are ordered as these numbers. To go on by a span is to add it up, unless it is too long to be
  added or the sum is past the end of time. There is then no such point in time, and there is none
  that is later either: nothing that is over by any point in time is missed.

  Proved:
  - `le_iff`: the order of points in time is that of numbers.
  - `sinceEpoch_of_later?`: what comes a span later is that many nanoseconds later.
  - `later?_of_le`: what is over by some point in time is found.
-/

import Strongbox.Time.Instant

namespace Strongbox.Time.Instant

variable {t u now : Instant} {span : Nat}

/-- It is not within a leap second. -/
def IsPlain (t : Instant) : Prop := t.nanos < 1000000000

/-- Nanoseconds since 1970. -/
def sinceEpoch (t : Instant) : Int := t.seconds * 1000000000 + t.nanos

theorem le_iff (ht : t.IsPlain) (hu : u.IsPlain) : t ≤ u ↔ t.sinceEpoch ≤ u.sinceEpoch := by
  show t.seconds < u.seconds ∨ (t.seconds = u.seconds ∧ t.nanos ≤ u.nanos) ↔ _
  simp only [IsPlain, sinceEpoch] at *
  omega

theorem of?_eq_some_iff {seconds : Int} {nanos : Nat} :
    of? seconds nanos = some u ↔ u.seconds = seconds ∧ u.nanos = nanos := by
  unfold of?
  split
  · rw [Option.some.injEq]
    constructor
    · rintro rfl
      exact ⟨rfl, rfl⟩
    · rintro ⟨rfl, rfl⟩
      rfl
  · rename_i hno
    refine iff_of_false (by simp) ?_
    rintro ⟨rfl, rfl⟩
    exact hno ⟨u.inRange, u.fraction⟩

/-- What comes a span later is not within a leap second, and it is that many nanoseconds later. -/
theorem sinceEpoch_of_later? (ht : t.IsPlain) (h : t.later? span = some u) :
    u.IsPlain ∧ u.sinceEpoch = t.sinceEpoch + span * 1000000000 := by
  unfold later? at h
  simp only [IsPlain, sinceEpoch] at ht ⊢
  split at h
  · cases h
  · split at h
    · cases h
      omega
    · obtain ⟨hseconds, hnanos⟩ := of?_eq_some_iff.mp h
      rw [Nat.mod_eq_of_lt ht] at hnanos
      omega

/-- Any span that ends by some point in time can be added, for it is shorter than all of time. -/
theorem later?_of_le (ht : t.IsPlain) (hnow : now.IsPlain) (h : t.sinceEpoch + span * 1000000000 ≤ now.sinceEpoch) :
    ∃ u, t.later? span = some u := by
  have hfirst := t.inRange.1
  have hlast := now.inRange.2
  simp only [IsPlain, sinceEpoch, firstSecond, lastSecond] at *
  unfold later?
  have hshort : ¬ longestSpan < span := by
    rw [longestSpan]
    omega
  rw [if_neg hshort]
  split
  · exact ⟨t, rfl⟩
  · have hrange : firstSecond ≤ t.seconds + span ∧ t.seconds + span ≤ lastSecond := by
      rw [firstSecond, lastSecond]
      omega
    have hfraction : t.nanos % 1000000000 < 1000000000 := Nat.mod_lt _ (by decide)
    exact ⟨⟨t.seconds + span, t.nanos % 1000000000, hrange, .inl hfraction⟩, of?_eq_some_iff.mpr ⟨rfl, rfl⟩⟩

end Strongbox.Time.Instant
