/-
  Strongbox.Proofs.Time.Calendar — days and dates name each other.

  A day of the 400-year cycle splits into centuries, four-year groups, years and days of the
  year; the leap day is the last day of a year that ends a four-year group, and of a century
  only if the century ends the cycle (`cycle_parts`).

  Proved:
  - `toDays_ofDays`: the date of a day has that day's number.
  - `isValid_ofDays`: it is a date of the calendar.
  - `year_ofDays`: the days that instants can lie on have years from -262143 to 262142.
-/

import Strongbox.Time.Calendar

namespace Strongbox.Time

/-! ## Parts of a cycle -/

/-- Where a day of the cycle lies: century, four-year group, year and day of the year. -/
theorem cycle_parts {n : Nat} (h : n < 146097) :
    let centuries := min (n / 36524) 3
    let inCentury := n - 36524 * centuries
    let quads := inCentury / 1461
    let inQuad := inCentury % 1461
    let years := min (inQuad / 365) 3
    let inYear := inQuad - 365 * years
    centuries ≤ 3 ∧ quads ≤ 24 ∧ years ≤ 3 ∧ inYear ≤ 365 ∧
      n = 36524 * centuries + 1461 * quads + 365 * years + inYear ∧
      (inYear = 365 → years = 3 ∧ (quads = 24 → centuries = 3)) := by
  intro centuries inCentury quads inQuad years inYear
  refine ⟨by omega, by omega, by omega, by omega, by omega, fun hi => ⟨by omega, by omega⟩⟩

/-- The months from March on have the lengths that plain division gives them. -/
theorem month_parts {inYear : Nat} (h : inYear ≤ 365) :
    let month := (5 * inYear + 2) / 153
    month ≤ 11 ∧ daysBeforeMonth month ≤ inYear := by
  intro month
  simp only [daysBeforeMonth]
  omega

theorem daysBeforeYear_parts (cycles : Int) {centuries quads years : Nat} (hc : centuries ≤ 3) (hq : quads ≤ 24)
    (hy : years ≤ 3) :
    daysBeforeYear (400 * cycles + 100 * centuries + 4 * quads + years) =
      146097 * cycles + 36524 * centuries + 1461 * quads + 365 * years := by
  simp only [daysBeforeYear]
  omega

/-- The parts that the date of a day is made of. -/
theorem ofDays_parts (days : Int) :
    ∃ (cycles : Int) (centuries quads years inYear : Nat),
      centuries ≤ 3 ∧ quads ≤ 24 ∧ years ≤ 3 ∧ inYear ≤ 365 ∧
      days + marchEra = 146097 * cycles + 36524 * centuries + 1461 * quads + 365 * years + inYear ∧
      (inYear = 365 → years = 3 ∧ (quads = 24 → centuries = 3)) ∧
      Date.ofDays days =
        let month := (5 * inYear + 2) / 153
        let day := inYear - daysBeforeMonth month + 1
        let year := 400 * cycles + 100 * centuries + 4 * quads + years
        if month < 10 then ⟨year, month + 3, day⟩ else ⟨year + 1, month - 9, day⟩ := by
  have hn : ((days + marchEra) % 146097).toNat < 146097 := by omega
  obtain ⟨h1, h2, h3, h4, h5, h6⟩ := cycle_parts hn
  exact ⟨(days + marchEra) / 146097, _, _, _, _, h1, h2, h3, h4, by omega, h6, rfl⟩

/-! ## Dates of days -/

theorem toDays_ofDays (days : Int) : (Date.ofDays days).toDays = days := by
  obtain ⟨cycles, centuries, quads, years, inYear, hc, hq, hy, hi, hd, -, he⟩ := ofDays_parts days
  obtain ⟨hm, hb⟩ := month_parts hi
  have hyear := daysBeforeYear_parts cycles hc hq hy
  rw [he]
  generalize (5 * inYear + 2) / 153 = month at *
  simp only
  split
  · have h1 : ¬ month + 3 ≤ 2 := by omega
    simp only [Date.toDays, h1, if_false, Nat.add_sub_cancel, hyear]
    omega
  · have h1 : month - 9 ≤ 2 := by omega
    have h2 : month - 9 + 9 = month := by omega
    simp only [Date.toDays, h1, if_true, h2, Int.add_sub_cancel, hyear]
    omega

/-- Days of the year counted from March, month by month, up to the last of February. -/
theorem day_le_daysInMonth : ∀ inYear < 366,
    let month := (5 * inYear + 2) / 153
    let day := inYear - daysBeforeMonth month + 1
    (month < 10 → ∀ year, day ≤ daysInMonth year (month + 3)) ∧
      (¬ month < 10 → month = 10 ∧ day ≤ 31 ∨ month = 11 ∧ (day ≤ 28 ∨ inYear = 365 ∧ day ≤ 29)) := by
  intro inYear h month day
  have hm : month = (5 * inYear + 2) / 153 := rfl
  have hday : day = inYear - (153 * month + 2) / 5 + 1 := rfl
  refine ⟨fun hlt year => ?_, fun hge => by omega⟩
  have hcases : month = 0 ∨ month = 1 ∨ month = 2 ∨ month = 3 ∨ month = 4 ∨ month = 5 ∨ month = 6 ∨ month = 7 ∨
      month = 8 ∨ month = 9 := by omega
  rcases hcases with h | h | h | h | h | h | h | h | h | h <;> rw [h] <;> simp only [daysInMonth] <;> omega

theorem daysInMonth_le (year : Int) (month : Nat) : daysInMonth year month ≤ 31 := by
  unfold daysInMonth
  repeat' split
  all_goals omega

/-- The month and the day of a date are written with two digits. -/
theorem Date.two_digits {d : Date} (h : d.isValid = true) : d.month < 100 ∧ d.day < 100 := by
  simp only [Date.isValid, Bool.and_eq_true, decide_eq_true_eq] at h
  have hlast := daysInMonth_le d.year d.month
  omega

theorem isValid_ofDays (days : Int) : (Date.ofDays days).isValid = true := by
  obtain ⟨cycles, centuries, quads, years, inYear, hc, hq, hy, hi, -, hleap, he⟩ := ofDays_parts days
  obtain ⟨hspring, hwinter⟩ := day_le_daysInMonth inYear (by omega)
  rw [he]
  simp only [Date.isValid, Bool.and_eq_true, decide_eq_true_eq]
  split
  · rename_i hlt
    refine ⟨⟨⟨?_, ?_⟩, ?_⟩, hspring hlt _⟩ <;> simp only <;> omega
  · rename_i hge
    rcases hwinter hge with ⟨hm, hd⟩ | ⟨hm, hd⟩
    · simp only [hm] at hd ⊢
      exact ⟨⟨⟨by omega, by omega⟩, by omega⟩, hd⟩
    · simp only [hm] at hd ⊢
      refine ⟨⟨⟨by omega, by omega⟩, by omega⟩, ?_⟩
      simp only [daysInMonth]
      rcases hd with hd | ⟨h365, hd⟩
      · split <;> omega
      · obtain ⟨h3, h24⟩ := hleap h365
        have : isLeapYear (400 * cycles + 100 * centuries + 4 * quads + years + 1) = true := by
          simp only [isLeapYear, Bool.and_eq_true, Bool.or_eq_true, decide_eq_true_eq]
          omega
        rw [if_pos this]
        exact hd

theorem year_ofDays {days : Int} (h1 : -96465292 ≤ days) (h2 : days ≤ 95026236) :
    -262143 ≤ (Date.ofDays days).year ∧ (Date.ofDays days).year ≤ 262142 := by
  obtain ⟨cycles, centuries, quads, years, inYear, hc, hq, hy, hi, hd, -, he⟩ := ofDays_parts days
  rw [he]
  simp only [marchEra] at hd
  simp only
  split
  · constructor <;> simp only <;> omega
  · rename_i hge
    simp only
    have h306 : 306 ≤ inYear := by omega
    refine ⟨by omega, ?_⟩
    -- The last year is reached within cycle 655, century 1, group 10; January lies past its end.
    by_cases hlast : 262142 ≤ 400 * cycles + 100 * centuries + 4 * quads + years
    · have : cycles = 655 := by omega
      have : centuries = 1 := by omega
      have : quads = 10 := by omega
      omega
    · omega

end Strongbox.Time
