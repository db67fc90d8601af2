/-
  Strongbox.Proofs.Time.Span — the text of a span names one span.

  A span is written as one, two or three numbers, each up to the letter of its unit, and what is
  left out is zero. So the first letter tells which parts are written, and each number is read up
  to its letter.

  Proved:
  - `spanText_injective`: no two spans of whole seconds have one text.
-/

import Strongbox.Proofs.Text.Decimal
import Strongbox.Time.Span

namespace Strongbox.Time

open Strongbox.Text
open Strongbox.Text.Decimal (digits digits_append_cons_inj)

/-- The characters of a span, by the greatest unit that is written. -/
theorem spanText_cases (n : Nat) :
    (0 < n / 3600 ∧ (spanText n).toList =
      digits (n / 3600) ++ 'h' :: (digits (n / 60 % 60) ++ 'm' :: (digits (n % 60) ++ 's' :: []))) ∨
    (n / 3600 = 0 ∧ 0 < n / 60 % 60 ∧
      (spanText n).toList = digits (n / 60 % 60) ++ 'm' :: (digits (n % 60) ++ 's' :: [])) ∨
    (n / 3600 = 0 ∧ n / 60 % 60 = 0 ∧ (spanText n).toList = digits (n % 60) ++ 's' :: []) := by
  simp only [spanText, Decimal.text]
  by_cases hours : 0 < n / 3600
  · exact .inl ⟨hours, by simp [hours]⟩
  · by_cases minutes : 0 < n / 60 % 60
    · exact .inr (.inl ⟨by omega, minutes, by simp [hours, minutes]⟩)
    · exact .inr (.inr ⟨by omega, by omega, by simp [hours, minutes]⟩)

theorem spanText_injective {a b : Nat} (h : spanText a = spanText b) : a = b := by
  have hchars := congrArg String.toList h
  rcases spanText_cases a with ⟨_, ha⟩ | ⟨ha0, _, ha⟩ | ⟨ha0, ha1, ha⟩ <;>
    rcases spanText_cases b with ⟨_, hb⟩ | ⟨hb0, _, hb⟩ | ⟨hb0, hb1, hb⟩ <;>
    rw [ha, hb] at hchars <;> obtain ⟨h1, hunit, hrest⟩ := digits_append_cons_inj (by decide) (by decide) hchars
  -- The units differ unless both spans are written with the same parts.
  all_goals try exact absurd hunit (by decide)
  · obtain ⟨h2, -, hrest⟩ := digits_append_cons_inj (by decide) (by decide) hrest
    obtain ⟨h3, -, -⟩ := digits_append_cons_inj (by decide) (by decide) hrest
    omega
  · obtain ⟨h2, -, -⟩ := digits_append_cons_inj (by decide) (by decide) hrest
    omega
  · omega

end Strongbox.Time
