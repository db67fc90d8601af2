/-
  Strongbox.Proofs.Time.Rfc3339 — the text of an instant reads as that instant.

  Each part of the text is read where it was written: a reader of digits stops at its width or
  at the mark that follows, blanks are skipped only where none stand.

  Proved:
  - `ofText?_text`: for every instant, with any year, fraction or leap second.
  - `text_injective`, `textOrEmpty_injective`: so no two instants have one text, and only an unset
    one has none.
-/

import Strongbox.Proofs.Text.Decimal
import Strongbox.Proofs.Time.Calendar
import Strongbox.Time.Rfc3339

namespace Strongbox.Time.Rfc3339

open Strongbox.Text (isBlank trimStart)
open Strongbox.Text.Decimal

/-! ## Digits -/

theorem not_isBlank_of_isDigit {c : Char} (h : isDigit c = true) : isBlank c = false := by
  simp only [isDigit, Bool.and_eq_true, decide_eq_true_eq, Char.le_def, UInt32.le_iff_toNat_le] at h
  have h1 : 48 ≤ c.toNat := h.1
  have h2 : c.toNat ≤ 57 := h.2
  simp only [isBlank, Bool.or_eq_false_iff, Bool.and_eq_false_iff, decide_eq_false_iff_not]
  omega

theorem trimStart_cons {c : Char} {rest : List Char} (h : isBlank c = false) : trimStart (c :: rest) = c :: rest := by
  rw [trimStart, List.dropWhile_cons_of_neg (by simp [h])]

theorem trimStart_digits {found rest : List Char} (hne : found ≠ []) (hd : found.all isDigit = true) :
    trimStart (found ++ rest) = found ++ rest := by
  cases found with
  | nil => exact absurd rfl hne
  | cons c found => exact trimStart_cons (not_isBlank_of_isDigit (List.all_eq_true.mp hd c (by simp)))

/-- What can follow digits: nothing that would go on with them. -/
def EndsDigits (rest : List Char) : Prop := ∀ c tail, rest = c :: tail → isDigit c = false

theorem endsDigits_cons {c : Char} (h : isDigit c = false) (tail : List Char) : EndsDigits (c :: tail) := by
  intro d rest e
  obtain ⟨rfl, rfl⟩ := List.cons.inj e
  exact h

theorem takeWhile_isDigit {rest : List Char} (hr : EndsDigits rest) (n : Nat) : (rest.take n).takeWhile isDigit = [] := by
  cases rest with
  | nil => simp
  | cons c tail =>
    cases n with
    | zero => simp
    | succ n => simp [hr c tail rfl]

theorem digits?_append {most : Nat} {found rest : List Char} (hne : found ≠ []) (hd : found.all isDigit = true)
    (hm : found.length ≤ most) (hr : EndsDigits rest) : digits? most (found ++ rest) = some (found, rest) := by
  have htake : ((found ++ rest).take most).takeWhile isDigit = found := by
    rw [List.take_append, List.take_of_length_le hm, List.takeWhile_append_of_pos (List.all_eq_true.mp hd),
      takeWhile_isDigit hr, List.append_nil]
  rw [digits?, htake, if_neg hne, List.drop_left]

theorem number?_padded {most n : Nat} {rest : List Char} (hm : 0 < most) (hn : n < 10 ^ most) (hr : EndsDigits rest) :
    number? most (padded most n ++ rest) = some (n, rest) := by
  have hne := padded_ne_nil most n
  have hd := all_isDigit_padded most n
  rw [number?, trimStart_digits hne hd, digits?_append hne hd (Nat.le_of_eq (length_padded hm hn)) hr]
  simp [value_padded]

theorem mark?_cons {c : Char} (h : isBlank c = false) (rest : List Char) : mark? c (c :: rest) = some rest := by
  rw [mark?, trimStart_cons h]
  simp

/-! ## Years -/

theorem digits?_padded {rest : List Char} (n : Nat) (hr : EndsDigits rest) :
    digits? (padded 4 n ++ rest).length (padded 4 n ++ rest) = some (padded 4 n, rest) :=
  digits?_append (padded_ne_nil 4 n) (all_isDigit_padded 4 n) (by simp) hr

theorem year?_yearText (year : Int) {rest : List Char} (hr : EndsDigits rest) :
    year? (yearText year ++ rest) = some (year, rest) := by
  unfold yearText
  split
  · rename_i h
    have hne := padded_ne_nil 4 year.toNat
    have hd := all_isDigit_padded 4 year.toNat
    have hl : (padded 4 year.toNat).length = 4 := length_padded (by decide) (by omega)
    have hdigits : digits? 4 (padded 4 year.toNat ++ rest) = some (padded 4 year.toNat, rest) :=
      digits?_append hne hd (by omega) hr
    have hhead : ∀ c tail, padded 4 year.toNat ++ rest = c :: tail → isDigit c = true := by
      intro c tail e
      cases hp : padded 4 year.toNat with
      | nil => exact absurd hp hne
      | cons d ds =>
        rw [hp] at hd e
        rw [← (List.cons.inj e).1]
        exact List.all_eq_true.mp hd d (by simp)
    rw [year?, trimStart_digits hne hd]
    split
    · rename_i e
      exact absurd (hhead _ _ e) (by decide)
    · rename_i e
      exact absurd (hhead _ _ e) (by decide)
    · rw [hdigits]
      simp only [Option.map_some, value_padded, Option.some.injEq, Prod.mk.injEq, and_true]
      omega
  · split
    · rename_i h
      rw [List.cons_append, year?, trimStart_cons (by decide)]
      simp only [digits?_padded _ hr, Option.map_some, value_padded, Option.some.injEq, Prod.mk.injEq, and_true]
      omega
    · rename_i h
      rw [List.cons_append, year?, trimStart_cons (by decide)]
      simp only [digits?_padded _ hr, Option.map_some, value_padded, Option.some.injEq, Prod.mk.injEq, and_true]
      omega

/-! ## Fractions -/

theorem value_padded_zeros (width n zeros : Nat) : value (padded width n ++ List.replicate zeros '0') = n * 10 ^ zeros := by
  rw [value_eq, Nat.ofDigitChars_append, Nat.ofDigitChars_replicate_zero, ← value_eq, value_padded, Nat.mul_comm]

theorem fraction?_dot {width n : Nat} {rest : List Char} (hw : 0 < width) (hw9 : width ≤ 9) (hn : n < 10 ^ width)
    (hr : EndsDigits rest) : fraction? ('.' :: (padded width n ++ rest)) = some (n * 10 ^ (9 - width), rest) := by
  have hl := length_padded hw hn
  have hdrop : rest.dropWhile isDigit = rest := by
    cases rest with
    | nil => rfl
    | cons c tail => simp [hr c tail rfl]
  rw [fraction?, digits?_append (padded_ne_nil width n) (all_isDigit_padded width n) (by omega) hr]
  simp only [Option.map_some, hl, value_padded_zeros, hdrop]

theorem fraction?_fractionText {nanos : Nat} (h : nanos < 1000000000) {c : Char} (tail : List Char)
    (hc : isDigit c = false) (hdot : c ≠ '.') : fraction? (fractionText nanos ++ c :: tail) = some (nanos, c :: tail) := by
  have hr := endsDigits_cons hc tail
  unfold fractionText
  split
  · rename_i h0
    subst h0
    rw [List.nil_append, fraction?]
    intro rest e
    exact absurd (List.cons.inj e).1 hdot
  · split
    · rw [List.cons_append, fraction?_dot (by decide) (by decide) (by omega) hr]
      simp only [Option.some.injEq, Prod.mk.injEq, and_true]
      omega
    · split
      · rw [List.cons_append, fraction?_dot (by decide) (by decide) (by omega) hr]
        simp only [Option.some.injEq, Prod.mk.injEq, and_true]
        omega
      · rw [List.cons_append, fraction?_dot (by decide) (by decide) (by omega) hr]
        simp

/-! ## Instants -/

theorem ofChars?_chars (t : Instant) : ofChars? (chars t) = some t := by
  obtain ⟨seconds, nanos, ⟨hfirst, hlast⟩, hfraction⟩ := t
  have hvalid := isValid_ofDays (seconds / 86400)
  have hdays := toDays_ofDays (seconds / 86400)
  have hyear := @year_ofDays (seconds / 86400) (by simp only [firstSecond] at hfirst; omega)
    (by simp only [lastSecond] at hlast; omega)
  generalize hdate : Date.ofDays (seconds / 86400) = date at *
  have hmonth := Date.two_digits hvalid
  obtain ⟨ofDay, hofDay⟩ : ∃ n : Nat, n = (seconds % 86400).toNat := ⟨_, rfl⟩
  have hsecond : ofDay % 60 + nanos / 1000000000 < 100 := by omega
  simp only [chars, hdate, ← hofDay, List.append_assoc, List.cons_append]
  unfold ofChars?
  rw [year?_yearText _ (endsDigits_cons (by decide) _)]
  dsimp only [Option.bind_eq_bind, Option.bind_some]
  rw [mark?_cons (by decide)]
  dsimp only [Option.bind_some]
  rw [number?_padded (by decide) (by omega) (endsDigits_cons (by decide) _)]
  dsimp only [Option.bind_some]
  rw [mark?_cons (by decide)]
  dsimp only [Option.bind_some]
  rw [number?_padded (by decide) (by omega) (endsDigits_cons (by decide) _)]
  dsimp only [List.head?_cons, List.tail_cons, Option.map_some, Option.bind_some]
  rw [number?_padded (by decide) (by omega) (endsDigits_cons (by decide) _)]
  dsimp only [Option.bind_some]
  rw [mark?_cons (by decide)]
  dsimp only [Option.bind_some]
  rw [number?_padded (by decide) (by omega) (endsDigits_cons (by decide) _)]
  dsimp only [Option.bind_some]
  rw [mark?_cons (by decide)]
  dsimp only [Option.bind_some]
  -- Seconds end at the fraction or, without one, at the offset.
  have hends : EndsDigits (fractionText (nanos % 1000000000) ++ ['Z']) := by
    unfold fractionText
    repeat' split
    all_goals exact endsDigits_cons (by decide) _
  rw [number?_padded (by decide) (by omega) hends]
  dsimp only [Option.bind_some]
  rw [fraction?_fractionText (by omega) [] (by decide) (by decide)]
  have hmark : (guard ('T' = 'T' ∨ 'T' = 't' ∨ 'T' = ' ') : Option Unit) = some () := rfl
  have hoffset : offset? (trimStart ['Z']) = some (0, []) := rfl
  have hend : (guard (trimStart [] = []) : Option Unit) = some () := rfl
  have hrange : (guard (date.isValid && firstYear ≤ date.year && date.year ≤ lastYear) : Option Unit) = some () := by
    refine if_pos ?_
    simp only [hvalid, firstYear, lastYear, hyear, decide_true, Bool.and_self]
  have hclock : (guard (ofDay / 3600 < 24 ∧ ofDay / 60 % 60 < 60 ∧ ofDay % 60 + nanos / 1000000000 ≤ 60 ∧
      (0 : Int).natAbs < 86400) : Option Unit) = some () := if_pos (by omega)
  dsimp only [Option.bind_some]
  rw [hmark, hoffset]
  dsimp only [Option.bind_some]
  rw [hend, hrange, hclock]
  dsimp only [Option.bind_some]
  rw [hdays, Int.sub_zero]
  -- A leap second is written as second 60 of the minute whose second 59 it runs on from.
  have hseconds : seconds / 86400 * 86400 +
      ↑(ofDay / 3600 * 3600 + ofDay / 60 % 60 * 60 + min (ofDay % 60 + nanos / 1000000000) 59) = seconds := by omega
  have hnanos : nanos % 1000000000 + 1000000000 * ((ofDay % 60 + nanos / 1000000000) / 60) = nanos := by omega
  rw [hseconds, hnanos, Instant.of?, dif_pos ⟨⟨hfirst, hlast⟩, hfraction⟩]

theorem ofText?_text (t : Instant) : ofText? (text t) = some t := by
  rw [ofText?, text, String.toList_ofList, ofChars?_chars]

/-! ## One text, one instant -/

theorem text_injective {t u : Instant} (h : text t = text u) : t = u := by
  rw [← Option.some.injEq, ← ofText?_text t, h, ofText?_text]

theorem text_ne_empty (t : Instant) : text t ≠ "" := by
  intro h
  have hread : ofText? "" = some t := by rw [← h, ofText?_text]
  cases hread

theorem textOrEmpty_eq_empty_iff {t : Option Instant} : textOrEmpty t = "" ↔ t = none := by
  cases t with
  | none => simp [textOrEmpty]
  | some t => simp [textOrEmpty, text_ne_empty]

theorem textOrEmpty_injective {t u : Option Instant} (h : textOrEmpty t = textOrEmpty u) : t = u := by
  cases t with
  | none => exact (textOrEmpty_eq_empty_iff.mp h.symm).symm
  | some t =>
    cases u with
    | none => exact absurd h (text_ne_empty t)
    | some u => rw [text_injective h]

end Strongbox.Time.Rfc3339
