/-
  Strongbox.Proofs.Text.Decimal — decimal digits name one number.

  Proved:
  - `canonical?_digits`: the strict reader gives back the number that was written.
  - `value_padded`, `length_padded`: zeros in front change neither the value nor, up to the
    width, the length.
  - `text_injective`: two numbers are never written alike.
  - `digits_append_cons_inj`: digits up to a first character that is none can be told from what follows.
  - `word64?_eq_some_iff`, `word32?_eq_some_iff`: a word is the word of its number.
  - `unsigned?_eq_some_iff`: which texts the reader with an optional plus sign takes.
-/

import Mathlib.Algebra.Group.Nat.Defs
import Strongbox.Text.Decimal

namespace Strongbox.Text.Decimal

/-! ## Digits -/

theorem digits_ne_nil (n : Nat) : digits n ≠ [] := Nat.toDigits_ne_nil

theorem isDigit_eq (c : Char) : isDigit c = c.isDigit := by
  simp only [isDigit, Char.isDigit, Char.le_def]

theorem all_isDigit_digits (n : Nat) : (digits n).all isDigit = true := by
  refine List.all_eq_true.mpr ?_
  intro c hc
  rw [isDigit_eq]
  exact Nat.isDigit_of_mem_toDigits (by decide) (by decide) hc

theorem all_isDigit_padded (width n : Nat) : (padded width n).all isDigit = true := by
  simp only [padded, List.all_append, all_isDigit_digits, Bool.and_true, List.all_replicate]
  split
  · rfl
  · decide

theorem padded_ne_nil (width n : Nat) : padded width n ≠ [] := by
  intro h
  exact digits_ne_nil n (List.append_eq_nil_iff.mp h).2

/-! ## Values -/

theorem value_eq (cs : List Char) : value cs = Nat.ofDigitChars 10 cs 0 := rfl

theorem value_digits (n : Nat) : value (digits n) = n := by
  rw [value_eq]
  exact Nat.ofDigitChars_ten_toDigits

theorem value_padded (width n : Nat) : value (padded width n) = n := by
  rw [value_eq, padded, Nat.ofDigitChars_append, Nat.ofDigitChars_replicate_zero, Nat.mul_zero,
    ← value_eq, value_digits]

theorem length_padded {width n : Nat} (hw : 0 < width) (h : n < 10 ^ width) :
    (padded width n).length = width := by
  have := (Nat.length_toDigits_le_iff (b := 10) (by decide) hw).mpr h
  simp only [padded, digits, List.length_append, List.length_replicate]
  omega

/-! ## Readers -/

theorem natural?_digits (n : Nat) : natural? (digits n) = some n := by
  rw [natural?, if_pos ⟨digits_ne_nil n, all_isDigit_digits n⟩, value_digits]

theorem natural?_eq_some_iff {cs : List Char} {n : Nat} :
    natural? cs = some n ↔ cs ≠ [] ∧ cs.all isDigit = true ∧ value cs = n := by
  unfold natural?
  split
  · rename_i h
    simp [h]
  · rename_i h
    simp only [reduceCtorEq, false_iff]
    rintro ⟨hne, hdigits, -⟩
    exact h ⟨hne, hdigits⟩

theorem unsigned?_eq_some_iff {cs : List Char} {n : Nat} :
    unsigned? cs = some n ↔ ∃ sign ds : List Char, cs = sign ++ ds ∧ (sign = [] ∨ sign = ['+']) ∧
      ds ≠ [] ∧ ds.all isDigit = true ∧ value ds = n := by
  unfold unsigned?
  split
  · rename_i rest
    rw [natural?_eq_some_iff]
    constructor
    · intro h
      exact ⟨['+'], rest, rfl, .inr rfl, h⟩
    · rintro ⟨sign, ds, hcs, rfl | rfl, h⟩
      · -- A plus sign is no digit.
        rw [List.nil_append] at hcs
        subst hcs
        exact absurd (List.all_eq_true.mp h.2.1 '+' (by simp)) (by decide)
      · cases hcs
        exact h
  · rename_i hplus
    rw [natural?_eq_some_iff]
    constructor
    · intro h
      exact ⟨[], cs, rfl, .inl rfl, h⟩
    · rintro ⟨sign, ds, rfl, rfl | rfl, h⟩
      · exact h
      · exact absurd rfl (hplus ds)

/-- Only zero starts with a zero. -/
theorem head_digits (n : Nat) (h : 0 < n) : (digits n).head? ≠ some '0' := by
  induction n using Nat.strongRecOn with
  | ind n ih =>
    rw [digits, Nat.toDigits_eq_if (by decide)]
    split
    · simp only [List.head?_cons, ne_eq, Option.some.injEq, Nat.digitChar_eq_zero]
      omega
    · have hq := ih (n / 10) (by omega) (by omega)
      rwa [List.head?_append, Option.or_of_isSome (by simp)]

theorem canonical?_digits (n : Nat) : canonical? (digits n) = some n := by
  unfold canonical?
  split
  · rename_i c rest h
    rcases Nat.eq_zero_or_pos n with rfl | hn
    · simp [digits] at h
    · exact absurd (by simp [h]) (head_digits n hn)
  · exact natural?_digits n

theorem text_injective {a b : Nat} (h : text a = text b) : a = b := by
  have hd : digits a = digits b := by simpa [text] using congrArg String.toList h
  rw [← value_digits a, hd, value_digits]

/-- Two texts that start with digits and go on with something else agree only part by part. -/
theorem digits_append_cons_inj {a b : Nat} {c d : Char} {s t : List Char} (hc : isDigit c = false)
    (hd : isDigit d = false) (h : digits a ++ c :: s = digits b ++ d :: t) : a = b ∧ c = d ∧ s = t := by
  have hfront : ∀ (n : Nat) {e : Char} (u : List Char), isDigit e = false →
      (digits n ++ e :: u).takeWhile isDigit = digits n := by
    intro n e u he
    rw [List.takeWhile_append_of_pos (List.all_eq_true.mp (all_isDigit_digits n)),
      List.takeWhile_cons_of_neg (by simp [he]), List.append_nil]
  have hdigits : digits a = digits b := by rw [← hfront a s hc, h, hfront b t hd]
  rw [hdigits, List.append_cancel_left_eq, List.cons.injEq] at h
  refine ⟨?_, h.1, h.2⟩
  rw [← value_digits a, hdigits, value_digits]

/-! ## Words -/

theorem word64?_toNat (w : UInt64) : word64? w.toNat = some w := by
  rw [word64?, if_pos w.toNat_lt_size, UInt64.ofNat_toNat]

theorem word64?_eq_some_iff {n : Nat} {w : UInt64} : word64? n = some w ↔ w.toNat = n := by
  constructor
  · intro h
    unfold word64? at h
    split at h
    · cases h
      exact UInt64.toNat_ofNat_of_lt' ‹_›
    · cases h
  · rintro rfl
    exact word64?_toNat w

theorem word32?_toNat (w : UInt32) : word32? w.toNat = some w := by
  rw [word32?, if_pos w.toNat_lt_size, UInt32.ofNat_toNat]

theorem word32?_eq_some_iff {n : Nat} {w : UInt32} : word32? n = some w ↔ w.toNat = n := by
  constructor
  · intro h
    unfold word32? at h
    split at h
    · cases h
      exact UInt32.toNat_ofNat_of_lt' ‹_›
    · cases h
  · rintro rfl
    exact word32?_toNat w

end Strongbox.Text.Decimal
