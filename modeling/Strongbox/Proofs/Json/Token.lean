/-
  Strongbox.Proofs.Json.Token — spelled strings and numbers are read back.

  Proved:
  - `scanString?_spellText`: a spelled text ends at the quote that closes it.
  - `readText?_spellText`: a spelled text reads as the text.
  - `scanNumber?_spellNat`, `readNat?_spellNat`: the same of natural numbers.
-/

import Strongbox.Json.Token
import Strongbox.Proofs.Bytes
import Strongbox.Proofs.Text.Decimal

namespace Strongbox.Json

open Strongbox.Text

/-! ## Strings -/

theorem hexValue?_hexDigit : ∀ n < 16, hexValue? (hexDigit n) = some n := by decide

theorem unit?_hexDigit : ∀ n < 32, unit? 48 48 (hexDigit (n / 16)) (hexDigit (n % 16)) = some n := by decide

theorem utf8OfCode_ascii {n : Nat} (h : n < 128) : utf8OfCode n = [UInt8.ofNat n] := by
  have hn : (Char.ofNat n).toNat = n := by
    rw [Char.ofNat, dif_pos (Or.inl (by omega))]
    rfl
  rw [utf8OfCode, String.singleton_eq_ofList, Bytes.utf8_ascii]
  · simp [hn]
  · intro c hc
    rw [List.mem_singleton.mp hc, hn]
    exact h

/-- A byte is spelled as itself, after a backslash, or as a control escape. -/
theorem spellByte_cases (b : UInt8) :
    (spellByte b = [b] ∧ b ≠ quote ∧ b ≠ backslash ∧ ¬ b < 32) ∨
    (∃ letter, spellByte b = [backslash, letter] ∧ letter ≠ 117 ∧ escapeValue? letter = some b) ∨
    (spellByte b = [backslash, 117, 48, 48, hexDigit (b.toNat / 16), hexDigit (b.toNat % 16)] ∧ b < 32) := by
  unfold spellByte
  split
  · rename_i h
    right; left
    refine ⟨b, rfl, ?_, ?_⟩ <;> rcases h with rfl | rfl <;> decide
  · rename_i hq
    rw [not_or] at hq
    repeat' split
    · rename_i h; subst h; exact Or.inr (Or.inl ⟨98, rfl, by decide, rfl⟩)
    · rename_i h; subst h; exact Or.inr (Or.inl ⟨116, rfl, by decide, rfl⟩)
    · rename_i h; subst h; exact Or.inr (Or.inl ⟨110, rfl, by decide, rfl⟩)
    · rename_i h; subst h; exact Or.inr (Or.inl ⟨102, rfl, by decide, rfl⟩)
    · rename_i h; subst h; exact Or.inr (Or.inl ⟨114, rfl, by decide, rfl⟩)
    · exact Or.inr (Or.inr ⟨rfl, ‹_›⟩)
    · exact Or.inl ⟨rfl, hq.1, hq.2, ‹_›⟩

theorem scanString?_spellByte (b : UInt8) (rest : Bytes) :
    scanString? (spellByte b ++ rest) = (scanString? rest).map fun (found, rest) => (spellByte b ++ found, rest) := by
  rcases spellByte_cases b with ⟨h, hq, hs, hc⟩ | ⟨letter, h, hu, he⟩ | ⟨h, hc⟩
  · rw [h, List.singleton_append, scanString?.eq_def]
    simp only [if_neg hq, if_neg hc, if_neg hs]
    rfl
  · rw [h, List.cons_append, List.singleton_append, scanString?, if_neg (by decide), if_neg (by decide), if_pos rfl]
    · simp only [he]
      rfl
    · intro h1 h2 h3 h4 tail e
      exact absurd e hu
  · have hb : b.toNat < 32 := UInt8.lt_iff_toNat_lt.mp hc
    rw [h]
    simp only [List.cons_append, List.nil_append]
    rw [scanString?.eq_def]
    simp only [if_neg (show backslash ≠ quote by decide), if_neg (show ¬ backslash < 32 by decide)]
    simp only [hexValue?_hexDigit (b.toNat / 16) (by omega), hexValue?_hexDigit (b.toNat % 16) (by omega)]
    rfl

theorem scanString?_spelled (bytes rest : Bytes) :
    scanString? (bytes.flatMap spellByte ++ quote :: rest) = some (bytes.flatMap spellByte, rest) := by
  induction bytes with
  | nil =>
    rw [List.flatMap_nil, List.nil_append, scanString?.eq_def]
    simp only [if_true]
  | cons b bytes ih => rw [List.flatMap_cons, List.append_assoc, scanString?_spellByte, ih, Option.map_some]

theorem scanString?_spellText (text : String) (rest : Bytes) :
    scanString? (spellText text ++ quote :: rest) = some (spellText text, rest) :=
  scanString?_spelled (Bytes.utf8 text) rest

theorem unescape?_spellByte (b : UInt8) (rest : Bytes) :
    unescape? (spellByte b ++ rest) = (unescape? rest).map (b :: ·) := by
  rcases spellByte_cases b with ⟨h, _, hs, _⟩ | ⟨letter, h, hu, he⟩ | ⟨h, hc⟩
  · rw [h, List.singleton_append, unescape?]
    · intro h1 h2 h3 h4 tail e
      exact absurd e hs
    · intro letter tail e
      exact absurd e hs
  · rw [h, List.cons_append, List.singleton_append]
    unfold backslash
    rw [unescape?, he]
    intro h1 h2 h3 h4 tail e
    exact absurd e hu
  · have hb : b.toNat < 32 := UInt8.lt_iff_toNat_lt.mp hc
    rw [h]
    simp only [List.cons_append, List.nil_append]
    unfold backslash
    rw [unescape?, unit?_hexDigit b.toNat hb]
    simp only
    rw [if_pos (Or.inl (by omega)), utf8OfCode_ascii (by omega), UInt8.ofNat_toNat]
    rfl

theorem unescape?_spelled (bytes : Bytes) : unescape? (bytes.flatMap spellByte) = some bytes := by
  induction bytes with
  | nil => rfl
  | cons b bytes ih => rw [List.flatMap_cons, unescape?_spellByte, ih, Option.map_some]

@[simp] theorem readText?_spellText (text : String) : readText? (spellText text) = some text := by
  rw [readText?, spellText, unescape?_spelled, Option.bind_some, Bytes.text?_utf8]

/-! ## Numbers -/

theorem toNat_lt_of_isDigit {c : Char} (h : Decimal.isDigit c = true) : 48 ≤ c.toNat ∧ c.toNat ≤ 57 := by
  simp only [Decimal.isDigit, Bool.and_eq_true, decide_eq_true_eq, Char.le_def, UInt32.le_iff_toNat_le] at h
  exact h

theorem spellNat_eq (n : Nat) : spellNat n = (Decimal.digits n).map fun c => UInt8.ofNat c.toNat := by
  refine Bytes.utf8_ascii ?_
  intro c hc
  have := toNat_lt_of_isDigit (List.all_eq_true.mp (Decimal.all_isDigit_digits n) c hc)
  omega

theorem isDigitByte_ofNat {n : Nat} (h : 48 ≤ n ∧ n ≤ 57) : isDigitByte (UInt8.ofNat n) = true := by
  have hn : (UInt8.ofNat n).toNat = n := by simp; omega
  simp only [isDigitByte, Bool.and_eq_true, decide_eq_true_eq, UInt8.le_iff_toNat_le, hn]
  exact h

theorem all_isDigitByte_spellNat (n : Nat) : (spellNat n).all isDigitByte = true := by
  rw [spellNat_eq, List.all_map, List.all_eq_true]
  intro c hc
  exact isDigitByte_ofNat (toNat_lt_of_isDigit (List.all_eq_true.mp (Decimal.all_isDigit_digits n) c hc))

theorem spellNat_ne_nil (n : Nat) : spellNat n ≠ [] := by
  rw [spellNat_eq]
  simpa using Decimal.digits_ne_nil n

@[simp] theorem readNat?_spellNat (n : Nat) : readNat? (spellNat n) = some n := by
  have hb : (spellNat n).map (fun b => Char.ofNat b.toNat) = Decimal.digits n := by
    rw [spellNat_eq, List.map_map]
    conv => rhs; rw [← List.map_id (Decimal.digits n)]
    refine List.map_congr_left ?_
    intro c hc
    have := toNat_lt_of_isDigit (List.all_eq_true.mp (Decimal.all_isDigit_digits n) c hc)
    have hc : (UInt8.ofNat c.toNat).toNat = c.toNat := by simp; omega
    simp only [Function.comp_apply, hc, Char.ofNat_toNat, id_eq]
  rw [readNat?, if_pos (all_isDigitByte_spellNat n), hb, Decimal.canonical?_digits]

/-- What can follow a number: nothing that would go on with it. -/
def EndsNumber (rest : Bytes) : Prop :=
  ∀ b tail, rest = b :: tail → isDigitByte b = false ∧ b ≠ 46 ∧ b ≠ 101 ∧ b ≠ 69

theorem scanDigits?_append {found rest : Bytes} (hne : found ≠ []) (hd : found.all isDigitByte = true)
    (hr : ∀ b tail, rest = b :: tail → isDigitByte b = false) : scanDigits? (found ++ rest) = some (found, rest) := by
  have htake : (found ++ rest).takeWhile isDigitByte = found := by
    rw [List.takeWhile_append_of_pos (List.all_eq_true.mp hd)]
    cases rest with
    | nil => simp
    | cons b tail => simp [hr b tail rfl]
  have hdrop : (found ++ rest).dropWhile isDigitByte = rest := by
    rw [List.dropWhile_append_of_pos (List.all_eq_true.mp hd)]
    cases rest with
    | nil => rfl
    | cons b tail => simp [hr b tail rfl]
  rw [scanDigits?, htake, hdrop, if_neg hne]

/-- A number without a leading zero is scanned to its end. -/
theorem scanInteger?_spellNat (n : Nat) {rest : Bytes} (hr : EndsNumber rest) :
    scanInteger? (spellNat n ++ rest) = some (spellNat n, rest) := by
  have hdigits := scanDigits?_append (spellNat_ne_nil n) (all_isDigitByte_spellNat n) fun b tail e => (hr b tail e).1
  rcases Nat.eq_zero_or_pos n with rfl | hn
  · have h0 : spellNat 0 = [48] := by decide +kernel
    rw [h0]
    cases rest with
    | nil => rfl
    | cons b tail => simp [scanInteger?, (hr b tail rfl).1]
  · have hhead : ∀ tail, spellNat n ++ rest ≠ 48 :: tail := by
      intro tail e
      cases hs : Decimal.digits n with
      | nil => exact Decimal.digits_ne_nil n hs
      | cons c cs =>
        rw [spellNat_eq, hs] at e
        have hc := toNat_lt_of_isDigit (List.all_eq_true.mp (Decimal.all_isDigit_digits n) c (by simp [hs]))
        have h48 := congrArg UInt8.toNat (List.cons.inj e).1
        have hcn : c.toNat = 48 := by
          simp at h48
          omega
        have : c = '0' := by rw [← Char.ofNat_toNat c, hcn]
        exact Decimal.head_digits n hn (by simp [hs, this])
    unfold scanInteger?
    split
    · rename_i tail e
      exact absurd e (hhead tail)
    · exact hdigits

theorem scanNumber?_spellNat (n : Nat) {rest : Bytes} (hr : EndsNumber rest) :
    scanNumber? (spellNat n ++ rest) = some (spellNat n, rest) := by
  have hfraction : scanFraction? rest = some ([], rest) := by
    unfold scanFraction?
    split
    · rename_i tail
      exact absurd rfl (hr 46 tail rfl).2.1
    · rfl
  have hexponent : scanExponent? rest = some ([], rest) := by
    unfold scanExponent?
    split
    · rename_i tail
      exact absurd rfl (hr 101 tail rfl).2.2.1
    · rename_i tail
      exact absurd rfl (hr 69 tail rfl).2.2.2
    · rfl
  have hunsigned : scanUnsigned? (spellNat n ++ rest) = some (spellNat n, rest) := by
    rw [scanUnsigned?, scanInteger?_spellNat n hr]
    simp [hfraction, hexponent]
  unfold scanNumber?
  split
  · rename_i tail e
    exfalso
    have hall := all_isDigitByte_spellNat n
    cases hs : spellNat n with
    | nil => exact spellNat_ne_nil n hs
    | cons b bs =>
      rw [hs, List.cons_append] at e
      rw [hs, (List.cons.inj e).1] at hall
      simp [isDigitByte] at hall
  · exact hunsigned

end Strongbox.Json
