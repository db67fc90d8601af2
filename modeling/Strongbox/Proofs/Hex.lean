/-
  Strongbox.Proofs.Hex — reading hexadecimal digits accepts exactly what writing produces, in either case.

  Reading goes by bytes, and only ASCII bytes are digits, so what is read is digit characters. The two
  halves of a byte are written as two digits and read back; a digit of either case has the value of
  the digit that is written for it in lower case.

  Proved:
  - `decode_encode`: what is written reads back.
  - `decode_eq_ok_iff`: what is read is what is written once the digits are in lower case.
  - `exists_decode_iff`: a text is read exactly if it is an even number of digits.
  - `decode_eq_oddLength_iff`, `decode_eq_notDigit_iff`: which texts are refused, and for what.
-/

import Mathlib.Data.List.Basic
import Strongbox.Hex
import Strongbox.Proofs.Bytes

namespace Strongbox.Hex

/-- A hexadecimal digit of either case. -/
def IsDigit (c : Char) : Prop :=
  ('0' ≤ c ∧ c ≤ '9') ∨ ('a' ≤ c ∧ c ≤ 'f') ∨ ('A' ≤ c ∧ c ≤ 'F')

instance : DecidablePred IsDigit := fun c => by unfold IsDigit; infer_instance

/-! ## One digit -/

theorem IsDigit.toNat_lt {c : Char} (h : IsDigit c) : c.toNat < 128 := by
  have hle (d : Char) (hd : d.toNat < 128) (hcd : c ≤ d) : c.toNat < 128 := Nat.lt_of_le_of_lt hcd hd
  rcases h with h | h | h
  · exact hle '9' (by decide) h.2
  · exact hle 'f' (by decide) h.2
  · exact hle 'F' (by decide) h.2

/-- What a byte is worth as a digit: less than sixteen, and written as the lower case of that digit. -/
theorem value?_spec {byte value : UInt8} (h : value? byte = some value) :
    value.toNat < 16 ∧ IsDigit (Char.ofNat byte.toNat) ∧ digit value.toNat = (Char.ofNat byte.toNat).toLower := by
  have hall : ∀ n < 256, ∀ value ∈ value? (UInt8.ofNat n), value.toNat < 16 ∧ IsDigit (Char.ofNat n) ∧
      digit value.toNat = (Char.ofNat n).toLower := by decide +kernel
  refine hall byte.toNat byte.toNat_lt value ?_
  rw [UInt8.ofNat_toNat]
  exact h

/-- The greatest digit is the small f. -/
theorem value?_lt {byte value : UInt8} (h : value? byte = some value) : byte.toNat < 127 := by
  have hall : ∀ n < 256, (value? (UInt8.ofNat n)).isSome = true → n < 127 := by decide +kernel
  refine hall byte.toNat byte.toNat_lt ?_
  rw [UInt8.ofNat_toNat, h]
  rfl

theorem value?_of_isDigit {c : Char} (h : IsDigit c) : ∃ value, value? (UInt8.ofNat c.toNat) = some value := by
  have hall : ∀ n < 128, IsDigit (Char.ofNat n) → (value? (UInt8.ofNat n)).isSome = true := by decide +kernel
  refine Option.isSome_iff_exists.mp (hall c.toNat h.toNat_lt ?_)
  rwa [Char.ofNat_toNat]

/-- A digit that is written reads back. -/
theorem value?_digit {n : Nat} (h : n < 16) : value? (UInt8.ofNat (digit n).toNat) = some (UInt8.ofNat n) := by
  have hall : ∀ n < 16, value? (UInt8.ofNat (digit n).toNat) = some (UInt8.ofNat n) := by decide
  exact hall n h

theorem isDigit_digit {n : Nat} (h : n < 16) : IsDigit (digit n) := by
  have hall : ∀ n < 16, IsDigit (digit n) := by decide
  exact hall n h

/-- Two halves side by side are the byte with these halves. -/
theorem toNat_halves {high low : UInt8} (hhigh : high.toNat < 16) (hlow : low.toNat < 16) :
    (high <<< 4 ||| low).toNat = 16 * high.toNat + low.toNat := by
  have hall : ∀ h < 16, ∀ l < 16, (UInt8.ofNat h <<< 4 ||| UInt8.ofNat l).toNat = 16 * h + l := by decide +kernel
  have := hall _ hhigh _ hlow
  rwa [UInt8.ofNat_toNat, UInt8.ofNat_toNat] at this

theorem halves_toNat (byte : UInt8) : UInt8.ofNat (byte.toNat / 16) <<< 4 ||| UInt8.ofNat (byte.toNat % 16) = byte := by
  have hlt := byte.toNat_lt
  apply UInt8.toNat_inj.mp
  rw [toNat_halves] <;> simp only [UInt8.toNat_ofNat'] <;> omega

/-! ## Pairs of digits -/

/-- The two digits of a byte, the high half first. -/
def digits (bytes : Bytes) : List Char := bytes.flatMap fun b => [digit (b.toNat / 16), digit (b.toNat % 16)]

theorem toList_encode (bytes : Bytes) : (encode bytes).toList = digits bytes := String.toList_ofList

theorem length_encode (bytes : Bytes) : (encode bytes).toList.length = 2 * bytes.length := by
  rw [toList_encode, digits]
  induction bytes with
  | nil => rfl
  | cons b bytes ih =>
    rw [List.flatMap_cons, List.length_append, ih]
    simp only [List.length_cons, List.length_nil]
    omega

theorem isDigit_of_mem_encode {bytes : Bytes} {c : Char} (h : c ∈ (encode bytes).toList) : IsDigit c := by
  rw [toList_encode, digits, List.mem_flatMap] at h
  obtain ⟨b, _, hb⟩ := h
  have hlt := b.toNat_lt
  rcases List.mem_cons.mp hb with rfl | hb
  · exact isDigit_digit (by omega)
  · exact List.mem_singleton.mp hb ▸ isDigit_digit (by omega)

theorem decodePairs_digits (position : Nat) (bytes : Bytes) :
    decodePairs position ((digits bytes).map fun c => UInt8.ofNat c.toNat) = .ok bytes := by
  induction bytes generalizing position with
  | nil => rfl
  | cons b bytes ih =>
    have hlt := b.toNat_lt
    show decodePairs position (UInt8.ofNat (digit (b.toNat / 16)).toNat :: UInt8.ofNat (digit (b.toNat % 16)).toNat ::
      (digits bytes).map fun c => UInt8.ofNat c.toNat) = .ok (b :: bytes)
    rw [decodePairs, value?_digit (by omega), value?_digit (by omega)]
    show (decodePairs (position + 2) _).map _ = _
    rw [ih, halves_toNat]
    rfl

/-- The bytes that are read are written as the digits in lower case. -/
theorem digits_of_decodePairs {position : Nat} {given bytes : Bytes} (h : decodePairs position given = .ok bytes) :
    (∀ b ∈ given, IsDigit (Char.ofNat b.toNat)) ∧ digits bytes = given.map fun b => (Char.ofNat b.toNat).toLower := by
  fun_induction decodePairs position given generalizing bytes with
  | case1 =>
    cases h
    exact ⟨fun b hb => absurd hb List.not_mem_nil, rfl⟩
  | case2 => cases h
  | case3 => cases h
  | case4 => cases h
  | case5 position high low rest hv lv hlow hhigh ih =>
    cases hmore : decodePairs (position + 2) rest with
    | error fault =>
      rw [hmore] at h
      cases h
    | ok more =>
      rw [hmore] at h
      cases h
      obtain ⟨hall, hdigits⟩ := ih hmore
      obtain ⟨hhigh16, hhighDigit, hhighLower⟩ := value?_spec hhigh
      obtain ⟨hlow16, hlowDigit, hlowLower⟩ := value?_spec hlow
      refine ⟨List.forall_mem_cons.mpr ⟨hhighDigit, List.forall_mem_cons.mpr ⟨hlowDigit, hall⟩⟩, ?_⟩
      have hbyte := toNat_halves hhigh16 hlow16
      show digit ((hv <<< 4 ||| lv).toNat / 16) :: digit ((hv <<< 4 ||| lv).toNat % 16) :: digits more = _ :: _ :: _
      rw [show (hv <<< 4 ||| lv).toNat / 16 = hv.toNat by omega, show (hv <<< 4 ||| lv).toNat % 16 = lv.toNat by omega,
        hhighLower, hlowLower, hdigits]

/-- Digits that come in pairs are read. -/
theorem exists_decodePairs {position : Nat} {given : Bytes} (heven : given.length % 2 = 0)
    (h : ∀ b ∈ given, ∃ value, value? b = some value) : ∃ bytes, decodePairs position given = .ok bytes := by
  fun_induction decodePairs position given with
  | case1 => exact ⟨[], rfl⟩
  | case2 => cases heven
  | case3 position high low rest hnone =>
    obtain ⟨value, hvalue⟩ := h high (by simp)
    rw [hnone] at hvalue
    cases hvalue
  | case4 position high low rest hv hnone hhigh =>
    obtain ⟨value, hvalue⟩ := h low (by simp)
    rw [hnone] at hvalue
    cases hvalue
  | case5 position high low rest hv lv hlow hhigh ih =>
    simp only [List.length_cons] at heven
    obtain ⟨more, hmore⟩ := ih (by omega) fun b hb => h b (by simp [hb])
    exact ⟨_, by rw [hmore]; rfl⟩

/-- The first byte that is no digit is reported with its position. -/
theorem decodePairs_notDigit (position : Nat) (before after : Bytes) {byte : UInt8}
    (heven : (before ++ byte :: after).length % 2 = 0) (hbefore : ∀ b ∈ before, ∃ value, value? b = some value)
    (hbyte : value? byte = none) :
    decodePairs position (before ++ byte :: after) = .error (.notDigit byte (position + before.length)) := by
  match before with
  | [] =>
    match after with
    | [] => cases heven
    | low :: after =>
      show decodePairs position (byte :: low :: after) = _
      rw [decodePairs, hbyte]
      rfl
  | [high] =>
    obtain ⟨value, hvalue⟩ := hbefore high (by simp)
    show decodePairs position (high :: byte :: after) = _
    rw [decodePairs, hvalue, hbyte]
    rfl
  | high :: low :: before =>
    obtain ⟨h, hh⟩ := hbefore high (by simp)
    obtain ⟨l, hl⟩ := hbefore low (by simp)
    simp only [List.cons_append, List.length_cons] at heven
    have ih := decodePairs_notDigit (position + 2) before after (by omega) (fun b hb => hbefore b (by simp [hb])) hbyte
    show decodePairs position (high :: low :: (before ++ byte :: after)) = _
    rw [decodePairs, hh, hl]
    show (decodePairs (position + 2) _).map _ = _
    rw [ih]
    simp only [Except.map, List.length_cons]
    congr 2
    omega

/-! ## Texts -/

theorem decode_encode (bytes : Bytes) : decode (encode bytes) = .ok bytes := by
  have hutf8 : Bytes.utf8 (encode bytes) = (digits bytes).map fun c => UInt8.ofNat c.toNat :=
    Bytes.utf8_ascii fun c hc => (isDigit_of_mem_encode (by rwa [toList_encode])).toNat_lt
  have hlength := length_encode bytes
  rw [toList_encode] at hlength
  rw [decode, hutf8, List.length_map, hlength, if_neg (by omega), decodePairs_digits]

/-- A text of digits has one byte for each. -/
theorem utf8_of_isDigit {text : String} (h : ∀ c ∈ text.toList, IsDigit c) :
    Bytes.utf8 text = text.toList.map fun c => UInt8.ofNat c.toNat := by
  have := Bytes.utf8_ascii fun c hc => (h c hc).toNat_lt
  rwa [String.ofList_toList] at this

theorem exists_decode {text : String} (hdigits : ∀ c ∈ text.toList, IsDigit c) (heven : text.toList.length % 2 = 0) :
    ∃ bytes, decode text = .ok bytes := by
  rw [decode, utf8_of_isDigit hdigits, List.length_map, if_neg (by omega)]
  refine exists_decodePairs (by rwa [List.length_map]) ?_
  intro b hb
  obtain ⟨c, hc, rfl⟩ := List.mem_map.mp hb
  exact value?_of_isDigit (hdigits c hc)

theorem spells_of_decode {text : String} {bytes : Bytes} (h : decode text = .ok bytes) :
    (∀ c ∈ text.toList, IsDigit c) ∧ (encode bytes).toList = text.toList.map Char.toLower := by
  rw [decode] at h
  split at h
  · cases h
  · obtain ⟨hdigits, hlower⟩ := digits_of_decodePairs h
    have htext : text.toList = (Bytes.utf8 text).map fun b => Char.ofNat b.toNat := by
      refine Bytes.toList_of_ascii ?_
      intro b hb
      have hlt := (hdigits b hb).toNat_lt
      rwa [Bytes.toNat_ofNat_toNat] at hlt
    rw [toList_encode, hlower, htext, List.map_map]
    refine ⟨?_, rfl⟩
    intro c hc
    obtain ⟨b, hb, rfl⟩ := List.mem_map.mp hc
    exact hdigits b hb

/-- The bytes that are read are those written as the text in lower case. -/
theorem decode_eq_ok_iff {text : String} {bytes : Bytes} :
    decode text = .ok bytes ↔ (∀ c ∈ text.toList, IsDigit c) ∧ (encode bytes).toList = text.toList.map Char.toLower := by
  constructor
  · exact spells_of_decode
  · intro ⟨hdigits, hlower⟩
    have hlength := congrArg List.length hlower
    rw [length_encode, List.length_map] at hlength
    obtain ⟨others, hothers⟩ := exists_decode hdigits (by omega)
    have hsame : encode others = encode bytes := String.toList_injective ((spells_of_decode hothers).2.trans hlower.symm)
    have hread := decode_encode others
    rw [hsame, decode_encode] at hread
    rw [hothers, hread]

/-- A text is read exactly if it is an even number of digits. -/
theorem exists_decode_iff {text : String} :
    (∃ bytes, decode text = .ok bytes) ↔ (∀ c ∈ text.toList, IsDigit c) ∧ text.toList.length % 2 = 0 := by
  constructor
  · intro ⟨bytes, h⟩
    obtain ⟨hdigits, hlower⟩ := spells_of_decode h
    have hlength := congrArg List.length hlower
    rw [length_encode, List.length_map] at hlength
    exact ⟨hdigits, by omega⟩
  · intro ⟨hdigits, heven⟩
    exact exists_decode hdigits heven

/-- A character that is no digit starts with a byte that is none. -/
theorem exists_first_byte {c : Char} (h : ¬ IsDigit c) :
    ∃ first more, String.utf8EncodeChar c = first :: more ∧ value? first = none := by
  by_cases hascii : c.toNat < 128
  · refine ⟨_, [], Bytes.utf8EncodeChar_ascii hascii, Option.eq_none_iff_forall_not_mem.mpr ?_⟩
    intro value hvalue
    obtain ⟨-, hdigit, -⟩ := value?_spec hvalue
    rw [UInt8.toNat_ofNat', Nat.mod_eq_of_lt (by omega), Char.ofNat_toNat] at hdigit
    exact h hdigit
  · obtain ⟨first, more, heq, hle⟩ := Bytes.exists_utf8EncodeChar_cons (show 128 ≤ c.toNat by omega)
    refine ⟨first, more, heq, Option.eq_none_iff_forall_not_mem.mpr ?_⟩
    intro value hvalue
    exact absurd (value?_lt hvalue) (by omega)

/-- What a text is refused for whose digits stop at some character. -/
theorem decode_of_not_digit {text : String} {before after : List Char} {c : Char} (heven : text.utf8ByteSize % 2 = 0)
    (htext : text.toList = before ++ c :: after) (hbefore : ∀ d ∈ before, IsDigit d) (hc : ¬ IsDigit c) :
    ∃ first more, String.utf8EncodeChar c = first :: more ∧ decode text = .error (.notDigit first before.length) := by
  obtain ⟨first, more, hfirst, hnone⟩ := exists_first_byte hc
  refine ⟨first, more, hfirst, ?_⟩
  have hutf8 : Bytes.utf8 text = (before.map fun d => UInt8.ofNat d.toNat) ++ first :: (more ++ after.flatMap String.utf8EncodeChar) := by
    rw [← String.ofList_toList (s := text), htext, Bytes.utf8_ofList, List.flatMap_append, List.flatMap_cons, hfirst,
      ← Bytes.utf8_ofList, Bytes.utf8_ascii fun d hd => (hbefore d hd).toNat_lt, List.cons_append]
  have hlength := Bytes.length_utf8 text
  rw [decode, hlength, if_neg (by omega), hutf8, decodePairs_notDigit, List.length_map, Nat.zero_add]
  · rw [← hutf8, hlength]
    exact heven
  · intro b hb
    obtain ⟨d, hd, rfl⟩ := List.mem_map.mp hb
    exact value?_of_isDigit (hbefore d hd)
  · exact hnone

/-- A text that is not read has an odd number of bytes or a first character that is no digit. -/
theorem exists_not_digit {text : String} (h : ∀ bytes, decode text ≠ .ok bytes) (heven : text.utf8ByteSize % 2 = 0) :
    ∃ before c after, text.toList = before ++ c :: after ∧ (∀ d ∈ before, IsDigit d) ∧ ¬ IsDigit c := by
  cases hfind : text.toList.find? fun c => !decide (IsDigit c) with
  | none =>
    have hdigits : ∀ c ∈ text.toList, IsDigit c := fun c hc => by simpa using List.find?_eq_none.mp hfind c hc
    have hlength := congrArg List.length (utf8_of_isDigit hdigits)
    rw [Bytes.length_utf8, List.length_map] at hlength
    obtain ⟨bytes, hbytes⟩ := exists_decode hdigits (by omega)
    exact absurd hbytes (h bytes)
  | some c =>
    obtain ⟨hc, before, after, htext, hbefore⟩ := List.find?_eq_some_iff_append.mp hfind
    exact ⟨before, c, after, htext, fun d hd => by simpa using hbefore d hd, by simpa using hc⟩

/-- An odd number of bytes is refused before the digits are looked at. -/
theorem decode_eq_oddLength_iff {text : String} : decode text = .error .oddLength ↔ text.utf8ByteSize % 2 = 1 := by
  constructor
  · intro h
    by_contra hodd
    have heven : text.utf8ByteSize % 2 = 0 := by omega
    obtain ⟨before, c, after, htext, hbefore, hc⟩ := exists_not_digit (fun bytes hok => by rw [h] at hok; cases hok) heven
    obtain ⟨first, more, -, hread⟩ := decode_of_not_digit heven htext hbefore hc
    rw [h] at hread
    cases hread
  · intro hodd
    rw [decode, Bytes.length_utf8, if_pos hodd]

/-- A text of an even number of bytes that are not all digits is refused for the first that is none. -/
theorem decode_eq_notDigit_iff {text : String} {byte : UInt8} {position : Nat} :
    decode text = .error (.notDigit byte position) ↔ text.utf8ByteSize % 2 = 0 ∧
      ∃ before c after, text.toList = before ++ c :: after ∧ (∀ d ∈ before, IsDigit d) ∧ ¬ IsDigit c ∧
        (∃ more, String.utf8EncodeChar c = byte :: more) ∧ position = before.length := by
  constructor
  · intro h
    have heven : text.utf8ByteSize % 2 = 0 := by
      by_contra hodd
      rw [decode_eq_oddLength_iff.mpr (by omega)] at h
      cases h
    obtain ⟨before, c, after, htext, hbefore, hc⟩ := exists_not_digit (fun bytes hok => by rw [h] at hok; cases hok) heven
    obtain ⟨first, more, hfirst, hread⟩ := decode_of_not_digit heven htext hbefore hc
    rw [h] at hread
    cases hread
    exact ⟨heven, before, c, after, htext, hbefore, hc, ⟨more, hfirst⟩, rfl⟩
  · intro ⟨heven, before, c, after, htext, hbefore, hc, ⟨more, hbyte⟩, hposition⟩
    obtain ⟨first, others, hfirst, hread⟩ := decode_of_not_digit heven htext hbefore hc
    rw [hbyte] at hfirst
    cases hfirst
    rw [hread, hposition]

end Strongbox.Hex
