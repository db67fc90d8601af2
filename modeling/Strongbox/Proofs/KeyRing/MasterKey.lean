/-
  Strongbox.Proofs.KeyRing.MasterKey — which texts spell a master key, and what the others are refused for.

  A key is spelled by 64 hexadecimal digits of either case with blanks around them; shown again it is
  those digits in lower case. Nothing else is read: the bytes between the blanks are counted first,
  then looked at from the left, and only then is the number of pairs compared.

  Proved:
  - `hexKey_iff_trim`: cutting off the blanks leaves exactly the digits.
  - `ofHex_eq_ok_iff`, `exists_ofHex_iff`, `ofHex_toHex`: what is read, and as which key.
  - `ofHex_eq_error_iff`: what is refused, and for what.
  - `redacted_spells_no_key`: what is shown in place of a key says nothing about it.
  - `ofHex_reads_exactly_hex_keys`: all of it.
-/

import Strongbox.KeyRing.MasterKey
import Strongbox.Proofs.Hex
import Strongbox.Proofs.Text.Pieces

namespace Strongbox.MasterKey

open Hex (IsDigit)
open Text (isBlank trim)

/-- Sixty-four hexadecimal digits with blanks around them. -/
def HexKey (text : String) (digits : List Char) : Prop :=
  (∃ before after : List Char,
    text.toList = before ++ digits ++ after ∧ before.all isBlank = true ∧ after.all isBlank = true) ∧
  digits.length = 64 ∧ ∀ c ∈ digits, IsDigit c

/-- What is wrong with a word that is no key. -/
inductive Refusal (word : String) : Fault → Prop
  | oddLength : word.utf8ByteSize % 2 = 1 → Refusal word (.hex .oddLength)
  /-- The first character that is no digit, by its first byte. -/
  | notDigit {before after : List Char} {c : Char} {byte : UInt8} {more : Bytes} : word.utf8ByteSize % 2 = 0 →
      word.toList = before ++ c :: after → (∀ d ∈ before, IsDigit d) → ¬ IsDigit c →
      String.utf8EncodeChar c = byte :: more → Refusal word (.hex (.notDigit byte before.length))
  | wrongLength {count : Nat} : (∀ c ∈ word.toList, IsDigit c) → word.toList.length = 2 * count → count ≠ 32 →
      Refusal word (.wrongLength count)

variable {text : String} {digits : List Char} {key : MasterKey} {fault : Fault}

/-! ## Blanks -/

theorem not_isBlank_of_isDigit {c : Char} (h : IsDigit c) : isBlank c = false := by
  have hall : ∀ n < 128, IsDigit (Char.ofNat n) → isBlank (Char.ofNat n) = false := by decide +kernel
  have hblank := hall c.toNat h.toNat_lt
  rw [Char.ofNat_toNat] at hblank
  exact hblank h

/-- Cutting off the blanks leaves exactly the digits. -/
theorem hexKey_iff_trim : HexKey text digits ↔ (trim text).toList = digits ∧ digits.length = 64 ∧ ∀ c ∈ digits, IsDigit c := by
  refine and_congr_left fun h => ?_
  have hblank : ∀ c ∈ (String.ofList digits).toList, isBlank c = false := by
    rw [String.toList_ofList]
    exact fun c hc => not_isBlank_of_isDigit (h.2 c hc)
  have hiff : trim text = String.ofList digits ↔ _ := Text.trim_eq_iff hblank
  rw [String.toList_ofList] at hiff
  rw [← hiff]
  constructor
  · intro htrim
    rw [htrim, String.toList_ofList]
  · intro hdigits
    rw [← hdigits, String.ofList_toList]

/-! ## Keys that are read -/

theorem ofBytes_eq_ok_iff {bytes : Bytes} : ofBytes bytes = .ok key ↔ key.key.bytes = bytes := by
  rw [ofBytes]
  constructor
  · intro h
    rw [Block.ofBytes?] at h
    split at h
    · rename_i hlength
      split at hlength <;> cases hlength
      cases h
      rfl
    · cases h
  · rintro rfl
    rw [Block.ofBytes?_bytes]

theorem ofHex_eq_ok_iff_decode : ofHex text = .ok key ↔ Hex.decode (trim text) = .ok key.key.bytes := by
  rw [ofHex]
  cases hread : Hex.decode (trim text) with
  | error f => exact iff_of_false (by rintro ⟨⟩) (by rintro ⟨⟩)
  | ok bytes =>
    rw [ofBytes_eq_ok_iff, Except.ok.injEq]
    exact eq_comm

/-- A text is read as the key that is shown as its digits in lower case. -/
theorem ofHex_eq_ok_iff : ofHex text = .ok key ↔ ∃ digits, HexKey text digits ∧ key.toHex.toList = digits.map Char.toLower := by
  rw [ofHex_eq_ok_iff_decode, Hex.decode_eq_ok_iff]
  constructor
  · intro ⟨hdigits, hlower⟩
    have hlength := congrArg List.length hlower
    rw [Hex.length_encode, key.key.length_eq, List.length_map] at hlength
    exact ⟨_, hexKey_iff_trim.mpr ⟨rfl, hlength.symm, hdigits⟩, hlower⟩
  · intro ⟨digits, hkey, hlower⟩
    obtain ⟨rfl, -, hdigits⟩ := hexKey_iff_trim.mp hkey
    exact ⟨hdigits, hlower⟩

theorem exists_ofHex_iff : (∃ key, ofHex text = .ok key) ↔ ∃ digits, HexKey text digits := by
  constructor
  · intro ⟨key, h⟩
    obtain ⟨digits, hkey, -⟩ := ofHex_eq_ok_iff.mp h
    exact ⟨digits, hkey⟩
  · intro ⟨digits, hkey⟩
    obtain ⟨rfl, hlength, hdigits⟩ := hexKey_iff_trim.mp hkey
    obtain ⟨bytes, hread⟩ := Hex.exists_decode hdigits (by omega)
    have hbytes := congrArg List.length (Hex.decode_eq_ok_iff.mp hread).2
    rw [Hex.length_encode, List.length_map] at hbytes
    exact ⟨⟨⟨bytes, by omega⟩⟩, ofHex_eq_ok_iff_decode.mpr hread⟩

/-- A key that is shown reads back. -/
theorem ofHex_toHex (key : MasterKey) : ofHex key.toHex = .ok key := by
  have htrim : trim key.toHex = key.toHex :=
    (Text.trim_eq_iff fun c hc => not_isBlank_of_isDigit (Hex.isDigit_of_mem_encode hc)).mpr
      ⟨[], [], (List.append_nil _).symm, rfl, rfl⟩
  rw [ofHex_eq_ok_iff_decode, htrim]
  exact Hex.decode_encode _

/-! ## Texts that are refused -/

theorem ofBytes_eq_error_iff {bytes : Bytes} : ofBytes bytes = .error fault ↔ bytes.length ≠ 32 ∧ fault = .wrongLength bytes.length := by
  rw [ofBytes, Block.ofBytes?]
  by_cases hlength : bytes.length = 32
  · rw [dif_pos hlength]
    exact iff_of_false (by rintro ⟨⟩) fun h => h.1 hlength
  · rw [dif_neg hlength, Except.error.injEq, and_iff_right hlength]
    exact eq_comm

/-- What a text is refused for. -/
theorem ofHex_eq_error_iff : ofHex text = .error fault ↔ Refusal (trim text) fault := by
  rw [ofHex]
  constructor
  · intro h
    cases hread : Hex.decode (trim text) with
    | error f =>
      rw [hread] at h
      cases h
      cases f with
      | oddLength => exact .oddLength (Hex.decode_eq_oddLength_iff.mp hread)
      | notDigit byte position =>
        obtain ⟨heven, before, c, after, hword, hbefore, hc, ⟨more, hbyte⟩, rfl⟩ := Hex.decode_eq_notDigit_iff.mp hread
        exact .notDigit heven hword hbefore hc hbyte
    | ok bytes =>
      rw [hread] at h
      obtain ⟨hne, rfl⟩ := ofBytes_eq_error_iff.mp h
      obtain ⟨hdigits, hlower⟩ := Hex.decode_eq_ok_iff.mp hread
      have hlength := congrArg List.length hlower
      rw [Hex.length_encode, List.length_map] at hlength
      exact .wrongLength hdigits hlength.symm hne
  · intro h
    cases h with
    | oddLength hodd => rw [Hex.decode_eq_oddLength_iff.mpr hodd]
    | notDigit heven hword hbefore hc hbyte =>
      rw [Hex.decode_eq_notDigit_iff.mpr ⟨heven, _, _, _, hword, hbefore, hc, ⟨_, hbyte⟩, rfl⟩]
    | wrongLength hdigits hlength hcount =>
      obtain ⟨bytes, hread⟩ := Hex.exists_decode hdigits (by omega)
      have hbytes := congrArg List.length (Hex.decode_eq_ok_iff.mp hread).2
      rw [Hex.length_encode, List.length_map, hlength] at hbytes
      obtain rfl : _ = bytes.length := Nat.eq_of_mul_eq_mul_left Nat.two_pos hbytes.symm
      rw [hread]
      exact ofBytes_eq_error_iff.mpr ⟨hcount, rfl⟩

/-- What is shown in place of a key does not depend on it, and spells none. -/
theorem redacted_spells_no_key (key : MasterKey) :
    (∀ other : MasterKey, key.redacted = other.redacted) ∧ ¬ ∃ digits, HexKey key.redacted digits := by
  refine ⟨fun _ => rfl, fun h => ?_⟩
  obtain ⟨read, hread⟩ := exists_ofHex_iff.mpr h
  have hrefused : ofHex "MasterKey([REDACTED])" = .error (.hex .oddLength) := by decide
  cases hrefused.symm.trans hread

/-- A text is a key exactly if it is 64 hexadecimal digits of either case with blanks around them,
    and the key is shown as those digits in lower case. A key that is shown reads back. Every other
    text is refused as key material, for the first thing that is wrong with it. -/
theorem ofHex_reads_exactly_hex_keys :
    (∀ text key, ofHex text = .ok key ↔ ∃ digits, HexKey text digits ∧ key.toHex.toList = digits.map Char.toLower) ∧
    (∀ text, (∃ key, ofHex text = .ok key) ↔ ∃ digits, HexKey text digits) ∧
    (∀ key, ofHex key.toHex = .ok key) ∧
    (∀ text fault, ofHex text = .error fault ↔ Refusal (trim text) fault) ∧
    ∀ text, (∃ fault reason, ofHex text = .error fault ∧ fault.message = "Invalid key material: " ++ reason) ↔
      ¬ ∃ digits, HexKey text digits := by
  refine ⟨fun _ _ => ofHex_eq_ok_iff, fun _ => exists_ofHex_iff, ofHex_toHex, fun _ _ => ofHex_eq_error_iff, fun text => ?_⟩
  rw [← exists_ofHex_iff]
  cases hread : ofHex text with
  | error fault => exact iff_of_true ⟨fault, _, rfl, rfl⟩ (by rintro ⟨_, ⟨⟩⟩)
  | ok key => exact iff_of_false (by rintro ⟨_, _, ⟨⟩, _⟩) fun h => h ⟨key, rfl⟩

end Strongbox.MasterKey
