/-
  Strongbox.Proofs.Base64 — both spellings of bytes are read back.

  Proved:
  - `decodePadded?_encode`: what is shown in the common alphabet, padded, reads as the same bytes.
  - `decode?_encode`: what is written in the URL alphabet reads as the same bytes.
  - `encode_chars`: only letters, digits, `-` and `_` are written, so no path separator.
-/

import Strongbox.Base64

namespace Strongbox.Base64

/-! ## Six-bit values -/

theorem sextets_lt (bytes : Bytes) : ∀ n ∈ sextets bytes, n < 64 := by
  fun_induction sextets bytes with
  | case1 => simp
  | case2 a =>
    have := a.toNat_lt
    simp only [List.mem_cons, List.not_mem_nil, or_false]
    rintro n (rfl | rfl) <;> omega
  | case3 a b =>
    have := a.toNat_lt
    have := b.toNat_lt
    simp only [List.mem_cons, List.not_mem_nil, or_false]
    rintro n (rfl | rfl | rfl) <;> omega
  | case4 a b c rest ih =>
    have := a.toNat_lt
    have := b.toNat_lt
    have := c.toNat_lt
    simp only [List.mem_cons]
    rintro n (rfl | rfl | rfl | rfl | hn)
    · omega
    · omega
    · omega
    · omega
    · exact ih n hn

theorem length_sextets (bytes : Bytes) : (sextets bytes).length = (4 * bytes.length + 2) / 3 := by
  fun_induction sextets bytes with
  | case1 => rfl
  | case2 => simp
  | case3 => simp
  | case4 a b c rest ih =>
    simp only [List.length_cons, ih]
    omega

theorem ofSextets?_sextets (bytes : Bytes) : ofSextets? (sextets bytes) = some bytes := by
  have whole (b : UInt8) : UInt8.ofNat b.toNat = b := UInt8.ofNat_toNat
  fun_induction sextets bytes with
  | case1 => rfl
  | case2 a =>
    have := a.toNat_lt
    rw [ofSextets?, if_pos (by omega), show a.toNat / 4 * 4 + a.toNat % 4 * 16 / 16 = a.toNat by omega, whole]
  | case3 a b =>
    have := a.toNat_lt
    have := b.toNat_lt
    rw [ofSextets?, if_pos (by omega),
      show a.toNat / 4 * 4 + (a.toNat % 4 * 16 + b.toNat / 16) / 16 = a.toNat by omega,
      show (a.toNat % 4 * 16 + b.toNat / 16) % 16 * 16 + b.toNat % 16 * 4 / 4 = b.toNat by omega, whole, whole]
  | case4 a b c rest ih =>
    have := a.toNat_lt
    have := b.toNat_lt
    have := c.toNat_lt
    rw [ofSextets?, ih, Option.map_some,
      show a.toNat / 4 * 4 + (a.toNat % 4 * 16 + b.toNat / 16) / 16 = a.toNat by omega,
      show (a.toNat % 4 * 16 + b.toNat / 16) % 16 * 16 + (b.toNat % 16 * 4 + c.toNat / 64) / 4 = b.toNat by omega,
      show (b.toNat % 16 * 4 + c.toNat / 64) % 4 * 64 + c.toNat % 64 = c.toNat by omega, whole, whole, whole]

/-! ## Both alphabets -/

namespace Spelling

/-- Reads a padded spelling: the digits are followed by the padding that their number asks for. -/
def decodePadded? (s : Spelling) (text : String) : Option Bytes :=
  let digits := text.toList.takeWhile (· ≠ '=')
  if text.toList = digits ++ List.replicate ((4 - digits.length % 4) % 4) '=' then
    (digits.mapM s.value?).bind ofSextets?
  else none

/-- Every digit has the value it is written for. -/
def Reads (s : Spelling) : Prop := ∀ n < 64, s.value? (s.digit n) = some n

theorem Reads.mapM {s : Spelling} (hs : s.Reads) {values : List Nat} (h : ∀ n ∈ values, n < 64) :
    (values.map s.digit).mapM s.value? = some values := by
  induction values with
  | nil => rfl
  | cons n values ih =>
    rw [List.map_cons, List.mapM_cons, hs n (h n (by simp)), ih fun m hm => h m (List.mem_cons_of_mem _ hm)]
    rfl

end Spelling

theorem reads_url : url.Reads := by unfold Spelling.Reads; decide

theorem reads_common : common.Reads := by unfold Spelling.Reads; decide

/-! ## The common alphabet -/

theorem common_digit_ne : ∀ n < 64, common.digit n ≠ '=' := by decide

/-- What is shown in the common alphabet reads back, with the padding it has. -/
theorem decodePadded?_encode (bytes : Bytes) : common.decodePadded? (common.encode bytes) = some bytes := by
  have hlist : (common.encode bytes).toList = (sextets bytes).map common.digit ++
      List.replicate ((4 - ((sextets bytes).map common.digit).length % 4) % 4) '=' := String.toList_ofList
  have hdigits : (common.encode bytes).toList.takeWhile (· ≠ '=') = (sextets bytes).map common.digit := by
    rw [hlist, List.takeWhile_append_of_pos]
    · rw [List.takeWhile_replicate, if_neg (by decide), List.append_nil]
    · intro c hc
      obtain ⟨n, hn, rfl⟩ := List.mem_map.mp hc
      exact decide_eq_true (common_digit_ne n (sextets_lt bytes n hn))
  unfold Spelling.decodePadded?
  rw [hdigits, if_pos hlist, reads_common.mapM (sextets_lt bytes), Option.bind_some, ofSextets?_sextets]

/-! ## The URL alphabet -/

theorem digit_chars : ∀ n < 64, (url.digit n).isAlphanum || url.digit n = '-' || url.digit n = '_' := by decide

theorem toList_encode (bytes : Bytes) : (url.encode bytes).toList = (sextets bytes).map url.digit := by
  simp [Spelling.encode, url]

theorem decode?_encode (bytes : Bytes) : url.decode? (url.encode bytes) = some bytes := by
  rw [Spelling.decode?, toList_encode, reads_url.mapM (sextets_lt bytes), Option.bind_some, ofSextets?_sextets]

theorem encode_chars (bytes : Bytes) :
    ∀ c ∈ (url.encode bytes).toList, c.isAlphanum || c = '-' || c = '_' := by
  intro c hc
  rw [toList_encode] at hc
  obtain ⟨n, hn, rfl⟩ := List.mem_map.mp hc
  exact digit_chars n (sextets_lt bytes n hn)

theorem encode_ne_empty {bytes : Bytes} (h : bytes ≠ []) : url.encode bytes ≠ "" := by
  intro he
  have hd := decode?_encode bytes
  rw [he] at hd
  exact h (Option.some.inj hd).symm

end Strongbox.Base64
