/-
  Strongbox.Proofs.Bytes — the UTF-8 form of ASCII characters, and the order of UTF-8 forms.

  Proved:
  - `utf8_ascii`: characters below 128 are one byte each, their number.
  - `utf8_lt`: a text before another has the lesser bytes.
-/

import Strongbox.Bytes

namespace Strongbox.Bytes

theorem utf8_ofList (cs : List Char) : utf8 (String.ofList cs) = cs.flatMap String.utf8EncodeChar := by
  simp [utf8, String.toByteArray_ofList, List.utf8Encode]

theorem length_utf8 (text : String) : (utf8 text).length = text.utf8ByteSize := by simp [utf8]

theorem utf8EncodeChar_ascii {c : Char} (h : c.toNat < 128) : String.utf8EncodeChar c = [UInt8.ofNat c.toNat] := by
  have hv : c.val ≤ 0x7f := by
    rw [UInt32.le_iff_toNat_le]
    have : c.val.toNat < 128 := h
    simp; omega
  rw [String.utf8EncodeChar_eq_singleton]
  · rfl
  · simp [Char.utf8Size, hv]

theorem utf8_ascii {cs : List Char} (h : ∀ c ∈ cs, c.toNat < 128) :
    utf8 (String.ofList cs) = cs.map fun c => UInt8.ofNat c.toNat := by
  rw [utf8_ofList]
  induction cs with
  | nil => rfl
  | cons c cs ih =>
    rw [List.flatMap_cons, utf8EncodeChar_ascii (h c (by simp)), ih fun d hd => h d (List.mem_cons_of_mem _ hd)]
    rfl

theorem toNat_ofNat_toNat (b : UInt8) : (Char.ofNat b.toNat).toNat = b.toNat := by
  have hlt := b.toNat_lt
  rw [Char.ofNat, dif_pos (.inl (by omega))]
  rfl

/-- Bytes below 128 are the characters with their numbers. -/
theorem toList_of_ascii {text : String} (h : ∀ b ∈ utf8 text, b.toNat < 128) :
    text.toList = (utf8 text).map fun b => Char.ofNat b.toNat := by
  have hsame : utf8 (String.ofList ((utf8 text).map fun b => Char.ofNat b.toNat)) = utf8 text := by
    rw [utf8_ascii, List.map_map]
    · refine (List.map_congr_left fun b _ => ?_).trans (List.map_id _)
      show UInt8.ofNat (Char.ofNat b.toNat).toNat = b
      rw [toNat_ofNat_toNat, UInt8.ofNat_toNat]
    · intro c hc
      obtain ⟨b, hb, rfl⟩ := List.mem_map.mp hc
      rw [toNat_ofNat_toNat]
      exact h b hb
  rw [← utf8_injective hsame, String.toList_ofList, utf8_injective hsame]

/-! ## Order -/

/-- Bytes are ordered by the first number in which they differ. -/
theorem ofNat_cons_lt {a b : Nat} (hb : b < 256) (hab : a ≤ b) {tail tail' : Bytes} (htail : a = b → tail < tail') :
    UInt8.ofNat a :: tail < UInt8.ofNat b :: tail' := by
  rcases Nat.lt_or_eq_of_le hab with hab | rfl
  · refine List.cons_lt_cons_iff.mpr (.inl ?_)
    rw [UInt8.lt_iff_toNat_lt, UInt8.toNat_ofNat', UInt8.toNat_ofNat']
    omega
  · exact List.cons_lt_cons_iff.mpr (.inr ⟨rfl, htail rfl⟩)

theorem toNat_val_lt (c : Char) : c.val.toNat < 0x110000 := by
  rcases c.valid with h | ⟨_, h⟩
  · exact Nat.lt_trans h (by decide)
  · exact h

/-- The bytes of a lesser character are less, whatever follows: the first byte grows with the
    number of bytes, and the bytes are the digits of the character, highest first. -/
theorem utf8EncodeChar_lt {c d : Char} (h : c < d) (more more' : Bytes) :
    String.utf8EncodeChar c ++ more < String.utf8EncodeChar d ++ more' := by
  have hlt : c.val.toNat < d.val.toNat := h
  have hc := toNat_val_lt c
  have hd := toNat_val_lt d
  simp only [String.utf8EncodeChar]
  generalize c.val.toNat = n at hlt hc
  generalize d.val.toNat = k at hlt hd
  by_cases h1 : k ≤ 127
  · rw [if_pos h1, if_pos (by omega)]
    exact ofNat_cons_lt (by omega) (by omega) (by omega)
  · rw [if_neg h1]
    by_cases h2 : k ≤ 2047
    · rw [if_pos h2]
      split
      · exact ofNat_cons_lt (by omega) (by omega) (by omega)
      · rw [if_pos (by omega)]
        exact ofNat_cons_lt (by omega) (by omega) fun _ => ofNat_cons_lt (by omega) (by omega) (by omega)
    · rw [if_neg h2]
      by_cases h3 : k ≤ 65535
      · rw [if_pos h3]
        split
        · exact ofNat_cons_lt (by omega) (by omega) (by omega)
        · split
          · exact ofNat_cons_lt (by omega) (by omega) (by omega)
          · rw [if_pos (by omega)]
            refine ofNat_cons_lt (by omega) (by omega) fun _ => ofNat_cons_lt (by omega) (by omega) fun _ => ?_
            exact ofNat_cons_lt (by omega) (by omega) (by omega)
      · rw [if_neg h3]
        split
        · exact ofNat_cons_lt (by omega) (by omega) (by omega)
        · split
          · exact ofNat_cons_lt (by omega) (by omega) (by omega)
          · split
            · exact ofNat_cons_lt (by omega) (by omega) (by omega)
            · refine ofNat_cons_lt (by omega) (by omega) fun _ => ofNat_cons_lt (by omega) (by omega) fun _ => ?_
              exact ofNat_cons_lt (by omega) (by omega) fun _ => ofNat_cons_lt (by omega) (by omega) (by omega)

/-- A character that is not ASCII starts with a byte from 127 on. -/
theorem exists_utf8EncodeChar_cons {c : Char} (h : 128 ≤ c.toNat) :
    ∃ first more, String.utf8EncodeChar c = first :: more ∧ 127 ≤ first.toNat := by
  have hlt : ('\x7f' : Char) < c := Nat.lt_of_lt_of_le (by decide) h
  have hbytes := utf8EncodeChar_lt hlt [] []
  cases hc : String.utf8EncodeChar c with
  | nil => exact absurd hc (by simp)
  | cons first more =>
    refine ⟨first, more, rfl, ?_⟩
    rw [hc, utf8EncodeChar_ascii (by decide)] at hbytes
    rcases List.cons_lt_cons_iff.mp hbytes with hfirst | ⟨hfirst, -⟩
    · exact Nat.le_of_lt (UInt8.lt_iff_toNat_lt.mp hfirst)
    · rw [← hfirst]
      decide

/-- A text before another has the lesser bytes. -/
theorem utf8_lt {a b : String} (h : a < b) : utf8 a < utf8 b := by
  rw [← String.ofList_toList (s := a), ← String.ofList_toList (s := b), utf8_ofList, utf8_ofList]
  replace h : a.toList < b.toList := h
  generalize a.toList = cs at h
  generalize b.toList = ds at h
  induction cs generalizing ds with
  | nil =>
    cases ds with
    | nil => cases h
    | cons d ds =>
      have hlt : String.utf8EncodeChar d ≠ [] := by simp
      rw [List.flatMap_cons]
      cases he : String.utf8EncodeChar d with
      | nil => exact absurd he hlt
      | cons b bs => exact List.nil_lt_cons _ _
  | cons c cs ih =>
    cases ds with
    | nil => cases h
    | cons d ds =>
      rw [List.flatMap_cons, List.flatMap_cons]
      rcases List.cons_lt_cons_iff.mp h with hcd | ⟨rfl, hrest⟩
      · exact utf8EncodeChar_lt hcd _ _
      · exact List.append_left_lt (ih _ hrest)

end Strongbox.Bytes
