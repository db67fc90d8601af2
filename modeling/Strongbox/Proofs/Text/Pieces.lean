/-
  Strongbox.Proofs.Text.Pieces — cutting and joining undo each other; trimming takes blanks only.

  Proved:
  - `join_pieces`: the pieces of a text, joined, are the text.
  - `pieces_join`: texts without the separator, joined, are cut where they were joined.
  - `pieces_append`: two texts with the separator between them are cut as each alone.
  - `trim_eq_iff`: a text is trimmed to a word exactly if it is the word with blanks around it.
-/

import Strongbox.Text.Pieces

namespace Strongbox.Text

/-! ## Lists of characters -/

/-- The pieces with the separator between them, as characters. -/
def glue (separator : Char) : List (List Char) → List Char
  | [] => []
  | [last] => last
  | first :: second :: rest => first ++ separator :: glue separator (second :: rest)

theorem cutAt_ne_nil (separator : Char) (cs : List Char) : cutAt separator cs ≠ [] := by
  cases cs with
  | nil => simp [cutAt]
  | cons c rest =>
    simp only [cutAt]
    split
    · simp
    · split <;> simp

theorem glue_cutAt (separator : Char) (cs : List Char) : glue separator (cutAt separator cs) = cs := by
  induction cs with
  | nil => rfl
  | cons c rest ih =>
    simp only [cutAt]
    split
    · rename_i h
      subst h
      cases hr : cutAt c rest with
      | nil => exact absurd hr (cutAt_ne_nil c rest)
      | cons first others =>
        rw [hr] at ih
        simp [glue, ih]
    · cases hr : cutAt separator rest with
      | nil => exact absurd hr (cutAt_ne_nil separator rest)
      | cons first others =>
        rw [hr] at ih
        cases others with
        | nil => simpa [glue] using ih
        | cons second others => simpa [glue] using ih

/-- A piece ends where a separator stands. -/
theorem cutAt_append_cons (separator : Char) {piece : List Char} (rest : List Char) (h : separator ∉ piece) :
    cutAt separator (piece ++ separator :: rest) = piece :: cutAt separator rest := by
  induction piece with
  | nil => simp [cutAt]
  | cons c piece ih =>
    have hc : c ≠ separator := fun e => h (by simp [e])
    have hp : separator ∉ piece := fun e => h (List.mem_cons_of_mem _ e)
    simp [cutAt, hc, ih hp]

theorem cutAt_of_not_mem (separator : Char) {piece : List Char} (h : separator ∉ piece) :
    cutAt separator piece = [piece] := by
  induction piece with
  | nil => rfl
  | cons c piece ih =>
    have hc : c ≠ separator := fun e => h (by simp [e])
    have hp : separator ∉ piece := fun e => h (List.mem_cons_of_mem _ e)
    simp [cutAt, hc, ih hp]

theorem cutAt_glue (separator : Char) {parts : List (List Char)} (hne : parts ≠ [])
    (h : ∀ part ∈ parts, separator ∉ part) : cutAt separator (glue separator parts) = parts := by
  induction parts with
  | nil => exact absurd rfl hne
  | cons first parts ih =>
    have hf := h first (by simp)
    cases parts with
    | nil => exact cutAt_of_not_mem separator hf
    | cons second rest =>
      rw [glue, cutAt_append_cons separator _ hf, ih (by simp) fun part hp => h part (List.mem_cons_of_mem _ hp)]

/-- Cutting a text that is put together with a separator is cutting its parts. -/
theorem cutAt_append (separator : Char) (a b : List Char) :
    cutAt separator (a ++ separator :: b) = cutAt separator a ++ cutAt separator b := by
  induction a with
  | nil => simp [cutAt]
  | cons c a ih =>
    rw [List.cons_append, cutAt, cutAt]
    by_cases hc : c = separator
    · rw [if_pos hc, if_pos hc, ih, List.cons_append]
    · rw [if_neg hc, if_neg hc, ih]
      cases ha : cutAt separator a with
      | nil => exact absurd ha (cutAt_ne_nil separator a)
      | cons first others => rfl

/-- No piece holds the separator. -/
theorem not_mem_of_mem_cutAt (separator : Char) (cs : List Char) :
    ∀ piece ∈ cutAt separator cs, separator ∉ piece := by
  induction cs with
  | nil => simp [cutAt]
  | cons c rest ih =>
    simp only [cutAt]
    split
    · intro piece hp
      rcases List.mem_cons.mp hp with rfl | hp
      · simp
      · exact ih piece hp
    · rename_i hc
      cases hr : cutAt separator rest with
      | nil => exact absurd hr (cutAt_ne_nil separator rest)
      | cons first others =>
        rw [hr] at ih
        intro piece hp
        rcases List.mem_cons.mp hp with rfl | hp
        · have := ih first (by simp)
          simp only [List.mem_cons, not_or]
          exact ⟨fun e => hc e.symm, this⟩
        · exact ih piece (List.mem_cons_of_mem _ hp)

/-! ## Texts -/

theorem toList_join (separator : Char) (parts : List String) :
    (join (String.singleton separator) parts).toList = glue separator (parts.map String.toList) := by
  induction parts with
  | nil => simp [join, glue]
  | cons first parts ih =>
    cases parts with
    | nil => simp [join, glue]
    | cons second rest =>
      simp only [join, List.map_cons, glue, String.toList_append, String.toList_singleton] at ih ⊢
      rw [ih]
      simp

theorem pieces_ne_nil (separator : Char) (text : String) : pieces separator text ≠ [] := by
  simp [pieces, cutAt_ne_nil]

theorem join_pieces (separator : Char) (text : String) :
    join (String.singleton separator) (pieces separator text) = text := by
  apply String.toList_injective
  rw [toList_join, pieces, List.map_map]
  simp only [Function.comp_def, String.toList_ofList, List.map_id']
  exact glue_cutAt separator text.toList

theorem pieces_join (separator : Char) {parts : List String} (hne : parts ≠ [])
    (h : ∀ part ∈ parts, separator ∉ part.toList) :
    pieces separator (join (String.singleton separator) parts) = parts := by
  rw [pieces, toList_join, cutAt_glue separator (by simpa using hne)]
  · simp [List.map_map, Function.comp_def]
  · intro part hp
    obtain ⟨text, ht, rfl⟩ := List.mem_map.mp hp
    exact h text ht

theorem pieces_of_not_mem (separator : Char) {text : String} (h : separator ∉ text.toList) : pieces separator text = [text] := by
  rw [pieces, cutAt_of_not_mem separator h, List.map_singleton, String.ofList_toList]

/-- No piece holds the separator. -/
theorem not_mem_of_mem_pieces (separator : Char) {text part : String} (h : part ∈ pieces separator text) :
    separator ∉ part.toList := by
  obtain ⟨piece, hpiece, rfl⟩ := List.mem_map.mp h
  rw [String.toList_ofList]
  exact not_mem_of_mem_cutAt separator _ piece hpiece

/-- Two texts with the separator between them are cut as each alone. -/
theorem pieces_append (separator : Char) (a b : String) :
    pieces separator (a ++ String.singleton separator ++ b) = pieces separator a ++ pieces separator b := by
  rw [pieces, String.toList_append, String.toList_append, String.toList_singleton, List.append_assoc, List.singleton_append,
    cutAt_append, List.map_append]
  rfl

/-! ## Blanks -/

theorem trimStart_append {blanks : List Char} (h : blanks.all isBlank = true) (rest : List Char) :
    trimStart (blanks ++ rest) = trimStart rest :=
  List.dropWhile_append_of_pos (List.all_eq_true.mp h)

theorem trimStart_of_not_blank {cs : List Char} (h : ∀ c ∈ cs, isBlank c = false) : trimStart cs = cs := by
  cases cs with
  | nil => rfl
  | cons c cs => exact List.dropWhile_cons_of_neg (by simp [h c (by simp)])

/-- What trimming takes away is blank. -/
theorem toList_eq_trim (text : String) : ∃ before after : List Char,
    text.toList = before ++ (trim text).toList ++ after ∧ before.all isBlank = true ∧ after.all isBlank = true := by
  refine ⟨text.toList.takeWhile isBlank, ((trimStart text.toList).reverse.takeWhile isBlank).reverse, ?_,
    List.all_takeWhile, ?_⟩
  · rw [trim, String.toList_ofList, List.append_assoc, ← List.reverse_append, trimStart, trimStart,
      List.takeWhile_append_dropWhile, List.reverse_reverse, List.takeWhile_append_dropWhile]
  · rw [List.all_reverse]
    exact List.all_takeWhile

theorem trim_eq_iff {text word : String} (h : ∀ c ∈ word.toList, isBlank c = false) :
    trim text = word ↔ ∃ before after : List Char,
      text.toList = before ++ word.toList ++ after ∧ before.all isBlank = true ∧ after.all isBlank = true := by
  constructor
  · rintro rfl
    exact toList_eq_trim text
  · rintro ⟨before, after, htext, hbefore, hafter⟩
    rw [← String.ofList_toList (s := word), trim, htext, List.append_assoc, trimStart_append hbefore]
    congr 1
    cases hword : word.toList with
    | nil =>
      rw [List.nil_append, ← List.append_nil after, trimStart_append hafter]
      rfl
    | cons c cs =>
      rw [hword] at h
      have hfront : trimStart (c :: cs ++ after) = c :: cs ++ after :=
        List.dropWhile_cons_of_neg (by simp [h c (by simp)])
      rw [hfront, List.reverse_append, trimStart_append (by rwa [List.all_reverse]),
        trimStart_of_not_blank fun d hd => h d (List.mem_reverse.mp hd), List.reverse_reverse]

end Strongbox.Text
