/-
  Strongbox.Proofs.Json.Reader — values are read back, with or without space between their parts.

  A value is plain if its strings are spelled texts and its numbers spelled natural numbers, as
  in everything that is stored or shown. A number needs something after it that ends it, so the
  statement about reading a value is about the value and what follows it.

  A layout says which blanks stand after what opens or separates, before what closes, and after a
  colon; both forms in which values are written are layouts.

  Proved:
  - `readValue?_laid`: a plain value is read to its end in every layout, whatever ends it.
  - `ofBytes?_compact`, `ofBytes?_indented`: a plain value is what either of its forms reads as.
-/

import Strongbox.Json.Reader
import Strongbox.Proofs.Json.Token

namespace Strongbox.Json

mutual

/-- Strings are spelled texts and numbers spelled natural numbers. -/
def Plain : Json → Prop
  | .null => True
  | .bool _ => True
  | .number spelled => ∃ n, spelled = spellNat n
  | .string spelled => ∃ text, spelled = spellText text
  | .array items => PlainItems items
  | .object members => PlainMembers members

def PlainItems : List Json → Prop
  | [] => True
  | item :: rest => Plain item ∧ PlainItems rest

def PlainMembers : List (Bytes × Json) → Prop
  | [] => True
  | (name, value) :: rest => (∃ text, name = spellText text) ∧ Plain value ∧ PlainMembers rest

end

/-! ## First bytes -/

/-- A byte that starts a value: no space, and nothing that closes or separates. -/
def StartsValue (s : Bytes) : Prop := ∃ b tail, s = b :: tail ∧ isSpace b = false ∧ b ≠ 93 ∧ b ≠ 125 ∧ b ≠ 44

theorem skipSpace_of_cons {b : UInt8} {tail : Bytes} (h : isSpace b = false) : skipSpace (b :: tail) = b :: tail := by
  rw [skipSpace, List.dropWhile_cons_of_neg (by simp [h])]

theorem StartsValue.skipSpace {s : Bytes} (h : StartsValue s) (rest : Bytes) : skipSpace (s ++ rest) = s ++ rest := by
  obtain ⟨b, tail, rfl, hb, _⟩ := h
  exact skipSpace_of_cons hb

theorem startsValue_spellNat (n : Nat) : StartsValue (spellNat n) := by
  have hall := all_isDigitByte_spellNat n
  cases hs : spellNat n with
  | nil => exact absurd hs (spellNat_ne_nil n)
  | cons b tail =>
    rw [hs, List.all_cons, Bool.and_eq_true] at hall
    refine ⟨b, tail, rfl, ?_, ?_, ?_, ?_⟩
    · have h := hall.1
      simp only [isDigitByte, Bool.and_eq_true, decide_eq_true_eq, UInt8.le_iff_toNat_le] at h
      simp only [isSpace, Bool.or_eq_false_iff, decide_eq_false_iff_not]
      refine ⟨⟨⟨?_, ?_⟩, ?_⟩, ?_⟩ <;> (rintro rfl; exact absurd h (by decide))
    · rintro rfl; exact absurd hall.1 (by decide)
    · rintro rfl; exact absurd hall.1 (by decide)
    · rintro rfl; exact absurd hall.1 (by decide)

theorem skipSpace_append {gap : Bytes} (h : gap.all isSpace = true) (s : Bytes) : skipSpace (gap ++ s) = skipSpace s :=
  List.dropWhile_append_of_pos (List.all_eq_true.mp h)

theorem endsNumber_cons {b : UInt8} (h : b = 44 ∨ b = 93 ∨ b = 125) (tail : Bytes) : EndsNumber (b :: tail) := by
  intro c rest e
  obtain ⟨rfl, rfl⟩ := List.cons.inj e
  rcases h with rfl | rfl | rfl <;> decide

theorem endsNumber_cons_of_isSpace {b : UInt8} (h : isSpace b = true) (tail : Bytes) : EndsNumber (b :: tail) := by
  intro c rest e
  obtain ⟨rfl, rfl⟩ := List.cons.inj e
  simp only [isSpace, Bool.or_eq_true, decide_eq_true_eq] at h
  rcases h with ((rfl | rfl) | rfl) | rfl <;> decide

/-- A number ends at a blank, and where something separates or closes. -/
theorem endsNumber_append {gap : Bytes} (h : gap.all isSpace = true) {b : UInt8} (hb : b = 44 ∨ b = 93 ∨ b = 125)
    (tail : Bytes) : EndsNumber (gap ++ b :: tail) := by
  cases gap with
  | nil => exact endsNumber_cons hb tail
  | cons g gap =>
    rw [List.all_cons, Bool.and_eq_true] at h
    exact endsNumber_cons_of_isSpace h.1 _

theorem endsNumber_of_all_isSpace {gap : Bytes} (h : gap.all isSpace = true) : EndsNumber gap := by
  cases gap with
  | nil =>
    intro c rest e
    cases e
  | cons g gap =>
    rw [List.all_cons, Bool.and_eq_true] at h
    exact endsNumber_cons_of_isSpace h.1 _

/-! ## Layouts -/

/-- Where the blanks stand between the parts of a value. -/
structure Layout where
  /-- What stands after an opening bracket and a comma, and before a closing bracket. -/
  line : (level : Nat) → Bytes
  /-- What stands after a colon. -/
  gap : Bytes
  line_isSpace : ∀ level, (line level).all isSpace = true
  gap_isSpace : gap.all isSpace = true

namespace Layout

/-- No blanks at all. -/
def tight : Layout := ⟨fun _ => [], [], fun _ => rfl, rfl⟩

/-- Line breaks with indentation. -/
def lines : Layout where
  line := newLine
  gap := [32]
  line_isSpace level := by
    rw [newLine, List.all_cons, List.all_replicate]
    cases 2 * level <;> rfl
  gap_isSpace := rfl

mutual

/-- A value in a layout. -/
def value (l : Layout) (level : Nat) : Json → Bytes
  | .null => nullBytes
  | .bool true => trueBytes
  | .bool false => falseBytes
  | .number spelled => spelled
  | .string spelled => inQuotes spelled
  | .array [] => [91, 93]
  | .array (first :: rest) =>
    91 :: l.line (level + 1) ++ l.items (level + 1) (first :: rest) ++ l.line level ++ [93]
  | .object [] => [123, 125]
  | .object (first :: rest) =>
    123 :: l.line (level + 1) ++ l.members (level + 1) (first :: rest) ++ l.line level ++ [125]

def items (l : Layout) (level : Nat) : List Json → Bytes
  | [] => []
  | [last] => l.value level last
  | first :: second :: rest =>
    l.value level first ++ 44 :: l.line level ++ l.items level (second :: rest)

def members (l : Layout) (level : Nat) : List (Bytes × Json) → Bytes
  | [] => []
  | [(name, value)] => inQuotes name ++ 58 :: l.gap ++ l.value level value
  | (name, value) :: second :: rest =>
    inQuotes name ++ 58 :: l.gap ++ l.value level value ++ 44 :: l.line level ++ l.members level (second :: rest)

end

end Layout

mutual

theorem compact_eq (level : Nat) : (v : Json) → compact v = Layout.tight.value level v
  | .null => rfl
  | .bool true => rfl
  | .bool false => rfl
  | .number _ => rfl
  | .string _ => rfl
  | .array [] => rfl
  | .array (first :: rest) => by
    rw [compact, Layout.value, compactItems_eq (level + 1)]
    simp [Layout.tight]
  | .object [] => rfl
  | .object (first :: rest) => by
    rw [compact, Layout.value, compactMembers_eq (level + 1)]
    simp [Layout.tight]

theorem compactItems_eq (level : Nat) : (items : List Json) → compactItems items = Layout.tight.items level items
  | [] => rfl
  | [last] => compact_eq level last
  | first :: second :: rest => by
    rw [compactItems, Layout.items, compact_eq level first, compactItems_eq level (second :: rest)]
    simp [Layout.tight]

theorem compactMembers_eq (level : Nat) :
    (members : List (Bytes × Json)) → compactMembers members = Layout.tight.members level members
  | [] => rfl
  | [(name, value)] => by
    rw [compactMembers, Layout.members, compact_eq level value]
    simp [Layout.tight]
  | (name, value) :: second :: rest => by
    rw [compactMembers, Layout.members, compact_eq level value, compactMembers_eq level (second :: rest)]
    simp [Layout.tight]

end

mutual

theorem indented_eq (level : Nat) : (v : Json) → indented level v = Layout.lines.value level v
  | .null => rfl
  | .bool true => rfl
  | .bool false => rfl
  | .number _ => rfl
  | .string _ => rfl
  | .array [] => rfl
  | .array (first :: rest) => by
    rw [indented, Layout.value, indentedItems_eq (level + 1)]
    rfl
  | .object [] => rfl
  | .object (first :: rest) => by
    rw [indented, Layout.value, indentedMembers_eq (level + 1)]
    rfl

theorem indentedItems_eq (level : Nat) : (items : List Json) → indentedItems level items = Layout.lines.items level items
  | [] => rfl
  | [last] => indented_eq level last
  | first :: second :: rest => by
    rw [indentedItems, Layout.items, indented_eq level first, indentedItems_eq level (second :: rest)]
    rfl

theorem indentedMembers_eq (level : Nat) :
    (members : List (Bytes × Json)) → indentedMembers level members = Layout.lines.members level members
  | [] => rfl
  | [(name, value)] => by
    rw [indentedMembers, Layout.members, indented_eq level value]
    simp [Layout.lines]
  | (name, value) :: second :: rest => by
    rw [indentedMembers, Layout.members, indented_eq level value, indentedMembers_eq level (second :: rest)]
    simp [Layout.lines]

end

/-! ## Reading what was written -/

section Skipping

variable {gap : Bytes} (h : gap.all isSpace = true)

include h

theorem readValue?_append (fuel : Nat) (s : Bytes) : readValue? fuel (gap ++ s) = readValue? fuel s := by
  cases fuel with
  | zero => rfl
  | succ fuel => simp only [readValue?, skipSpace_append h]

theorem readItems?_append (fuel : Nat) (s : Bytes) : readItems? fuel (gap ++ s) = readItems? fuel s := by
  cases fuel with
  | zero => rfl
  | succ fuel => simp only [readItems?, readValue?_append h]

theorem readMembers?_append (fuel : Nat) (s : Bytes) : readMembers? fuel (gap ++ s) = readMembers? fuel s := by
  cases fuel with
  | zero => rfl
  | succ fuel => simp only [readMembers?, skipSpace_append h]

theorem skipSpace_append_cons {b : UInt8} (hb : isSpace b = false) (tail : Bytes) :
    skipSpace (gap ++ b :: tail) = b :: tail := by
  rw [skipSpace_append h, skipSpace_of_cons hb]

end Skipping

theorem readValue?_number (n fuel : Nat) {rest : Bytes} (hr : EndsNumber rest) :
    readValue? (fuel + 1) (spellNat n ++ rest) = some (.number (spellNat n), rest) := by
  have hscan := scanNumber?_spellNat n hr
  have hall := all_isDigitByte_spellNat n
  rw [readValue?, (startsValue_spellNat n).skipSpace]
  cases hs : spellNat n with
  | nil => exact absurd hs (spellNat_ne_nil n)
  | cons b tail =>
    rw [hs] at hscan hall
    rw [List.all_cons, Bool.and_eq_true] at hall
    simp only [List.cons_append] at hscan ⊢
    split
    all_goals first
      | (rename_i e; have hb := (List.cons.inj e).1; subst hb; exact absurd hall.1 (by decide))
      | rw [hscan]; rfl

theorem readValue?_string (text : String) (fuel : Nat) (rest : Bytes) :
    readValue? (fuel + 1) (quote :: (spellText text ++ quote :: rest)) = some (.string (spellText text), rest) := by
  have hscan := scanString?_spellText text rest
  rw [readValue?, skipSpace_of_cons (by decide)]
  unfold quote at hscan ⊢
  simp only [hscan]
  rfl

section Layouts

variable {l : Layout} {level : Nat} {closing : Bytes}

theorem startsValue_laid (l : Layout) (level : Nat) {v : Json} (h : Plain v) : StartsValue (l.value level v) := by
  cases v with
  | null => exact ⟨110, _, rfl, by decide, by decide, by decide, by decide⟩
  | bool b =>
    cases b with
    | true => exact ⟨116, _, rfl, by decide, by decide, by decide, by decide⟩
    | false => exact ⟨102, _, rfl, by decide, by decide, by decide, by decide⟩
  | number spelled =>
    obtain ⟨n, rfl⟩ := h
    exact startsValue_spellNat n
  | string spelled => exact ⟨34, _, rfl, by decide, by decide, by decide, by decide⟩
  | array items => cases items <;> exact ⟨91, _, rfl, by decide, by decide, by decide, by decide⟩
  | object members => cases members <;> exact ⟨123, _, rfl, by decide, by decide, by decide, by decide⟩

theorem length_laid_pos (l : Layout) (level : Nat) {v : Json} (h : Plain v) : 0 < (l.value level v).length := by
  obtain ⟨b, tail, hs, _⟩ := startsValue_laid l level h
  rw [hs]
  exact Nat.succ_pos _

/-- The value is read wherever it stands in this layout. -/
def ReadsBack (l : Layout) (level : Nat) (v : Json) : Prop :=
  ∀ fuel rest, (l.value level v).length ≤ fuel → EndsNumber rest → readValue? fuel (l.value level v ++ rest) = some (v, rest)

/-- Items are read when each of them is. -/
theorem readItems?_laid {items : List Json} (hne : items ≠ []) (hv : ∀ v ∈ items, ReadsBack l level v)
    (hclosing : closing.all isSpace = true) (fuel : Nat) (rest : Bytes) (hf : (l.items level items).length < fuel) :
    readItems? fuel (l.items level items ++ (closing ++ 93 :: rest)) = some (items, rest) := by
  induction items generalizing fuel with
  | nil => exact absurd rfl hne
  | cons first items ih =>
    obtain ⟨fuel, rfl⟩ : ∃ n, fuel = n + 1 := ⟨fuel - 1, by omega⟩
    have hfirst := hv first (by simp)
    cases items with
    | nil =>
      rw [Layout.items] at hf ⊢
      rw [readItems?, hfirst fuel _ (by omega) (endsNumber_append hclosing (by decide) _)]
      simp only
      rw [skipSpace_append_cons hclosing (by decide)]
      rfl
    | cons second others =>
      rw [Layout.items, List.length_append, List.length_append, List.length_cons] at hf
      have hrest := ih (by simp) (fun v h => hv v (List.mem_cons_of_mem _ h)) fuel (by omega)
      rw [Layout.items, List.append_assoc, List.append_assoc, List.cons_append, readItems?,
        hfirst fuel _ (by omega) (endsNumber_cons (by decide) _)]
      simp only
      rw [skipSpace_of_cons (by decide)]
      simp only [readItems?_append (l.line_isSpace level), hrest]
      rfl

/-- Members are read when each of their values is. -/
theorem readMembers?_laid {members : List (Bytes × Json)} (hne : members ≠ [])
    (hn : ∀ m ∈ members, ∃ text, m.1 = spellText text) (hv : ∀ m ∈ members, ReadsBack l level m.2)
    (hclosing : closing.all isSpace = true) (fuel : Nat) (rest : Bytes) (hf : (l.members level members).length < fuel) :
    readMembers? fuel (l.members level members ++ (closing ++ 125 :: rest)) = some (members, rest) := by
  induction members generalizing fuel with
  | nil => exact absurd rfl hne
  | cons first members ih =>
    obtain ⟨fuel, rfl⟩ : ∃ n, fuel = n + 1 := ⟨fuel - 1, by omega⟩
    obtain ⟨name, value⟩ := first
    obtain ⟨text, rfl⟩ : ∃ text, name = spellText text := hn (name, value) (by simp)
    have hvalue : ReadsBack l level value := hv (spellText text, value) (by simp)
    have hname := scanString?_spellText text
    unfold quote at hname
    cases members with
    | nil =>
      simp only [Layout.members, inQuotes, List.length_append, List.length_cons] at hf
      simp only [Layout.members, inQuotes, quote, List.cons_append, List.append_assoc, List.nil_append]
      rw [readMembers?, skipSpace_of_cons (by decide)]
      simp only [hname]
      rw [skipSpace_of_cons (by decide)]
      simp only
      rw [readValue?_append l.gap_isSpace, hvalue fuel _ (by omega) (endsNumber_append hclosing (by decide) _)]
      simp only
      rw [skipSpace_append_cons hclosing (by decide)]
      rfl
    | cons second others =>
      simp only [Layout.members, inQuotes, List.length_append, List.length_cons] at hf
      have hrest := ih (by simp) (fun m h => hn m (List.mem_cons_of_mem _ h))
        (fun m h => hv m (List.mem_cons_of_mem _ h)) fuel (by omega)
      simp only [Layout.members, inQuotes, quote, List.cons_append, List.append_assoc, List.nil_append]
      rw [readMembers?, skipSpace_of_cons (by decide)]
      simp only [hname]
      rw [skipSpace_of_cons (by decide)]
      simp only
      rw [readValue?_append l.gap_isSpace, hvalue fuel _ (by omega) (endsNumber_cons (by decide) _)]
      simp only
      rw [skipSpace_of_cons (by decide)]
      simp only [readMembers?_append (l.line_isSpace level), hrest]
      rfl

theorem PlainItems.mem {items : List Json} (h : PlainItems items) : ∀ v ∈ items, Plain v := by
  induction items with
  | nil => simp
  | cons first items ih =>
    intro v hv
    rcases List.mem_cons.mp hv with rfl | hv
    · exact h.1
    · exact ih h.2 v hv

theorem PlainMembers.mem {members : List (Bytes × Json)} (h : PlainMembers members) :
    ∀ m ∈ members, (∃ text, m.1 = spellText text) ∧ Plain m.2 := by
  induction members with
  | nil => simp
  | cons first members ih =>
    intro m hm
    rcases List.mem_cons.mp hm with rfl | hm
    · exact ⟨h.1, h.2.1⟩
    · exact ih h.2.2 m hm

/-- What is between the brackets of an array that is not empty starts with no bracket that closes it. -/
theorem exists_items_cons (l : Layout) (level : Nat) {first : Json} (others : List Json) (h : Plain first) :
    ∃ b more, l.items level (first :: others) = b :: more ∧ isSpace b = false ∧ b ≠ 93 := by
  obtain ⟨b, tail, hs, hb, h93, -, -⟩ := startsValue_laid l level h
  cases others with
  | nil => exact ⟨b, tail, hs, hb, h93⟩
  | cons second others => exact ⟨b, _, by rw [Layout.items, hs]; rfl, hb, h93⟩

theorem exists_members_cons (l : Layout) (level : Nat) (first : Bytes × Json) (others : List (Bytes × Json)) :
    ∃ more, l.members level (first :: others) = 34 :: more := by
  cases others <;> exact ⟨_, rfl⟩

/-- A plain value is read to its end in every layout, whatever ends it. -/
theorem readValue?_laid : ∀ (v : Json), Plain v → ∀ level, ReadsBack l level v
  | v, h, level, 0, _, hf, _ => by
    have := length_laid_pos l level h
    omega
  | .null, _, _, _ + 1, _, _, _ => rfl
  | .bool true, _, _, _ + 1, _, _, _ => rfl
  | .bool false, _, _, _ + 1, _, _, _ => rfl
  | .number spelled, h, _, fuel + 1, rest, _, hr => by
    obtain ⟨n, rfl⟩ := h
    exact readValue?_number n fuel hr
  | .string spelled, h, _, fuel + 1, rest, _, _ => by
    obtain ⟨text, rfl⟩ := h
    simp only [Layout.value, inQuotes, List.cons_append, List.append_assoc, List.nil_append]
    exact readValue?_string text fuel rest
  | .array [], _, _, _ + 1, _, _, _ => rfl
  | .array (first :: others), h, level, fuel + 1, rest, hf, _ => by
    have hmem := PlainItems.mem h
    simp only [Layout.value, List.length_append, List.length_cons] at hf
    have hread := readItems?_laid (by simp) (fun v hv => readValue?_laid v (hmem v hv) (level + 1)) (l.line_isSpace level) fuel rest
      (by omega)
    obtain ⟨b, more, hs, hb, h93⟩ := exists_items_cons l (level + 1) others (hmem first (by simp))
    rw [hs, List.cons_append] at hread
    simp only [Layout.value, hs, List.cons_append, List.append_assoc, List.nil_append]
    rw [readValue?, skipSpace_of_cons (by decide)]
    simp only
    rw [skipSpace_append_cons (l.line_isSpace _) hb]
    split
    · rename_i e
      exact absurd (List.cons.inj e).1 h93
    · rw [hread]
      rfl
  | .object [], _, _, _ + 1, _, _, _ => rfl
  | .object (first :: others), h, level, fuel + 1, rest, hf, _ => by
    have hmem := PlainMembers.mem h
    simp only [Layout.value, List.length_append, List.length_cons] at hf
    have hread := readMembers?_laid (by simp) (fun m hm => (hmem m hm).1)
      (fun m hm => readValue?_laid m.2 (hmem m hm).2 (level + 1)) (l.line_isSpace level) fuel rest (by omega)
    obtain ⟨more, hs⟩ := exists_members_cons l (level + 1) first others
    rw [hs, List.cons_append] at hread
    simp only [Layout.value, hs, List.cons_append, List.append_assoc, List.nil_append]
    rw [readValue?, skipSpace_of_cons (by decide)]
    simp only
    rw [skipSpace_append_cons (l.line_isSpace _) (by decide)]
    split
    · rename_i e
      exact absurd (List.cons.inj e).1 (by decide)
    · rw [hread]
      rfl
termination_by v => sizeOf v
decreasing_by
  · have := List.sizeOf_lt_of_mem hv
    simp at this ⊢
    omega
  · have hlt := List.sizeOf_lt_of_mem hm
    have : sizeOf m.2 < sizeOf m := by
      cases m
      simp only [Prod.mk.sizeOf_spec]
      omega
    simp at hlt ⊢
    omega

/-- A plain value in a layout with blanks after it is what the whole reads as. -/
theorem ofBytes?_laid (l : Layout) (level : Nat) {v : Json} (h : Plain v) (hclosing : closing.all isSpace = true) :
    ofBytes? (l.value level v ++ closing) = some v := by
  rw [ofBytes?, readValue?_laid v h level _ closing (by rw [List.length_append]; omega) (endsNumber_of_all_isSpace hclosing)]
  simp only
  rw [← List.append_nil closing, skipSpace_append hclosing]
  rfl

end Layouts

theorem ofBytes?_compact {v : Json} (h : Plain v) : ofBytes? (compact v) = some v := by
  have hread := ofBytes?_laid Layout.tight 0 h (List.all_nil : ([] : Bytes).all isSpace = true)
  rwa [List.append_nil, ← compact_eq] at hread

theorem ofBytes?_indented {v : Json} (h : Plain v) {closing : Bytes} (hclosing : closing.all isSpace = true) (level : Nat) :
    ofBytes? (indented level v ++ closing) = some v := by
  rw [indented_eq]
  exact ofBytes?_laid _ _ h hclosing

end Strongbox.Json
