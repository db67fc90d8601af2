/-
  Strongbox.Proofs.Record.Violations — what is said about free entries that break rules.

  Each entry can break four rules: the lengths and the characters of its key and of its value. Unless
  there are too many entries, each rule that an entry breaks is named once, entries in the order of
  their keys and rules in this order; nothing else is named. A list in strict order is determined by
  what is in it, so these two facts say everything.

  Proved:
  - `isPrintableChar_iff`: which characters texts may have.
  - `mem_entryViolations`, `mem_violations`: what is named is what is broken.
  - `violations_pairwise`: in which order.
  - `Violation.message_injective`: what a message says.
  - `report_split`: the text says how many there are, and has a line for each in its place.
  - `violations_exhaustive`: all of this together.
-/

import Mathlib.Data.Set.Card
import Strongbox.Proofs.Record.Admission
import Strongbox.Proofs.Text.Decimal
import Strongbox.Proofs.Text.Quoted

namespace Strongbox.CustomMetadata

open Text.Decimal (text)

variable {entries : CustomMetadata} {key value : String} {v : Violation}

/-! ## Printable characters -/

/-- Characters that free entries may not have: controls, whitespace other than the space, format characters,
    private use, and noncharacters. -/
inductive Unprintable (c : Char) : Prop
  | control (h : c.toNat ≤ 0x1f ∨ 0x7f ≤ c.toNat ∧ c.toNat ≤ 0x9f)
  | whitespace (h : Text.isBlank c) (hspace : c ≠ ' ')
  | format (h : ∃ first last, (first, last) ∈ formatRanges ∧ first ≤ c.toNat ∧ c.toNat ≤ last)
  | privateUse (h : 0xe000 ≤ c.toNat ∧ c.toNat ≤ 0xf8ff ∨ 0xf0000 ≤ c.toNat ∧ c.toNat ≤ 0xffffd ∨
      0x100000 ≤ c.toNat ∧ c.toNat ≤ 0x10fffd)
  | noncharacter (h : 0xfdd0 ≤ c.toNat ∧ c.toNat ≤ 0xfdef ∨
      ∃ plane, c.toNat = plane * 0x10000 + 0xfffe ∨ c.toNat = plane * 0x10000 + 0xffff)

theorem isControl_iff {c : Char} : isControl c ↔ c.toNat ≤ 0x1f ∨ 0x7f ≤ c.toNat ∧ c.toNat ≤ 0x9f := by
  simp only [isControl, Bool.or_eq_true, Bool.and_eq_true, decide_eq_true_eq]
  omega

theorem mem_privateRanges_iff {code : Nat} : Text.inRanges code privateRanges ↔
    0xe000 ≤ code ∧ code ≤ 0xf8ff ∨ 0xf0000 ≤ code ∧ code ≤ 0xffffd ∨ 0x100000 ≤ code ∧ code ≤ 0x10fffd := by
  rw [Text.inRanges_iff (by decide)]
  constructor
  · rintro ⟨first, last, hmem, h⟩
    simp only [privateRanges, List.mem_cons, Prod.mk.injEq, List.not_mem_nil, or_false] at hmem
    omega
  · rintro (h | h | h)
    · exact ⟨_, _, List.mem_cons_self, h⟩
    · exact ⟨_, _, List.mem_cons_of_mem _ List.mem_cons_self, h⟩
    · exact ⟨_, _, List.mem_cons_of_mem _ (List.mem_cons_of_mem _ List.mem_cons_self), h⟩

theorem isNoncharacter_iff {c : Char} : isNoncharacter c ↔ 0xfdd0 ≤ c.toNat ∧ c.toNat ≤ 0xfdef ∨
    ∃ plane, c.toNat = plane * 0x10000 + 0xfffe ∨ c.toNat = plane * 0x10000 + 0xffff := by
  simp only [isNoncharacter, Bool.or_eq_true, Bool.and_eq_true, decide_eq_true_eq]
  refine or_congr_right ⟨fun h => ⟨c.toNat / 0x10000, by omega⟩, ?_⟩
  rintro ⟨plane, h⟩
  omega

/-- Exactly the characters that are of none of these kinds are printable. -/
theorem isPrintableChar_iff (c : Char) : isPrintableChar c ↔ ¬ Unprintable c := by
  have hkinds : isPrintableChar c ↔ c = ' ' ∨ ¬ (isControl c ∨ Text.isBlank c ∨ Text.inRanges c.toNat formatRanges ∨
      Text.inRanges c.toNat privateRanges ∨ isNoncharacter c) := by
    simp [isPrintableChar, not_or, and_assoc]
  have hformat : Text.inRanges c.toNat formatRanges ↔ _ := Text.inRanges_iff (by decide)
  rw [hkinds, isControl_iff, hformat, mem_privateRanges_iff, isNoncharacter_iff]
  constructor
  · rintro (rfl | hnone) h
    · -- of these kinds the space is only whitespace
      cases h with
      | control h => exact absurd h (by decide)
      | whitespace _ hspace => exact hspace rfl
      | format h => exact absurd (hformat.mpr h) (by decide)
      | privateUse h => exact absurd h (by decide)
      | noncharacter h => exact absurd (isNoncharacter_iff.mpr h) (by decide)
    · refine hnone ?_
      cases h with
      | control h => exact .inl h
      | whitespace h _ => exact .inr (.inl h)
      | format h => exact .inr (.inr (.inl h))
      | privateUse h => exact .inr (.inr (.inr (.inl h)))
      | noncharacter h => exact .inr (.inr (.inr (.inr h)))
  · intro h
    refine or_iff_not_imp_left.mpr fun hspace hkind => h ?_
    rcases hkind with hkind | hkind | hkind | hkind | hkind
    · exact .control hkind
    · exact .whitespace hkind hspace
    · exact .format hkind
    · exact .privateUse hkind
    · exact .noncharacter hkind

/-! ## Broken rules -/

/-- The rules that one entry breaks. -/
inductive Breaks (key value : String) : Violation → Prop
  | keyLength (h : key.utf8ByteSize = 0 ∨ 128 < key.utf8ByteSize) : Breaks key value (.keyLength key)
  | valueLength (h : value.utf8ByteSize = 0 ∨ 512 < value.utf8ByteSize) : Breaks key value (.valueLength key value.utf8ByteSize)
  | keyUnprintable (h : ∃ c ∈ key.toList, ¬ isPrintableChar c) : Breaks key value (.keyUnprintable key)
  | valueUnprintable (h : ∃ c ∈ value.toList, ¬ isPrintableChar c) : Breaks key value (.valueUnprintable key)

/-- The rules that entries break. -/
def Broken (entries : CustomMetadata) : Set Violation := {v | ∃ key value : String, entries[key]? = some value ∧ Breaks key value v}

theorem not_isPrintable_iff {content : String} : ¬ isPrintable content ↔ ∃ c ∈ content.toList, ¬ isPrintableChar c := by
  rw [isPrintable, List.all_eq_true]
  simp only [not_forall, exists_prop]

theorem not_length_iff {n longest : Nat} : ¬ (0 < n ∧ n ≤ longest) ↔ n = 0 ∨ longest < n := by omega

theorem mem_entryViolations : v ∈ entryViolations key value ↔ Breaks key value v := by
  have hmem {p : Prop} [Decidable p] {w : Violation} : v ∈ (if p then [] else [w]) ↔ ¬ p ∧ v = w := by
    split <;> simp_all
  rw [entryViolations, List.mem_append, List.mem_append, List.mem_append, hmem, hmem, hmem, hmem, not_length_iff, not_length_iff,
    not_isPrintable_iff, not_isPrintable_iff]
  constructor
  · rintro (((⟨h, rfl⟩ | ⟨h, rfl⟩) | ⟨h, rfl⟩) | ⟨h, rfl⟩)
    · exact .keyLength h
    · exact .valueLength h
    · exact .keyUnprintable h
    · exact .valueUnprintable h
  · rintro (h | h | h | h)
    · exact .inl (.inl (.inl ⟨h, rfl⟩))
    · exact .inl (.inl (.inr ⟨h, rfl⟩))
    · exact .inl (.inr ⟨h, rfl⟩)
    · exact .inr ⟨h, rfl⟩

/-! ## All violations, in order -/

section Order

namespace Violation

/-- The key of the entry that a violation is about. -/
def key? : Violation → Option String
  | .tooManyEntries _ => none
  | .keyLength key => some key
  | .valueLength key _ => some key
  | .keyUnprintable key => some key
  | .valueUnprintable key => some key

/-- The place of the rule among those that an entry is checked against. -/
def rank : Violation → Nat
  | .tooManyEntries _ => 0
  | .keyLength _ => 1
  | .valueLength _ _ => 2
  | .keyUnprintable _ => 3
  | .valueUnprintable _ => 4

/-- One violation is named before another: its key comes first, or for one key its rule. -/
def Before (v w : Violation) : Prop :=
  ∃ key other, v.key? = some key ∧ w.key? = some other ∧ (key < other ∨ key = other ∧ v.rank < w.rank)

theorem Before.ne {v w : Violation} (h : v.Before w) : v ≠ w := by
  rintro rfl
  obtain ⟨key, other, hkey, hother, hlt | ⟨_, hlt⟩⟩ := h
  · rw [hkey] at hother
    rw [Option.some.inj hother] at hlt
    exact String.lt_irrefl _ hlt
  · exact Nat.lt_irrefl _ hlt

end Violation

theorem Breaks.key?_eq (h : Breaks key value v) : v.key? = some key := by cases h <;> rfl

/-- What is named of one entry is part of all that could be, which is in order. -/
theorem entryViolations_sublist (key value : String) : (entryViolations key value).Sublist
    [.keyLength key, .valueLength key value.utf8ByteSize, .keyUnprintable key, .valueUnprintable key] := by
  have hpart {p : Prop} [Decidable p] (w : Violation) : (if p then [] else [w]).Sublist [w] := by
    split
    · exact List.nil_sublist _
    · exact List.Sublist.refl _
  exact (((hpart _).append (hpart _)).append (hpart _)).append (hpart _)

theorem entryViolations_pairwise (key value : String) : (entryViolations key value).Pairwise Violation.Before := by
  refine List.Pairwise.sublist (entryViolations_sublist key value) ?_
  have hbefore {v w : Violation} (hv : v.key? = some key) (hw : w.key? = some key) (hrank : v.rank < w.rank) : v.Before w :=
    ⟨key, key, hv, hw, .inr ⟨rfl, hrank⟩⟩
  simp only [List.pairwise_cons, List.forall_mem_cons]
  refine ⟨⟨?_, ?_, ?_, nofun⟩, ⟨?_, ?_, nofun⟩, ⟨?_, nofun⟩, nofun, .nil⟩
  all_goals exact hbefore rfl rfl (by simp [Violation.rank])

theorem violations_eq (hfew : entries.size ≤ 64) :
    entries.violations = entries.toList.flatMap fun (key, value) => entryViolations key value :=
  if_neg (Nat.not_lt.mpr hfew)

theorem mem_violations (hfew : entries.size ≤ 64) : v ∈ entries.violations ↔ v ∈ Broken entries := by
  rw [violations_eq hfew, List.mem_flatMap]
  constructor
  · rintro ⟨⟨key, value⟩, hentry, hv⟩
    exact ⟨key, value, Std.ExtTreeMap.mem_toList_iff_getElem?_eq_some.mp hentry, mem_entryViolations.mp hv⟩
  · rintro ⟨key, value, hentry, hv⟩
    exact ⟨(key, value), Std.ExtTreeMap.mem_toList_iff_getElem?_eq_some.mpr hentry, mem_entryViolations.mpr hv⟩

theorem violations_pairwise (hfew : entries.size ≤ 64) : entries.violations.Pairwise Violation.Before := by
  rw [violations_eq hfew, List.pairwise_flatMap]
  refine ⟨fun (key, value) _ => entryViolations_pairwise key value, ?_⟩
  refine Std.ExtTreeMap.ordered_keys_toList.imp ?_
  rintro ⟨key, value⟩ ⟨other, otherValue⟩ hlt v hv w hw
  exact ⟨key, other, (mem_entryViolations.mp hv).key?_eq, (mem_entryViolations.mp hw).key?_eq,
    .inl (compareOfLessAndEq_eq_lt.mp hlt)⟩

/-- There are as many as rules are broken. -/
theorem length_violations (hfew : entries.size ≤ 64) : entries.violations.length = (Broken entries).ncard := by
  have hnodup : entries.violations.Nodup := (violations_pairwise hfew).imp fun h => h.ne
  have hset : Broken entries = ↑entries.violations.toFinset := by
    ext v
    rw [Finset.mem_coe, List.mem_toFinset, mem_violations hfew]
  rw [hset, Set.ncard_coe_finset, List.toFinset_card_of_nodup hnodup]

end Order

/-! ## Messages -/

/-- A message says which rule was broken, and by the entry with which key. -/
theorem Violation.message_injective : Function.Injective Violation.message := by
  intro v w h
  have hbody := List.append_cancel_left ((String.toList_append ..).symm.trans ((congrArg String.toList h).trans (String.toList_append ..)))
  cases v <;> cases w <;> simp only [String.toList_append, List.append_assoc] at hbody
  case tooManyEntries.tooManyEntries =>
    have hcount := List.append_cancel_left (List.append_cancel_left (List.append_cancel_left hbody))
    rw [Text.Decimal.text_injective (String.toList_inj.mp hcount)]
  case keyLength.keyLength => rw [(Text.quoted_append_inj (List.append_cancel_left hbody)).1]
  case valueLength.valueLength =>
    obtain ⟨rfl, hrest⟩ := Text.quoted_append_inj (List.append_cancel_left hbody)
    have hlength := List.append_cancel_left hrest
    simp only [text, String.toList_ofList] at hlength
    rw [(Text.Decimal.digits_append_cons_inj (by decide) (by decide) hlength).1]
  case keyUnprintable.keyUnprintable => rw [(Text.quoted_append_inj (List.append_cancel_left hbody)).1]
  case valueUnprintable.valueUnprintable => rw [(Text.quoted_append_inj (List.append_cancel_left hbody)).1]
  -- messages about different rules begin differently
  all_goals simp at hbody

/-! ## The report -/

/-- What a report begins with. -/
def heading (count : Nat) : String := text count ++ (if count = 1 then " error" else " errors") ++ " occurred:"

/-- The line for a violation. -/
def line (v : Violation) : String := "\n\t* " ++ v.message

/-- A report has the count first, and each violation on its line in its place. -/
theorem report_split (earlier : List Violation) (v : Violation) (later : List Violation) :
    report (earlier ++ v :: later) = heading (earlier ++ v :: later).length ++ String.join (earlier.map line) ++ line v ++
      String.join (later.map line) := by
  show heading _ ++ String.join ((earlier ++ v :: later).map line) = _
  rw [List.map_append, List.map_cons, String.join_append, String.join_cons]
  simp only [String.append_assoc]

/-- Free entries violate nothing exactly if they obey the rules. If there are too many that is all that
    is said, and it depends on their number only. Otherwise each rule that an entry breaks is named
    once, by key and then by rule, and nothing else. The report lists all that is named after its count,
    with messages that say which rule was broken under which key. Printable are all characters but
    those of certain kinds. -/
theorem violations_exhaustive (entries : CustomMetadata) :
    (entries.violations = [] ↔ entries.Admitted) ∧
      (64 < entries.size → entries.violations = [.tooManyEntries entries.size] ∧
        ∀ other : CustomMetadata, other.size = entries.size → other.violations = entries.violations) ∧
      (entries.size ≤ 64 → entries.violations.Pairwise Violation.Before ∧ (∀ v, v ∈ entries.violations ↔ v ∈ Broken entries) ∧
        entries.violations.length = (Broken entries).ncard) ∧
      (∀ earlier v later, entries.violations = earlier ++ v :: later → report entries.violations =
        heading entries.violations.length ++ String.join (earlier.map line) ++ line v ++ String.join (later.map line)) ∧
      Function.Injective Violation.message ∧ ∀ c, isPrintableChar c ↔ ¬ Unprintable c := by
  have hmany {entries : CustomMetadata} (h : 64 < entries.size) : entries.violations = [.tooManyEntries entries.size] := if_pos h
  refine ⟨violations_eq_nil_iff, fun h => ⟨hmany h, fun other hsize => ?_⟩, fun hfew => ?_, fun earlier v later hsplit => ?_,
    Violation.message_injective, isPrintableChar_iff⟩
  · rw [hmany (hsize ▸ h), hmany h, hsize]
  · exact ⟨violations_pairwise hfew, fun _ => mem_violations hfew, length_violations hfew⟩
  · rw [hsplit]
    exact report_split earlier v later

end Strongbox.CustomMetadata
