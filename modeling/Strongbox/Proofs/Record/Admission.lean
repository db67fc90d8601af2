/-
  Strongbox.Proofs.Record.Admission — which settings a record may be given.

  An expiry may not be negative, nor longer than that of the policy if the policy has one. The free
  entries may not be too many, and their texts neither empty nor too long nor unprintable.

  Proved:
  - `violations_eq_nil_iff`: free entries violate nothing exactly if they obey the rules.
  - `rejection?_eq_none_iff`: changes are rejected under a policy exactly if they are inadmissible.
-/

import Mathlib.Logic.Basic
import Mathlib.Tactic.Tauto
import Strongbox.Proofs.Record.Settings

namespace Strongbox

/-! ## Free entries -/

namespace CustomMetadata

/-- A text of at most so many bytes, not empty, and printable throughout. -/
structure Fits (longest : Nat) (text : String) : Prop where
  nonempty : 0 < text.utf8ByteSize
  short : text.utf8ByteSize ≤ longest
  printable : ∀ c ∈ text.toList, isPrintableChar c

/-- Free entries that obey the rules. -/
structure Admitted (entries : CustomMetadata) : Prop where
  few : entries.size ≤ 64
  keys : ∀ key value : String, entries[key]? = some value → Fits 128 key
  values : ∀ key value : String, entries[key]? = some value → Fits 512 value

theorem fits_iff {longest : Nat} {text : String} :
    Fits longest text ↔ (0 < text.utf8ByteSize ∧ text.utf8ByteSize ≤ longest) ∧ isPrintable text := by
  rw [isPrintable, List.all_eq_true]
  exact ⟨fun h => ⟨⟨h.nonempty, h.short⟩, h.printable⟩, fun h => ⟨h.1.1, h.1.2, h.2⟩⟩

theorem entryViolations_eq_nil_iff {key value : String} : entryViolations key value = [] ↔ Fits 128 key ∧ Fits 512 value := by
  show _ ↔ Fits maxKeyLength key ∧ Fits maxValueLength value
  simp only [entryViolations, List.append_eq_nil_iff, ite_eq_left_iff, List.cons_ne_nil, imp_false, not_not, fits_iff]
  tauto

theorem violations_eq_nil_iff {entries : CustomMetadata} : entries.violations = [] ↔ entries.Admitted := by
  rw [violations]
  split
  · rename_i hmany
    exact iff_of_false (List.cons_ne_nil _ _) fun h => absurd h.few (Nat.not_le.mpr hmany)
  · rename_i hfew
    rw [List.flatMap_eq_nil_iff]
    constructor
    · intro h
      have heach (key value : String) (hmem : entries[key]? = some value) : Fits 128 key ∧ Fits 512 value :=
        entryViolations_eq_nil_iff.mp (h (key, value) (Std.ExtTreeMap.mem_toList_iff_getElem?_eq_some.mpr hmem))
      exact ⟨Nat.not_lt.mp hfew, fun key value hmem => (heach key value hmem).1, fun key value hmem => (heach key value hmem).2⟩
    · rintro h ⟨key, value⟩ hmem
      replace hmem := Std.ExtTreeMap.mem_toList_iff_getElem?_eq_some.mp hmem
      exact entryViolations_eq_nil_iff.mpr ⟨h.keys key value hmem, h.values key value hmem⟩

end CustomMetadata

/-! ## Changes of settings -/

namespace RecordChanges

/-- An expiry that may not be set: a negative one, or one above a bound that the policy sets. -/
def BarsExpiry (policy : Policy) (seconds : Int64) : Prop :=
  seconds.toInt < 0 ∨ ∃ ceiling, policy.deleteVersionAfter = some ceiling ∧ ceiling ≠ 0 ∧ ceiling.toNat < seconds.toInt

/-- Changes that are not admitted under a policy. -/
def Inadmissible (c : RecordChanges) (policy : Policy) : Prop :=
  (∃ seconds, c.deleteVersionAfter = some seconds ∧ BarsExpiry policy seconds) ∨
    ∃ entries, c.customMetadata = some entries ∧ ¬ entries.Admitted

variable {c : RecordChanges} {policy : Policy}

theorem ceiling?_eq_some_iff {ceiling : UInt64} :
    policy.ceiling? = some ceiling ↔ policy.deleteVersionAfter = some ceiling ∧ ceiling ≠ 0 := by
  rw [Policy.ceiling?, Policy.expiry?, Option.filter_eq_some_iff, decide_eq_true_iff, UInt64.pos_iff_ne_zero]

theorem exceeds_iff {seconds : Int64} (h : ¬ seconds < 0) {ceiling : UInt64} :
    ceiling < secondsOf seconds ↔ ceiling.toNat < seconds.toInt := by
  rw [← toNat_secondsOf h, Int.ofNat_lt, UInt64.lt_iff_toNat_lt]

/-- Which expiries are rejected. -/
theorem expiry_rejected_iff {seconds : Int64} :
    (if seconds < 0 then some Rejection.negativeExpiry
      else policy.ceiling?.bind fun ceiling =>
        if ceiling < secondsOf seconds then some (.aboveCeiling (secondsOf seconds) ceiling) else none) = none ↔
      ¬ BarsExpiry policy seconds := by
  rw [BarsExpiry, ← Int64.toInt_zero, ← Int64.lt_iff_toInt_lt]
  split
  · rename_i hneg
    exact iff_of_false (Option.some_ne_none _) (not_not_intro (.inl hneg))
  · rename_i hneg
    simp only [hneg, false_or, Option.bind_eq_none_iff, ceiling?_eq_some_iff, exceeds_iff hneg, ite_eq_right_iff,
      reduceCtorEq, imp_false, not_exists, not_and, and_imp]

/-- Changes are rejected exactly if they are inadmissible. -/
theorem rejection?_eq_none_iff : c.rejection? policy = none ↔ ¬ c.Inadmissible policy := by
  rw [rejection?, Option.or_eq_none_iff, Inadmissible, not_or]
  refine and_congr ?_ ?_
  · simp only [Option.bind_eq_none_iff, expiry_rejected_iff, not_exists, not_and]
  · simp only [Option.bind_eq_none_iff, not_exists, not_and, not_not, ← CustomMetadata.violations_eq_nil_iff]
    refine forall_congr' fun entries => imp_congr_right fun _ => ?_
    split
    · rename_i hnone
      exact iff_of_true rfl hnone
    · rename_i hsome
      exact iff_of_false (Option.some_ne_none _) hsome

end RecordChanges

end Strongbox
