/-
  Strongbox.Proofs.Record.Settings — the settings of a record.

  How many versions are kept, whether writes must name the current version, when versions expire and
  the free entries are set by changes of the settings, and by nothing else. What a change does not
  supply stays as it is.

  Proved:
  - `settings_underPolicy`: what a change makes of the settings.
  - `settings_written`, `settings_markDeleted`, `settings_clearDeleted`, `settings_destroying`,
    `settings_expired`: every other change of a record leaves them alone.
  - `toNat_secondsOf`: seconds that are not rejected are stored as they are.
-/

import Strongbox.Proofs.Record.Changes

namespace Strongbox

open Time (Instant)

/-- Seconds that are not negative keep their value. -/
theorem toNat_secondsOf {n : Int64} (h : ¬ n < 0) : ((secondsOf n).toNat : Int) = n.toInt := by
  have hle : (0 : Int64) ≤ n := Int64.not_lt.mp h
  rw [secondsOf, Int64.toNat_toUInt64_of_le hle, ← Int64.toNat_toInt]
  exact Int.toNat_of_nonneg (Int64.le_iff_toInt_le.mp hle)

/-- What a record says of itself, apart from its versions; at first nothing is set. -/
structure Settings where
  maxVersions : UInt32 := 0
  casRequired : Bool := false
  deleteVersionAfter : Option UInt64 := none
  customMetadata : CustomMetadata := ∅

/-- The settings after a change: each value supplied, or else the one there was. A requirement that
    the policy mandates is not waived. -/
def Settings.updated (policy : Policy) (c : RecordChanges) (s : Settings) : Settings where
  maxVersions := c.maxVersions.getD s.maxVersions
  casRequired := (c.casRequired.map (· || policy.casRequired)).getD s.casRequired
  deleteVersionAfter := (c.deleteVersionAfter.map secondsOf).or s.deleteVersionAfter
  customMetadata := c.customMetadata.getD s.customMetadata

/-- A change without updates supplies nothing at all. -/
theorem RecordChanges.eq_of_no_updates {c : RecordChanges} (h : c.hasUpdates = false) : c = {} := by
  obtain ⟨maxVersions, casRequired, deleteVersionAfter, customMetadata⟩ := c
  simp only [hasUpdates, Bool.or_eq_false_iff, Option.isSome_eq_false_iff, Option.isNone_iff_eq_none] at h
  obtain ⟨⟨⟨rfl, rfl⟩, rfl⟩, rfl⟩ := h
  rfl

/-- A change that supplies nothing changes nothing. -/
theorem Settings.updated_of_no_updates {c : RecordChanges} (h : c.hasUpdates = false) (policy : Policy) (s : Settings) :
    s.updated policy c = s := by
  rw [RecordChanges.eq_of_no_updates h]
  rfl

namespace KeyRecord

def settings (r : KeyRecord) : Settings := ⟨r.maxVersions, r.casRequired, r.deleteVersionAfter, r.customMetadata⟩

variable (r : KeyRecord)

@[simp] theorem settings_touch (now : Instant) : (r.touch now).settings = r.settings := rfl

@[simp] theorem settings_setEntry (version : UInt64) (entry : VersionEntry) : (r.setEntry version entry).settings = r.settings :=
  rfl

@[simp] theorem settings_advancedOldest : r.advancedOldest.settings = r.settings := by
  rw [advancedOldest]
  split <;> rfl

@[simp] theorem settings_pruned (kept : UInt64) : (r.pruned kept).settings = r.settings := by
  unfold pruned
  split <;> rfl

/-! ## Changes of the settings -/

/-- What a change of the settings makes of them. -/
theorem settings_underPolicy (c : RecordChanges) (policy : Policy) :
    ((c.underPolicy policy).1.apply r).settings = r.settings.updated policy c := by
  obtain ⟨maxVersions, casRequired, deleteVersionAfter, customMetadata⟩ := c
  unfold RecordChanges.underPolicy
  split
  · -- waived, but mandated
    rename_i hwaived
    obtain ⟨hwaived, hmandated⟩ := hwaived
    replace hwaived : casRequired = some false := hwaived
    simp only [settings, RecordChanges.apply, Settings.updated, hwaived, hmandated, Option.map_some, Bool.or_true]
  · rename_i hkept
    have hcas : casRequired.map (· || policy.casRequired) = casRequired := by
      cases casRequired with
      | none => rfl
      | some required =>
        cases required with
        | true => rfl
        | false => exact congrArg some (eq_false_of_ne_true fun hmandated => hkept ⟨rfl, hmandated⟩)
    simp only [settings, RecordChanges.apply, Settings.updated, hcas]

/-! ## All other changes -/

theorem settings_written (now : Instant) (kept : UInt64) : (r.written now kept).settings = r.settings := by
  rw [written, settings_touch, settings_pruned]
  rfl

theorem settings_foldl {α : Type} {change : KeyRecord → α → KeyRecord} (h : ∀ r a, (change r a).settings = r.settings)
    (as : List α) : (as.foldl change r).settings = r.settings := by
  induction as generalizing r with
  | nil => rfl
  | cons a as ih => exact (ih (change r a)).trans (h r a)

theorem settings_markDeleted (now : Instant) (version : UInt64) : (r.markDeleted now version).settings = r.settings := by
  unfold markDeleted
  split
  · split <;> rfl
  · rfl

theorem settings_clearDeleted (version : UInt64) : (r.clearDeleted version).settings = r.settings := by
  unfold clearDeleted
  split
  · split <;> rfl
  · rfl

theorem settings_destroying (versions : List UInt64) : (destroying versions r).2.settings = r.settings := by
  rw [(destroys_destroying versions r).others]
  rfl

theorem settings_expired (now : Instant) (version : UInt64) (entry : VersionEntry) (expiredAt : Instant) :
    (r.expired now version entry expiredAt).settings = r.settings := by
  rw [expired, settings_touch, settings_advancedOldest, settings_setEntry]

end KeyRecord

end Strongbox
