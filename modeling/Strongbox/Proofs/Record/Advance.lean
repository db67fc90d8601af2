/-
  Strongbox.Proofs.Record.Advance — where the lower end of the live range comes to stand, for any record.

  The lower end walks upwards one number at a time while it is below the current version and stands
  at a number that is spent. Nothing is assumed of the record: versions may be missing, lie outside
  the range, or the oldest version above the current one. The walk ends after as many turns as the
  lower end has moved, and no turn passes the greatest number, since each starts below the current
  version.

  Proved:
  - `walk_advancedOldest`: the walk ends, in the record with the lower end moved.
  - `isLeast_advancedOldest`: the lower end stands at the least live version, or else the current one.
  - `advancedOldest_mono`: the fewer versions are live, the further it moves.
  - `advancedOldest_exact`: all of it.
-/

import Mathlib.Order.Bounds.Basic
import Strongbox.Proofs.Record.LiveRange

namespace Strongbox.KeyRecord

variable {r r' : KeyRecord} {version target : UInt64}

/-! ## The walk -/

/-- The lower end lies below the current version, at a number that is spent. -/
def MayMove (r : KeyRecord) : Prop := r.oldestVersion < r.currentVersion ∧ r.isSpent r.oldestVersion = true

/-- The record with its lower end at another number. -/
def withOldest (r : KeyRecord) (version : UInt64) : KeyRecord := { r with oldestVersion := version }

/-- So many turns, each to the next number and none around to zero, until the lower end may not move. -/
inductive Walk : Nat → KeyRecord → KeyRecord → Prop
  | done {r : KeyRecord} : ¬ r.MayMove → Walk 0 r r
  | turn {turns : Nat} {r r' : KeyRecord} : r.MayMove → (r.oldestVersion + 1).toNat = r.oldestVersion.toNat + 1 →
      Walk turns (r.withOldest (r.oldestVersion + 1)) r' → Walk (turns + 1) r r'

/-- A number is spent if no live version has it. -/
theorem isSpent_iff : r.isSpent version = true ↔ ¬ r.IsLive version := by
  unfold isSpent IsLive
  cases r.versions[version]? with
  | none => simp
  | some entry => simp

/-- The walk passes the numbers that are spent and ends at the first that holds it. -/
theorem walk_withOldest (hle : r.oldestVersion ≤ target)
    (hpassed : ∀ version, r.oldestVersion ≤ version → version < target → version < r.currentVersion ∧ r.isSpent version = true)
    (hstop : ¬ (r.withOldest target).MayMove) :
    Walk (target.toNat - r.oldestVersion.toNat) r (r.withOldest target) := by
  -- along the distance that is left
  generalize hturns : target.toNat - r.oldestVersion.toNat = turns
  rw [UInt64.le_iff_toNat_le] at hle
  induction turns generalizing r with
  | zero =>
    have hhere : r.oldestVersion = target := UInt64.toNat_inj.mp (by omega)
    subst hhere
    exact .done hstop
  | succ turns ih =>
    have hbelow : r.oldestVersion < target := UInt64.lt_iff_toNat_lt.mpr (by omega)
    have hnext := toNat_add_one_of_lt hbelow
    refine .turn (hpassed _ (UInt64.le_refl _) hbelow) hnext (ih (r := r.withOldest (r.oldestVersion + 1)) ?_ ?_ hstop ?_)
    · show (r.oldestVersion + 1).toNat ≤ target.toNat
      omega
    · intro version hversion
      refine hpassed version (UInt64.le_trans ?_ hversion)
      rw [UInt64.le_iff_toNat_le]
      exact hnext ▸ Nat.le_succ _
    · show target.toNat - (r.oldestVersion + 1).toNat = turns
      omega

theorem advancedOldest_eq_self (h : r.currentVersion ≤ r.oldestVersion) : r.advancedOldest = r :=
  if_neg (UInt64.not_lt.mpr h)

/-- Once moved, the lower end is held. -/
theorem not_mayMove_advancedOldest (r : KeyRecord) : ¬ r.advancedOldest.MayMove := by
  intro ⟨hlt, hspent⟩
  rw [isSpent_iff, isLive_advancedOldest] at hspent
  rw [advancedOldest_currentVersion] at hlt
  by_cases hbelow : r.oldestVersion < r.currentVersion
  · rw [advancedOldest, if_pos hbelow] at hlt hspent
    rcases r.firstLive_cases with hlive | hcurrent
    · exact hspent hlive
    · exact UInt64.lt_irrefl _ (hcurrent ▸ hlt)
  · rw [advancedOldest, if_neg hbelow] at hlt
    exact hbelow hlt

theorem advancedOldest_eq_withOldest (r : KeyRecord) : r.advancedOldest = r.withOldest r.advancedOldest.oldestVersion :=
  r.advancedOldest_eq

/-- The walk ends, in the record with the lower end moved. -/
theorem walk_advancedOldest (r : KeyRecord) :
    Walk (r.advancedOldest.oldestVersion.toNat - r.oldestVersion.toNat) r r.advancedOldest := by
  have hwalk := walk_withOldest r.oldestVersion_le_advanced ?_
    (r.advancedOldest_eq_withOldest ▸ r.not_mayMove_advancedOldest)
  · rwa [← advancedOldest_eq_withOldest] at hwalk
  · intro version hle hlt
    have hbelow : r.oldestVersion < r.currentVersion := by
      refine UInt64.not_le.mp fun hge => ?_
      rw [advancedOldest_eq_self hge] at hlt
      exact UInt64.lt_irrefl _ (UInt64.lt_of_le_of_lt hle hlt)
    refine ⟨UInt64.lt_of_lt_of_le hlt (advanced_le_currentVersion (UInt64.le_of_lt hbelow)), isSpent_iff.mpr ?_⟩
    intro ⟨entry, he, hd⟩
    rw [destroyed_of_lt_advanced he hle hlt] at hd
    cases hd

/-! ## Where it ends -/

/-- The numbers at which the lower end may stand: those of live versions in the range, and the current one. -/
def Stops (r : KeyRecord) : Set UInt64 :=
  {version | r.oldestVersion ≤ version ∧ version ≤ r.currentVersion ∧ (version = r.currentVersion ∨ r.IsLive version)}

theorem isLeast_advancedOldest (h : r.oldestVersion < r.currentVersion) :
    IsLeast r.Stops r.advancedOldest.oldestVersion := by
  have htop := advanced_le_currentVersion (UInt64.le_of_lt h)
  constructor
  · refine ⟨r.oldestVersion_le_advanced, htop, ?_⟩
    rw [advancedOldest, if_pos h]
    exact r.firstLive_cases.symm
  · rintro version ⟨hle, -, hstop⟩
    refine UInt64.not_lt.mp fun hlt => ?_
    rcases hstop with rfl | ⟨entry, he, hd⟩
    · exact UInt64.lt_irrefl _ (UInt64.lt_of_lt_of_le hlt htop)
    · rw [destroyed_of_lt_advanced he hle hlt] at hd
      cases hd

/-- A lower end that is held stays where it is. -/
theorem advancedOldest_of_not_mayMove (h : ¬ r.MayMove) : r.advancedOldest = r := by
  by_cases hbelow : r.oldestVersion < r.currentVersion
  · have hlive : r.IsLive r.oldestVersion := by
      by_contra hdead
      exact h ⟨hbelow, isSpent_iff.mpr hdead⟩
    have hleast := (isLeast_advancedOldest hbelow).2 ⟨UInt64.le_refl _, UInt64.le_of_lt hbelow, .inr hlive⟩
    rw [advancedOldest_eq_withOldest, UInt64.le_antisymm hleast r.oldestVersion_le_advanced]
    rfl
  · exact advancedOldest_eq_self (UInt64.not_lt.mp hbelow)

/-- The fewer versions are live, the further the lower end moves. -/
theorem advancedOldest_mono (hold : r'.oldestVersion = r.oldestVersion) (hcurrent : r'.currentVersion = r.currentVersion)
    (hlive : ∀ version, r'.IsLive version → r.IsLive version) :
    r.advancedOldest.oldestVersion ≤ r'.advancedOldest.oldestVersion := by
  by_cases hbelow : r.oldestVersion < r.currentVersion
  · obtain ⟨hle, htop, hstop⟩ := (isLeast_advancedOldest (r := r') (by rwa [hold, hcurrent])).1
    rw [hold] at hle
    rw [hcurrent] at htop hstop
    exact (isLeast_advancedOldest hbelow).2 ⟨hle, htop, hstop.imp_right (hlive _)⟩
  · rw [advancedOldest_eq_self (UInt64.not_lt.mp hbelow), ← hold]
    exact r'.oldestVersion_le_advanced

theorem isLive_of_isLive_destroying {versions : List UInt64} (h : (destroying versions r).2.IsLive version) : r.IsLive version := by
  obtain ⟨entry', he', hd'⟩ := h
  rw [(destroys_destroying versions r).entries] at he'
  obtain ⟨entry, he, rfl⟩ := Option.map_eq_some_iff.mp he'
  refine ⟨entry, he, ?_⟩
  split at hd'
  · cases hd'
  · exact hd'

/-- For any record the walk of the lower end comes to an end and changes nothing else. It stays where
    it is unless it lies below the current version, and then stops at the least number in the range
    that is live or current. To walk again changes nothing, and to destroy versions first never
    makes it stop earlier. -/
theorem advancedOldest_exact (r : KeyRecord) :
    Walk (r.advancedOldest.oldestVersion.toNat - r.oldestVersion.toNat) r r.advancedOldest ∧
    r.advancedOldest = { r with oldestVersion := r.advancedOldest.oldestVersion } ∧
    (r.currentVersion ≤ r.oldestVersion → r.advancedOldest = r) ∧
    (r.oldestVersion < r.currentVersion →
      IsLeast {version | r.oldestVersion ≤ version ∧ version ≤ r.currentVersion ∧
        (version = r.currentVersion ∨ ∃ entry, r.versions[version]? = some entry ∧ entry.destroyed = false)}
        r.advancedOldest.oldestVersion) ∧
    r.advancedOldest.advancedOldest = r.advancedOldest ∧
    ∀ versions, r.advancedOldest.oldestVersion ≤ (destroying versions r).2.advancedOldest.oldestVersion := by
  refine ⟨r.walk_advancedOldest, r.advancedOldest_eq, advancedOldest_eq_self, isLeast_advancedOldest,
    advancedOldest_of_not_mayMove r.not_mayMove_advancedOldest, fun versions => ?_⟩
  have hothers := (destroys_destroying versions r).others
  exact advancedOldest_mono (by rw [hothers]) (by rw [hothers]) fun _ => isLive_of_isLive_destroying

/-- A record whose only version lies in the middle of its range, and one whose oldest version lies
    above the current one. -/
theorem advancedOldest_of_sparse_and_inverted :
    let sparse : KeyRecord := { KeyRecord.new "k" .epoch with
      versions := (∅ : VersionTable).insert 4 { createdTime := .epoch }, currentVersion := 9, oldestVersion := 2 }
    let inverted : KeyRecord := { sparse with currentVersion := 1 }
    (sparse.oldestVersion < sparse.currentVersion ∧ sparse.advancedOldest.oldestVersion = 4) ∧
      inverted.currentVersion ≤ inverted.oldestVersion ∧ inverted.advancedOldest = inverted := by
  intro sparse inverted
  have hbelow : sparse.oldestVersion < sparse.currentVersion := by decide
  have hinverted : inverted.currentVersion ≤ inverted.oldestVersion := by decide
  refine ⟨⟨hbelow, ?_⟩, hinverted, (advancedOldest_exact inverted).2.2.1 hinverted⟩
  obtain ⟨⟨_, _, hstop⟩, hleast⟩ := (advancedOldest_exact sparse).2.2.2.1 hbelow
  refine UInt64.le_antisymm (hleast ?_) ?_
  · exact ⟨by decide, by decide, .inr ⟨{ createdTime := .epoch }, Std.ExtTreeMap.getElem?_insert_self, rfl⟩⟩
  · rcases hstop with hcurrent | ⟨entry, he, _⟩
    · rw [hcurrent]
      decide
    · have hlisted : (if compare 4 sparse.advancedOldest.oldestVersion = .eq then _ else _) = some entry :=
        Std.ExtTreeMap.getElem?_insert.symm.trans he
      split at hlisted
      · rename_i heq
        exact UInt64.le_of_eq (Std.compare_eq_iff_eq.mp heq)
      · rw [Std.ExtTreeMap.getElem?_empty] at hlisted
        cases hlisted

end Strongbox.KeyRecord
