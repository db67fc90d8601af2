/-
  Strongbox.Proofs.Record.Expiry — how long versions last.

  A key may say after how many seconds its versions expire, and so may the policy; zero says nothing.
  What the policy says is also the most that a key may have, so the lesser of the two counts. A
  version that is not destroyed is over when that many seconds have passed since it was created, all
  of it in whole numbers.

  Proved:
  - `lifetime?_cases`: the lifetime that is reckoned with is this one.
  - `expired?_of_isOver`, `expired?_of_not_isOver`: an entry is found to have expired exactly if it is
    over, whatever the number of seconds.
  - `IsDated.amended`, `IsDated.written`: entries keep the times at which they were created.
-/

import Strongbox.Proofs.Record.Amendments
import Strongbox.Proofs.Time.Instant

namespace Strongbox

open Time (Instant)

/-! ## Lifetimes -/

/-- The seconds that the versions of a key last, zero if for ever: its own setting, at most that of the
    policy, or else that of the policy. A setting of zero is none. -/
def KeyRecord.span (r : KeyRecord) (policy : Policy) : Nat :=
  let own := (r.deleteVersionAfter.getD 0).toNat
  let most := (policy.deleteVersionAfter.getD 0).toNat
  if own = 0 then most else if most = 0 then own else min own most

namespace KeyRecord

/-- A setting is none or a positive number. -/
theorem setting_cases (setting : Option UInt64) : (setting.getD 0).toNat = 0 ∧ setting.filter (0 < ·) = none ∨
    (setting.getD 0).toNat ≠ 0 ∧ setting.filter (0 < ·) = some (setting.getD 0) := by
  cases setting with
  | none => exact .inl ⟨rfl, rfl⟩
  | some seconds =>
    by_cases hpos : 0 < seconds
    · have hne : seconds.toNat ≠ 0 := Nat.pos_iff_ne_zero.mp (UInt64.lt_iff_toNat_lt.mp hpos)
      exact .inr ⟨hne, by simp [hpos]⟩
    · have hzero : seconds.toNat = 0 := Nat.eq_zero_of_not_pos fun h => hpos (UInt64.lt_iff_toNat_lt.mpr h)
      obtain rfl : seconds = 0 := UInt64.toNat_inj.mp hzero
      exact .inl ⟨rfl, rfl⟩

theorem toNat_min (a b : UInt64) : (min a b).toNat = min a.toNat b.toNat := by
  show (if a ≤ b then a else b).toNat = _
  split
  · rename_i hle
    rw [UInt64.le_iff_toNat_le] at hle
    omega
  · rename_i hle
    rw [UInt64.le_iff_toNat_le] at hle
    omega

/-- The lifetime that is reckoned with. -/
theorem lifetime?_cases (r : KeyRecord) (policy : Policy) :
    r.span policy = 0 ∧ r.lifetime? policy = none ∨
      ∃ seconds : UInt64, 0 < r.span policy ∧ seconds.toNat = r.span policy ∧ r.lifetime? policy = some seconds := by
  rw [lifetime?, span, Policy.ceiling?, Policy.expiry?]
  rcases setting_cases r.deleteVersionAfter with ⟨hown, hnone⟩ | ⟨hown, hsome⟩
  · rw [hnone, if_pos hown]
    rcases setting_cases policy.deleteVersionAfter with ⟨hmost, hnone'⟩ | ⟨hmost, hsome'⟩
    · exact .inl ⟨hmost, hnone'⟩
    · exact .inr ⟨_, Nat.pos_of_ne_zero hmost, rfl, hsome'⟩
  · rw [hsome, if_neg hown]
    rcases setting_cases policy.deleteVersionAfter with ⟨hmost, hnone'⟩ | ⟨hmost, hsome'⟩
    · rw [hnone', if_pos hmost]
      exact .inr ⟨_, Nat.pos_of_ne_zero hown, rfl, rfl⟩
    · rw [hsome', if_neg hmost]
      exact .inr ⟨_, Nat.lt_min.mpr ⟨Nat.pos_of_ne_zero hown, Nat.pos_of_ne_zero hmost⟩, toNat_min _ _, rfl⟩

end KeyRecord

/-! ## Expiry -/

namespace VersionEntry

variable {entry : VersionEntry} {r : KeyRecord} {policy : Policy} {now : Instant}

/-- It is not destroyed, and the seconds that it lasts are over. -/
def IsOver (entry : VersionEntry) (span : Nat) (now : Instant) : Prop :=
  entry.destroyed = false ∧ 0 < span ∧ entry.createdTime.sinceEpoch + span * 1000000000 ≤ now.sinceEpoch

/-- An entry that is over is found to be, and since when. -/
theorem expired?_of_isOver (hc : entry.createdTime.IsPlain) (hnow : now.IsPlain) (h : entry.IsOver (r.span policy) now) :
    ∃ ending, entry.expired? (r.lifetime? policy) now = some ending ∧
      ending.sinceEpoch = entry.createdTime.sinceEpoch + r.span policy * 1000000000 := by
  obtain ⟨hd, hpos, hover⟩ := h
  rcases r.lifetime?_cases policy with ⟨hzero, _⟩ | ⟨seconds, _, hseconds, hlifetime⟩
  · omega
  · obtain ⟨ending, hending⟩ := Instant.later?_of_le hc hnow hover
    obtain ⟨hplain, hexact⟩ := Instant.sinceEpoch_of_later? hc hending
    have hpast : ending ≤ now := (Instant.le_iff hplain hnow).mpr (hexact ▸ hover)
    refine ⟨ending, ?_, hexact⟩
    rw [expired?, hd, hlifetime, Option.bind_some, hseconds, hending]
    simp [hpast]

/-- An entry that is not over is not found to be, whether or not it could ever be. -/
theorem expired?_of_not_isOver (hc : entry.createdTime.IsPlain) (hnow : now.IsPlain) (h : ¬ entry.IsOver (r.span policy) now) :
    entry.expired? (r.lifetime? policy) now = none := by
  rw [expired?]
  split
  · rfl
  · rename_i hd
    rcases r.lifetime?_cases policy with ⟨_, hlifetime⟩ | ⟨seconds, hpos, hseconds, hlifetime⟩
    · rw [hlifetime, Option.bind_none]
    · rw [hlifetime, Option.bind_some, hseconds, Option.filter_eq_none_iff]
      intro ending hending hpast
      obtain ⟨hplain, hexact⟩ := Instant.sinceEpoch_of_later? hc hending
      rw [decide_eq_true_iff, Instant.le_iff hplain hnow, hexact] at hpast
      exact h ⟨eq_false_of_ne_true hd, hpos, hpast⟩

/-- It is not destroyed, and not deleted by now. -/
def IsVisible (entry : VersionEntry) (now : Instant) : Prop :=
  entry.destroyed = false ∧ ∀ time, entry.deletionTime = some time → ¬ time ≤ now

theorem isReadable_iff : entry.isReadable now = true ↔ entry.IsVisible now := by
  rw [IsVisible, isReadable, Bool.and_eq_true, Bool.not_eq_true', Bool.not_eq_true', isDeleted]
  refine and_congr_right fun _ => ?_
  cases entry.deletionTime with
  | none => exact iff_of_true rfl (by simp)
  | some time => simp

end VersionEntry

/-- A version that expires is destroyed and deleted at the end of its time; nothing else of the record changes
    but where its live range starts and when it was changed. -/
theorem KeyRecord.expired_eq (r : KeyRecord) (now : Instant) (version : UInt64) (entry : VersionEntry) (ending : Instant) :
    ∃ oldest, r.expired now version entry ending = { r with
      versions := r.versions.insert version { entry with destroyed := true, deletionTime := some ending }
      oldestVersion := oldest
      updatedTime := now } := by
  rw [expired, advancedOldest_eq]
  exact ⟨_, rfl⟩

/-! ## Times of creation -/

namespace KeyRecord

variable {r r' : KeyRecord}

/-- No version was created within a leap second. -/
def IsDated (r : KeyRecord) : Prop :=
  ∀ (version : UInt64) (entry : VersionEntry), r.versions[version]? = some entry → entry.createdTime.IsPlain

namespace IsDated

theorem new (key : String) (now : Instant) : (KeyRecord.new key now).IsDated := by
  intro version entry hentry
  cases Std.ExtTreeMap.getElem?_empty.symm.trans hentry

theorem amendment (h : r.IsDated) (ha : r.Amendment r') : r'.IsDated := by
  cases ha with
  | touched => exact h
  | settled => exact h
  | marked entry' hv _ hm =>
    intro version entry hentry
    rw [getElem?_setEntry] at hentry
    split at hentry
    · cases hentry
      exact hm ▸ h _ _ hv
    · exact h version entry hentry
  | advanced =>
    intro version entry hentry
    rw [advancedOldest_versions] at hentry
    exact h version entry hentry
  | pruned kept =>
    intro version entry hentry
    rw [getElem?_pruned] at hentry
    split at hentry
    · cases hentry
    · exact h version entry hentry

theorem amended (h : r.IsDated) (ha : r.Amended r') : r'.IsDated := by
  induction ha with
  | refl => exact h
  | tail _ ha ih => exact ih.amendment ha

theorem written (h : r.IsDated) {now : Instant} (hnow : now.IsPlain) (kept : UInt64) : (r.written now kept).IsDated := by
  intro version entry hentry
  rw [getElem?_written] at hentry
  split at hentry
  · cases hentry
  · split at hentry
    · cases hentry
      exact hnow
    · exact h version entry hentry

end IsDated

end KeyRecord

end Strongbox
