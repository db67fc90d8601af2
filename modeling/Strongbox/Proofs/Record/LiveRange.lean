/-
  Strongbox.Proofs.Record.LiveRange — the lower end of the live range, and when it is tight.

  A version is live if it is listed and not destroyed. The oldest version of a record is tight if
  it is the least live one, or the current one where none is live. Nothing that is live ever lies
  below it, so it is tight exactly if it is live itself or the current version.

  To destroy a version moves the lower end on, up to the next version that is live, and it is tight
  then. A write moves it only past the versions that fall out: it comes to stand at a tombstone if
  the version it stands at was destroyed before, or the first version kept was. Everything else
  leaves the range as it is.

  Proved:
  - `Sound.tight_iff`: when the lower end is tight.
  - `Sound.tight_advancedOldest`: it is tight once it has moved on.
  - `SameRange.tight`: the range alone decides it.
-/

import Strongbox.Proofs.Record.Amendments

namespace Strongbox.KeyRecord

open Time (Instant)

variable {r r' r'' : KeyRecord} {version : UInt64}

/-- The version is listed and not destroyed. -/
def IsLive (r : KeyRecord) (version : UInt64) : Prop :=
  ∃ entry, r.versions[version]? = some entry ∧ entry.destroyed = false

/-- The oldest version is the least live one, or the current one if none is live. -/
def Tight (r : KeyRecord) : Prop :=
  (r.IsLive r.oldestVersion ∧ ∀ version, r.IsLive version → r.oldestVersion ≤ version) ∨
    ((∀ version, ¬ r.IsLive version) ∧ r.oldestVersion = r.currentVersion)

theorem isLive_iff : r.IsLive version ↔ (r.versions[version]?).map VersionEntry.destroyed = some false :=
  Option.map_eq_some_iff.symm

/-- Where it is tight and something is live, the oldest version is the least that is. -/
theorem Tight.oldestVersion_eq (h : r.Tight) (hlive : r.IsLive version) (hleast : ∀ other, r.IsLive other → version ≤ other) :
    r.oldestVersion = version := by
  rcases h with ⟨hold, hbelow⟩ | ⟨hnone, -⟩
  · exact UInt64.le_antisymm (hbelow version hlive) (hleast _ hold)
  · exact absurd hlive (hnone version)

/-! ## Records in order -/

namespace Sound

theorem oldest_le_of_isLive (h : r.Sound) (hlive : r.IsLive version) : r.oldestVersion ≤ version := by
  obtain ⟨entry, he, hd⟩ := hlive
  refine UInt64.not_lt.mp fun hlt => ?_
  rw [h.tombstones version entry he hlt] at hd
  cases hd

theorem oldest_mem (h : r.Sound) (hc : 1 ≤ r.currentVersion) : r.oldestVersion ∈ r.versions := by
  obtain ⟨_, _, hlow, hold, hlisted⟩ := h.listed hc
  exact (hlisted _).mpr ⟨hlow, hold⟩

/-- Nothing live lies below the lower end, so it is tight where it is live or at the current version. -/
theorem tight_iff (h : r.Sound) : r.Tight ↔ r.IsLive r.oldestVersion ∨ r.oldestVersion = r.currentVersion := by
  constructor
  · rintro (⟨hlive, _⟩ | ⟨_, hcurrent⟩)
    · exact .inl hlive
    · exact .inr hcurrent
  · intro hor
    by_cases hlive : r.IsLive r.oldestVersion
    · exact .inl ⟨hlive, fun _ => h.oldest_le_of_isLive⟩
    · have hcurrent := hor.resolve_left hlive
      refine .inr ⟨fun version hversion => hlive ?_, hcurrent⟩
      obtain ⟨entry, he, hd⟩ := hversion
      have htop := (h.bounds (mem_versions_iff.mpr ⟨entry, he⟩)).2
      have hlow := h.oldest_le_of_isLive ⟨entry, he, hd⟩
      rw [← hcurrent] at htop
      rw [UInt64.le_antisymm hlow htop]
      exact ⟨entry, he, hd⟩

end Sound

/-! ## Moving the lower end -/

/-- The lower end moves to a live version if there is one below the current one. -/
theorem firstLive_cases (r : KeyRecord) : r.IsLive r.firstLive ∨ r.firstLive = r.currentVersion := by
  unfold firstLive
  extract_lets live
  cases hlive : live with
  | nil => exact .inr rfl
  | cons first rest =>
    have hmem : first ∈ live := by rw [hlive]; exact List.mem_cons_self
    simp only [live, List.mem_filter, Bool.and_eq_true, Bool.not_eq_true'] at hmem
    exact .inl ⟨first.2, Std.ExtTreeMap.mem_toList_iff_getElem?_eq_some.mp hmem.1, hmem.2.2⟩

theorem isLive_advancedOldest : r.advancedOldest.IsLive version ↔ r.IsLive version := by
  rw [IsLive, advancedOldest_versions, IsLive]

/-- Once a version is destroyed those live are the others that were. -/
theorem isLive_destroyed {entry : VersionEntry} {other : UInt64} (now : Instant) :
    ((r.setEntry version { entry with destroyed := true }).advancedOldest.touch now).IsLive other ↔
      version ≠ other ∧ r.IsLive other := by
  rw [IsLive, touch_versions, advancedOldest_versions, getElem?_setEntry, IsLive]
  by_cases h : version = other
  · rw [if_pos h]
    refine iff_of_false ?_ fun hno => hno.1 h
    rintro ⟨_, ⟨⟩, ⟨⟩⟩
  · rw [if_neg h, and_iff_right h]

theorem Sound.tight_advancedOldest (h : r.Sound) : r.advancedOldest.Tight := by
  rw [h.advancedOldest.tight_iff, isLive_advancedOldest, advancedOldest_currentVersion]
  by_cases hbelow : r.oldestVersion < r.currentVersion
  · rw [KeyRecord.advancedOldest, if_pos hbelow]
    exact r.firstLive_cases
  · rw [KeyRecord.advancedOldest, if_neg hbelow]
    exact .inr (UInt64.le_antisymm h.oldest_le (UInt64.not_lt.mp hbelow))

/-! ## Changes that leave the range -/

/-- The same versions are live, between the same ends. -/
structure SameRange (r r' : KeyRecord) : Prop where
  currentVersion : r'.currentVersion = r.currentVersion
  oldestVersion : r'.oldestVersion = r.oldestVersion
  live : ∀ version, r'.IsLive version ↔ r.IsLive version

namespace SameRange

theorem refl (r : KeyRecord) : SameRange r r := ⟨rfl, rfl, fun _ => Iff.rfl⟩

theorem trans (h : SameRange r r') (h' : SameRange r' r'') : SameRange r r'' where
  currentVersion := h'.currentVersion.trans h.currentVersion
  oldestVersion := h'.oldestVersion.trans h.oldestVersion
  live version := (h'.live version).trans (h.live version)

theorem tight_iff (h : SameRange r r') : r'.Tight ↔ r.Tight := by
  simp only [Tight, h.live, h.oldestVersion, h.currentVersion]

end SameRange

/-- A revision that destroys nothing leaves the range, unless it moves the lower end. -/
theorem Revises.sameRange (h : Revises [] r r') (hold : r'.oldestVersion = r.oldestVersion) : SameRange r r' where
  currentVersion := h.currentVersion
  oldestVersion := hold
  live version := by
    have hd := h.destroyed version
    simp only [List.not_mem_nil, decide_false, Bool.or_false] at hd
    rw [isLive_iff, isLive_iff, hd]

theorem foldl_oldestVersion {α : Type} {change : KeyRecord → α → KeyRecord}
    (h : ∀ r a, (change r a).oldestVersion = r.oldestVersion) (as : List α) (r : KeyRecord) :
    (as.foldl change r).oldestVersion = r.oldestVersion := by
  induction as generalizing r with
  | nil => rfl
  | cons a as ih => rw [List.foldl_cons, ih, h]

theorem markDeleted_oldestVersion (now : Instant) (r : KeyRecord) (version : UInt64) :
    (r.markDeleted now version).oldestVersion = r.oldestVersion := by
  unfold markDeleted
  split
  · split <;> rfl
  · rfl

theorem clearDeleted_oldestVersion (r : KeyRecord) (version : UInt64) :
    (r.clearDeleted version).oldestVersion = r.oldestVersion := by
  unfold clearDeleted
  split
  · split <;> rfl
  · rfl

/-! ## Writes -/

/-- A write lists its version, and it is live. -/
theorem isLive_written (r : KeyRecord) (now : Instant) (kept : UInt64) : (r.written now kept).IsLive (r.currentVersion + 1) :=
  ⟨_, r.getElem?_written_next now kept, rfl⟩

/-- After a write the lower end is tight unless it stands at a tombstone. -/
theorem Sound.tight_written_iff {now : Instant} {kept : UInt64} (h : (r.written now kept).Sound) :
    (r.written now kept).Tight ↔ (r.written now kept).IsLive (r.written now kept).oldestVersion := by
  rw [h.tight_iff, or_iff_left_of_imp]
  intro hcurrent
  rw [hcurrent, written_currentVersion]
  exact r.isLive_written now kept

/-- Where the oldest version is a tombstone after a write, the one written is live above it. -/
theorem not_tight_written {now : Instant} {kept : UInt64} {entry : VersionEntry}
    (he : (r.written now kept).versions[(r.written now kept).oldestVersion]? = some entry) (hd : entry.destroyed = true) :
    ¬ (r.written now kept).Tight := by
  rintro (⟨⟨other, hother, hlive⟩, -⟩ | ⟨hnone, -⟩)
  · rw [← Option.some.inj (he.symm.trans hother), hd] at hlive
    cases hlive
  · exact hnone _ (r.isLive_written now kept)

end Strongbox.KeyRecord
