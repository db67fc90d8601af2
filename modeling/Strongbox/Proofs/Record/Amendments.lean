/-
  Strongbox.Proofs.Record.Amendments — the single changes of a record, and what each of them keeps.

  Whatever a request makes of a record, other than one more version, comes about by single
  changes of five kinds: it is touched, its settings change, the entry of a version that is not
  destroyed is replaced by one made at the same time, the lower end of the live range moves past
  the versions that are spent, or versions fall out. What each of these keeps is kept by every
  chain of them, and so by every request.

  Proved:
  - `Sound.amended`, `Sound.written`: numbers and entries stay in order.
  - `Ages.amended`, `Ages.written`: what is settled about a version is never taken back.
  - `Capped.amended`, `Capped.written`: no version above the current one comes to be listed.
-/

import Strongbox.Proofs.Record.Changes
import Mathlib.Logic.Relation

namespace Strongbox

open Time (Instant)

namespace KeyRecord

variable {r r' r'' : KeyRecord}

/-! ## Numbers -/

theorem one_le_of_ne_zero {n : UInt64} (h : n ≠ 0) : 1 ≤ n := by
  rw [UInt64.le_iff_toNat_le, UInt64.toNat_one]
  exact Nat.one_le_iff_ne_zero.mpr fun h0 => h (UInt64.toNat_inj.mp h0)

theorem toNat_add_one_of_lt {a b : UInt64} (h : a < b) : (a + 1).toNat = a.toNat + 1 := by
  have hlt := UInt64.lt_iff_toNat_lt.mp h
  have hbound := b.toNat_lt
  rw [UInt64.toNat_add, UInt64.toNat_one]
  exact Nat.mod_eq_of_lt (by omega)

theorem mem_versions_iff {version : UInt64} : version ∈ r.versions ↔ ∃ entry, r.versions[version]? = some entry :=
  Std.ExtTreeMap.mem_iff_isSome_getElem?.trans Option.isSome_iff_exists

/-! ## The lower end of the live range -/

/-- From the oldest version up to the first live one there is none that is live. -/
theorem firstLive_spec (h : r.oldestVersion < r.currentVersion) :
    r.oldestVersion ≤ r.firstLive ∧ r.firstLive ≤ r.currentVersion ∧
      ∀ version entry, r.versions[version]? = some entry → r.oldestVersion ≤ version → version < r.firstLive →
        entry.destroyed = true := by
  unfold firstLive
  extract_lets live
  have hlive : ∀ version entry, (version, entry) ∈ live ↔ r.versions[version]? = some entry ∧
      (r.oldestVersion ≤ version ∧ version < r.currentVersion) ∧ entry.destroyed = false := by
    intro version entry
    simp [live, Std.ExtTreeMap.mem_toList_iff_getElem?_eq_some]
  have hsorted : live.Pairwise fun a b => compare a.1 b.1 = .lt := Std.ExtTreeMap.ordered_keys_toList.filter _
  generalize live = live at hlive hsorted
  cases live with
  | nil =>
    refine ⟨UInt64.le_of_lt h, UInt64.le_refl _, ?_⟩
    intro version entry he hle hlt
    refine Bool.of_not_eq_false fun hd => ?_
    exact List.not_mem_nil ((hlive version entry).mpr ⟨he, ⟨hle, hlt⟩, hd⟩)
  | cons first rest =>
    obtain ⟨_, ⟨hle, hlt⟩, _⟩ := (hlive first.1 first.2).mp List.mem_cons_self
    refine ⟨hle, UInt64.le_of_lt hlt, ?_⟩
    intro version entry he hoge hbelow
    replace hbelow : version < first.1 := hbelow
    refine Bool.of_not_eq_false fun hd => ?_
    -- a live version is the first one or stands after it
    rcases List.mem_cons.mp ((hlive version entry).mpr ⟨he, ⟨hoge, UInt64.lt_trans hbelow hlt⟩, hd⟩) with rfl | hrest
    · exact UInt64.lt_irrefl _ hbelow
    · have hafter := Std.compare_eq_lt.mp ((List.pairwise_cons.mp hsorted).1 _ hrest)
      exact UInt64.lt_irrefl _ (UInt64.lt_trans hbelow hafter)

theorem advancedOldest_eq (r : KeyRecord) :
    r.advancedOldest = { r with oldestVersion := r.advancedOldest.oldestVersion } := by
  rw [advancedOldest]
  split <;> rfl

theorem oldestVersion_le_advanced (r : KeyRecord) : r.oldestVersion ≤ r.advancedOldest.oldestVersion := by
  rw [advancedOldest]
  split
  · rename_i hlt
    exact (firstLive_spec hlt).1
  · exact UInt64.le_refl _

theorem advanced_le_currentVersion (h : r.oldestVersion ≤ r.currentVersion) :
    r.advancedOldest.oldestVersion ≤ r.currentVersion := by
  rw [advancedOldest]
  split
  · rename_i hlt
    exact (firstLive_spec hlt).2.1
  · exact h

/-- The versions that the lower end moves past are destroyed. -/
theorem destroyed_of_lt_advanced {version : UInt64} {entry : VersionEntry} (he : r.versions[version]? = some entry)
    (hle : r.oldestVersion ≤ version) (hlt : version < r.advancedOldest.oldestVersion) : entry.destroyed = true := by
  rw [advancedOldest] at hlt
  split at hlt
  · rename_i hbelow
    exact (firstLive_spec hbelow).2.2 version entry he hle hlt
  · exact absurd hlt (UInt64.not_lt.mpr hle)

/-! ## Versions that fall out -/

@[simp] theorem dropUpTo_currentVersion (cutoff : UInt64) : (r.dropUpTo cutoff).currentVersion = r.currentVersion := rfl

theorem getElem?_dropUpTo (cutoff version : UInt64) :
    (r.dropUpTo cutoff).versions[version]? = if cutoff < version then r.versions[version]? else none := by
  simp only [dropUpTo, Std.ExtTreeMap.getElem?_filter']
  cases r.versions[version]? with
  | none => simp
  | some entry => by_cases hlt : cutoff < version <;> simp [hlt]

theorem mem_dropUpTo {cutoff version : UInt64} :
    version ∈ (r.dropUpTo cutoff).versions ↔ version ∈ r.versions ∧ cutoff < version := by
  rw [dropUpTo, Std.ExtTreeMap.mem_filter]
  simp

theorem oldestVersion_dropUpTo {cutoff : UInt64} (h : cutoff < r.currentVersion) :
    (r.dropUpTo cutoff).oldestVersion.toNat = max r.oldestVersion.toNat (cutoff.toNat + 1) := by
  have hnext := toNat_add_one_of_lt h
  show (if r.oldestVersion ≤ cutoff + 1 then cutoff + 1 else r.oldestVersion).toNat = _
  split
  · rename_i hle
    rw [UInt64.le_iff_toNat_le] at hle
    omega
  · rename_i hle
    rw [UInt64.le_iff_toNat_le] at hle
    omega

/-! ## One more version -/

theorem mem_appended {now : Instant} {version : UInt64} :
    version ∈ (r.appended now).versions ↔ r.currentVersion + 1 = version ∨ version ∈ r.versions := by
  rw [appended, appendVersion, Std.ExtTreeMap.mem_insert, Std.LawfulEqCmp.compare_eq_iff_eq]

theorem toNat_oldestVersion_appended (r : KeyRecord) (now : Instant) :
    (r.appended now).oldestVersion.toNat = max r.oldestVersion.toNat 1 := by
  show (if r.oldestVersion = 0 then 1 else r.oldestVersion).toNat = _
  split
  · rename_i hzero
    rw [hzero]
    rfl
  · rename_i hne
    have hpos : r.oldestVersion.toNat ≠ 0 := fun h0 => hne (UInt64.toNat_inj.mp h0)
    omega

/-! ## Single changes -/

/-- A single change of a record, other than one more version. -/
inductive Amendment (r : KeyRecord) : KeyRecord → Prop
  | touched (now : Instant) : Amendment r (r.touch now)
  /-- The settings changed, and the free entries are admitted if they did. -/
  | settled (changes : RecordChanges) (hc : ∀ entries, changes.customMetadata = some entries → entries.violations = []) :
    Amendment r (changes.apply r)
  /-- The entry of a version that is not destroyed was replaced by one made at the same time. -/
  | marked {version : UInt64} {entry : VersionEntry} (entry' : VersionEntry) (hv : r.versions[version]? = some entry)
    (hd : entry.destroyed = false) (hm : entry'.createdTime = entry.createdTime) : Amendment r (r.setEntry version entry')
  | advanced : Amendment r r.advancedOldest
  | pruned (kept : UInt64) : Amendment r (r.pruned kept)

/-- A chain of single changes. -/
abbrev Amended : KeyRecord → KeyRecord → Prop := Relation.ReflTransGen Amendment

theorem Amended.of_foldl {α : Type} {change : KeyRecord → α → KeyRecord} (h : ∀ r a, Amended r (change r a)) (as : List α)
    (r : KeyRecord) : Amended r (as.foldl change r) := by
  induction as generalizing r with
  | nil => exact .refl
  | cons a as ih => exact (h r a).trans (ih (change r a))

/-- No single change lists another version. -/
theorem Amendment.mem_versions {version : UInt64} (ha : Amendment r r') (h : version ∈ r'.versions) : version ∈ r.versions := by
  cases ha with
  | touched => exact h
  | settled => exact h
  | @marked marked entry entry' hv _ _ =>
    rw [mem_versions_iff] at h ⊢
    obtain ⟨found, hfound⟩ := h
    rw [getElem?_setEntry] at hfound
    split at hfound
    · rename_i hmarked
      exact ⟨entry, hmarked ▸ hv⟩
    · exact ⟨found, hfound⟩
  | advanced => rwa [advancedOldest_versions] at h
  | pruned kept =>
    rw [mem_versions_iff] at h ⊢
    obtain ⟨found, hfound⟩ := h
    rw [getElem?_pruned] at hfound
    split at hfound
    · cases hfound
    · exact ⟨found, hfound⟩

theorem Amended.mem_versions {version : UInt64} (ha : Amended r r') (h : version ∈ r'.versions) : version ∈ r.versions := by
  induction ha with
  | refl => exact h
  | tail _ hlast ih => exact ih (hlast.mem_versions h)

theorem amended_markDeleted (now : Instant) (r : KeyRecord) (version : UInt64) : Amended r (r.markDeleted now version) := by
  unfold markDeleted
  cases hv : r.versions[version]? with
  | none => exact .refl
  | some entry =>
    show Amended r (if entry.isReadable now then _ else _)
    split
    · rename_i hr
      rw [VersionEntry.isReadable, Bool.and_eq_true, Bool.not_eq_true'] at hr
      exact .single (.marked _ hv hr.1 rfl)
    · exact .refl

theorem amended_clearDeleted (r : KeyRecord) (version : UInt64) : Amended r (r.clearDeleted version) := by
  unfold clearDeleted
  cases hv : r.versions[version]? with
  | none => exact .refl
  | some entry =>
    show Amended r (if entry.destroyed then _ else _)
    split
    · exact .refl
    · rename_i hd
      exact .single (.marked _ hv (Bool.eq_false_iff.mpr hd) rfl)

theorem amended_destroying (versions : List UInt64) (r : KeyRecord) : Amended r (destroying versions r).2 := by
  induction versions generalizing r with
  | nil => exact .refl
  | cons version rest ih =>
    unfold destroying
    cases hv : r.versions[version]? with
    | none => exact ih r
    | some entry =>
      by_cases hd : entry.destroyed
      · simp only [hd, if_true]
        exact ih r
      · simp only [hd, Bool.false_eq_true, if_false]
        exact .head (.marked { entry with destroyed := true } hv (Bool.eq_false_iff.mpr hd) rfl) (ih _)

theorem amended_expired {version : UInt64} {entry : VersionEntry} (hv : r.versions[version]? = some entry)
    (hd : entry.destroyed = false) (now expiredAt : Instant) : Amended r (r.expired now version entry expiredAt) :=
  .head (.marked { entry with destroyed := true, deletionTime := some expiredAt } hv hd rfl)
    (.head .advanced (.single (.touched now)))

/-! ## Records in order -/

/-- Numbers and entries of a record are in order. The versions listed are those from some number on
    up to the current one, the lower end of the live range is among these, and what is listed below it
    is destroyed. Before the first version there is neither. -/
structure Sound (r : KeyRecord) : Prop where
  unwritten : r.currentVersion = 0 → r.oldestVersion = 0 ∧ r.versions = ∅
  listed : 1 ≤ r.currentVersion → ∃ lowest, 1 ≤ lowest ∧ lowest ≤ r.oldestVersion ∧ r.oldestVersion ≤ r.currentVersion ∧
    ∀ version, version ∈ r.versions ↔ lowest ≤ version ∧ version ≤ r.currentVersion
  tombstones : ∀ version entry, r.versions[version]? = some entry → version < r.oldestVersion → entry.destroyed = true
  admitted : r.customMetadata.violations = []

namespace Sound

theorem new (key : String) (now : Instant) : (KeyRecord.new key now).Sound where
  unwritten _ := ⟨rfl, rfl⟩
  listed h := absurd h (by decide : ¬ (1 : UInt64) ≤ 0)
  tombstones version entry he := by
    replace he : (∅ : VersionTable)[version]? = some entry := he
    rw [Std.ExtTreeMap.getElem?_empty] at he
    cases he
  admitted := rfl

theorem oldest_le (h : r.Sound) : r.oldestVersion ≤ r.currentVersion := by
  by_cases hc : r.currentVersion = 0
  · rw [(h.unwritten hc).1]
    exact UInt64.zero_le
  · obtain ⟨_, _, _, hold, _⟩ := h.listed (one_le_of_ne_zero hc)
    exact hold

/-- What is listed has a number that was handed out. -/
theorem bounds (h : r.Sound) {version : UInt64} (hv : version ∈ r.versions) : 1 ≤ version ∧ version ≤ r.currentVersion := by
  by_cases hc : r.currentVersion = 0
  · rw [(h.unwritten hc).2] at hv
    exact absurd hv Std.ExtTreeMap.not_mem_empty
  · obtain ⟨_, hone, _, _, hlisted⟩ := h.listed (one_le_of_ne_zero hc)
    obtain ⟨hlow, htop⟩ := (hlisted version).mp hv
    exact ⟨UInt64.le_trans hone hlow, htop⟩

/-- An entry of a version that is not destroyed is replaced. -/
theorem setEntry (h : r.Sound) {version : UInt64} {entry : VersionEntry} (entry' : VersionEntry)
    (hv : r.versions[version]? = some entry) (hd : entry.destroyed = false) : (r.setEntry version entry').Sound where
  unwritten hc := by
    rw [(h.unwritten hc).2, Std.ExtTreeMap.getElem?_empty] at hv
    cases hv
  listed hc := by
    obtain ⟨lowest, hone, hlow, hold, hlisted⟩ := h.listed hc
    refine ⟨lowest, hone, hlow, hold, fun other => ?_⟩
    rw [setEntry_currentVersion, ← hlisted, KeyRecord.setEntry, Std.ExtTreeMap.mem_insert, Std.LawfulEqCmp.compare_eq_iff_eq]
    refine ⟨?_, .inr⟩
    rintro (rfl | hother)
    · exact mem_versions_iff.mpr ⟨entry, hv⟩
    · exact hother
  tombstones other e he hlt := by
    rw [getElem?_setEntry] at he
    split at he
    · rename_i hother
      rw [h.tombstones version entry hv (hother ▸ hlt)] at hd
      cases hd
    · exact h.tombstones other e he hlt
  admitted := h.admitted

theorem advancedOldest (h : r.Sound) : r.advancedOldest.Sound where
  unwritten hc := by
    rw [advancedOldest_currentVersion] at hc
    rw [advancedOldest_versions, KeyRecord.advancedOldest, hc, if_neg UInt64.not_lt_zero]
    exact h.unwritten hc
  listed hc := by
    rw [advancedOldest_currentVersion] at hc
    obtain ⟨lowest, hone, hlow, hold, hlisted⟩ := h.listed hc
    rw [advancedOldest_currentVersion, advancedOldest_versions]
    exact ⟨lowest, hone, UInt64.le_trans hlow r.oldestVersion_le_advanced, advanced_le_currentVersion hold, hlisted⟩
  tombstones version entry he hlt := by
    rw [advancedOldest_versions] at he
    by_cases hle : r.oldestVersion ≤ version
    · exact destroyed_of_lt_advanced he hle hlt
    · exact h.tombstones version entry he (UInt64.not_le.mp hle)
  admitted := by
    rw [advancedOldest_eq]
    exact h.admitted

theorem dropUpTo (h : r.Sound) {cutoff : UInt64} (hcut : cutoff < r.currentVersion) : (r.dropUpTo cutoff).Sound where
  unwritten hc := by
    replace hc : r.currentVersion = 0 := hc
    rw [hc] at hcut
    exact absurd hcut UInt64.not_lt_zero
  listed hc := by
    obtain ⟨lowest, hone, hlow, hold, hlisted⟩ := h.listed hc
    have holdest := oldestVersion_dropUpTo hcut
    have hnext := toNat_add_one_of_lt hcut
    simp only [mem_dropUpTo, hlisted, dropUpTo_currentVersion, UInt64.le_iff_toNat_le, UInt64.lt_iff_toNat_lt,
      UInt64.toNat_one] at *
    -- what is listed begins above the cutoff, unless it does so already
    by_cases hout : lowest.toNat ≤ cutoff.toNat
    · refine ⟨cutoff + 1, ?_⟩
      rw [hnext]
      exact ⟨by omega, by omega, by omega, fun version => by omega⟩
    · exact ⟨lowest, by omega, by omega, by omega, fun version => by omega⟩
  tombstones version entry he hlt := by
    rw [getElem?_dropUpTo] at he
    split at he
    · rename_i hkept
      refine h.tombstones version entry he ?_
      rw [UInt64.lt_iff_toNat_lt, oldestVersion_dropUpTo hcut] at hlt
      rw [UInt64.lt_iff_toNat_lt] at hkept ⊢
      omega
    · cases he
  admitted := h.admitted

theorem pruned (h : r.Sound) (kept : UInt64) : (r.pruned kept).Sound := by
  unfold KeyRecord.pruned
  split
  · exact h
  · rename_i hcut
    exact h.dropUpTo (r.lt_of_cutoff? hcut)

theorem apply (h : r.Sound) {changes : RecordChanges}
    (hc : ∀ entries, changes.customMetadata = some entries → entries.violations = []) : (changes.apply r).Sound where
  unwritten := h.unwritten
  listed := h.listed
  tombstones := h.tombstones
  admitted := by
    show (changes.customMetadata.getD r.customMetadata).violations = []
    cases hentries : changes.customMetadata with
    | none => exact h.admitted
    | some entries => exact hc entries hentries

theorem amendment (h : r.Sound) (ha : Amendment r r') : r'.Sound := by
  cases ha with
  | touched now => exact ⟨h.unwritten, h.listed, h.tombstones, h.admitted⟩
  | settled changes hc => exact h.apply hc
  | marked entry' hv hd _ => exact h.setEntry entry' hv hd
  | advanced => exact h.advancedOldest
  | pruned kept => exact h.pruned kept

/-- Every chain of single changes keeps a record in order. -/
theorem amended (h : r.Sound) (ha : Amended r r') : r'.Sound := by
  induction ha with
  | refl => exact h
  | tail _ hlast ih => exact ih.amendment hlast

/-- One more version, unless its number is zero. -/
theorem appended (h : r.Sound) (hnext : (r.currentVersion + 1).toNat = r.currentVersion.toNat + 1) (now : Instant) :
    (r.appended now).Sound := by
  have hold := r.toNat_oldestVersion_appended now
  have hle := UInt64.le_iff_toNat_le.mp h.oldest_le
  refine ⟨fun hc => ?_, fun _ => ?_, fun version entry he hlt => ?_, h.admitted⟩
  · rw [appended_currentVersion, ← UInt64.toNat_inj, hnext] at hc
    exact absurd hc (Nat.succ_ne_zero _)
  · simp only [mem_appended, appended_currentVersion, UInt64.le_iff_toNat_le, ← UInt64.toNat_inj, hnext,
      UInt64.toNat_one]
    by_cases hc : r.currentVersion = 0
    · obtain ⟨hzero, hempty⟩ := h.unwritten hc
      simp only [hempty, Std.ExtTreeMap.not_mem_empty, or_false, hc, hzero, UInt64.toNat_zero] at hold ⊢
      refine ⟨1, ?_⟩
      simp only [UInt64.toNat_one]
      exact ⟨Nat.le_refl _, by omega, by omega, fun version => by omega⟩
    · obtain ⟨lowest, hone, hlow, _, hlisted⟩ := h.listed (one_le_of_ne_zero hc)
      simp only [hlisted, UInt64.le_iff_toNat_le, UInt64.toNat_one] at *
      exact ⟨lowest, by omega, by omega, by omega, fun version => by omega⟩
  · rw [UInt64.lt_iff_toNat_lt, hold] at hlt
    rw [getElem?_appended] at he
    split at he
    · rename_i hversion
      rw [← hversion, hnext] at hlt
      omega
    · obtain ⟨hone, _⟩ := h.bounds (mem_versions_iff.mpr ⟨entry, he⟩)
      rw [UInt64.le_iff_toNat_le, UInt64.toNat_one] at hone
      exact h.tombstones version entry he (UInt64.lt_iff_toNat_lt.mpr (by omega))

/-- A write keeps a record in order. -/
theorem written (h : r.Sound) (hnext : (r.currentVersion + 1).toNat = r.currentVersion.toNat + 1) (now : Instant)
    (kept : UInt64) : (r.written now kept).Sound :=
  (h.appended hnext now).amended (.head (.pruned kept) (.single (.touched now)))

end Sound

/-! ## What is not taken back -/

/-- The second record comes from the first by changes among which so many versions were written.
    Neither number has fallen. What is listed up to the number that was current was listed before
    and made at the same time, and its entry is the same if it was destroyed. -/
structure Ages (writes : Nat) (r r' : KeyRecord) : Prop where
  createdTime : r'.createdTime = r.createdTime
  current : r'.currentVersion.toNat = r.currentVersion.toNat + writes
  oldest : r.oldestVersion ≤ r'.oldestVersion
  entries : ∀ version entry', r'.versions[version]? = some entry' → version ≤ r.currentVersion →
    ∃ entry, r.versions[version]? = some entry ∧ entry'.createdTime = entry.createdTime ∧
      (entry.destroyed = true → entry' = entry)

namespace Ages

/-- A change that leaves numbers and times as they are, and entries too. -/
theorem of_versions (ht : r'.createdTime = r.createdTime) (hc : r'.currentVersion = r.currentVersion)
    (ho : r.oldestVersion ≤ r'.oldestVersion)
    (hv : ∀ (version : UInt64) (entry : VersionEntry), r'.versions[version]? = some entry →
      r.versions[version]? = some entry) : Ages 0 r r' where
  createdTime := ht
  current := by rw [hc, Nat.add_zero]
  oldest := ho
  entries version entry he _ := ⟨entry, hv version entry he, rfl, fun _ => rfl⟩

theorem refl (r : KeyRecord) : Ages 0 r r := .of_versions rfl rfl (UInt64.le_refl _) fun _ _ h => h

theorem trans {writes writes' : Nat} (h : Ages writes r r') (h' : Ages writes' r' r'') : Ages (writes + writes') r r'' where
  createdTime := h'.createdTime.trans h.createdTime
  current := by rw [h'.current, h.current, Nat.add_assoc]
  oldest := UInt64.le_trans h.oldest h'.oldest
  entries version entry'' he'' hle := by
    have hle' : version ≤ r'.currentVersion := by
      rw [UInt64.le_iff_toNat_le] at hle ⊢
      rw [h.current]
      exact Nat.le_add_right_of_le hle
    obtain ⟨entry', he', htime', hsame'⟩ := h'.entries version entry'' he'' hle'
    obtain ⟨entry, he, htime, hsame⟩ := h.entries version entry' he' hle
    refine ⟨entry, he, htime'.trans htime, fun hd => ?_⟩
    have heq := hsame hd
    exact (hsame' (heq ▸ hd)).trans heq

theorem setEntry {version : UInt64} {entry entry' : VersionEntry} (hv : r.versions[version]? = some entry)
    (hd : entry.destroyed = false) (hm : entry'.createdTime = entry.createdTime) : Ages 0 r (r.setEntry version entry') where
  createdTime := rfl
  current := rfl
  oldest := UInt64.le_refl _
  entries other entry'' he _ := by
    rw [getElem?_setEntry] at he
    split at he
    · rename_i hother
      rw [← hother, ← Option.some.inj he]
      refine ⟨entry, hv, hm, fun hdestroyed => ?_⟩
      rw [hd] at hdestroyed
      cases hdestroyed
    · exact ⟨entry'', he, rfl, fun _ => rfl⟩

theorem pruned (r : KeyRecord) (kept : UInt64) : Ages 0 r (r.pruned kept) := by
  unfold KeyRecord.pruned
  split
  · exact .refl r
  · rename_i cutoff hcut
    refine .of_versions rfl rfl ?_ fun version entry he => ?_
    · rw [UInt64.le_iff_toNat_le, oldestVersion_dropUpTo (r.lt_of_cutoff? hcut)]
      exact Nat.le_max_left _ _
    · rw [getElem?_dropUpTo] at he
      split at he
      · exact he
      · cases he

theorem amendment (ha : Amendment r r') : Ages 0 r r' := by
  cases ha with
  | touched now => exact .of_versions rfl rfl (UInt64.le_refl _) fun _ _ h => h
  | settled changes _ => exact .of_versions rfl rfl (UInt64.le_refl _) fun _ _ h => h
  | marked _ hv hd hm => exact .setEntry hv hd hm
  | advanced =>
    refine .of_versions ?_ r.advancedOldest_currentVersion r.oldestVersion_le_advanced ?_
    · rw [advancedOldest_eq]
    · rw [advancedOldest_versions]
      exact fun _ _ h => h
  | pruned kept => exact .pruned r kept

/-- No chain of single changes takes anything back. -/
theorem amended (ha : Amended r r') : Ages 0 r r' := by
  induction ha with
  | refl => exact .refl r
  | tail _ hlast ih => exact ih.trans (.amendment hlast)

theorem appended (hnext : (r.currentVersion + 1).toNat = r.currentVersion.toNat + 1) (now : Instant) :
    Ages 1 r (r.appended now) where
  createdTime := rfl
  current := hnext
  oldest := by
    rw [UInt64.le_iff_toNat_le, toNat_oldestVersion_appended]
    exact Nat.le_max_left _ _
  entries version entry he hle := by
    rw [getElem?_appended, if_neg] at he
    · exact ⟨entry, he, rfl, fun _ => rfl⟩
    · rintro rfl
      rw [UInt64.le_iff_toNat_le, hnext] at hle
      omega

/-- A write adds one version and takes nothing back. -/
theorem written (hnext : (r.currentVersion + 1).toNat = r.currentVersion.toNat + 1) (now : Instant) (kept : UInt64) :
    Ages 1 r (r.written now kept) :=
  (Ages.appended hnext now).trans (.amended (.head (.pruned kept) (.single (.touched now))))

end Ages

/-! ## The number after the current one -/

/-- No version above the current one is listed. -/
def Capped (r : KeyRecord) : Prop := ∀ version ∈ r.versions, version ≤ r.currentVersion

namespace Capped

theorem new (key : String) (now : Instant) : (KeyRecord.new key now).Capped :=
  fun _ hv => absurd hv Std.ExtTreeMap.not_mem_empty

theorem amended (h : r.Capped) (ha : Amended r r') : r'.Capped := by
  have hcurrent : r'.currentVersion.toNat = r.currentVersion.toNat := (Ages.amended ha).current
  intro version hv
  rw [UInt64.toNat_inj.mp hcurrent]
  exact h version (ha.mem_versions hv)

/-- A write keeps this as long as there is a next number. -/
theorem written (h : r.Capped) (hmore : ¬ r.Exhausted) (now : Instant) (kept : UInt64) : (r.written now kept).Capped := by
  suffices happended : (r.appended now).Capped from happended.amended (.head (.pruned kept) (.single (.touched now)))
  intro version hv
  rcases mem_appended.mp hv with rfl | hv
  · exact UInt64.le_refl _
  · have hle := UInt64.le_iff_toNat_le.mp (h version hv)
    rw [appended_currentVersion, UInt64.le_iff_toNat_le, r.toNat_next hmore]
    omega

/-- What is written next is not listed. -/
theorem next_not_mem (h : r.Capped) (hmore : ¬ r.Exhausted) : r.currentVersion + 1 ∉ r.versions := by
  intro hv
  have hle := UInt64.le_iff_toNat_le.mp (h _ hv)
  rw [r.toNat_next hmore] at hle
  omega

end Capped

end KeyRecord

end Strongbox
