/-
  Strongbox.Proofs.Record.Changes — what changes of a record keep.

  Every change but that of a write and its pruning revises the record: it lists the same
  versions as before, made at the same times, and destroys some that were not.

  Proved:
  - `revises_apply`, `revises_markDeleted`, `revises_clearDeleted`, `revises_destroying`,
    `revises_expired`: these changes revise.
  - `destroying_eq_self`: a record that destroying leaves as it is had nothing to destroy.
-/

import Strongbox.Vault.Operations

namespace Strongbox

open Time (Instant)

namespace KeyRecord

/-- The highest number was handed out. -/
def Exhausted (r : KeyRecord) : Prop := r.currentVersion.toNat + 1 = UInt64.size

instance (r : KeyRecord) : Decidable r.Exhausted := inferInstanceAs (Decidable (_ = _))

/-- The record with one more version, under the number after the current one. -/
def appended (r : KeyRecord) (now : Instant) : KeyRecord := r.appendVersion (r.currentVersion + 1) now

/-- The listed versions that fall out when so many are kept. -/
def fallen (r : KeyRecord) (kept : UInt64) : List UInt64 :=
  match r.cutoff? kept with
  | none => []
  | some cutoff => r.upTo cutoff

/-- The record without the versions that fall out when so many are kept. -/
def pruned (r : KeyRecord) (kept : UInt64) : KeyRecord :=
  match r.cutoff? kept with
  | none => r
  | some cutoff => r.dropUpTo cutoff

/-- The record after a write: with the next version, and without those that fall out. -/
def written (r : KeyRecord) (now : Instant) (kept : UInt64) : KeyRecord := ((r.appended now).pruned kept).touch now

/-- The record with a version destroyed because it expired. -/
def expired (r : KeyRecord) (now : Instant) (version : UInt64) (entry : VersionEntry) (expiredAt : Instant) : KeyRecord :=
  ((r.setEntry version { entry with destroyed := true, deletionTime := some expiredAt }).advancedOldest).touch now

/-- The versions of a list that can be destroyed, each once, and the record with them destroyed. -/
def destroying : List UInt64 → KeyRecord → List UInt64 × KeyRecord
  | [], r => ([], r)
  | version :: rest, r =>
    match r.versions[version]? with
    | none => destroying rest r
    | some entry =>
      if entry.destroyed then destroying rest r
      else
        let (gone, destroyed) := destroying rest (r.setEntry version { entry with destroyed := true })
        (version :: gone, destroyed)

/-! ## What single changes keep -/

variable (r : KeyRecord)

@[simp] theorem touch_key (now : Instant) : (r.touch now).key = r.key := rfl

@[simp] theorem touch_versions (now : Instant) : (r.touch now).versions = r.versions := rfl

@[simp] theorem touch_currentVersion (now : Instant) : (r.touch now).currentVersion = r.currentVersion := rfl

@[simp] theorem setEntry_key (version : UInt64) (entry : VersionEntry) : (r.setEntry version entry).key = r.key := rfl

@[simp] theorem setEntry_currentVersion (version : UInt64) (entry : VersionEntry) :
    (r.setEntry version entry).currentVersion = r.currentVersion := rfl

theorem getElem?_setEntry (version other : UInt64) (entry : VersionEntry) :
    (r.setEntry version entry).versions[other]? = if version = other then some entry else r.versions[other]? := by
  rw [setEntry, Std.ExtTreeMap.getElem?_insert]
  simp only [Std.LawfulEqCmp.compare_eq_iff_eq]

@[simp] theorem advancedOldest_key : r.advancedOldest.key = r.key := by
  rw [advancedOldest]
  split <;> rfl

@[simp] theorem advancedOldest_versions : r.advancedOldest.versions = r.versions := by
  rw [advancedOldest]
  split <;> rfl

@[simp] theorem advancedOldest_currentVersion : r.advancedOldest.currentVersion = r.currentVersion := by
  rw [advancedOldest]
  split <;> rfl

theorem getElem?_expired (now : Instant) (version other : UInt64) (entry : VersionEntry) (expiredAt : Instant) :
    (r.expired now version entry expiredAt).versions[other]? =
      if version = other then some { entry with destroyed := true, deletionTime := some expiredAt }
      else r.versions[other]? := by
  rw [expired, touch_versions, advancedOldest_versions, getElem?_setEntry]

/-! ## Appending and pruning -/

@[simp] theorem appended_key (now : Instant) : (r.appended now).key = r.key := rfl

@[simp] theorem appended_currentVersion (now : Instant) :
    (r.appended now).currentVersion = r.currentVersion + 1 := rfl

theorem getElem?_appended (now : Instant) (version : UInt64) : (r.appended now).versions[version]? =
    if r.currentVersion + 1 = version then some { createdTime := now } else r.versions[version]? := by
  rw [appended, appendVersion, Std.ExtTreeMap.getElem?_insert]
  simp only [Std.LawfulEqCmp.compare_eq_iff_eq]

theorem toNat_next (h : ¬ r.Exhausted) : (r.currentVersion + 1).toNat = r.currentVersion.toNat + 1 := by
  have hbound : r.currentVersion.toNat + 1 ≤ UInt64.size := r.currentVersion.toNat_lt
  rw [UInt64.toNat_add, UInt64.toNat_one]
  exact Nat.mod_eq_of_lt (Nat.lt_of_le_of_ne hbound h)

/-- There is a next number unless numbers are exhausted. -/
theorem next?_eq : r.next? = if r.Exhausted then none else some (r.currentVersion + 1) := by
  have hbound : r.currentVersion.toNat + 1 ≤ UInt64.size := r.currentVersion.toNat_lt
  by_cases h : r.Exhausted
  · rw [if_pos h, next?, if_neg (Nat.not_lt.mpr (Nat.le_of_eq h.symm))]
  · rw [if_neg h, next?, if_pos (Nat.lt_of_le_of_ne hbound h)]

theorem not_exhausted_new (key : String) (now : Instant) : ¬ (new key now).Exhausted :=
  show ¬ ((0 : UInt64).toNat + 1 = UInt64.size) by decide

@[simp] theorem pruned_key (kept : UInt64) : (r.pruned kept).key = r.key := by
  unfold pruned
  split <;> rfl

@[simp] theorem pruned_currentVersion (kept : UInt64) : (r.pruned kept).currentVersion = r.currentVersion := by
  unfold pruned
  split <;> rfl

@[simp] theorem pruned_lifetime? (kept : UInt64) (policy : Policy) :
    (r.pruned kept).lifetime? policy = r.lifetime? policy := by
  unfold pruned
  split <;> rfl

/-- What falls out is listed and not above the cutoff. -/
theorem mem_fallen {kept version : UInt64} : version ∈ r.fallen kept ↔
    ∃ cutoff, r.cutoff? kept = some cutoff ∧ version ≤ cutoff ∧ version ∈ r.versions := by
  unfold fallen
  cases r.cutoff? kept with
  | none => simp
  | some cutoff => simp [upTo, and_comm]

/-- Pruning takes away what falls out and keeps the other entries. -/
theorem getElem?_pruned (kept version : UInt64) : (r.pruned kept).versions[version]? =
    if version ∈ r.fallen kept then none else r.versions[version]? := by
  by_cases hmem : version ∈ r.versions
  · have hfallen : version ∈ r.fallen kept ↔ _ := r.mem_fallen
    unfold pruned
    cases hc : r.cutoff? kept with
    | none =>
      rw [if_neg]
      intro h
      obtain ⟨cutoff, hcutoff, _⟩ := hfallen.mp h
      rw [hc] at hcutoff
      cases hcutoff
    | some cutoff =>
      have hiff : version ∈ r.fallen kept ↔ ¬ cutoff < version := by
        simp [hfallen, hc, hmem, UInt64.not_lt]
      simp only [dropUpTo, Std.ExtTreeMap.getElem?_filter', hiff]
      cases r.versions[version]? with
      | none => simp
      | some entry => by_cases hlt : cutoff < version <;> simp [hlt]
  · have hnone : r.versions[version]? = none := Std.ExtTreeMap.getElem?_eq_none hmem
    have hno : version ∉ r.fallen kept := fun h => by
      obtain ⟨_, _, _, h⟩ := r.mem_fallen.mp h
      exact hmem h
    rw [if_neg hno, hnone]
    unfold pruned
    split
    · exact hnone
    · simp [dropUpTo, hnone]

/-- The current version does not fall out. -/
theorem lt_of_cutoff? {kept cutoff : UInt64} (h : r.cutoff? kept = some cutoff) : cutoff < r.currentVersion := by
  unfold cutoff? at h
  split at h
  · rename_i hkept
    rw [← Option.some.inj h]
    have h0 : 0 < kept.toNat := UInt64.lt_iff_toNat_lt.mp hkept.1
    have hlt := UInt64.lt_iff_toNat_lt.mp hkept.2
    rw [UInt64.lt_iff_toNat_lt, UInt64.toNat_sub_of_le _ _ (UInt64.le_of_lt hkept.2)]
    omega
  · cases h

theorem currentVersion_not_mem_fallen (kept : UInt64) : r.currentVersion ∉ r.fallen kept := by
  intro h
  obtain ⟨cutoff, hcutoff, hle, _⟩ := r.mem_fallen.mp h
  exact UInt64.not_lt.mpr hle (r.lt_of_cutoff? hcutoff)

theorem next_not_mem_fallen (now : Instant) (kept : UInt64) : r.currentVersion + 1 ∉ (r.appended now).fallen kept :=
  (r.appended now).currentVersion_not_mem_fallen kept

@[simp] theorem written_key (now : Instant) (kept : UInt64) : (r.written now kept).key = r.key := by
  rw [written, touch_key, pruned_key, appended_key]

@[simp] theorem written_currentVersion (now : Instant) (kept : UInt64) :
    (r.written now kept).currentVersion = r.currentVersion + 1 := by
  rw [written, touch_currentVersion, pruned_currentVersion, appended_currentVersion]

@[simp] theorem written_lifetime? (now : Instant) (kept : UInt64) (policy : Policy) :
    (r.written now kept).lifetime? policy = r.lifetime? policy :=
  (r.appended now).pruned_lifetime? kept policy

/-- What a write lists: the next version, and of the others those that do not fall out. -/
theorem getElem?_written (now : Instant) (kept version : UInt64) : (r.written now kept).versions[version]? =
    if version ∈ (r.appended now).fallen kept then none
    else if r.currentVersion + 1 = version then some { createdTime := now } else r.versions[version]? := by
  rw [written, touch_versions, getElem?_pruned, getElem?_appended]

theorem getElem?_written_next (now : Instant) (kept : UInt64) :
    (r.written now kept).versions[r.currentVersion + 1]? = some { createdTime := now } := by
  rw [getElem?_written, if_neg (r.next_not_mem_fallen now kept), if_pos rfl]

/-! ## Destroying -/

/-- These versions, all listed and not destroyed before, are destroyed, and nothing else changes. -/
structure Destroys (gone : List UInt64) (r r' : KeyRecord) : Prop where
  others : r' = { r with versions := r'.versions }
  live : ∀ version ∈ gone, ∃ entry, r.versions[version]? = some entry ∧ entry.destroyed = false
  entries : ∀ version, r'.versions[version]? =
    (r.versions[version]?).map fun entry => if version ∈ gone then { entry with destroyed := true } else entry

theorem Destroys.nil (r : KeyRecord) : Destroys [] r r where
  others := rfl
  live _ h := absurd h List.not_mem_nil
  entries version := by simp

theorem Destroys.cons {r r' : KeyRecord} {version : UInt64} {entry : VersionEntry} {gone : List UInt64}
    (hv : r.versions[version]? = some entry) (hd : entry.destroyed = false)
    (h : Destroys gone (r.setEntry version { entry with destroyed := true }) r') : Destroys (version :: gone) r r' := by
  have hne : ∀ other ∈ gone, other ≠ version := by
    rintro other ho rfl
    obtain ⟨e, he, hed⟩ := h.live other ho
    rw [getElem?_setEntry, if_pos rfl] at he
    cases he
    cases hed
  refine ⟨h.others, ?_, ?_⟩
  · intro other ho
    rcases List.mem_cons.mp ho with rfl | ho
    · exact ⟨entry, hv, hd⟩
    · have hl := h.live other ho
      rwa [getElem?_setEntry, if_neg (hne other ho).symm] at hl
  · intro other
    rw [h.entries, getElem?_setEntry]
    by_cases ho : version = other
    · subst ho
      have hno : version ∉ gone := fun hm => hne version hm rfl
      rw [if_pos rfl, hv]
      simp [hno]
    · have hno : other ≠ version := fun e => ho e.symm
      rw [if_neg ho]
      simp [hno]

theorem destroys_destroying (versions : List UInt64) (r : KeyRecord) :
    Destroys (destroying versions r).1 r (destroying versions r).2 := by
  induction versions generalizing r with
  | nil => exact .nil r
  | cons version rest ih =>
    unfold destroying
    cases hv : r.versions[version]? with
    | none => exact ih r
    | some entry =>
      by_cases hd : entry.destroyed
      · simp only [hd, if_true]
        exact ih r
      · simp only [hd, Bool.false_eq_true, if_false]
        exact .cons hv (Bool.eq_false_iff.mpr hd) (ih _)

/-- A record that destroying leaves as it is had nothing to destroy. -/
theorem destroying_eq_self {versions : List UInt64} {r : KeyRecord} (h : (destroying versions r).2 = r) :
    (destroying versions r).1 = [] := by
  have hs := destroys_destroying versions r
  rw [h] at hs
  apply List.eq_nil_iff_forall_not_mem.mpr
  intro version hv
  obtain ⟨entry, he, hd⟩ := hs.live version hv
  have hentry := hs.entries version
  rw [he, Option.map_some, if_pos hv] at hentry
  rw [congrArg VersionEntry.destroyed (Option.some.inj hentry)] at hd
  cases hd

theorem destroying_of_destroyed {versions : List UInt64} {r : KeyRecord}
    (h : ∀ version ∈ versions, ∀ entry, r.versions[version]? = some entry → entry.destroyed = true) :
    destroying versions r = ([], r) := by
  induction versions with
  | nil => rfl
  | cons version rest ih =>
    have hrest := ih fun other hother => h other (List.mem_cons_of_mem version hother)
    unfold destroying
    cases hv : r.versions[version]? with
    | none => exact hrest
    | some entry =>
      simp only [h version List.mem_cons_self entry hv, if_true]
      exact hrest

/-! ## Deleting and undeleting what need not be -/

theorem foldl_eq_self {α : Type} {change : KeyRecord → α → KeyRecord} {as : List α} {r : KeyRecord}
    (h : ∀ a ∈ as, change r a = r) : as.foldl change r = r := by
  induction as with
  | nil => rfl
  | cons a as ih =>
    rw [List.foldl_cons, h a List.mem_cons_self]
    exact ih fun other hother => h other (List.mem_cons_of_mem a hother)

theorem setEntry_eq_self {r : KeyRecord} {version : UInt64} {entry : VersionEntry} (h : r.versions[version]? = some entry) :
    r.setEntry version entry = r := by
  have hversions : r.versions.insert version entry = r.versions := by
    refine Std.ExtTreeMap.ext_getElem? fun other => ?_
    rw [Std.ExtTreeMap.getElem?_insert]
    split
    · rename_i hsame
      rw [← Std.LawfulEqCmp.eq_of_compare hsame, h]
    · rfl
  rw [setEntry, hversions]

theorem markDeleted_eq_self {r : KeyRecord} {version : UInt64} {now : Instant}
    (h : ∀ entry, r.versions[version]? = some entry → entry.isReadable now = false) : r.markDeleted now version = r := by
  unfold markDeleted
  cases hv : r.versions[version]? with
  | none => rfl
  | some entry => exact if_neg (ne_true_of_eq_false (h entry hv))

theorem clearDeleted_eq_self {r : KeyRecord} {version : UInt64}
    (h : ∀ entry, r.versions[version]? = some entry → entry.destroyed = true ∨ entry.deletionTime = none) :
    r.clearDeleted version = r := by
  unfold clearDeleted
  cases hv : r.versions[version]? with
  | none => rfl
  | some entry =>
    rcases h entry hv with hdestroyed | hdeletion
    · exact if_pos hdestroyed
    · have hentry : { entry with deletionTime := none } = entry := by rw [← hdeletion]
      dsimp only
      rw [hentry, setEntry_eq_self hv, ite_self]

/-! ## Revisions -/

/-- The same versions are listed, and these are destroyed that were not. -/
structure Revises (gone : List UInt64) (r r' : KeyRecord) : Prop where
  key : r'.key = r.key
  currentVersion : r'.currentVersion = r.currentVersion
  live : ∀ version ∈ gone, ∃ entry, r.versions[version]? = some entry ∧ entry.destroyed = false
  made : ∀ version : UInt64,
    (r'.versions[version]?).map VersionEntry.createdTime = (r.versions[version]?).map VersionEntry.createdTime
  destroyed : ∀ version : UInt64, (r'.versions[version]?).map VersionEntry.destroyed =
    (r.versions[version]?).map fun entry => entry.destroyed || decide (version ∈ gone)

/-- A change of what is not listed. -/
theorem Revises.of_versions {r r' : KeyRecord} (hk : r'.key = r.key) (hc : r'.currentVersion = r.currentVersion)
    (hv : r'.versions = r.versions) : Revises [] r r' where
  key := hk
  currentVersion := hc
  live _ h := absurd h List.not_mem_nil
  made version := by rw [hv]
  destroyed version := by simp [hv]

theorem Revises.trans {gone : List UInt64} {r r' r'' : KeyRecord} (h : Revises gone r r') (h' : Revises [] r' r'') :
    Revises gone r r'' where
  key := h'.key.trans h.key
  currentVersion := h'.currentVersion.trans h.currentVersion
  live := h.live
  made version := (h'.made version).trans (h.made version)
  destroyed version := by
    have hd := h'.destroyed version
    simp only [List.not_mem_nil, decide_false, Bool.or_false] at hd
    exact hd.trans (h.destroyed version)

theorem Revises.foldl {α : Type} {change : KeyRecord → α → KeyRecord} (h : ∀ r a, Revises [] r (change r a)) (as : List α)
    (r : KeyRecord) : Revises [] r (as.foldl change r) := by
  induction as generalizing r with
  | nil => exact .of_versions rfl rfl rfl
  | cons a as ih => exact (h r a).trans (ih (change r a))

theorem revises_touch (r : KeyRecord) (now : Instant) : Revises [] r (r.touch now) := .of_versions rfl rfl rfl

theorem revises_advancedOldest (r : KeyRecord) : Revises [] r r.advancedOldest :=
  .of_versions r.advancedOldest_key r.advancedOldest_currentVersion r.advancedOldest_versions

theorem revises_apply (changes : RecordChanges) (r : KeyRecord) : Revises [] r (changes.apply r) := .of_versions rfl rfl rfl

/-- An entry that is replaced by one made at the same time. -/
theorem revises_setEntry {r : KeyRecord} {version : UInt64} {entry entry' : VersionEntry}
    (hv : r.versions[version]? = some entry) (hm : entry'.createdTime = entry.createdTime)
    (hd : entry'.destroyed = entry.destroyed) : Revises [] r (r.setEntry version entry') where
  key := rfl
  currentVersion := rfl
  live _ h := absurd h List.not_mem_nil
  made other := by
    rw [getElem?_setEntry]
    by_cases ho : version = other
    · rw [if_pos ho, ← ho, hv, Option.map_some, Option.map_some, hm]
    · rw [if_neg ho]
  destroyed other := by
    rw [getElem?_setEntry]
    by_cases ho : version = other
    · simp [← ho, hv, hd]
    · simp [ho]

theorem revises_markDeleted (now : Instant) (r : KeyRecord) (version : UInt64) : Revises [] r (r.markDeleted now version) := by
  unfold markDeleted
  cases hv : r.versions[version]? with
  | none => exact .of_versions rfl rfl rfl
  | some entry =>
    by_cases hr : entry.isReadable now
    · simp only [hr, if_true]
      exact revises_setEntry hv rfl rfl
    · simp only [hr]
      exact .of_versions rfl rfl rfl

theorem revises_clearDeleted (r : KeyRecord) (version : UInt64) : Revises [] r (r.clearDeleted version) := by
  unfold clearDeleted
  cases hv : r.versions[version]? with
  | none => exact .of_versions rfl rfl rfl
  | some entry =>
    show Revises [] r (if entry.destroyed then r else r.setEntry version { entry with deletionTime := none })
    by_cases hd : entry.destroyed
    · rw [if_pos hd]
      exact .of_versions rfl rfl rfl
    · rw [if_neg hd]
      exact revises_setEntry hv rfl rfl

theorem Destroys.revises {gone : List UInt64} {r r' : KeyRecord} (h : Destroys gone r r') : Revises gone r r' where
  key := by rw [h.others]
  currentVersion := by rw [h.others]
  live := h.live
  made version := by
    rw [h.entries, Option.map_map]
    congr 1
    funext entry
    by_cases hg : version ∈ gone <;> simp [hg]
  destroyed version := by
    rw [h.entries, Option.map_map]
    congr 1
    funext entry
    by_cases hg : version ∈ gone <;> simp [hg]

theorem revises_destroying (versions : List UInt64) (r : KeyRecord) (now : Instant) :
    Revises (destroying versions r).1 r ((destroying versions r).2.advancedOldest.touch now) :=
  ((destroys_destroying versions r).revises.trans (revises_advancedOldest _)).trans (revises_touch _ now)

theorem revises_expired {r : KeyRecord} {version : UInt64} {entry : VersionEntry} (hv : r.versions[version]? = some entry)
    (hd : entry.destroyed = false) (now expiredAt : Instant) :
    Revises [version] r (r.expired now version entry expiredAt) where
  key := by rw [expired, touch_key, advancedOldest_key, setEntry_key]
  currentVersion := by rw [expired, touch_currentVersion, advancedOldest_currentVersion, setEntry_currentVersion]
  live other ho := by
    rw [List.mem_singleton.mp ho]
    exact ⟨entry, hv, hd⟩
  made other := by
    rw [getElem?_expired]
    by_cases ho : version = other
    · rw [if_pos ho, ← ho, hv]
      rfl
    · rw [if_neg ho]
  destroyed other := by
    rw [getElem?_expired]
    by_cases ho : version = other
    · subst ho
      simp [hv]
    · have hne : other ≠ version := fun e => ho e.symm
      simp [ho, hne]

end KeyRecord

end Strongbox
