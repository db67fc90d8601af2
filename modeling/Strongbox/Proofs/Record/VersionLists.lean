/-
  Strongbox.Proofs.Record.VersionLists — deleting, undeleting and destroying lists of versions.

  Each of the three goes through a list one version after the other. What it makes of an entry does
  not depend on the other entries, and doing it again makes no difference. So however long the list
  is, in whatever order, with whatever repetitions and with versions that are not listed, every entry
  is changed once if the list names it and else left alone.

  Proved:
  - `marked_applied`: what each of the three makes of a record, entry by entry.
  - `Marked.unique`, `Marked.eq_self`: it depends on the set of listed versions alone, and on entries
    that it would not change it does nothing.
  - `applied_undone`: undeleting what was just deleted gives the record back.
-/

import Strongbox.Proofs.Record.Amendments

namespace Strongbox

open Time (Instant)

namespace KeyRecord

/-! ## Changing the entries of a list -/

/-- Of the second record, nothing but the entries of these versions differs: they are changed so. -/
structure Marked (change : VersionEntry → VersionEntry) (named : List UInt64) (r r' : KeyRecord) : Prop where
  others : r' = { r with versions := r'.versions }
  entries : ∀ version : UInt64, r'.versions[version]? =
    (r.versions[version]?).map fun entry => if version ∈ named then change entry else entry

section Marked

variable {change change' : VersionEntry → VersionEntry} {named named' : List UInt64} {r r' r'' : KeyRecord}

theorem Marked.currentVersion_eq (h : Marked change named r r') : r'.currentVersion = r.currentVersion := by rw [h.others]

theorem Marked.key_eq (h : Marked change named r r') : r'.key = r.key := by rw [h.others]

/-- Records with the same entries, of which nothing else differs, are the same. -/
theorem eq_of_entries (h : r' = { r with versions := r'.versions })
    (hentries : ∀ version : UInt64, r'.versions[version]? = r.versions[version]?) : r' = r := by
  rw [h, Std.ExtTreeMap.ext_getElem? hentries]

/-- What is made of a record depends on which of the listed versions are named. -/
theorem Marked.unique (h : Marked change named r r') (h' : Marked change named' r r'')
    (hsame : ∀ version ∈ r.versions, version ∈ named ↔ version ∈ named') : r' = r'' := by
  have hothers : r' = { r'' with versions := r'.versions } := by
    rw [h'.others]
    exact h.others
  refine eq_of_entries hothers fun version => ?_
  rw [h.entries, h'.entries]
  cases hv : r.versions[version]? with
  | none => rfl
  | some entry => simp only [Option.map_some, hsame version (mem_versions_iff.mpr ⟨entry, hv⟩)]

/-- Nothing is made of a record whose named entries would not be changed. -/
theorem Marked.eq_self (h : Marked change named r r')
    (hsame : ∀ version ∈ named, ∀ entry, r.versions[version]? = some entry → change entry = entry) : r' = r := by
  refine eq_of_entries h.others fun version => ?_
  rw [h.entries]
  cases hv : r.versions[version]? with
  | none => rfl
  | some entry =>
    rw [Option.map_some]
    split
    · rename_i hnamed
      rw [hsame version hnamed entry hv]
    · rfl

theorem Marked.nil (change : VersionEntry → VersionEntry) (r : KeyRecord) : Marked change [] r r where
  others := rfl
  entries version := by simp

/-- One version, and then the others. -/
theorem Marked.cons {version : UInt64} (hidem : ∀ entry, change (change entry) = change entry)
    (h : Marked change [version] r r') (h' : Marked change named r' r'') : Marked change (version :: named) r r'' where
  others := by
    rw [h'.others, h.others]
  entries other := by
    rw [h'.entries, h.entries, Option.map_map]
    congr 1
    funext entry
    simp only [Function.comp, List.mem_cons, List.not_mem_nil, or_false]
    by_cases hhere : other = version
    · simp only [hhere, if_true, true_or, hidem, ite_self]
    · simp only [hhere, if_false, false_or]

/-- What is done for each version of a list is done for each that it names. -/
theorem marked_foldl {step : KeyRecord → UInt64 → KeyRecord} (hidem : ∀ entry, change (change entry) = change entry)
    (hstep : ∀ r version, Marked change [version] r (step r version)) (versions : List UInt64) (r : KeyRecord) :
    Marked change versions r (versions.foldl step r) := by
  induction versions generalizing r with
  | nil => exact .nil change r
  | cons version rest ih => exact .cons hidem (hstep r version) (ih (step r version))

/-- The time of the last change is not looked at. -/
theorem Marked.touch (h : Marked change named r r') (time : Instant) : Marked change named (r.touch time) (r'.touch time) where
  others := congrArg (KeyRecord.touch · time) h.others
  entries := h.entries

theorem marked_setEntry {version : UInt64} {entry : VersionEntry} (hv : r.versions[version]? = some entry) :
    Marked change [version] r (r.setEntry version (change entry)) where
  others := rfl
  entries other := by
    rw [getElem?_setEntry]
    by_cases hhere : version = other
    · subst hhere
      rw [if_pos rfl, hv, Option.map_some, if_pos (List.mem_singleton.mpr rfl)]
    · have hne : ¬ other ∈ [version] := fun h => hhere (List.mem_singleton.mp h).symm
      simp only [if_neg hhere, if_neg hne, Option.map_id']

theorem marked_of_unlisted {version : UInt64} (hv : r.versions[version]? = none) : Marked change [version] r r where
  others := rfl
  entries other := by
    cases ho : r.versions[other]? with
    | none => rfl
    | some entry =>
      have hne : other ≠ version := by
        rintro rfl
        cases hv.symm.trans ho
      rw [Option.map_some, if_neg (mt List.mem_singleton.mp hne)]

end Marked

/-- The versions of a list that are destroyed are those it names that were listed and not destroyed. -/
theorem mem_destroying {versions : List UInt64} {r : KeyRecord} {version : UInt64} :
    version ∈ (destroying versions r).1 ↔
      version ∈ versions ∧ ∃ entry, r.versions[version]? = some entry ∧ entry.destroyed = false := by
  -- what is passed over would be no reason to destroy a version
  have hskip {r : KeyRecord} {first : UInt64} {rest : List UInt64}
      (h : ¬ ∃ entry, r.versions[first]? = some entry ∧ entry.destroyed = false) :
      (version ∈ first :: rest ∧ ∃ entry, r.versions[version]? = some entry ∧ entry.destroyed = false) ↔
        version ∈ rest ∧ ∃ entry, r.versions[version]? = some entry ∧ entry.destroyed = false := by
    refine and_congr_left fun hlive => ?_
    rw [List.mem_cons, or_iff_right]
    rintro rfl
    exact h hlive
  induction versions generalizing r with
  | nil => exact iff_of_false List.not_mem_nil fun h => List.not_mem_nil h.1
  | cons first rest ih =>
    unfold destroying
    cases hv : r.versions[first]? with
    | none => exact ih.trans (hskip (by simp [hv])).symm
    | some entry =>
      by_cases hd : entry.destroyed
      · simp only [hd, if_true]
        exact ih.trans (hskip (by simp [hv, hd])).symm
      · simp only [hd, Bool.false_eq_true, if_false]
        refine List.mem_cons.trans ((or_congr_right ih).trans ?_)
        rw [getElem?_setEntry]
        by_cases hfirst : first = version
        · subst hfirst
          exact iff_of_true (.inl rfl) ⟨List.mem_cons_self, entry, hv, eq_false_of_ne_true hd⟩
        · rw [if_neg hfirst, List.mem_cons, or_iff_right (Ne.symm hfirst), or_iff_right (Ne.symm hfirst)]

/-- The time of the last change is not looked at. -/
theorem destroying_touch (versions : List UInt64) (r : KeyRecord) (time : Instant) :
    destroying versions (r.touch time) = ((destroying versions r).1, (destroying versions r).2.touch time) := by
  induction versions generalizing r with
  | nil => rfl
  | cons first rest ih =>
    unfold destroying
    rw [touch_versions]
    cases r.versions[first]? with
    | none => exact ih r
    | some entry =>
      by_cases hd : entry.destroyed
      · simp only [hd, if_true]
        exact ih r
      · simp only [hd, Bool.false_eq_true, if_false]
        rw [show (r.touch time).setEntry first { entry with destroyed := true } =
          (r.setEntry first { entry with destroyed := true }).touch time from rfl, ih]

theorem touch_advancedOldest (r : KeyRecord) (time now : Instant) :
    (r.touch time).advancedOldest.touch now = r.advancedOldest.touch now := by
  by_cases hbelow : r.oldestVersion < r.currentVersion
  · have hbelow' : (r.touch time).oldestVersion < (r.touch time).currentVersion := hbelow
    rw [advancedOldest, advancedOldest, if_pos hbelow, if_pos hbelow']
    rfl
  · have hbelow' : ¬ (r.touch time).oldestVersion < (r.touch time).currentVersion := hbelow
    rw [advancedOldest, advancedOldest, if_neg hbelow, if_neg hbelow']
    rfl

end KeyRecord

theorem VersionEntry.not_isReadable_deleted (entry : VersionEntry) (now : Instant) :
    ({ entry with deletionTime := some now } : VersionEntry).isReadable now = false := by
  have hpast : now ≤ now := .inr ⟨rfl, Nat.le_refl _⟩
  simp [isReadable, isDeleted, hpast]

/-! ## The three operations -/

/-- What can be done to a list of versions. -/
inductive ListOp where
  | delete
  | undelete
  | destroy

namespace ListOp

variable (op : ListOp) (now : Instant) (versions : List UInt64) (r : KeyRecord)

/-- The versions that a list stands for. No versions to delete stand for the current one. -/
def named : List UInt64 :=
  match op with
  | .delete => if versions = [] then [r.currentVersion] else versions
  | _ => versions

/-- What becomes of an entry that is named. -/
def mark (entry : VersionEntry) : VersionEntry :=
  match op with
  | .delete => if entry.isReadable now then { entry with deletionTime := some now } else entry
  | .undelete => if entry.destroyed then entry else { entry with deletionTime := none }
  | .destroy => { entry with destroyed := true }

/-- The record with the list gone through. -/
def applied : KeyRecord :=
  match op with
  | .delete => (ListOp.delete.named versions r).foldl (KeyRecord.markDeleted now) r
  | .undelete => versions.foldl KeyRecord.clearDeleted r
  | .destroy => (r.destroying versions).2

/-- The versions whose payloads are erased. -/
def erased : List UInt64 :=
  match op with
  | .destroy => (r.destroying versions).1
  | _ => []

/-- The record that is stored if there is anything to change. -/
def stored : KeyRecord :=
  match op with
  | .destroy => (op.applied now versions r).advancedOldest.touch now
  | _ => (op.applied now versions r).touch now

/-- The record that is left. One that is as before is not stored again. -/
def result : KeyRecord := if op.applied now versions r = r then r else op.stored now versions r

/-- An entry is changed once, however often. -/
theorem mark_mark (entry : VersionEntry) : op.mark now (op.mark now entry) = op.mark now entry := by
  cases op with
  | delete =>
    unfold mark
    by_cases hreadable : entry.isReadable now
    · simp only [hreadable, if_true, entry.not_isReadable_deleted now, Bool.false_eq_true, if_false]
    · simp only [hreadable, Bool.false_eq_true, if_false]
  | undelete =>
    unfold mark
    by_cases hd : entry.destroyed
    · simp only [hd, if_true]
    · simp only [hd, Bool.false_eq_true, if_false]
  | destroy => rfl

open KeyRecord (Marked)

theorem marked_markDeleted (version : UInt64) : Marked (ListOp.delete.mark now) [version] r (r.markDeleted now version) := by
  unfold KeyRecord.markDeleted
  cases hv : r.versions[version]? with
  | none => exact KeyRecord.marked_of_unlisted hv
  | some entry =>
    have hmarked : Marked (ListOp.delete.mark now) [version] r _ := KeyRecord.marked_setEntry hv
    show Marked _ _ r (if entry.isReadable now then r.setEntry version { entry with deletionTime := some now } else r)
    by_cases hreadable : entry.isReadable now
    · rw [mark, if_pos hreadable] at hmarked
      rwa [if_pos hreadable]
    · rw [mark, if_neg hreadable, KeyRecord.setEntry_eq_self hv] at hmarked
      rwa [if_neg hreadable]

theorem marked_clearDeleted (version : UInt64) : Marked (ListOp.undelete.mark now) [version] r (r.clearDeleted version) := by
  unfold KeyRecord.clearDeleted
  cases hv : r.versions[version]? with
  | none => exact KeyRecord.marked_of_unlisted hv
  | some entry =>
    have hmarked : Marked (ListOp.undelete.mark now) [version] r _ := KeyRecord.marked_setEntry hv
    show Marked _ _ r (if entry.destroyed then r else r.setEntry version { entry with deletionTime := none })
    by_cases hd : entry.destroyed
    · rw [mark, if_pos hd, KeyRecord.setEntry_eq_self hv] at hmarked
      rwa [if_pos hd]
    · rw [mark, if_neg hd] at hmarked
      rwa [if_neg hd]

theorem marked_destroying : Marked (ListOp.destroy.mark now) versions r (r.destroying versions).2 where
  others := (KeyRecord.destroys_destroying versions r).others
  entries version := by
    rw [(KeyRecord.destroys_destroying versions r).entries]
    cases hv : r.versions[version]? with
    | none => rfl
    | some entry =>
      rw [Option.map_some, Option.map_some]
      by_cases hgone : version ∈ (r.destroying versions).1
      · rw [if_pos hgone, if_pos (KeyRecord.mem_destroying.mp hgone).1]
        rfl
      · rw [if_neg hgone]
        split
        · -- named, and yet not destroyed now: it was destroyed before
          rename_i hnamed
          have hd : entry.destroyed = true := eq_true_of_ne_false fun hd => hgone (KeyRecord.mem_destroying.mpr ⟨hnamed, entry, hv, hd⟩)
          rw [mark, ← hd]
        · rfl

/-- What each of the three makes of a record. -/
theorem marked_applied : Marked (op.mark now) (op.named versions r) r (op.applied now versions r) := by
  cases op with
  | delete => exact KeyRecord.marked_foldl (mark_mark .delete now) (marked_markDeleted now) _ r
  | undelete => exact KeyRecord.marked_foldl (mark_mark .undelete now) (marked_clearDeleted now) versions r
  | destroy => exact marked_destroying now versions r

variable {versions r}

theorem stored_versions : (op.stored now versions r).versions = (op.applied now versions r).versions := by
  cases op with
  | destroy => exact KeyRecord.advancedOldest_versions _
  | _ => rfl

theorem stored_key : (op.stored now versions r).key = r.key := by
  rw [← (op.marked_applied now versions r).key_eq]
  cases op with
  | destroy => exact KeyRecord.advancedOldest_key _
  | _ => rfl

theorem stored_currentVersion : (op.stored now versions r).currentVersion = r.currentVersion := by
  rw [← (op.marked_applied now versions r).currentVersion_eq]
  cases op with
  | destroy => exact KeyRecord.advancedOldest_currentVersion _
  | _ => rfl

/-- To do it once more makes no difference. -/
theorem applied_stored : op.applied now versions (op.stored now versions r) = op.stored now versions r := by
  refine (op.marked_applied now versions (op.stored now versions r)).eq_self fun version hnamed entry hv => ?_
  have hnamed' : version ∈ op.named versions r := by
    cases op with
    | delete => rwa [named, stored_currentVersion] at hnamed
    | _ => exact hnamed
  rw [stored_versions, (op.marked_applied now versions r).entries] at hv
  obtain ⟨before, _, rfl⟩ := Option.map_eq_some_iff.mp hv
  rw [if_pos hnamed', mark_mark]

theorem applied_result : op.applied now versions (op.result now versions r) = op.result now versions r := by
  unfold result
  split
  · assumption
  · exact op.applied_stored now

/-- What is done depends on the set of the listed versions that are named. -/
theorem applied_congr {versions' : List UInt64}
    (h : ∀ version ∈ r.versions, version ∈ op.named versions r ↔ version ∈ op.named versions' r) :
    op.applied now versions r = op.applied now versions' r :=
  (op.marked_applied now versions r).unique (op.marked_applied now versions' r) h

theorem stored_congr {versions' : List UInt64}
    (h : ∀ version ∈ r.versions, version ∈ op.named versions r ↔ version ∈ op.named versions' r) :
    op.stored now versions r = op.stored now versions' r := by
  unfold stored
  rw [op.applied_congr now h]

theorem mem_erased_congr {versions' : List UInt64}
    (h : ∀ version ∈ r.versions, version ∈ op.named versions r ↔ version ∈ op.named versions' r) (version : UInt64) :
    version ∈ op.erased versions r ↔ version ∈ op.erased versions' r := by
  cases op with
  | destroy =>
    refine KeyRecord.mem_destroying.trans (Iff.trans ?_ KeyRecord.mem_destroying.symm)
    exact and_congr_left fun ⟨entry, he, _⟩ => h version (KeyRecord.mem_versions_iff.mpr ⟨entry, he⟩)
  | _ => exact Iff.rfl

/-- The time of the last change is not looked at. -/
theorem applied_touch (time : Instant) : op.applied now versions (r.touch time) = (op.applied now versions r).touch time :=
  (op.marked_applied now versions (r.touch time)).unique ((op.marked_applied now versions r).touch time) fun _ _ => Iff.rfl

theorem stored_touch (time : Instant) : op.stored now versions (r.touch time) = op.stored now versions r := by
  unfold stored
  rw [applied_touch]
  cases op with
  | destroy => exact KeyRecord.touch_advancedOldest _ time now
  | _ => rfl

theorem erased_touch (time : Instant) : op.erased versions (r.touch time) = op.erased versions r := by
  cases op with
  | destroy =>
    unfold erased
    rw [KeyRecord.destroying_touch]
  | _ => rfl

/-- To undelete what was just deleted gives the entry back, unless it was to be deleted before. -/
theorem mark_undone {entry : VersionEntry} (h : entry.destroyed = true ∨ entry.deletionTime = none) (now' : Instant) :
    ListOp.undelete.mark now' (ListOp.delete.mark now entry) = entry := by
  rcases h with hd | hnone
  · have hunreadable : entry.isReadable now = false := by simp [VersionEntry.isReadable, hd]
    rw [mark, mark, hunreadable, if_neg Bool.false_ne_true, if_pos hd]
  · have hcleared : { entry with deletionTime := none } = entry := by rw [← hnone]
    unfold mark
    by_cases hreadable : entry.isReadable now
    · have hd : entry.destroyed = false := by
        rw [VersionEntry.isReadable, Bool.and_eq_true, Bool.not_eq_true'] at hreadable
        exact hreadable.1
      simp only [hreadable, if_true, hd, Bool.false_eq_true, if_false]
      exact hd ▸ hcleared
    · simp only [hreadable, Bool.false_eq_true, if_false, hcleared, ite_self]

/-- To undelete what was just deleted gives the record back, unless some of it was to be deleted before. -/
theorem applied_undone {versions' : List UInt64} (now' : Instant)
    (hsame : ∀ version ∈ r.versions, version ∈ ListOp.delete.named versions r ↔ version ∈ versions')
    (hfree : ∀ version ∈ ListOp.delete.named versions r, ∀ entry, r.versions[version]? = some entry →
      entry.destroyed = true ∨ entry.deletionTime = none) :
    ListOp.undelete.applied now' versions' (ListOp.delete.applied now versions r) = r := by
  have hdeleted := ListOp.delete.marked_applied now versions r
  have hundeleted : Marked (ListOp.undelete.mark now') versions' _ _ :=
    ListOp.undelete.marked_applied now' versions' (ListOp.delete.applied now versions r)
  refine KeyRecord.eq_of_entries (by rw [hundeleted.others, hdeleted.others]) fun version => ?_
  rw [hundeleted.entries, hdeleted.entries]
  cases hv : r.versions[version]? with
  | none => rfl
  | some entry =>
    simp only [Option.map_some, ← hsame version (KeyRecord.mem_versions_iff.mpr ⟨entry, hv⟩)]
    by_cases hnamed : version ∈ ListOp.delete.named versions r
    · rw [if_pos hnamed, if_pos hnamed, mark_undone now (hfree version hnamed entry hv)]
    · rw [if_neg hnamed, if_neg hnamed]

end ListOp

end Strongbox
