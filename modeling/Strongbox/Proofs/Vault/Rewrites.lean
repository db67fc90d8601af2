/-
  Strongbox.Proofs.Vault.Rewrites — what requests make of the record they find.

  Five requests revise a record: they read it, erase the payloads of the versions they destroy and
  store it again. For each of them `Rewrites` says what it stores.

  Proved:
  - `rewriting_of_plan`: a request that revises and changes something rewrites the record it finds.
  - `Rewrites.amended`, `Rewrites.revises`: what is stored comes about by single changes.
-/

import Strongbox.Proofs.Record.Amendments
import Strongbox.Proofs.Vault.Plan

namespace Strongbox

open Time (Instant)

namespace Request

/-- The path of a request that may revise a record. -/
def revised? : Request → Option String
  | .writeMetadata path _ => some path
  | .readData path _ => some path
  | .deleteVersions path _ => some path
  | .undeleteVersions path _ => some path
  | .destroyVersions path _ => some path
  | _ => none

end Request

/-! ## Settings that are admitted -/

theorem VersionEntry.destroyed_of_expired? {entry : VersionEntry} {lifetime : Option UInt64} {now expiredAt : Instant}
    (h : entry.expired? lifetime now = some expiredAt) : entry.destroyed = false := by
  cases hd : entry.destroyed with
  | false => rfl
  | true => simp [expired?, hd] at h

@[simp] theorem RecordChanges.underPolicy_customMetadata (c : RecordChanges) (policy : Policy) :
    (c.underPolicy policy).1.customMetadata = c.customMetadata := by
  unfold underPolicy
  split <;> rfl

/-- Free entries that are not rejected violate nothing. -/
theorem RecordChanges.admitted_of_rejection? {c : RecordChanges} {policy : Policy} (h : c.rejection? policy = none)
    {entries : CustomMetadata} (he : c.customMetadata = some entries) : entries.violations = [] := by
  obtain ⟨_, hcustom⟩ := Option.or_eq_none_iff.mp h
  rw [he, Option.bind_some] at hcustom
  split at hcustom
  · assumption
  · cases hcustom

namespace Vault

variable {v : Vault} {now : Instant} {m : Memory}

/-! ## The record that a request finds -/

theorem recordOrNewIn_of_record {path : String} {record : KeyRecord}
    (h : (m.contents v.ring).record v.ring path = .ok (some record)) : v.recordOrNewIn now m path = .ok record := by
  rw [recordOrNewIn, h]
  rfl

theorem recordOrNewIn_of_none {path : String} (h : (m.contents v.ring).record v.ring path = .ok none) :
    v.recordOrNewIn now m path = .ok (KeyRecord.new path now) := by
  rw [recordOrNewIn, h]
  rfl

theorem key_of_recordOrNewIn {path : String} {record : KeyRecord} (h : v.recordOrNewIn now m path = .ok record) :
    record.key = path := by
  obtain ⟨found, hf, hr⟩ := Except.of_bind_eq_ok h
  cases found with
  | none =>
    cases hr
    rfl
  | some found =>
    cases hr
    exact Contents.key_of_record hf

/-! ## What requests make of it -/

/-- What a request that revises makes of the record it finds: the versions whose payloads it
    erases, and the record it stores. -/
inductive Rewrites (v : Vault) (now : Instant) (m : Memory) (before : KeyRecord) : Request → List UInt64 → KeyRecord → Prop
  | settings {path : String} {changes : RecordChanges} {policy : Policy}
    (hp : (m.contents v.ring).policy v.defaults = .ok policy) (admitted : changes.rejection? policy = none) :
    Rewrites v now m before (.writeMetadata path changes) [] (((changes.underPolicy policy).1.apply before).touch now)
  | expired {path : String} {version : Option UInt64} {policy : Policy} {entry : VersionEntry} {expiredAt : Instant}
    (hp : (m.contents v.ring).policy v.defaults = .ok policy)
    (hentry : before.versions[version.getD before.currentVersion]? = some entry)
    (hexpired : entry.expired? (before.lifetime? policy) now = some expiredAt) :
    Rewrites v now m before (.readData path version) [version.getD before.currentVersion]
      (before.expired now (version.getD before.currentVersion) entry expiredAt)
  | deleted {path : String} {versions : List UInt64} : Rewrites v now m before (.deleteVersions path versions) []
      (((if versions = [] then [before.currentVersion] else versions).foldl (KeyRecord.markDeleted now) before).touch now)
  | undeleted {path : String} {versions : List UInt64} : Rewrites v now m before (.undeleteVersions path versions) []
      ((versions.foldl KeyRecord.clearDeleted before).touch now)
  | destroyed {path : String} {versions : List UInt64} : Rewrites v now m before (.destroyVersions path versions)
      (before.destroying versions).1 ((before.destroying versions).2.advancedOldest.touch now)

variable {before after : KeyRecord} {r : Request} {gone : List UInt64}

theorem Rewrites.revises (h : Rewrites v now m before r gone after) : KeyRecord.Revises gone before after := by
  cases h with
  | settings => exact (KeyRecord.revises_apply _ before).trans (KeyRecord.revises_touch _ now)
  | expired _ hentry hexpired =>
    exact KeyRecord.revises_expired hentry (VersionEntry.destroyed_of_expired? hexpired) now _
  | deleted => exact (KeyRecord.Revises.foldl (KeyRecord.revises_markDeleted now) _ before).trans (KeyRecord.revises_touch _ now)
  | undeleted => exact (KeyRecord.Revises.foldl KeyRecord.revises_clearDeleted _ before).trans (KeyRecord.revises_touch _ now)
  | destroyed => exact KeyRecord.revises_destroying _ before now

/-- What is stored comes about by single changes. -/
theorem Rewrites.amended (h : Rewrites v now m before r gone after) : KeyRecord.Amended before after := by
  cases h with
  | @settings _ changes policy _ admitted =>
    refine .head (.settled _ fun entries he => ?_) (.single (.touched now))
    rw [RecordChanges.underPolicy_customMetadata] at he
    exact RecordChanges.admitted_of_rejection? admitted he
  | expired _ hentry hexpired =>
    exact KeyRecord.amended_expired hentry (VersionEntry.destroyed_of_expired? hexpired) now _
  | deleted => exact (KeyRecord.Amended.of_foldl (KeyRecord.amended_markDeleted now) _ before).tail (.touched now)
  | undeleted => exact (KeyRecord.Amended.of_foldl KeyRecord.amended_clearDeleted _ before).tail (.touched now)
  | destroyed => exact ((KeyRecord.amended_destroying _ before).tail .advanced).tail (.touched now)

/-! ## Plans that rewrite -/

/-- The edits are those of a request that rewrites the record it finds. -/
def Rewriting (v : Vault) (now : Instant) (m : Memory) (path : String) (r : Request) (edits : List Edit) (commit : Edit) : Prop :=
  ∃ before gone after, v.recordOrNewIn now m path = .ok before ∧ Rewrites v now m before r gone after ∧
    edits = gone.map (eraseEdit v.ring path) ∧ commit = recordEdit v.ring after

variable {path : String} {edits : List Edit} {commit : Edit}

theorem edits_of_planChanged {a : Outcome Unit} (h : v.planChanged now before after = .change edits commit a) :
    edits = [] ∧ commit = recordEdit v.ring (after.touch now) := by
  rw [planChanged] at h
  split at h
  · cases h
  · cases h
    exact ⟨rfl, rfl⟩

theorem rewriting_of_planMetadata {changes : RecordChanges} {a : Outcome Unit}
    (h : v.planMetadata now m path changes = .ok (.change edits commit a)) :
    Rewriting v now m path (.writeMetadata path changes) edits commit := by
  obtain ⟨policy, hp, h⟩ := Except.of_bind_eq_ok h
  split at h
  · cases h
  · rename_i admitted
    obtain ⟨record, hr, h⟩ := Except.of_bind_eq_ok h
    cases h
    exact ⟨record, [], _, hr, .settings hp admitted, rfl, rfl⟩

theorem rewriting_of_planRead {version : Option UInt64} {a : Option SecretVersion}
    (h : v.planRead now m path version = .ok (.change edits commit a)) :
    Rewriting v now m path (.readData path version) edits commit := by
  obtain ⟨policy, hp, h⟩ := Except.of_bind_eq_ok h
  obtain ⟨found, hf, h⟩ := Except.of_bind_eq_ok h
  cases found with
  | none => cases h
  | some record =>
    simp only at h
    split at h
    · cases h
    · rename_i entry hentry
      split at h
      · obtain ⟨shown, _, h⟩ := Except.of_bind_eq_ok h
        cases h
      · rename_i expiredAt hexpired
        cases h
        rw [Contents.key_of_record hf]
        exact ⟨record, [_], _, recordOrNewIn_of_record hf, .expired hp hentry hexpired, rfl, rfl⟩

theorem rewriting_of_planDelete {versions : List UInt64} {a : Outcome Unit}
    (h : v.planDelete now m path versions = .ok (.change edits commit a)) :
    Rewriting v now m path (.deleteVersions path versions) edits commit := by
  obtain ⟨found, hf, h⟩ := Except.of_bind_eq_ok h
  cases found with
  | none => cases h
  | some record =>
    obtain ⟨rfl, rfl⟩ := edits_of_planChanged (Except.ok.inj h)
    exact ⟨record, [], _, recordOrNewIn_of_record hf, .deleted, rfl, rfl⟩

theorem rewriting_of_planUndelete {versions : List UInt64} {a : Outcome Unit}
    (h : v.planUndelete now m path versions = .ok (.change edits commit a)) :
    Rewriting v now m path (.undeleteVersions path versions) edits commit := by
  obtain ⟨found, hf, h⟩ := Except.of_bind_eq_ok h
  cases found with
  | none => cases h
  | some record =>
    obtain ⟨rfl, rfl⟩ := edits_of_planChanged (Except.ok.inj h)
    exact ⟨record, [], _, recordOrNewIn_of_record hf, .undeleted, rfl, rfl⟩

theorem rewriting_of_planDestroy {versions : List UInt64} {a : Outcome Unit}
    (h : v.planDestroy now m path versions = .ok (.change edits commit a)) :
    Rewriting v now m path (.destroyVersions path versions) edits commit := by
  obtain ⟨found, hf, h⟩ := Except.of_bind_eq_ok h
  cases found with
  | none => cases h
  | some record =>
    simp only at h
    split at h
    · cases h
    · cases h
      rw [Contents.key_of_record hf]
      exact ⟨record, _, _, recordOrNewIn_of_record hf, .destroyed, rfl, rfl⟩

/-- A request that revises and changes something rewrites the record it finds. -/
theorem rewriting_of_plan {a : r.Reply} (hpath : r.revised? = some path)
    (h : v.plan now m r = .ok (.change edits commit a)) : Rewriting v now m path r edits commit := by
  cases r with
  | writeMetadata =>
    cases hpath
    exact rewriting_of_planMetadata h
  | readData =>
    cases hpath
    exact rewriting_of_planRead h
  | deleteVersions =>
    cases hpath
    exact rewriting_of_planDelete h
  | undeleteVersions =>
    cases hpath
    exact rewriting_of_planUndelete h
  | destroyVersions =>
    cases hpath
    exact rewriting_of_planDestroy h
  | _ => cases hpath

end Vault

end Strongbox
