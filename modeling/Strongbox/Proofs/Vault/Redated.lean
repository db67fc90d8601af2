/-
  Strongbox.Proofs.Vault.Redated — when a record was last changed does not matter.

  No request but the one that shows a record looks at the time of its last change, and every request
  that stores a record sets it. So two stores that open the same, but for that time in some records,
  go on side by side: they answer alike, and what they store is the same but for that time.

  Proved:
  - `plan_redated`: a request is going to do the same in both.
  - `ask_redates`: it is answered alike by both, and leaves the same but for the times.
  - `follow_redates`: so it is after every sequence of requests and restarts.
-/

import Mathlib.Logic.Basic
import Strongbox.Proofs.Vault.VersionLists

namespace Strongbox

open Time (Instant)
open KeyRing (saltKey checkKey)
open Vault (recordAddress payloadAddress policyKey)

/-! ## Contents -/

/-- What opens under a key is the same in both, or it is a record and differs in the time of its last
    change. -/
inductive Redated (ring : KeyRing) (key : String) : Option (Except StorageError Bytes) → Option (Except StorageError Bytes) → Prop
  | same (stored : Option (Except StorageError Bytes)) : Redated ring key stored stored
  | record {bytes bytes' : Bytes} {record : KeyRecord} (time : Instant) (haddress : key = recordAddress ring record.key)
    (h : KeyRecord.decode? bytes = some record) (h' : KeyRecord.decode? bytes' = some (record.touch time)) :
    Redated ring key (some (.ok bytes)) (some (.ok bytes'))

/-- So it is under every key but those of the set-up. -/
def Contents.Redates (ring : KeyRing) (c c' : Contents) : Prop :=
  ∀ key, key ≠ saltKey → key ≠ checkKey → Redated ring key (c key) (c' key)

/-- What is read as the record of a path is the same, or differs in the time of its last change. -/
inductive SameButTime : Except Error (Option KeyRecord) → Except Error (Option KeyRecord) → Prop
  | same (found : Except Error (Option KeyRecord)) : SameButTime found found
  | touched (record : KeyRecord) (time : Instant) : SameButTime (.ok (some record)) (.ok (some (record.touch time)))

/-- What does not look at the time comes to the same. -/
theorem SameButTime.bind_eq {α : Type} {x x' : Except Error (Option KeyRecord)} (h : SameButTime x x')
    {g : Option KeyRecord → Except Error α} (hg : ∀ record time, g (some (record.touch time)) = g (some record)) :
    x' >>= g = x >>= g := by
  cases h with
  | same => rfl
  | touched record time => exact hg record time

namespace Contents.Redates

variable {ring : KeyRing} {c c' : Contents}

theorem refl (ring : KeyRing) (c : Contents) : Redates ring c c := fun key _ _ => .same (c key)

theorem eq_none_iff (h : Redates ring c c') {key : String} (hs : key ≠ saltKey) (hc : key ≠ checkKey) :
    c' key = none ↔ c key = none := by
  have hkey := h key hs hc
  generalize c key = x, c' key = x' at hkey
  cases hkey with
  | same => exact Iff.rfl
  | record => exact iff_of_false nofun nofun

/-- What is stored with no record is the same. -/
theorem eq_of_initial? (h : Redates ring c c') {key : String} (hs : Vault.initial? key ≠ some 's')
    (hk : Vault.initial? key ≠ some 'k') (hm : Vault.initial? key ≠ some 'm') : c' key = c key := by
  have hkey := h key (Vault.ne_of_initial? (by simpa using hs)) (Vault.ne_of_initial? (by simpa using hk))
  generalize c key = x, c' key = x' at hkey
  cases hkey with
  | same => rfl
  | record _ haddress =>
    rw [haddress] at hm
    exact absurd (Vault.initial?_recordAddress ring _) hm

theorem policy_eq (h : Redates ring c c') (defaults : Policy) : c'.policy defaults = c.policy defaults :=
  Contents.policy_congr (h.eq_of_initial? (by simp) (by simp) (by simp))

theorem payload_eq (h : Redates ring c c') (path : String) (version : UInt64) :
    c'.payload ring path version = c.payload ring path version :=
  Contents.lookup_congr (h.eq_of_initial? (by simp) (by simp) (by simp))

theorem record_sameButTime (h : Redates ring c c') (path : String) : SameButTime (c.record ring path) (c'.record ring path) := by
  have hkey := h (recordAddress ring path) (Vault.ne_of_initial? (by simp)) (Vault.ne_of_initial? (by simp))
  rw [Contents.record, Contents.record, Contents.lookup, Contents.lookup]
  generalize c (recordAddress ring path) = x, c' (recordAddress ring path) = x' at hkey
  cases hkey with
  | same => exact .same _
  | @record bytes bytes' record time haddress hd hd' =>
    obtain rfl := Vault.recordAddress_inj.mp haddress
    have hread : Vault.checkRecord record.key bytes = .ok record := by
      simp only [Vault.checkRecord, hd, if_true]
    have hread' : Vault.checkRecord record.key bytes' = .ok (record.touch time) := by
      simp only [Vault.checkRecord, hd', KeyRecord.touch_key, if_true]
    simp only [bind, Except.bind, hread, hread']
    exact .touched record time

/-- What is edited in both is the same in both. -/
theorem after {α : Type} (h : Redates ring c c') (plan : Plan α) : Redates ring (plan.after c) (plan.after c') := by
  have hedit {c c' : Contents} (h : Redates ring c c') (e : Edit) : Redates ring (c.edit e) (c'.edit e) := by
    intro key hs hc
    by_cases hkey : key = e.key
    · rw [Contents.edit, Contents.edit, if_pos hkey, if_pos hkey]
      exact .same _
    · rw [Contents.edit_of_ne hkey, Contents.edit_of_ne hkey]
      exact h key hs hc
  have hedits (es : List Edit) {c c' : Contents} (h : Redates ring c c') : Redates ring (c.edits es) (c'.edits es) := by
    induction es generalizing c c' with
    | nil => exact h
    | cons e es ih => exact ih (hedit h e)
  cases plan with
  | answer a => exact h
  | change es commit a => exact hedit (hedits es h) commit

end Contents.Redates

/-! ## Changes of a record -/

namespace KeyRecord

variable (r : KeyRecord) (time now : Instant)

theorem pruned_touch (kept : UInt64) : ((r.touch time).pruned kept).touch now = (r.pruned kept).touch now := by
  have hcutoff : (r.touch time).cutoff? kept = r.cutoff? kept := rfl
  rw [pruned, pruned, hcutoff]
  cases r.cutoff? kept <;> rfl

theorem expired_touch (version : UInt64) (entry : VersionEntry) (expiredAt : Instant) :
    (r.touch time).expired now version entry expiredAt = r.expired now version entry expiredAt :=
  touch_advancedOldest (r.setEntry version _) time now

theorem casRejection?_touch (policy : Policy) (cas : Option UInt64) :
    Vault.casRejection? (r.touch time) policy cas = Vault.casRejection? r policy cas := by
  cases cas <;> rfl

end KeyRecord

/-- The time of the last change is not looked at. -/
theorem ListOp.plan_touch (op : ListOp) (ring : KeyRing) (now : Instant) (versions : List UInt64) {α : Type} (a : α)
    (r : KeyRecord) (time : Instant) :
    op.plan ring now versions (some (r.touch time)) a = op.plan ring now versions (some r) a := by
  have hsame : op.applied now versions (r.touch time) = r.touch time ↔ op.applied now versions r = r := by
    rw [op.applied_touch]
    refine ⟨fun h => ?_, congrArg (KeyRecord.touch · time)⟩
    rw [(op.marked_applied now versions r).others, show (op.applied now versions r).versions = r.versions from
      congrArg (fun record => record.versions) h]
  simp only [plan, hsame, op.erased_touch, op.stored_touch, KeyRecord.touch_key]

/-! ## Plans -/

namespace Vault

variable {v : Vault} {now : Instant} {m m' : Memory} {r : Request}

/-- A change that does not look at the time of the record it starts from is the same. -/
theorem recordOrNewIn_redated (h : (m.contents v.ring).Redates v.ring (m'.contents v.ring)) (now : Instant) (path : String)
    {α : Type} {g : KeyRecord → Except Error α} (hg : ∀ record time, g (record.touch time) = g record) :
    v.recordOrNewIn now m' path >>= g = v.recordOrNewIn now m path >>= g := by
  rw [recordOrNewIn, recordOrNewIn, bind_assoc, bind_assoc]
  exact (h.record_sameButTime path).bind_eq hg

/-- Whatever a request is going to do, it is the same in both, unless the record itself is asked for. -/
theorem plan_redated (h : (m.contents v.ring).Redates v.ring (m'.contents v.ring)) (hr : ∀ path, r ≠ .readMetadata path) :
    v.plan now m' r = v.plan now m r := by
  have hp := h.policy_eq v.defaults
  have hlist (op : ListOp) (path : String) (versions : List UInt64) :
      v.plan now m' (op.request path versions) = v.plan now m (op.request path versions) := by
    rw [plan_list, plan_list]
    exact (h.record_sameButTime path).bind_eq fun record time => congrArg Except.ok (op.plan_touch v.ring now versions _ record time)
  cases r with
  | writeMetadata path changes =>
    simp only [plan, planMetadata, hp]
    refine bind_congr fun policy => ?_
    cases changes.rejection? policy with
    | some reason => rfl
    | none => exact recordOrNewIn_redated h now path fun record time => rfl
  | readMetadata path => exact absurd rfl (hr path)
  | listMetadata path =>
    have hnames : v.namesIn m' path = v.namesIn m path := namesIn_congr (fun key hinitial =>
      h.eq_none_iff (ne_of_initial? (by rw [hinitial]; simp)) (ne_of_initial? (by rw [hinitial]; simp))) path
    simp only [plan, hnames]
  | metadataExists path =>
    simp only [plan, metadataIn, bind_assoc]
    exact (h.record_sameButTime path).bind_eq fun record time => rfl
  | deleteMetadata path => exact (h.record_sameButTime path).bind_eq fun record time => rfl
  | writeData path data cas =>
    simp only [plan, planWrite, hp]
    refine bind_congr fun policy => recordOrNewIn_redated h now path fun record time => ?_
    rw [KeyRecord.casRejection?_touch]
    cases casRejection? record policy cas with
    | some reason => rfl
    | none =>
      have happend : (record.touch time).appended now = (record.appended now).touch time := rfl
      simp only [happend, KeyRecord.touch_key, KeyRecord.touch_currentVersion, KeyRecord.pruned_touch]
      rfl
  | readData path version =>
    have hshown (record : KeyRecord) (version : UInt64) : v.shownIn now m' record version = v.shownIn now m record version := by
      simp only [shownIn, h.payload_eq]
    simp only [plan, planRead, hp, hshown]
    refine bind_congr fun policy => (h.record_sameButTime path).bind_eq fun record time => ?_
    simp only [KeyRecord.touch_versions, KeyRecord.touch_currentVersion, KeyRecord.touch_key, KeyRecord.expired_touch]
    rfl
  | deleteVersions path versions => exact hlist .delete path versions
  | undeleteVersions path versions => exact hlist .undelete path versions
  | destroyVersions path versions => exact hlist .destroy path versions
  | readPolicy => simp only [plan, hp]
  | writePolicy changes => simp only [plan, planPolicyChanges, hp]

/-- So its answer is the same, and what it leaves differs in no more than before. -/
theorem outcome_redated (h : (m.contents v.ring).Redates v.ring (m'.contents v.ring)) (now : Instant) (r : Request) :
    ((∀ path, r ≠ .readMetadata path) → (v.outcome now m' r).1 = (v.outcome now m r).1) ∧
      (v.outcome now m r).2.Redates v.ring (v.outcome now m' r).2 := by
  by_cases hr : ∀ path, r ≠ .readMetadata path
  · simp only [outcome, plan_redated h hr]
    cases v.plan now m r with
    | error e => exact ⟨fun _ => rfl, h⟩
    | ok plan => exact ⟨fun _ => rfl, h.after plan⟩
  · refine ⟨fun hno => absurd hno hr, ?_⟩
    obtain ⟨path, hread⟩ := not_forall.mp hr
    obtain rfl := not_not.mp hread
    have hkeeps (m : Memory) : (v.outcome now m (.readMetadata path)).2 = m.contents v.ring := by
      simp only [outcome, plan]
      cases v.metadataIn m path <;> rfl
    rw [hkeeps, hkeeps]
    exact h

end Vault

/-! ## Stores -/

namespace Session

variable {master : MasterKey} {s s' : Session}

/-- The same is opened by both, but for the times, and both have the same keys. -/
structure Redates (s s' : Session) : Prop where
  master : s'.store.master = s.store.master
  defaults : s'.store.defaults = s.store.defaults
  salt : s'.salt = s.salt
  contents : (s.memory.contents s.keys).Redates s.keys (s'.memory.contents s.keys)

theorem Redates.keys (h : s.Redates s') : s'.keys = s.keys := by rw [Session.keys, Session.keys, h.master, h.salt]

theorem Redates.restart (h : s.Redates s') (defaults : Policy) : (s.restart defaults).Redates (s'.restart defaults) where
  master := h.master
  defaults := rfl
  salt := h.salt
  contents := h.contents

/-- Both answer alike, unless a record is asked for, and still open the same afterwards. -/
theorem ask_redates (hm : s.Redates s') (h : s.Kept master) (h' : s'.Kept master) (now : Instant) (r : Request) :
    ((∀ path, r ≠ .readMetadata path) → (s'.ask Faults.none now r).1 = (s.ask Faults.none now r).1) ∧
      (s.ask Faults.none now r).2.Redates (s'.ask Faults.none now r).2 := by
  cases hi : r.immediate? with
  | some reply =>
    rw [ask_of_immediate hi, ask_of_immediate hi]
    exact ⟨fun _ => rfl, hm⟩
  | none =>
    obtain ⟨m, begun, hanswer, hcontents, hstore, hsalt⟩ := asked_calm h hi now
    obtain ⟨m', begun', hanswer', hcontents', hstore', hsalt'⟩ := asked_calm h' hi now
    have hredates : (m.contents s.keys).Redates s.keys (m'.contents s.keys) := by
      intro key hs hk
      rw [Memory.contents_congr (begun'.others key hs hk), Memory.contents_congr (begun.others key hs hk)]
      exact hm.contents key hs hk
    have houtcome := Vault.outcome_redated (v := ⟨s.keys, s.store.defaults⟩) hredates now r
    rw [hm.keys, hm.defaults] at hanswer' hcontents'
    refine ⟨fun hr => by rw [hanswer, hanswer', houtcome.1 hr], ?_, ?_, ?_, ?_⟩
    · rw [hstore, hstore']
      exact hm.master
    · rw [hstore, hstore']
      exact hm.defaults
    · rw [hsalt, hsalt', hm.salt]
    · rw [keys_ask h now r, hcontents, hcontents']
      exact houtcome.2

/-- The session that some steps lead to. -/
def follow : List Step → Session → Session
  | [], s => s
  | .ask now r :: rest, s => follow rest (s.ask Faults.none now r).2
  | .restart defaults :: rest, s => follow rest (s.restart defaults)

theorem kept_follow (h : s.Kept master) (steps : List Step) : (s.follow steps).Kept master := by
  induction steps generalizing s with
  | nil => exact h
  | cons step rest ih =>
    cases step with
    | ask now r => exact ih ((asked_ask h Faults.none now r).kept h)
    | restart defaults => exact ih (h.restart defaults)

/-- They do so over every sequence of requests and restarts. -/
theorem follow_redates (hm : s.Redates s') (h : s.Kept master) (h' : s'.Kept master) (steps : List Step) :
    (s.follow steps).Redates (s'.follow steps) := by
  induction steps generalizing s s' with
  | nil => exact hm
  | cons step rest ih =>
    cases step with
    | ask now r =>
      exact ih (ask_redates hm h h' now r).2 ((asked_ask h Faults.none now r).kept h) ((asked_ask h' Faults.none now r).kept h')
    | restart defaults => exact ih (hm.restart defaults) (h.restart defaults) (h'.restart defaults)

end Session

end Strongbox
