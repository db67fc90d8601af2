/-
  Strongbox.Proofs.Vault.Undoing — deleting versions, undeleting them, and destroying them, as a whole.

  Deleting marks versions and undeleting takes the marks off again, so that a deletion can be taken
  back. What is left then is what there was, but for the time at which the record was last changed,
  and no answer but the record itself shows that.

  Proved:
  - `undone_redates`: to delete versions and undelete them again changes nothing but that time.
  - `version_lists`: the three requests depend on the set of the versions that are named, and repeating
    one makes no difference; no payload is touched by the first two, and the second undoes the first.
-/

import Strongbox.Proofs.Vault.Redated

namespace Strongbox

open Time (Instant)
open KeyRing (saltKey checkKey)
open Vault (recordAddress recordEdit)

/-! ## Contents -/

/-- Bytes that decode to it are stored for a record that is found. -/
theorem Contents.bytes_of_record {c : Contents} {ring : KeyRing} {path : String} {r : KeyRecord}
    (h : c.record ring path = .ok (some r)) :
    ∃ bytes, c (recordAddress ring path) = some (.ok bytes) ∧ KeyRecord.decode? bytes = some r := by
  obtain ⟨found, hfound, h⟩ := Except.of_bind_eq_ok h
  cases found with
  | none => cases h
  | some bytes =>
    obtain ⟨checked, hchecked, h⟩ := Except.of_bind_eq_ok h
    cases h
    refine ⟨bytes, ?_, ?_⟩
    · rw [lookup] at hfound
      split at hfound <;> cases hfound
      assumption
    · rw [Vault.checkRecord] at hchecked
      split at hchecked
      · cases hchecked
      · split at hchecked <;> cases hchecked
        assumption

/-- To store a record again with another time redates it. -/
theorem Contents.Redates.restored {c c' : Contents} {ring : KeyRing} {path : String} {r : KeyRecord}
    (h : c.record ring path = .ok (some r)) (hframe : ∀ key, key ≠ recordAddress ring path → c' key = c key) (time : Instant) :
    c.Redates ring (c'.edit (recordEdit ring (r.touch time))) := by
  have hkey := key_of_record h
  intro key _ _
  by_cases hhere : key = recordAddress ring path
  · obtain ⟨bytes, hbytes, hdecode⟩ := bytes_of_record h
    have hstored : c'.edit (recordEdit ring (r.touch time)) key = some (.ok (r.touch time).encode) := by
      refine if_pos ?_
      rw [hhere, ← hkey]
      rfl
    rw [hstored, hhere, hbytes]
    exact .record time (by rw [hkey]) hdecode (KeyRecord.decode?_encode _)
  · have hne : key ≠ (recordEdit ring (r.touch time)).key := by
      rw [Vault.recordEdit_key, KeyRecord.touch_key, hkey]
      exact hhere
    rw [edit_of_ne hne, hframe key hhere]
    exact .same _

namespace ListOp

variable {ring : KeyRing} {path : String} {versions versions' : List UInt64} {found : Option KeyRecord}

/-- To undelete what was just deleted leaves the contents as they were, but for the time. -/
theorem undone_redates {c : Contents} (hr : c.record ring path = .ok found) (now now' : Instant)
    (hsame : ∀ record, found = some record → ∀ version ∈ record.versions,
      version ∈ ListOp.delete.named versions record ↔ version ∈ versions')
    (hfree : ∀ record, found = some record → ∀ version ∈ ListOp.delete.named versions record,
      ∀ entry, record.versions[version]? = some entry → entry.destroyed = true ∨ entry.deletionTime = none) :
    c.Redates ring (ListOp.undelete.left ring now' versions' (found.map (ListOp.delete.result now versions))
      (ListOp.delete.left ring now versions found c)) := by
  cases found with
  | none => exact .refl ring c
  | some r =>
    have hundone := ListOp.applied_undone now now' (hsame r rfl) (hfree r rfl)
    by_cases hnothing : ListOp.delete.applied now versions r = r
    · rw [hnothing] at hundone
      rw [ListOp.delete.left_of_applied ring now versions (by rintro _ ⟨⟩; exact hnothing), Option.map_some, result,
        if_pos hnothing, ListOp.undelete.left_of_applied ring now' versions' (by rintro _ ⟨⟩; exact hundone)]
      exact .refl ring c
    · let deleted := ListOp.delete.applied now versions r
      have hresult : ListOp.delete.result now versions r = deleted.touch now := if_neg hnothing
      have hleft : ListOp.delete.left ring now versions (some r) c = c.edit (recordEdit ring (deleted.touch now)) :=
        congrArg (fun plan : Plan Unit => plan.after c) (if_neg hnothing)
      have hkey : deleted.key = path := (ListOp.delete.marked_applied now versions r).key_eq.trans (Contents.key_of_record hr)
      have hstored : ListOp.undelete.stored now' versions' deleted = r.touch now' := congrArg (KeyRecord.touch · now') hundone
      rw [hleft, Option.map_some, hresult, left, plan, ListOp.undelete.applied_touch, ListOp.undelete.stored_touch, hundone, hstored]
      split
      · -- so soon after the deletion, the record looks as it will
        rename_i hsoon
        rw [Plan.after, ← hsoon]
        exact .restored hr (fun _ _ => rfl) now
      · have hframe : ∀ key, key ≠ recordAddress ring path → c.edit (recordEdit ring (deleted.touch now)) key = c key := by
          intro key hother
          refine Contents.edit_of_ne ?_
          rw [Vault.recordEdit_key, KeyRecord.touch_key, hkey]
          exact hother
        exact .restored hr hframe now'

end ListOp

/-! ## Stores -/

namespace Session

variable {master : MasterKey} {log : List Event} {s : Session} {path : String} {found : Option KeyRecord}

/-- To delete versions and undelete them again changes nothing but the time. -/
theorem undone_redates (h : s.Kept master) (hpath : KeyPath.fault? path = none) (hr : s.contents.record s.ring path = .ok found)
    (now now' : Instant) {versions versions' : List UInt64}
    (hsame : ∀ record, found = some record → ∀ version ∈ record.versions,
      version ∈ ListOp.delete.named versions record ↔ version ∈ versions')
    (hfree : ∀ record, found = some record → ∀ version ∈ ListOp.delete.named versions record,
      ∀ entry, record.versions[version]? = some entry → entry.destroyed = true ∨ entry.deletionTime = none) :
    s.Redates ((s.ask Faults.none now (ListOp.delete.request path versions)).2.ask Faults.none now'
      (ListOp.undelete.request path versions')).2 := by
  have ht := (asked_ask h Faults.none now (ListOp.delete.request path versions)).kept h
  refine ⟨?_, ?_, ?_, fun key hs hc => ?_⟩
  · rw [master_ask ht, master_ask h]
  · rw [defaults_ask ht, defaults_ask h]
  · rw [salt_of_ask ht, salt_of_ask h]
  · have hdeleted := contents_list h hpath hr .delete now versions hs hc
    have hundeleted := contents_list ht hpath (record_list h hpath hr .delete now versions) .undelete now' versions' hs hc
    rw [keys_ask h] at hundeleted
    rw [hundeleted, ListOp.left, Plan.after_congr _ hdeleted]
    exact ListOp.undone_redates ((record_keys h path).trans hr) now now' hsame hfree key hs hc

/-- Where nothing else differs, the record of a path differs in the time at most. -/
theorem record_of_redates {s' : Session} {record : KeyRecord} (hm : s.Redates s') (h : s.Kept master) (h' : s'.Kept master)
    (hr : s.contents.record s.ring path = .ok (some record)) :
    ∃ time, s'.contents.record s'.ring path = .ok (some (record.touch time)) := by
  have hsame := hm.contents.record_sameButTime path
  rw [record_keys h, hr, ← hm.keys, record_keys h'] at hsame
  generalize s'.contents.record s'.ring path = found' at hsame ⊢
  cases hsame with
  | same => exact ⟨record.updatedTime, rfl⟩
  | touched record time => exact ⟨time, rfl⟩

/-- Whatever a run led to, the requests about lists of versions of a path, with no call failing.

    What they leave depends on which of the listed versions are named, the current one if there are
    none to delete: with lists that name the same ones the same opens afterwards. To ask the same once
    more, at the same time, leaves the memory as it is. Deleting and undeleting touch no payload, even
    if calls fail.

    And to delete versions and then undelete the same ones, at any times, leaves the record as it was
    but for the time of its last change, if each of them was destroyed or not to be deleted. After
    that, and after any other requests and restarts, every request but the one that shows the record
    is answered as it would have been without. -/
theorem version_lists (h : Runs master log s) (path : String) :
    (∀ (op : ListOp) now versions versions',
      (∀ record, s.contents.record s.ring path = .ok (some record) → ∀ version ∈ record.versions,
        version ∈ op.named versions record ↔ version ∈ op.named versions' record) →
      (s.ask Faults.none now (op.request path versions)).2.SameContents (s.ask Faults.none now (op.request path versions')).2) ∧
    (∀ (op : ListOp) now versions,
      let t := (s.ask Faults.none now (op.request path versions)).2
      (t.ask Faults.none now (op.request path versions)).2.memory = t.memory) ∧
    (∀ (op : ListOp) f now versions key, op ≠ .destroy → Vault.IsPayload key →
      (s.ask f now (op.request path versions)).2.memory[key]? = s.memory[key]?) ∧
    ∀ now now' versions versions',
      (∀ record, s.contents.record s.ring path = .ok (some record) →
        (∀ version ∈ record.versions, version ∈ ListOp.delete.named versions record ↔ version ∈ versions') ∧
        ∀ version ∈ ListOp.delete.named versions record, ∀ entry, record.versions[version]? = some entry →
          entry.destroyed = true ∨ entry.deletionTime = none) →
      let t := ((s.ask Faults.none now (.deleteVersions path versions)).2.ask Faults.none now' (.undeleteVersions path versions')).2
      (∀ record, s.contents.record s.ring path = .ok (some record) →
        ∃ time, t.contents.record t.ring path = .ok (some (record.touch time))) ∧
      ∀ steps later r, (∀ path, r ≠ .readMetadata path) →
        ((t.follow steps).ask Faults.none later r).1 = ((s.follow steps).ask Faults.none later r).1 := by
  have hs := h.kept
  cases hpath : KeyPath.fault? path with
  | some fault =>
    refine ⟨?_, ?_, ?_, ?_⟩
    · intro op now versions versions' _
      rw [ask_list_of_fault hpath, ask_list_of_fault hpath]
      exact ⟨rfl, rfl, fun _ _ _ => rfl⟩
    · intro op now versions t
      rw [ask_list_of_fault hpath]
    · intro op f now versions key _ _
      rw [ask_list_of_fault hpath]
    · intro now now' versions versions' _ t
      have ht : t = s := (ask_list_of_fault hpath .undelete _ now' versions').trans (ask_list_of_fault hpath .delete _ now versions)
      rw [ht]
      exact ⟨fun record hrecord => ⟨record.updatedTime, hrecord⟩, fun _ _ _ _ => rfl⟩
  | none =>
    obtain ⟨found, hr, _⟩ := h.recorded (I := fun _ _ => True) hpath trivial (fun _ _ _ _ _ _ => trivial)
    refine ⟨?_, ?_, ?_, ?_⟩
    · intro op now versions versions' hsame
      exact sameContents_list hs hpath hr op now fun record hfound => hsame record (hfound ▸ hr)
    · exact fun op now versions => memory_list_again hs hpath hr op now versions
    · exact fun op f now versions key hop hkey => payloads_of_list hs f hop now path versions hkey
    · intro now now' versions versions' hlists t
      have ht : t.Kept master := (asked_ask ((asked_ask hs _ now _).kept hs) _ now' _).kept ((asked_ask hs _ now _).kept hs)
      have hredates : s.Redates t := undone_redates hs hpath hr now now'
        (fun record hfound => (hlists record (hfound ▸ hr)).1) (fun record hfound => (hlists record (hfound ▸ hr)).2)
      refine ⟨fun record hrecord => record_of_redates hredates hs ht hrecord, fun steps later r hread => ?_⟩
      exact (ask_redates (follow_redates hredates hs ht steps) (kept_follow hs steps) (kept_follow ht steps) later r).1 hread

/-- A store with one version of one key: to name no version deletes it as to name it twice does, beside
    one that is not listed, and what was deleted is shown again when it has been undeleted. -/
theorem version_lists_written :
    let s := written ⟨.tabulate 32 fun _ => 7⟩ ⟨fun _ => 0, 0⟩ "a" [97] none
    (s.ask Faults.none .epoch (.deleteVersions "a" [])).2.SameContents (s.ask Faults.none .epoch (.deleteVersions "a" [9, 1, 1])).2 ∧
      ((s.ask Faults.none .epoch (.deleteVersions "a" [])).2.ask Faults.none .epoch (.undeleteVersions "a" [1])).2.Shows
        .epoch "a" 1 [97] := by
  have hpath : KeyPath.fault? "a" = none := by decide
  have hcas : Vault.casRejection? (KeyRecord.new "a" .epoch) {} none = none := rfl
  obtain ⟨hruns, hcheck, hshown⟩ := runs_written ⟨.tabulate 32 fun _ => 7⟩ ⟨fun _ => 0, 0⟩ [97] hpath hcas
  generalize written ⟨.tabulate 32 fun _ => 7⟩ ⟨fun _ => 0, 0⟩ "a" [97] none = s at *
  obtain ⟨hsets, _, _, hundone⟩ := version_lists hruns "a"
  have hone {record : KeyRecord} (hr : s.contents.record s.ring "a" = .ok (some record)) :
      record.currentVersion = 1 ∧ ∀ (version : UInt64) (entry : VersionEntry), record.versions[version]? = some entry →
        version = 1 ∧ entry.deletionTime = none := by
    cases hr.symm.trans hshown.record_eq
    refine ⟨rfl, fun version entry hentry => ?_⟩
    rw [KeyRecord.getElem?_written] at hentry
    split at hentry
    · cases hentry
    · split at hentry
      · rename_i hversion
        cases hentry
        exact ⟨hversion.symm, rfl⟩
      · cases hentry
  refine ⟨hsets .delete .epoch [] [9, 1, 1] fun record hr version hversion => ?_, ?_⟩
  · obtain ⟨entry, hentry⟩ := KeyRecord.mem_versions_iff.mp hversion
    obtain ⟨rfl, _⟩ := (hone hr).2 version entry hentry
    simp [ListOp.named, (hone hr).1]
  · have hsame := (hundone .epoch .epoch [] [1] fun record hr => ?_).2 [] .epoch (.readData "a" (some 1)) (by simp)
    · rw [follow, follow] at hsame
      obtain ⟨secret, hsecret, hversion, hdata⟩ := (shows_iff hruns.kept).mpr ⟨hpath, hcheck, _, _, _, hshown⟩
      exact ⟨secret, hsame.trans hsecret, hversion, hdata⟩
    · refine ⟨fun version _ => ?_, fun version _ entry hentry => .inr ((hone hr).2 version entry hentry).2⟩
      simp [ListOp.named, (hone hr).1]

end Session

end Strongbox
