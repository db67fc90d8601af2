/-
  Strongbox.Proofs.Vault.VersionLists — requests about lists of versions.

  To delete, undelete or destroy versions of a key, its record is read, gone through with the list,
  and stored again if that made a difference; what is destroyed has its payload erased before. So
  what is left depends on the record and on which of its versions the list names, and a second
  request of the same kind finds nothing to do.

  Proved:
  - `plan_list`: what such a request is going to do.
  - `contents_list`: what it leaves, if no call fails.
  - `payloads_of_list`: deleting and undeleting touch no payload, whichever calls fail.
-/

import Strongbox.Proofs.Record.VersionLists
import Strongbox.Proofs.Vault.Answers
import Strongbox.Proofs.Vault.Succession

namespace Strongbox

open Time (Instant)
open KeyRing (saltKey checkKey)
open Vault (recordAddress payloadAddress recordEdit eraseEdit)

namespace ListOp

/-- The request to do it. -/
def request (op : ListOp) (path : String) (versions : List UInt64) : Request :=
  match op with
  | .delete => .deleteVersions path versions
  | .undelete => .undeleteVersions path versions
  | .destroy => .destroyVersions path versions

/-- The answer, if the request is not rejected. -/
def accepted (op : ListOp) (path : String) (versions : List UInt64) : (op.request path versions).Reply :=
  match op with
  | .delete => Outcome.accepted ()
  | .undelete => Outcome.accepted ()
  | .destroy => Outcome.accepted ()

variable (op : ListOp) (ring : KeyRing) (now : Instant) (versions : List UInt64)

/-- What is going to be done where this record was found, or none. -/
def plan {α : Type} (found : Option KeyRecord) (a : α) : Plan α :=
  match found with
  | none => .answer a
  | some record =>
    if op.applied now versions record = record then .answer a
    else .change ((op.erased versions record).map (eraseEdit ring record.key)) (recordEdit ring (op.stored now versions record)) a

/-- What is left of the contents. -/
def left (found : Option KeyRecord) (c : Contents) : Contents := (op.plan ring now versions found ()).after c

/-- A request that names no versions leaves the record as it is, but for the deletion of the current
    one. -/
theorem immediate?_request {path : String} (hpath : KeyPath.fault? path = none) :
    (op.request path versions).immediate? = none ∨
      (∃ reply, (op.request path versions).immediate? = some reply) ∧ ∀ record, op.applied now versions record = record := by
  cases op with
  | delete => exact .inl (Option.map_eq_none_iff.mpr hpath)
  | undelete | destroy =>
    by_cases hnone : versions = []
    · subst hnone
      exact .inr ⟨⟨.rejected .noVersions, by simp only [request, Request.immediate?, Request.versionsFault?, hpath, if_true]⟩, fun _ => rfl⟩
    · exact .inl (by simp only [request, Request.immediate?, Request.versionsFault?, hpath, if_neg hnone])

/-- Where going through the list makes no difference nothing is changed. -/
theorem left_of_applied {found : Option KeyRecord} (h : ∀ record, found = some record → op.applied now versions record = record)
    (c : Contents) : op.left ring now versions found c = c := by
  cases found with
  | none => rfl
  | some record => simp only [left, plan, h record rfl, if_true, Plan.after]

theorem after_plan {α : Type} (found : Option KeyRecord) (a : α) (c : Contents) :
    (op.plan ring now versions found a).after c = op.left ring now versions found c := by
  cases found with
  | none => rfl
  | some record =>
    simp only [left, plan]
    split <;> rfl

theorem reply_plan {α : Type} (found : Option KeyRecord) (a : α) : (op.plan ring now versions found a).reply = a := by
  cases found with
  | none => rfl
  | some record =>
    simp only [plan]
    split <;> rfl

/-- Once it has been done nothing is to do. -/
theorem plan_result {α : Type} (found : Option KeyRecord) (a : α) :
    op.plan ring now versions (found.map (op.result now versions)) a = .answer a := by
  cases found with
  | none => rfl
  | some record => simp only [Option.map_some, plan, op.applied_result, if_true]

end ListOp

namespace Vault

variable {v : Vault} {now : Instant} {m : Memory} {path : String} {versions : List UInt64} {found : Option KeyRecord}

/-- What a request about a list of versions is going to do. -/
theorem plan_list (v : Vault) (now : Instant) (m : Memory) (op : ListOp) (path : String) (versions : List UInt64) :
    v.plan now m (op.request path versions) = (m.contents v.ring).record v.ring path >>= fun found =>
      .ok (op.plan v.ring now versions found (op.accepted path versions)) := by
  cases op with
  | destroy =>
    refine bind_congr fun found => ?_
    cases found with
    | none => rfl
    | some record =>
      by_cases hsame : (record.destroying versions).2 = record
      · simp only [hsame, if_true]
        exact congrArg Except.ok (if_pos hsame).symm
      · simp only [hsame, if_false]
        exact congrArg Except.ok (if_neg hsame).symm
  | _ =>
    refine bind_congr fun found => ?_
    cases found <;> rfl

theorem plan_list_of_record (op : ListOp) (hr : (m.contents v.ring).record v.ring path = .ok found) :
    v.plan now m (op.request path versions) = .ok (op.plan v.ring now versions found (op.accepted path versions)) := by
  rw [plan_list, hr]
  rfl

/-- What it leaves. -/
theorem outcome_list (op : ListOp) (hr : (m.contents v.ring).record v.ring path = .ok found) :
    v.outcome now m (op.request path versions) =
      (.ok (op.accepted path versions), op.left v.ring now versions found (m.contents v.ring)) := by
  rw [outcome, plan_list_of_record op hr]
  exact Prod.ext (congrArg Except.ok (op.reply_plan v.ring now versions found _)) (op.after_plan v.ring now versions found _ _)

/-- A request about a list of versions that changes something erases payloads, which the
    destruction of versions alone does, and stores a record. -/
theorem change_of_list {op : ListOp} {edits : List Edit} {commit : Edit} {a : (op.request path versions).Reply}
    (h : v.plan now m (op.request path versions) = .ok (.change edits commit a)) :
    ∃ record, edits = (op.erased versions record).map (eraseEdit v.ring record.key) ∧
      commit = recordEdit v.ring (op.stored now versions record) := by
  rw [plan_list] at h
  obtain ⟨found, _, h⟩ := Except.of_bind_eq_ok h
  cases found with
  | none => cases h
  | some record =>
    simp only [ListOp.plan] at h
    split at h
    · cases h
    · cases h
      exact ⟨record, rfl, rfl⟩

/-- Deleting and undeleting touch no payload, however far they get. -/
theorem Effect.frame_list {w : Weather} {m' : Memory} {op : ListOp} {reply : Except Error (op.request path versions).Reply}
    (h : Effect w v now m (op.request path versions) reply m') (hop : op ≠ .destroy) {key : String} (hkey : IsPayload key) :
    m'[key]? = m[key]? := by
  have herased (record : KeyRecord) : op.erased versions record = [] := by
    cases op with
    | destroy => exact absurd rfl hop
    | _ => rfl
  cases h with
  | unread | broken | answered => rfl
  | interrupted plan split made _ =>
    obtain ⟨rest', rfl⟩ := prefix_of_split split
    obtain ⟨record, hedits, _⟩ := change_of_list plan
    rw [herased] at hedits
    obtain ⟨rfl, _⟩ := List.append_eq_nil_iff.mp hedits
    exact made.frame List.not_mem_nil
  | changed plan made _ =>
    obtain ⟨record, rfl, rfl⟩ := change_of_list plan
    rw [herased] at made
    have hcommit : key ≠ (recordEdit v.ring (op.stored now versions record)).key :=
      ne_of_initial? (by simp [initial?_of_isPayload hkey])
    rw [Memory.getElem?_after _ _ hcommit]
    exact made.frame List.not_mem_nil

end Vault

/-! ## Sets of versions -/

namespace ListOp

variable (op : ListOp) {ring : KeyRing} {now : Instant} {versions versions' : List UInt64} {found : Option KeyRecord}

/-- Erasing the same versions in another order, or more than once, leaves the same. -/
theorem edits_erased (ring : KeyRing) (path : String) (h : ∀ version, version ∈ versions ↔ version ∈ versions') (c : Contents) :
    c.edits (versions.map (eraseEdit ring path)) = c.edits (versions'.map (eraseEdit ring path)) := by
  have hkeys {key : String} : key ∈ (versions.map (eraseEdit ring path)).map Edit.key ↔
      key ∈ (versions'.map (eraseEdit ring path)).map Edit.key := by
    simp only [List.map_map, List.mem_map, h]
  have hnone (versions : List UInt64) : ∀ e ∈ versions.map (eraseEdit ring path), e.value = none :=
    List.forall_mem_map.mpr fun _ _ => rfl
  funext key
  by_cases hkey : key ∈ (versions.map (eraseEdit ring path)).map Edit.key
  · rw [Contents.edits_of_deleted (hnone versions) hkey, Contents.edits_of_deleted (hnone versions') (hkeys.mp hkey)]
  · rw [Contents.edits_of_not_mem hkey, Contents.edits_of_not_mem (mt hkeys.mpr hkey)]

/-- Lists that name the same of the listed versions leave the same. -/
theorem left_congr (h : ∀ record, found = some record → ∀ version ∈ record.versions,
      version ∈ op.named versions record ↔ version ∈ op.named versions' record) (c : Contents) :
    op.left ring now versions found c = op.left ring now versions' found c := by
  cases found with
  | none => rfl
  | some record =>
    have hsame := h record rfl
    simp only [left, plan, op.applied_congr now hsame, op.stored_congr now hsame]
    split
    · rfl
    · simp only [Plan.after, edits_erased ring record.key (op.mem_erased_congr hsame)]

/-- The record that is left. -/
theorem record_left {path : String} {c : Contents} (h : c.record ring path = .ok found) :
    (op.left ring now versions found c).record ring path = .ok (found.map (op.result now versions)) := by
  cases found with
  | none => exact h
  | some record =>
    have hkey := Contents.key_of_record h
    simp only [left, plan, result, Option.map_some]
    split
    · exact h
    · have hpayloads : ∀ e ∈ (op.erased versions record).map (eraseEdit ring record.key), Vault.IsPayload e.key :=
        List.forall_mem_map.mpr fun version _ => Vault.isPayload_payloadAddress ring record.key version
      have hedits : (c.edits ((op.erased versions record).map (eraseEdit ring record.key))).record ring path = .ok (some record) :=
        (Contents.record_congr (Vault.edits_of_payloads hpayloads c (by simp))).trans h
      rw [Plan.after, Contents.record_of_recordEdit hedits, stored_key, hkey, if_pos rfl]

end ListOp

namespace Session

variable {master : MasterKey} {s : Session} {path : String} {found : Option KeyRecord}

/-- Under the keys that the storage has, or is going to have, records read as they do. -/
theorem record_keys (h : s.Kept master) (path : String) :
    (s.memory.contents s.keys).record s.keys path = s.contents.record s.ring path := by
  cases hsalt : s.memory[saltKey]? with
  | none =>
    have hblank (key : String) : s.memory[key]? = none := h.memory.blank hsalt key
    exact (Contents.record_eq_none.mpr (hblank _)).trans (Contents.record_eq_none.mpr (hblank _)).symm
  | some salt =>
    have hring : s.ring = s.keys := by
      rw [ring, Memory.ring, keys, Session.salt, hsalt]
      rfl
    rw [contents, hring]

/-- A path that names no key has no versions. -/
theorem ask_list_of_fault {fault : KeyPath.Fault} (hpath : KeyPath.fault? path = some fault) (op : ListOp) (f : Faults)
    (now : Instant) (versions : List UInt64) : (s.ask f now (op.request path versions)).2 = s := by
  have hi : ∃ reply, (op.request path versions).immediate? = some reply := by
    cases op <;> exact ⟨.rejected (.path fault), by
      simp only [ListOp.request, Request.immediate?, Request.versionsFault?, hpath, Option.map_some]⟩
  obtain ⟨_, hi⟩ := hi
  rw [ask_of_immediate hi]

/-- What a request about a list of versions leaves under every key, if no call fails. -/
theorem contents_list (h : s.Kept master) (hpath : KeyPath.fault? path = none) (hr : s.contents.record s.ring path = .ok found)
    (op : ListOp) (now : Instant) (versions : List UInt64) {key : String} (hs : key ≠ saltKey) (hc : key ≠ checkKey) :
    (s.ask Faults.none now (op.request path versions)).2.memory.contents s.keys key =
      op.left s.keys now versions found (s.memory.contents s.keys) key := by
  rcases op.immediate?_request now versions hpath with hi | ⟨⟨reply, hi⟩, hself⟩
  · obtain ⟨m, begun, _, hcontents, _⟩ := asked_calm h hi now
    have hm {key : String} (hs : key ≠ saltKey) (hc : key ≠ checkKey) : m.contents s.keys key = s.memory.contents s.keys key :=
      Memory.contents_congr (begun.others key hs hc)
    have hrecord : m.contents s.keys (recordAddress s.keys path) = s.memory.contents s.keys (recordAddress s.keys path) :=
      hm (Vault.ne_of_initial? (by simp)) (Vault.ne_of_initial? (by simp))
    have hfound : (m.contents s.keys).record s.keys path = .ok found :=
      (Contents.record_congr hrecord).trans ((record_keys h path).trans hr)
    rw [hcontents, Vault.outcome_list (v := ⟨s.keys, s.store.defaults⟩) op hfound]
    exact Plan.after_congr _ (hm hs hc)
  · rw [ask_of_immediate hi, op.left_of_applied s.keys now versions fun record _ => hself record]

/-- Lists that name the same of the listed versions leave the same contents. -/
theorem sameContents_list (h : s.Kept master) (hpath : KeyPath.fault? path = none) (hr : s.contents.record s.ring path = .ok found)
    (op : ListOp) (now : Instant) {versions versions' : List UInt64}
    (hsame : ∀ record, found = some record → ∀ version ∈ record.versions,
      version ∈ op.named versions record ↔ version ∈ op.named versions' record) :
    (s.ask Faults.none now (op.request path versions)).2.SameContents (s.ask Faults.none now (op.request path versions')).2 where
  master := by rw [master_ask h, master_ask h]
  salt := by rw [salt_of_ask h, salt_of_ask h]
  contents key hs hc := by
    rw [keys_ask h, contents_list h hpath hr op now versions' hs hc, contents_list h hpath hr op now versions hs hc,
      op.left_congr hsame]

/-- The record that it leaves. -/
theorem record_list (h : s.Kept master) (hpath : KeyPath.fault? path = none) (hr : s.contents.record s.ring path = .ok found)
    (op : ListOp) (now : Instant) (versions : List UInt64) :
    let t := (s.ask Faults.none now (op.request path versions)).2
    t.contents.record t.ring path = .ok (found.map (op.result now versions)) := by
  intro t
  have hcontents : t.memory.contents s.keys (recordAddress s.keys path) = _ :=
    contents_list h hpath hr op now versions (Vault.ne_of_initial? (by simp)) (Vault.ne_of_initial? (by simp))
  have hleft : (op.left s.keys now versions found (s.memory.contents s.keys)).record s.keys path = _ :=
    op.record_left ((record_keys h path).trans hr)
  rw [← record_keys ((asked_ask h Faults.none now _).kept h) path, keys_ask h now (op.request path versions)]
  exact (Contents.record_congr hcontents).trans hleft

/-- To ask the same once more, at the same time, leaves the memory as it is. -/
theorem memory_list_again (h : s.Kept master) (hpath : KeyPath.fault? path = none)
    (hr : s.contents.record s.ring path = .ok found) (op : ListOp) (now : Instant) (versions : List UInt64) :
    let t := (s.ask Faults.none now (op.request path versions)).2
    (t.ask Faults.none now (op.request path versions)).2.memory = t.memory := by
  intro t
  cases hi : (op.request path versions).immediate? with
  | some reply => rw [ask_of_immediate hi]
  | none =>
    have ht : t.Kept master := (asked_ask h Faults.none now _).kept h
    have hset : t.IsSetUp := isSetUp_ask h hi now
    have hplan : t.vault.plan now t.memory (op.request path versions) = _ :=
      Vault.plan_list_of_record (v := t.vault) op (record_list h hpath hr op now versions)
    obtain ⟨_, _, heffect⟩ := effect_ask ht hset.check hi Faults.none now
    rw [op.plan_result] at hplan
    exact (heffect.of_answer hplan).2

/-- Deleting and undeleting touch no payload, whichever calls fail. -/
theorem payloads_of_list (h : s.Kept master) (f : Faults) {op : ListOp} (hop : op ≠ .destroy) (now : Instant) (path : String)
    (versions : List UInt64) {key : String} (hkey : Vault.IsPayload key) :
    (s.ask f now (op.request path versions)).2.memory[key]? = s.memory[key]? := by
  have hinitial := Vault.initial?_of_isPayload hkey
  have ha := asked_ask h f now (op.request path versions)
  generalize (s.ask f now (op.request path versions)).1 = answer, (s.ask f now (op.request path versions)).2 = t at ha ⊢
  cases ha with
  | immediate => rfl
  | shut _ begun _ _ => exact begun.frame (by simp [hinitial]) (by simp [hinitial])
  | performed _ begun _ effect =>
    rw [← begun.frame (by simp [hinitial]) (by simp [hinitial])]
    exact effect.frame_list hop hkey

end Session

end Strongbox
