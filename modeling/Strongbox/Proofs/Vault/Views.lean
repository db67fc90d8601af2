/-
  Strongbox.Proofs.Vault.Views — records, payloads and the policy as read from what opens.

  Proved: an edit shows at its own address only (`record_edit_of_ne`, `policy_edit_of_ne`,
  `payload_edit_of_ne`), and there it shows what was put (`record_recordEdit`, `record_dropEdit`,
  `policy_policyEdit`, `payload_payloadEdit`).
-/

import Strongbox.Proofs.Record.Codec
import Strongbox.Proofs.Storage.Contents
import Strongbox.Proofs.Vault.Address

namespace Strongbox

open Vault (recordAddress payloadAddress policyKey)

theorem Except.of_bind_eq_ok {ε α β : Type} {x : Except ε α} {f : α → Except ε β} {b : β} (h : (x >>= f) = .ok b) :
    ∃ a, x = .ok a ∧ f a = .ok b := by
  cases x with
  | error e => cases h
  | ok a => exact ⟨a, rfl, h⟩

/-! ## Reading -/

namespace Contents

variable (ring : KeyRing) (c : Contents)

/-- The record of a path, if there is one. -/
def record (path : String) : Except Error (Option KeyRecord) :=
  c.lookup (recordAddress ring path) >>= fun
    | none => .ok none
    | some bytes => do return some (← Vault.checkRecord path bytes)

/-- The stored policy, or the default one. -/
def policy (c : Contents) (defaults : Policy) : Except Error Policy :=
  c.lookup policyKey >>= fun
    | none => .ok defaults
    | some bytes =>
      match Policy.decode? bytes with
      | some policy => .ok policy
      | none => .error (.corrupt policyKey .undecodablePolicy)

/-- The payload of a version, if there is one. -/
def payload (path : String) (version : UInt64) : Except Error (Option Bytes) :=
  c.lookup (payloadAddress ring path version)

end Contents

/-! ## Edits -/

namespace Vault

variable (ring : KeyRing)

def recordEdit (record : KeyRecord) : Edit := ⟨recordAddress ring record.key, some record.encode⟩

def dropEdit (path : String) : Edit := ⟨recordAddress ring path, none⟩

def payloadEdit (path : String) (version : UInt64) (data : Option Bytes) : Edit :=
  ⟨payloadAddress ring path version, data⟩

def eraseEdit (path : String) (version : UInt64) : Edit := payloadEdit ring path version none

def policyEdit (policy : Policy) : Edit := ⟨policyKey, some policy.encode⟩

@[simp] theorem recordEdit_key (record : KeyRecord) : (recordEdit ring record).key = recordAddress ring record.key := rfl

@[simp] theorem dropEdit_key (path : String) : (dropEdit ring path).key = recordAddress ring path := rfl

@[simp] theorem payloadEdit_key (path : String) (version : UInt64) (data : Option Bytes) :
    (payloadEdit ring path version data).key = payloadAddress ring path version := rfl

@[simp] theorem eraseEdit_key (path : String) (version : UInt64) :
    (eraseEdit ring path version).key = payloadAddress ring path version := rfl

@[simp] theorem policyEdit_key (policy : Policy) : (policyEdit policy).key = policyKey := rfl

end Vault

/-! ## Reading after an edit -/

namespace Contents

open Vault

variable {ring : KeyRing} {c c' : Contents}

theorem record_congr {path : String} (h : c (recordAddress ring path) = c' (recordAddress ring path)) :
    c.record ring path = c'.record ring path := by
  rw [record, record, lookup_congr h]

theorem policy_congr {defaults : Policy} (h : c policyKey = c' policyKey) : c.policy defaults = c'.policy defaults := by
  rw [policy, policy, lookup_congr h]

theorem record_edit_of_ne {e : Edit} {path : String} (h : recordAddress ring path ≠ e.key) :
    (c.edit e).record ring path = c.record ring path :=
  record_congr (edit_of_ne h)

theorem policy_edit_of_ne {e : Edit} {defaults : Policy} (h : policyKey ≠ e.key) :
    (c.edit e).policy defaults = c.policy defaults :=
  policy_congr (edit_of_ne h)

theorem payload_edit_of_ne {e : Edit} {path : String} {version : UInt64} (h : payloadAddress ring path version ≠ e.key) :
    (c.edit e).payload ring path version = c.payload ring path version :=
  lookup_congr (edit_of_ne h)

theorem record_recordEdit (c : Contents) (r : KeyRecord) : (c.edit (recordEdit ring r)).record ring r.key = .ok (some r) := by
  have hl : (c.edit (recordEdit ring r)).lookup (recordAddress ring r.key) = .ok (some r.encode) :=
    lookup_edit_self c (recordEdit ring r)
  rw [record, hl]
  show (do return some (← checkRecord r.key r.encode) : Except Error (Option KeyRecord)) = _
  simp only [checkRecord, KeyRecord.decode?_encode, if_true]
  rfl

theorem record_dropEdit (c : Contents) (path : String) : (c.edit (dropEdit ring path)).record ring path = .ok none := by
  have hl : (c.edit (dropEdit ring path)).lookup (recordAddress ring path) = .ok none :=
    lookup_edit_self c (dropEdit ring path)
  rw [record, hl]
  rfl

theorem policy_policyEdit (c : Contents) (policy defaults : Policy) :
    (c.edit (policyEdit policy)).policy defaults = .ok policy := by
  have hl : (c.edit (policyEdit policy)).lookup policyKey = .ok (some policy.encode) :=
    lookup_edit_self c (policyEdit policy)
  rw [Contents.policy, hl]
  show (match Policy.decode? policy.encode with
    | some policy => .ok policy
    | none => .error (.corrupt policyKey .undecodablePolicy) : Except Error Policy) = _
  rw [Policy.decode?_encode]

theorem payload_payloadEdit (c : Contents) (path : String) (version : UInt64) (data : Option Bytes) :
    (c.edit (payloadEdit ring path version data)).payload ring path version = .ok data :=
  lookup_edit_self c (payloadEdit ring path version data)

/-- No record is found exactly if nothing is stored. -/
theorem record_eq_none {m : Memory} {path : String} :
    (m.contents ring).record ring path = .ok none ↔ m[recordAddress ring path]? = none := by
  have hlookup : (m.contents ring).lookup (recordAddress ring path) = .ok none ↔ m[recordAddress ring path]? = none :=
    lookup_eq_none.trans Memory.contents_eq_none
  rw [← hlookup, record]
  cases (m.contents ring).lookup (recordAddress ring path) with
  | error e => exact iff_of_false (by rintro ⟨⟩) (by rintro ⟨⟩)
  | ok found =>
    cases found with
    | none => exact iff_of_true rfl rfl
    | some bytes =>
      refine iff_of_false (fun h => ?_) (by rintro ⟨⟩)
      replace h : (do return some (← checkRecord path bytes) : Except Error (Option KeyRecord)) = .ok none := h
      obtain ⟨record, _, h⟩ := Except.of_bind_eq_ok h
      cases h

theorem stored_of_record {m : Memory} {path : String} {record : KeyRecord}
    (h : (m.contents ring).record ring path = .ok (some record)) : m[recordAddress ring path]? ≠ none := by
  intro hnone
  cases h.symm.trans (record_eq_none.mpr hnone)

theorem payload_eq_none {m : Memory} {path : String} {version : UInt64} :
    (m.contents ring).payload ring path version = .ok none ↔ m[payloadAddress ring path version]? = none :=
  lookup_eq_none.trans Memory.contents_eq_none

/-- The record found under a path names it. -/
theorem key_of_record {path : String} {r : KeyRecord} (h : c.record ring path = .ok (some r)) : r.key = path := by
  rw [record] at h
  cases hl : c.lookup (recordAddress ring path) with
  | error e => rw [hl] at h; cases h
  | ok found =>
    rw [hl] at h
    cases found with
    | none => cases h
    | some bytes =>
      replace h : (do return some (← checkRecord path bytes) : Except Error (Option KeyRecord)) = .ok (some r) := h
      rw [checkRecord] at h
      split at h
      · cases h
      · split at h
        · cases h
          assumption
        · cases h

end Contents

end Strongbox
