/-
  Strongbox.Proofs.Vault.Persistence — what is written is read back.

  Records and the policy are stored as text, sealed. Whatever a record says of its versions, times
  and entries, and whatever the policy says, the text is read as the very value it was written from.

  Proved:
  - `ends_writeAndRead`: a record and a policy that were written are those that are read.
  - `stored_reads_back`: for every record and every policy, as text and in storage.
-/

import Strongbox.Proofs.Vault.Plan

namespace Strongbox.Vault

/-- Writes a record and a policy, and reads both. -/
def writeAndRead (v : Vault) (record : KeyRecord) (policy : Policy) : Access (Option KeyRecord × Policy) := do
  writeRecord v.ring record
  writePolicy v.ring policy
  return (← readRecord v.ring record.key, ← v.readPolicy)

variable {w : Weather} {m : Memory}

theorem writeRecord_eq (ring : KeyRing) (record : KeyRecord) :
    writeRecord ring record = (recordEdit ring record).access ring := rfl

theorem writePolicy_eq (ring : KeyRing) (policy : Policy) : writePolicy ring policy = (policyEdit policy).access ring := by
  rw [writePolicy, Sealed.put, policy_physicalKey]
  rfl

/-- The record and the policy that are read are those that were written, whatever was stored before. -/
theorem ends_writeAndRead (v : Vault) (record : KeyRecord) (policy : Policy) :
    (v.writeAndRead record policy).Ends Faults.none.weather m fun answer _ => answer = .ok (some record, policy) := by
  have hcalm {c : Call} (h : Faults.none.weather c false) {P : Prop} : P := (Faults.weather_none h).elim
  rw [writeAndRead, writeRecord_eq, writePolicy_eq]
  refine Access.ends_bind.mpr (Access.ends_edit (fun _ h => hcalm h) fun nonce _ => ?_)
  refine Access.ends_bind.mpr (Access.ends_edit (fun _ h => hcalm h) fun nonce' _ => ?_)
  let m' := (policyEdit policy).after v.ring nonce' ((recordEdit v.ring record).after v.ring nonce m)
  have hcontents : m'.contents v.ring = ((m.contents v.ring).edit (recordEdit v.ring record)).edit (policyEdit policy) := by
    rw [Memory.contents_after, Memory.contents_after]
  have hrecord : (m'.contents v.ring).record v.ring record.key = .ok (some record) := by
    rw [hcontents, Contents.record_edit_of_ne (ne_of_initial? (by simp)), Contents.record_recordEdit]
  have hpolicy : (m'.contents v.ring).policy v.defaults = .ok policy := by rw [hcontents, Contents.policy_policyEdit]
  have hreads : Reads m' (do return (← readRecord v.ring record.key, ← v.readPolicy)) (.ok (some record, policy)) := by
    have h := Reads.bind (reads_record (m := m') v.ring record.key) fun found _ =>
      Reads.bind (reads_policy (m := m') v) fun policy _ => Reads.pure (found, policy)
    rw [hrecord, hpolicy] at h
    exact h
  exact hreads _ _ (fun _ _ h => hcalm h) rfl

/-- Whatever a record says, its text is read as the record: any key and entries, any numbers, any
    times, to the nanosecond, in any year and in leap seconds, with or without an expiry. So is the
    text of every policy, and both are read back from storage once they have been written. -/
theorem stored_reads_back (record : KeyRecord) (policy : Policy) :
    KeyRecord.decode? record.encode = some record ∧ Policy.decode? policy.encode = some policy ∧
      ∀ (v : Vault) (world : World Memory),
        ((v.writeAndRead record policy).run Backend.memory world).1 = .ok (some record, policy) :=
  ⟨record.decode?_encode, policy.decode?_encode, fun v _ => (v.ends_writeAndRead record policy).run_memory⟩

end Strongbox.Vault
