/-
  Strongbox.Proofs.Vault.Succeeding — what a write and a read have done when they succeed.

  This holds over any storage, whatever is in it. A write that was accepted has written the payload of
  the version it names, then deleted payloads of versions before it, then written the record that lists
  it. A read shows what it finds in the record and in the payload, unless the version has expired: then
  it destroys the version, and shows no data.

  Proved:
  - `writeData_accepted`: the steps of a write that was accepted.
  - `readData_of_live`, `readData_of_expired`: what a read shows of a listed version.
  - `Store.handle_of_opened`, `Store.opened_of_handle`: a request to a fresh store is a set-up and an operation.
-/

import Strongbox.Proofs.Record.Changes
import Strongbox.Proofs.Storage.Runs
import Strongbox.Vault.Store

namespace Strongbox

open Time (Instant)

variable {σ : Type} {b : Backend (StateM σ)} {w w' : σ}

namespace Vault

open Access (run_bind_eq_ok run_pure_eq_ok)

variable {v : Vault} {now : Instant} {path : String} {version : UInt64} {record : KeyRecord} {policy : Policy} {entry : VersionEntry}

/-! ## Writing -/

/-- Pruning deletes payloads of versions before the current one, and gives the record without what fell out. -/
theorem prune_eq_ok {kept : UInt64} {pruned : KeyRecord} (h : (v.prune record kept).run b w = (.ok pruned, w')) :
    pruned = record.pruned kept ∧ ∀ I : σ → Prop, I w → (∀ other < record.currentVersion, ∀ w w' done, I w →
      (deletePayload v.ring record.key other).run b w = (.ok done, w') → I w') → I w' := by
  unfold prune at h
  unfold KeyRecord.pruned
  cases hcutoff : record.cutoff? kept with
  | none =>
    rw [hcutoff] at h
    obtain ⟨rfl, rfl⟩ := run_pure_eq_ok.mp h
    exact ⟨rfl, fun _ hI _ => hI⟩
  | some cutoff =>
    rw [hcutoff] at h
    obtain ⟨done, mid, hdeleted, hrest⟩ := run_bind_eq_ok.mp h
    obtain ⟨rfl, rfl⟩ := run_pure_eq_ok.mp hrest
    refine ⟨rfl, fun I hI hstep => Access.forEach_keeps (fun other hother => hstep other ?_) hI hdeleted⟩
    have hle : other ≤ cutoff := by simpa using (List.mem_filter.mp hother).2
    exact UInt64.lt_of_le_of_lt hle (record.lt_of_cutoff? hcutoff)

/-- The steps of a write that was accepted. -/
structure Accepted (b : Backend (StateM σ)) (v : Vault) (now : Instant) (path : String) (data : Bytes) (w : σ) (number : UInt64)
    (w' : σ) : Prop where
  intro ::
  steps : ∃ policy w₁ before w₂ w₃ kept after w₄,
    v.readPolicy.run b w = (.ok policy, w₁) ∧
    (v.recordOrNew now path).run b w₁ = (.ok before, w₂) ∧
    number = before.currentVersion + 1 ∧
    (writePayload v.ring path number data).run b w₂ = (.ok (), w₃) ∧
    (v.prune (before.appended now) kept).run b w₃ = (.ok after, w₄) ∧
    (writeRecord v.ring (before.written now kept)).run b w₄ = (.ok (), w')

theorem writeData_accepted {data : Bytes} {cas : Option UInt64} {written : WrittenVersion} {warnings : List Warning}
    (h : (v.writeData now path data cas).run b w = (.ok (.accepted written warnings), w')) :
    Accepted b v now path data w written.version w' := by
  obtain ⟨policy, w₁, hpolicy, h⟩ := run_bind_eq_ok.mp h
  obtain ⟨before, w₂, hbefore, h⟩ := run_bind_eq_ok.mp h
  cases hcas : casRejection? before policy cas with
  | some reason =>
    rw [hcas] at h
    cases (run_pure_eq_ok.mp h).1
  | none =>
    rw [hcas] at h
    by_cases hmore : before.Exhausted
    · rw [before.next?_eq, if_pos hmore] at h
      cases (run_pure_eq_ok.mp h).1
    · rw [before.next?_eq, if_neg hmore] at h
      obtain ⟨_, w₃, hpayload, h⟩ := run_bind_eq_ok.mp h
      obtain ⟨after, w₄, hprune, h⟩ := run_bind_eq_ok.mp h
      obtain ⟨_, w₅, hrecord, h⟩ := run_bind_eq_ok.mp h
      obtain ⟨hwritten, rfl⟩ := run_pure_eq_ok.mp h
      cases hwritten
      refine ⟨⟨policy, w₁, before, w₂, w₃, _, after, w₄, hpolicy, hbefore, rfl, hpayload, hprune, ?_⟩⟩
      rw [(prune_eq_ok hprune).1] at hrecord
      exact hrecord

/-! ## Reading -/

/-- A version that has not expired and is not deleted is shown with its payload. -/
theorem readData_of_live {data : Bytes} (hpolicy : v.readPolicy.run b w = (.ok policy, w))
    (hrecord : (readRecord v.ring path).run b w = (.ok (some record), w)) (hentry : record.versions[version]? = some entry)
    (hlive : entry.expired? (record.lifetime? policy) now = none) (hreadable : entry.isReadable now = true)
    (hpayload : (readPayload v.ring record.key version).run b w = (.ok (some data), w)) :
    (v.readData now path (some version)).run b w = (.ok (some (record.secret version entry (some data))), w) := by
  refine run_bind_eq_ok.mpr ⟨policy, w, hpolicy, run_bind_eq_ok.mpr ⟨some record, w, hrecord, ?_⟩⟩
  simp only [Option.getD_some, hentry, hlive]
  unfold showVersion
  simp only [hentry, hreadable, if_true]
  exact run_bind_eq_ok.mpr ⟨some data, w, hpayload, rfl⟩

/-- A version that is destroyed is shown without data. -/
theorem showVersion_of_destroyed (hentry : record.versions[version]? = some entry) (hdestroyed : entry.destroyed = true)
    {shown : Option SecretVersion} (h : (v.showVersion now record version).run b w = (.ok shown, w')) :
    ∃ secret, shown = some secret ∧ secret.data = none := by
  have hreadable : ¬ entry.isReadable now = true := by simp [VersionEntry.isReadable, hdestroyed]
  unfold showVersion at h
  simp only [hentry, if_neg hreadable] at h
  obtain ⟨data, mid, hdata, h⟩ := run_bind_eq_ok.mp h
  obtain ⟨rfl, -⟩ := run_pure_eq_ok.mp hdata
  obtain ⟨rfl, -⟩ := run_pure_eq_ok.mp h
  exact ⟨_, rfl, rfl⟩

/-- A version that has expired is shown without data, if the read succeeds. -/
theorem readData_of_expired {ending : Instant} (hpolicy : v.readPolicy.run b w = (.ok policy, w))
    (hrecord : (readRecord v.ring path).run b w = (.ok (some record), w)) (hentry : record.versions[version]? = some entry)
    (hexpired : entry.expired? (record.lifetime? policy) now = some ending) {shown : Option SecretVersion}
    (h : (v.readData now path (some version)).run b w = (.ok shown, w')) : ∃ secret, shown = some secret ∧ secret.data = none := by
  obtain ⟨_, _, hpolicy', h⟩ := run_bind_eq_ok.mp h
  obtain ⟨hsame, rfl⟩ := Prod.mk.inj (hpolicy.symm.trans hpolicy')
  cases hsame
  obtain ⟨_, _, hrecord', h⟩ := run_bind_eq_ok.mp h
  obtain ⟨hsame, rfl⟩ := Prod.mk.inj (hrecord.symm.trans hrecord')
  cases hsame
  simp only [Option.getD_some, hentry, hexpired] at h
  obtain ⟨expired, w₁, hexpire, h⟩ := run_bind_eq_ok.mp h
  unfold expire at hexpire
  obtain ⟨_, w₂, -, hexpire⟩ := run_bind_eq_ok.mp hexpire
  obtain ⟨_, w₃, -, hexpire⟩ := run_bind_eq_ok.mp hexpire
  obtain ⟨rfl, -⟩ := run_pure_eq_ok.mp hexpire
  have htombstone := record.getElem?_expired now version version entry ending
  rw [if_pos rfl] at htombstone
  exact showVersion_of_destroyed htombstone rfl h

end Vault

/-! ## A fresh store -/

section Fresh

variable {s : Store} {now : Instant} {r : Request} {ring : KeyRing} {mid : σ}

/-- A store that was set up answers what the operation comes to. -/
theorem Store.handle_of_opened (hr : r.immediate? = none) (hopened : s.openRing.run b w = (.ok ring, mid)) :
    s.handle b now r w =
      ((r.settle (((Vault.mk ring s.defaults).perform now r).run b mid).1, { s with ring := some ring }),
        (((Vault.mk ring s.defaults).perform now r).run b mid).2) := by
  unfold Store.handle
  rw [hr]
  show StateT.bind (s.openRing.run b) _ w = _
  rw [StateT.bind, hopened]
  rfl

/-- A request that storage was asked for and that was answered found the storage set up, or set it up. -/
theorem Store.opened_of_handle (hr : r.immediate? = none) (hsettle : ∀ e, r.settle (.error e) = .error e) {reply : r.Reply}
    {after : Store} (h : s.handle b now r w = ((.ok reply, after), w')) :
    ∃ ring mid, s.openRing.run b w = (.ok ring, mid) ∧
      ((r.settle (((Vault.mk ring s.defaults).perform now r).run b mid).1, (((Vault.mk ring s.defaults).perform now r).run b mid).2) :
        Except Error r.Reply × σ) = (.ok reply, w') := by
  cases hopened : s.openRing.run b w with
  | mk result mid =>
    cases result with
    | ok ring =>
      rw [handle_of_opened hr hopened] at h
      obtain ⟨hanswered, hworld⟩ := Prod.mk.inj h
      exact ⟨ring, mid, rfl, Prod.ext (Prod.mk.inj hanswered).1 hworld⟩
    | error e =>
      unfold Store.handle at h
      rw [hr] at h
      replace h : StateT.bind (s.openRing.run b) _ w = _ := h
      rw [StateT.bind, hopened] at h
      replace h := congrArg (·.1.1) h
      cases (hsettle e).symm.trans h

end Fresh

end Strongbox
