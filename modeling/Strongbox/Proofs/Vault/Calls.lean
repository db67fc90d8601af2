/-
  Strongbox.Proofs.Vault.Calls — the calls that a request makes.

  Whatever storage replies and whatever bytes are drawn, an operation calls storage only about the
  keys of the set-up and of the policy, and about the record and the payloads of its path. A record
  that was read is that of the path, so the payloads of a record are those of the path. Only a
  listing lists, the hidden directory that it is about.

  Proved:
  - `asks_setUp`, `asks_perform`: the calls of a set-up and of each request.
-/

import Strongbox.Proofs.Storage.Recording
import Strongbox.Proofs.Vault.Keys

namespace Strongbox

open Time (Instant)
open KeyRing (saltKey checkKey)
open Vault (recordAddress payloadAddress policyKey)

open Access (asks_pure asks_ofExcept asks_forEach)

namespace Sealed

variable {K : Call → Prop} (s : Sealed) (key : String)

theorem asks_get (h : K (.get (s.physicalKey key))) : (s.get key).Asks K fun _ => True := by
  refine ⟨h, fun reply => ?_⟩
  cases reply with
  | none => trivial
  | some sealed => exact (asks_ofExcept _).bind fun _ _ => trivial

theorem asks_put {value : Bytes} (h : ∀ sealed, K (.put (s.physicalKey key) sealed)) : (s.put key value).Asks K fun _ => True :=
  fun _ => ⟨h _, fun _ => trivial⟩

theorem asks_delete (h : K (.delete (s.physicalKey key))) : (s.delete key).Asks K fun _ => True := ⟨h, fun _ => trivial⟩

theorem asks_list {path : String} (h : K (.list (s.physicalKey (directory path)))) : (s.list path).Asks K fun _ => True := by
  refine ⟨h, fun children => ?_⟩
  show Access.Asks K _ (if s.hidesNames then _ else _)
  split
  · exact (asks_ofExcept _).bind fun _ _ => trivial
  · trivial

end Sealed

/-! ## Calls in use -/

/-- A call about a key of one of these forms, or a listing of one of these directories. -/
inductive InUse (ring : KeyRing) (paths directories : List String) : Call → Prop
  | get {key : String} (hform : Form ring paths key) : InUse ring paths directories (.get key)
  | put {key : String} (hform : Form ring paths key) (value : Bytes) : InUse ring paths directories (.put key value)
  | delete {key : String} (hform : Form ring paths key) : InUse ring paths directories (.delete key)
  | list {path : String} (hpath : path ∈ directories) :
    InUse ring paths directories (.list ((Vault.records ring).physicalKey (Sealed.directory path)))

variable {paths directories : List String}

/-- A set-up is about its own two keys. -/
theorem KeyRing.asks_setUp (master : MasterKey) (ring : KeyRing) :
    (KeyRing.setUp master).Asks (InUse ring paths directories) fun _ => True := by
  have hcheck (derived : KeyRing) : (KeyRing.ensureCheck derived).Asks (InUse ring paths directories) fun _ => True := by
    refine ⟨.get .check, fun reply => ?_⟩
    cases reply with
    | none => exact fun _ => ⟨.put .check _, fun _ => trivial⟩
    | some sealed => exact asks_ofExcept _
  have hsalt : KeyRing.ensureSalt.Asks (InUse ring paths directories) fun _ => True := by
    refine ⟨.get .salt, fun reply => ?_⟩
    cases reply with
    | none => exact fun _ => ⟨.put .salt _, fun _ => trivial⟩
    | some salt => trivial
  refine hsalt.bind fun salt _ => ?_
  show Access.Asks _ _ (if salt.length ≠ 32 then _ else _)
  split
  · trivial
  · exact (hcheck _).bind fun _ _ => trivial

namespace Vault

variable {v : Vault} {now : Instant} {path : String} (hpath : path ∈ paths)

/-! ### Records, payloads and policy -/

theorem asks_readPolicy (v : Vault) : v.readPolicy.Asks (InUse v.ring paths directories) fun _ => True := by
  refine ((policies v.ring).asks_get policyKey (by rw [policy_physicalKey]; exact .get .policy)).bind fun found _ => ?_
  cases found with
  | none => trivial
  | some bytes =>
    dsimp only
    cases Policy.decode? bytes <;> trivial

theorem asks_writePolicy (ring : KeyRing) (policy : Policy) :
    (writePolicy ring policy).Asks (InUse ring paths directories) fun _ => True :=
  (policies ring).asks_put policyKey fun sealed => by
    rw [policy_physicalKey]
    exact .put .policy sealed

section Records

include hpath

/-- A record that is read is that of the path. -/
theorem asks_readRecord (ring : KeyRing) : (readRecord ring path).Asks (InUse ring paths directories)
    fun found => ∀ record, found = some record → record.key = path := by
  refine ((records ring).asks_get path (.get (.record hpath))).bind fun found _ => ?_
  cases found with
  | none => exact fun record h => nomatch h
  | some bytes =>
    have hcheck : Access.Asks (InUse ring paths directories) (fun record => record.key = path) (.done (checkRecord path bytes)) := by
      unfold checkRecord
      cases KeyRecord.decode? bytes with
      | none => trivial
      | some record =>
        by_cases hkey : record.key = path
        · simp only [if_pos hkey]
          exact hkey
        · simp only [if_neg hkey]
          trivial
    refine hcheck.bind fun record hkey => ?_
    exact fun other hother => Option.some.inj hother ▸ hkey

theorem asks_recordOrNew (v : Vault) (now : Instant) :
    (v.recordOrNew now path).Asks (InUse v.ring paths directories) fun record => record.key = path := by
  refine (asks_readRecord hpath v.ring).bind fun found hfound => ?_
  cases found with
  | none => exact rfl
  | some record => exact hfound record rfl

theorem asks_writeRecord (ring : KeyRing) (record : KeyRecord) (hkey : record.key = path) :
    (writeRecord ring record).Asks (InUse ring paths directories) fun _ => True :=
  (records ring).asks_put record.key fun sealed => .put (.record (hkey ▸ hpath)) sealed

theorem asks_deleteRecord (ring : KeyRing) : (deleteRecord ring path).Asks (InUse ring paths directories) fun _ => True :=
  (records ring).asks_delete path (.delete (.record hpath))

theorem asks_readPayload (ring : KeyRing) (version : UInt64) :
    (readPayload ring path version).Asks (InUse ring paths directories) fun _ => True :=
  (payloads ring).asks_get _ (.get (.payload hpath version))

theorem asks_writePayload (ring : KeyRing) (version : UInt64) (data : Bytes) :
    (writePayload ring path version data).Asks (InUse ring paths directories) fun _ => True :=
  (payloads ring).asks_put _ fun sealed => .put (.payload hpath version) sealed

theorem asks_deletePayload (ring : KeyRing) (version : UInt64) :
    (deletePayload ring path version).Asks (InUse ring paths directories) fun _ => True :=
  (payloads ring).asks_delete _ (.delete (.payload hpath version))

theorem asks_deletePayloads (ring : KeyRing) (versions : List UInt64) :
    (Access.forEach (deletePayload ring path) versions).Asks (InUse ring paths directories) fun _ => True :=
  asks_forEach fun version _ => asks_deletePayload hpath ring version

theorem asks_showVersion (v : Vault) (now : Instant) {record : KeyRecord} (hkey : record.key = path) (version : UInt64) :
    (v.showVersion now record version).Asks (InUse v.ring paths directories) fun _ => True := by
  unfold showVersion
  cases record.versions[version]? with
  | none => trivial
  | some entry =>
    dsimp only
    split
    · rw [hkey]
      exact (asks_readPayload hpath v.ring version).bind fun _ _ => trivial
    · trivial

theorem asks_writeChanged (v : Vault) (now : Instant) (before : KeyRecord) {after : KeyRecord} (hkey : after.key = path) :
    (v.writeChanged now before after).Asks (InUse v.ring paths directories) fun _ => True := by
  unfold writeChanged
  split
  · trivial
  · exact (asks_writeRecord hpath v.ring (after.touch now) hkey).bind fun _ _ => trivial

end Records

/-! ### Requests -/

section Requests

include hpath

theorem asks_writeMetadata (v : Vault) (now : Instant) (changes : RecordChanges) :
    (v.writeMetadata now path changes).Asks (InUse v.ring paths directories) fun _ => True := by
  refine (asks_readPolicy v).bind fun policy _ => ?_
  dsimp only
  cases changes.rejection? policy with
  | some reason => trivial
  | none =>
    refine (asks_recordOrNew hpath v now).bind fun record hkey => ?_
    exact (asks_writeRecord hpath v.ring (((changes.underPolicy policy).1.apply record).touch now) hkey).bind
      fun _ _ => trivial

theorem asks_readMetadata (v : Vault) : (v.readMetadata path).Asks (InUse v.ring paths directories) fun _ => True :=
  (asks_readRecord hpath v.ring).bind fun _ _ => trivial

theorem asks_deleteMetadata (v : Vault) : (v.deleteMetadata path).Asks (InUse v.ring paths directories) fun _ => True := by
  refine (asks_readRecord hpath v.ring).bind fun found _ => ?_
  cases found with
  | none => trivial
  | some record => exact (asks_deletePayloads hpath v.ring _).bind fun _ _ => asks_deleteRecord hpath v.ring

theorem asks_prune (v : Vault) (record : KeyRecord) (hkey : record.key = path) (kept : UInt64) :
    (v.prune record kept).Asks (InUse v.ring paths directories) fun pruned => pruned.key = path := by
  rw [prune_eq, ← erasePayloads_eq, hkey]
  exact (asks_deletePayloads hpath v.ring _).bind fun _ _ => (record.pruned_key kept).trans hkey

theorem asks_writeData (v : Vault) (now : Instant) (data : Bytes) (cas : Option UInt64) :
    (v.writeData now path data cas).Asks (InUse v.ring paths directories) fun _ => True := by
  refine (asks_readPolicy v).bind fun policy _ => ?_
  refine (asks_recordOrNew hpath v now).bind fun record hkey => ?_
  cases casRejection? record policy cas with
  | some reason => trivial
  | none =>
    cases record.next? with
    | none => trivial
    | some version =>
      refine (asks_writePayload hpath v.ring version data).bind fun _ _ => ?_
      refine (asks_prune hpath v (record.appendVersion version now) hkey _).bind fun pruned hpruned => ?_
      exact (asks_writeRecord hpath v.ring (pruned.touch now) hpruned).bind fun _ _ => trivial

theorem asks_expire (v : Vault) (now : Instant) {record : KeyRecord} (hkey : record.key = path) (version : UInt64)
    (entry : VersionEntry) (expiredAt : Instant) :
    (v.expire now record version entry expiredAt).Asks (InUse v.ring paths directories) fun expired => expired.key = path := by
  unfold expire
  rw [hkey]
  refine (asks_deletePayload hpath v.ring version).bind fun _ _ => ?_
  have hexpired (tombstone : VersionEntry) : ((record.setEntry version tombstone).advancedOldest.touch now).key = path := by
    rw [KeyRecord.touch_key, KeyRecord.advancedOldest_key, KeyRecord.setEntry_key, hkey]
  exact (asks_writeRecord hpath v.ring _ (hexpired _)).bind fun _ _ => hexpired _

theorem asks_readData (v : Vault) (now : Instant) (version : Option UInt64) :
    (v.readData now path version).Asks (InUse v.ring paths directories) fun _ => True := by
  refine (asks_readPolicy v).bind fun policy _ => ?_
  refine (asks_readRecord hpath v.ring).bind fun found hfound => ?_
  cases found with
  | none => trivial
  | some record =>
    have hkey := hfound record rfl
    dsimp only
    cases record.versions[version.getD record.currentVersion]? with
    | none => trivial
    | some entry =>
      dsimp only
      cases entry.expired? (record.lifetime? policy) now with
      | none => exact asks_showVersion hpath v now hkey _
      | some expiredAt =>
        exact (asks_expire hpath v now hkey _ entry expiredAt).bind fun expired hexpired =>
          asks_showVersion hpath v now hexpired _

theorem asks_deleteVersions (v : Vault) (now : Instant) (versions : List UInt64) :
    (v.deleteVersions now path versions).Asks (InUse v.ring paths directories) fun _ => True := by
  refine (asks_readRecord hpath v.ring).bind fun found hfound => ?_
  cases found with
  | none => trivial
  | some record =>
    refine asks_writeChanged hpath v now record ?_
    exact (KeyRecord.Revises.foldl (KeyRecord.revises_markDeleted now) _ record).key.trans (hfound record rfl)

theorem asks_undeleteVersions (v : Vault) (now : Instant) (versions : List UInt64) :
    (v.undeleteVersions now path versions).Asks (InUse v.ring paths directories) fun _ => True := by
  refine (asks_readRecord hpath v.ring).bind fun found hfound => ?_
  cases found with
  | none => trivial
  | some record =>
    refine asks_writeChanged hpath v now record ?_
    exact (KeyRecord.Revises.foldl KeyRecord.revises_clearDeleted _ record).key.trans (hfound record rfl)

theorem asks_destroyVersions (v : Vault) (now : Instant) (versions : List UInt64) :
    (v.destroyVersions now path versions).Asks (InUse v.ring paths directories) fun _ => True := by
  refine (asks_readRecord hpath v.ring).bind fun found hfound => ?_
  cases found with
  | none => trivial
  | some record =>
    have hkey := hfound record rfl
    have hdestroyed : ((record.destroying versions).2.advancedOldest.touch now).key = path :=
      (KeyRecord.revises_destroying versions record now).key.trans hkey
    dsimp only
    rw [destroyEach_eq, ← erasePayloads_eq, hkey]
    let gone := Access.forEach (deletePayload v.ring path) (record.destroying versions).1
    have hgone : Access.Asks (InUse v.ring paths directories) (fun after => after = (record.destroying versions).2)
        (gone >>= fun _ => pure (record.destroying versions).2) :=
      (asks_deletePayloads hpath v.ring _).bind fun _ _ => asks_pure rfl
    refine hgone.bind fun after hafter => ?_
    subst hafter
    split
    · trivial
    · exact (asks_writeRecord hpath v.ring _ hdestroyed).bind fun _ _ => trivial

end Requests

/-- A request is about the set-up, the policy, its path, and the directory it lists. -/
theorem asks_perform (v : Vault) (now : Instant) {r : Request} (hpath : ∀ path, r.path? = some path → path ∈ paths)
    (hdirectory : ∀ path, r = .listMetadata path → path ∈ directories) :
    (v.perform now r).Asks (InUse v.ring paths directories) fun _ => True := by
  cases r with
  | writeMetadata path changes => exact asks_writeMetadata (hpath path rfl) v now changes
  | readMetadata path => exact asks_readMetadata (hpath path rfl) v
  | listMetadata path => exact (records v.ring).asks_list (.list (hdirectory path rfl))
  | metadataExists path => exact (asks_readMetadata (hpath path rfl) v).bind fun _ _ => trivial
  | deleteMetadata path => exact asks_deleteMetadata (hpath path rfl) v
  | writeData path data cas => exact asks_writeData (hpath path rfl) v now data cas
  | readData path version => exact asks_readData (hpath path rfl) v now version
  | deleteVersions path versions => exact asks_deleteVersions (hpath path rfl) v now versions
  | undeleteVersions path versions => exact asks_undeleteVersions (hpath path rfl) v now versions
  | destroyVersions path versions => exact asks_destroyVersions (hpath path rfl) v now versions
  | readPolicy => exact asks_readPolicy v
  | writePolicy changes => exact (asks_readPolicy v).bind fun policy _ => (asks_writePolicy v.ring _).bind fun _ _ => trivial

end Vault

end Strongbox
