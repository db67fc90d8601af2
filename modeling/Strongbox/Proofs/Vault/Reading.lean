/-
  Strongbox.Proofs.Vault.Reading — when reading a version shows its data.

  A version shows its data if its record lists it, it has neither expired nor been deleted or
  destroyed, and its payload is there. Everything of this opens under three keys, so what is done
  to other keys makes no difference.

  Proved:
  - `shows_iff`: when a session shows data under a number.
  - `shows_of_write`: what was just written is shown.
  - `left_by_write`, `left_by_destroy`: the record that a write and a destruction leave.
  - `runs_written`: what the first write to a storage leaves.
-/

import Strongbox.Proofs.Vault.History

namespace Strongbox

open Time (Instant)
open KeyRing (saltKey checkKey)

/-- The policy, the record with an entry that is neither expired, destroyed nor deleted, and the
    payload, as they stand when a version shows its data. -/
structure Contents.Shown (c : Contents) (ring : KeyRing) (defaults : Policy) (now : Instant) (path : String)
    (version : UInt64) (data : Bytes) (policy : Policy) (record : KeyRecord) (entry : VersionEntry) : Prop where
  policy_eq : c.policy defaults = .ok policy
  record_eq : c.record ring path = .ok (some record)
  listed : record.versions[version]? = some entry
  live : entry.expired? (record.lifetime? policy) now = none
  readable : entry.isReadable now = true
  payload_eq : c.payload ring path version = .ok (some data)

namespace Vault

variable {v : Vault} {now : Instant} {m : Memory} {path : String}

/-- A plan to read that answers with data found the version shown. -/
theorem shown_of_planRead {version : Option UInt64} {plan : Plan (Option SecretVersion)} {secret : SecretVersion}
    {data : Bytes} (h : v.planRead now m path version = .ok plan) (hs : plan.reply = some secret)
    (hd : secret.data = some data) :
    ∃ policy record entry,
      (m.contents v.ring).Shown v.ring v.defaults now path secret.version data policy record entry ∧
        secret.version = version.getD record.currentVersion := by
  obtain ⟨policy, hp, h⟩ := Except.of_bind_eq_ok h
  obtain ⟨found, hf, h⟩ := Except.of_bind_eq_ok h
  cases found with
  | none =>
    cases h
    cases hs
  | some record =>
    simp only at h
    split at h
    · cases h
      cases hs
    · rename_i entry hentry
      split at h
      · rename_i hlive
        obtain ⟨shown, hshown, h⟩ := Except.of_bind_eq_ok h
        cases h
        replace hs : shown = some secret := hs
        subst hs
        simp only [shownIn, hentry] at hshown
        by_cases hr : entry.isReadable now
        · simp only [hr, if_true] at hshown
          obtain ⟨payload, hpayload, hshown⟩ := Except.of_bind_eq_ok hshown
          cases hshown
          replace hd : payload = some data := hd
          rw [hd, Contents.key_of_record hf] at hpayload
          exact ⟨policy, record, entry, ⟨hp, hf, hentry, hlive, hr, hpayload⟩, rfl⟩
        · simp only [hr] at hshown
          cases hshown
          cases hd
      · cases h
        cases hs
        cases hd

/-- A version that is shown is what a plan to read answers. -/
theorem planRead_of_shown {version : UInt64} {data : Bytes} {policy : Policy} {record : KeyRecord} {entry : VersionEntry}
    (h : (m.contents v.ring).Shown v.ring v.defaults now path version data policy record entry) :
    v.planRead now m path (some version) = .ok (.answer (some (record.secret version entry (some data)))) := by
  have hpayload := h.payload_eq
  rw [← Contents.key_of_record h.record_eq] at hpayload
  simp only [planRead, h.policy_eq, h.record_eq, bind, Except.bind, Option.getD_some, h.listed, h.live, shownIn, h.readable,
    if_true, hpayload]
  rfl

end Vault

namespace Session

variable {master : MasterKey} {now : Instant} {path : String} {s : Session}

/-- A storage that has not been set up holds no record. -/
theorem record_of_begun (path : String) {m : Memory} (h : s.memory.Kept master) (hb : Memory.Begun master s.memory m)
    (hset : s.memory[checkKey]? = none) (ring : KeyRing) : (m.contents ring).record ring path = .ok none := by
  have hs : Vault.recordAddress ring path ≠ saltKey := Vault.ne_of_initial? (by simp)
  have hc : Vault.recordAddress ring path ≠ checkKey := Vault.ne_of_initial? (by simp)
  have hm : m[Vault.recordAddress ring path]? = none := (hb.others _ hs hc).trans (h.bare hset _ hs)
  exact Contents.record_eq_none.mpr hm

/-- A storage with a record has been set up. -/
theorem check_of_record {record : KeyRecord} (h : s.Kept master) (hr : s.contents.record s.ring path = .ok (some record)) :
    s.memory[checkKey]? ≠ none := fun hnone =>
  Contents.stored_of_record hr (h.memory.bare hnone _ (Vault.ne_of_initial? (by simp)))

/-- A session that answers a read with data found the version shown. -/
theorem shown_of_ask {f : Faults} {version : Option UInt64} {secret : SecretVersion} {data : Bytes} (h : s.Kept master)
    (hs : (s.ask f now (.readData path version)).1 = .ok (some secret)) (hd : secret.data = some data) :
    KeyPath.fault? path = none ∧ s.memory[checkKey]? ≠ none ∧ ∃ policy record entry,
      s.contents.Shown s.ring s.store.defaults now path secret.version data policy record entry ∧
        secret.version = version.getD record.currentVersion := by
  cases hi : (Request.readData path version).immediate? with
  | some answer =>
    obtain ⟨_, _, rfl⟩ := Option.map_eq_some_iff.mp hi
    rw [ask_of_immediate hi] at hs
    cases hs
  | none =>
    obtain ⟨m, world, begun, effect, _⟩ := performed_of_ok h hi (fun _ => rfl) hs
    generalize world.store = m' at effect
    have hplan : ∃ plan, (Vault.mk (m.ring s.store.master) s.store.defaults).planRead now m path version = .ok plan ∧
        plan.reply = some secret := by
      cases effect with
      | answered plan => exact ⟨_, plan, rfl⟩
      | changed plan => exact ⟨_, plan, rfl⟩
    obtain ⟨plan, hplan, hreply⟩ := hplan
    obtain ⟨policy, record, entry, hshown, hversion⟩ := Vault.shown_of_planRead hplan hreply hd
    have hset : s.memory[checkKey]? ≠ none := by
      intro hset
      have hnone := record_of_begun path h.memory (h.master_eq ▸ begun) hset (m.ring s.store.master)
      rw [hshown.record_eq] at hnone
      cases hnone
    rw [begun.done hset] at hshown
    exact ⟨Option.map_eq_none_iff.mp hi, hset, policy, record, entry, hshown, hversion⟩

/-- Reading this version, with no call failing, gives this data. -/
def Shows (now : Instant) (path : String) (version : UInt64) (data : Bytes) (s : Session) : Prop :=
  ∃ secret, (s.ask Faults.none now (.readData path (some version))).1 = .ok (some secret) ∧
    secret.version = version ∧ secret.data = some data

theorem shows_iff {version : UInt64} {data : Bytes} (h : s.Kept master) : s.Shows now path version data ↔
    KeyPath.fault? path = none ∧ s.memory[checkKey]? ≠ none ∧
      ∃ policy record entry, s.contents.Shown s.ring s.store.defaults now path version data policy record entry := by
  constructor
  · rintro ⟨secret, hs, rfl, hd⟩
    obtain ⟨hpath, hset, policy, record, entry, hshown, _⟩ := shown_of_ask h hs hd
    exact ⟨hpath, hset, policy, record, entry, hshown⟩
  · rintro ⟨hpath, hset, policy, record, entry, hshown⟩
    have hi : (Request.readData path (some version)).immediate? = none := Option.map_eq_none_iff.mpr hpath
    have hcalm := (ask_calm h hset hi now).1
    have hplan : s.vault.plan now s.memory (.readData path (some version)) = _ :=
      Vault.planRead_of_shown (v := s.vault) hshown
    rw [Vault.outcome, hplan] at hcalm
    exact ⟨record.secret version entry (some data), hcalm, rfl, rfl⟩

/-! ## What was written -/

/-- What an accepted write with no failing call answers and leaves. -/
theorem ask_write (h : s.Kept master) (hset : s.memory[checkKey]? ≠ none) (hpath : KeyPath.fault? path = none)
    {policy : Policy} {before : KeyRecord} (data : Bytes) (cas : Option UInt64)
    (hp : s.contents.policy s.store.defaults = .ok policy) (hr : s.vault.recordOrNewIn now s.memory path = .ok before)
    (hcas : Vault.casRejection? before policy cas = none) (hmore : ¬ before.Exhausted) :
    (s.ask Faults.none now (.writeData path data cas)).1 =
        .ok (.accepted ⟨before.currentVersion + 1, ({ createdTime := now } : VersionEntry).view⟩) ∧
      (s.ask Faults.none now (.writeData path data cas)).2.contents =
        (s.contents.edits (Vault.writeEdits s.ring path data (before.appended now) (Vault.keptOf policy before))).edit
          (Vault.recordEdit s.ring (before.written now (Vault.keptOf policy before))) := by
  have hi : (Request.writeData path data cas).immediate? = none := Option.map_eq_none_iff.mpr hpath
  have hplan : s.vault.plan now s.memory (.writeData path data cas) = _ := Vault.planWrite_of_accepted hp hr hcas hmore
  have hcalm := ask_calm h hset hi now
  rw [Vault.outcome, hplan] at hcalm
  exact hcalm

/-- The record and the policy that an accepted write with no failing call leaves. -/
theorem left_by_write (h : s.Kept master) (hset : s.memory[checkKey]? ≠ none) (hpath : KeyPath.fault? path = none)
    {policy : Policy} {before : KeyRecord} (data : Bytes) (cas : Option UInt64)
    (hp : s.contents.policy s.store.defaults = .ok policy) (hr : s.vault.recordOrNewIn now s.memory path = .ok before)
    (hcas : Vault.casRejection? before policy cas = none) (hmore : ¬ before.Exhausted) :
    let s' := (s.ask Faults.none now (.writeData path data cas)).2
    s'.contents.record s'.ring path = .ok (some (before.written now (Vault.keptOf policy before))) ∧
      s'.contents.policy s'.store.defaults = .ok policy := by
  intro s'
  have hring : s'.ring = s.ring := ring_ask h hset Faults.none now (.writeData path data cas)
  have hdefaults : s'.store.defaults = s.store.defaults := defaults_ask h Faults.none now (.writeData path data cas)
  have hkey : (before.written now (Vault.keptOf policy before)).key = path :=
    (before.written_key now _).trans (Vault.key_of_recordOrNewIn hr)
  have hpayloads :=
    Vault.writeEdits_isPayload s.ring path data (before.appended now) (Vault.keptOf policy before)
  rw [hring, hdefaults, show s'.contents = _ from (ask_write h hset hpath data cas hp hr hcas hmore).2]
  constructor
  · conv => lhs; rw [← hkey]
    exact Contents.record_recordEdit _ _
  · rw [Contents.policy_edit_of_ne (Vault.ne_of_initial? (by simp)), ← hp]
    exact Contents.policy_congr (Vault.edits_of_payloads hpayloads _ (by simp))

/-- What a session finds of a path after an accepted write with no failing call. -/
theorem shown_of_write (h : s.Kept master) (hset : s.memory[checkKey]? ≠ none) (hpath : KeyPath.fault? path = none)
    {policy : Policy} {before : KeyRecord} (data : Bytes) (cas : Option UInt64)
    (hp : s.contents.policy s.store.defaults = .ok policy) (hr : s.vault.recordOrNewIn now s.memory path = .ok before)
    (hcas : Vault.casRejection? before policy cas = none) (hmore : ¬ before.Exhausted)
    (hlive : ({ createdTime := now } : VersionEntry).expired? (before.lifetime? policy) now = none) :
    let s' := (s.ask Faults.none now (.writeData path data cas)).2
    s'.contents.Shown s'.ring s'.store.defaults now path (before.currentVersion + 1) data policy
      (before.written now (Vault.keptOf policy before)) { createdTime := now } := by
  intro s'
  obtain ⟨hrecord, hpolicy⟩ := left_by_write h hset hpath data cas hp hr hcas hmore
  have hkept := before.next_not_mem_fallen now (Vault.keptOf policy before)
  exact {
    policy_eq := hpolicy
    record_eq := hrecord
    listed := before.getElem?_written_next now _
    live := by
      rw [KeyRecord.written_lifetime?]
      exact hlive
    readable := rfl
    payload_eq := by
      rw [show s'.ring = s.ring from ring_ask h hset Faults.none now _,
        show s'.contents = _ from (ask_write h hset hpath data cas hp hr hcas hmore).2,
        Contents.payload_edit_of_ne (Vault.ne_of_initial? (by simp)), Vault.writeEdits, Vault.payload_written, if_pos rfl,
        if_neg]
      · exact if_pos rfl
      · exact hkept }

/-- What was just written is shown, unless it expires at once. -/
theorem shows_of_write (h : s.Kept master) (hset : s.memory[checkKey]? ≠ none) (hpath : KeyPath.fault? path = none)
    {policy : Policy} {before : KeyRecord} (data : Bytes) (cas : Option UInt64)
    (hp : s.contents.policy s.store.defaults = .ok policy) (hr : s.vault.recordOrNewIn now s.memory path = .ok before)
    (hcas : Vault.casRejection? before policy cas = none) (hmore : ¬ before.Exhausted)
    (hlive : ({ createdTime := now } : VersionEntry).expired? (before.lifetime? policy) now = none) :
    (s.ask Faults.none now (.writeData path data cas)).2.Shows now path (before.currentVersion + 1) data := by
  have hshown := shown_of_write h hset hpath data cas hp hr hcas hmore hlive
  have hcheck := (vault_ask h hset Faults.none now (.writeData path data cas)).2
  exact (shows_iff ((asked_ask h _ now _).kept h)).mpr ⟨hpath, hcheck ▸ hset, _, _, _, hshown⟩

/-! ## What was destroyed -/

/-- The edits that the destruction of one version with no failing call makes. -/
theorem contents_of_destroy (now : Instant) (h : s.Kept master) (hset : s.memory[checkKey]? ≠ none)
    (hpath : KeyPath.fault? path = none) {record : KeyRecord} {version : UInt64} {entry : VersionEntry}
    (hr : s.contents.record s.ring path = .ok (some record)) (hv : record.versions[version]? = some entry)
    (hd : entry.destroyed = false) :
    (s.ask Faults.none now (.destroyVersions path [version])).2.contents =
      (s.contents.edits ([version].map (Vault.eraseEdit s.ring path))).edit (Vault.recordEdit s.ring
        ((record.setEntry version { entry with destroyed := true }).advancedOldest.touch now)) := by
  let destroyed := record.setEntry version { entry with destroyed := true }
  have hentry : destroyed.versions[version]? = some { entry with destroyed := true } := by
    rw [KeyRecord.getElem?_setEntry, if_pos rfl]
  have hdestroying : record.destroying [version] = ([version], destroyed) := by
    simp [KeyRecord.destroying, hv, hd, destroyed]
  have hne : destroyed ≠ record := by
    intro heq
    rw [heq, hv] at hentry
    rw [Option.some.inj hentry] at hd
    cases hd
  have hplan : s.vault.plan now s.memory (.destroyVersions path [version]) =
      .ok (.change [Vault.eraseEdit s.ring record.key version]
        (Vault.recordEdit s.ring (destroyed.advancedOldest.touch now)) (.accepted ())) := by
    show s.vault.planDestroy now s.memory path [version] = _
    simp only [Vault.planDestroy, show (s.memory.contents s.vault.ring).record s.vault.ring path = _ from hr, bind,
      Except.bind, hdestroying, if_neg hne]
    rfl
  have hi : (Request.destroyVersions path [version]).immediate? = none := by
    simp [Request.immediate?, Request.versionsFault?, hpath]
  have hcalm := (ask_calm h hset hi now).2
  rw [Vault.outcome, hplan, Contents.key_of_record hr] at hcalm
  exact hcalm

/-- No path with the identifier has a payload of a version that was destroyed. -/
theorem payload_of_destroy (now : Instant) (h : s.Kept master) (hset : s.memory[checkKey]? ≠ none)
    (hpath : KeyPath.fault? path = none) {record : KeyRecord} {version : UInt64} {entry : VersionEntry}
    (hr : s.contents.record s.ring path = .ok (some record)) (hv : record.versions[version]? = some entry)
    (hd : entry.destroyed = false) {other : String} (hid : s.ring.identifier other = s.ring.identifier path) :
    let s' := (s.ask Faults.none now (.destroyVersions path [version])).2
    s'.contents.payload s'.ring other version = .ok none := by
  intro s'
  rw [show s'.ring = s.ring from ring_ask h hset Faults.none now _,
    show s'.contents = _ from contents_of_destroy now h hset hpath hr hv hd,
    Contents.payload_edit_of_ne (Vault.ne_of_initial? (by simp)), Vault.payload_erased,
    if_pos ⟨hid, List.mem_singleton.mpr rfl⟩]

/-- What the destruction of one version with no failing call leaves. -/
theorem left_by_destroy (now : Instant) (h : s.Kept master) (hset : s.memory[checkKey]? ≠ none)
    (hpath : KeyPath.fault? path = none) {record : KeyRecord} {version : UInt64} {entry : VersionEntry}
    (hr : s.contents.record s.ring path = .ok (some record)) (hv : record.versions[version]? = some entry)
    (hd : entry.destroyed = false) :
    let s' := (s.ask Faults.none now (.destroyVersions path [version])).2
    s'.contents.record s'.ring path =
        .ok (some ((record.setEntry version { entry with destroyed := true }).advancedOldest.touch now)) ∧
      s'.contents.policy s'.store.defaults = s.contents.policy s.store.defaults := by
  intro s'
  have hkey : ((record.setEntry version { entry with destroyed := true }).advancedOldest.touch now).key = path := by
    rw [KeyRecord.touch_key, KeyRecord.advancedOldest_key, KeyRecord.setEntry_key, Contents.key_of_record hr]
  have hdefaults : s'.store.defaults = s.store.defaults := defaults_ask h Faults.none now _
  rw [hdefaults, show s'.contents = _ from contents_of_destroy now h hset hpath hr hv hd, ring_ask h hset]
  constructor
  · conv => lhs; rw [← hkey]
    exact Contents.record_recordEdit _ _
  · rw [Contents.policy_edit_of_ne (Vault.ne_of_initial? (by simp))]
    exact Contents.policy_edit_of_ne (Vault.ne_of_initial? (by simp))

/-- What a session finds of a version after its destruction with no failing call. -/
theorem record_of_destroy (now : Instant) (h : s.Kept master) (hset : s.memory[checkKey]? ≠ none)
    (hpath : KeyPath.fault? path = none) {record : KeyRecord} {version : UInt64} {entry : VersionEntry}
    (hr : s.contents.record s.ring path = .ok (some record)) (hv : record.versions[version]? = some entry)
    (hd : entry.destroyed = false) :
    let s' := (s.ask Faults.none now (.destroyVersions path [version])).2
    ∃ after, s'.contents.record s'.ring path = .ok (some after) ∧
      after.versions[version]? = some { entry with destroyed := true } := by
  refine ⟨_, (left_by_destroy now h hset hpath hr hv hd).1, ?_⟩
  rw [KeyRecord.touch_versions, KeyRecord.advancedOldest_versions, KeyRecord.getElem?_setEntry, if_pos rfl]

/-! ## A first write -/

/-- A store just set up in which a version of a path was written. -/
def written (master : MasterKey) (entropy : Entropy) (path : String) (data : Bytes) (cas : Option UInt64) : Session :=
  ((opened master {} entropy).ask Faults.none .epoch (.writeData path data cas)).2

variable {cas : Option UInt64}

/-- The first write is accepted and leaves its version to be shown. -/
theorem runs_written (master : MasterKey) (entropy : Entropy) (data : Bytes) (hpath : KeyPath.fault? path = none)
    (hcas : Vault.casRejection? (KeyRecord.new path .epoch) {} cas = none) :
    let s := written master entropy path data cas
    Runs master
        [.asked Faults.none .epoch (.writeData path data cas)
            (.ok (.accepted ⟨1, ({ createdTime := .epoch } : VersionEntry).view⟩)),
          .asked Faults.none .epoch .readPolicy ((start master {} entropy).ask Faults.none .epoch .readPolicy).1] s ∧
      s.memory[checkKey]? ≠ none ∧
      s.contents.Shown s.ring s.store.defaults .epoch path 1 data {}
        ((KeyRecord.new path .epoch).written .epoch (Vault.keptOf {} (KeyRecord.new path .epoch))) { createdTime := .epoch } := by
  have hruns := runs_opened master {} entropy
  have hset := (isSetUp_opened master {} entropy).check
  have hp := policy_opened master {} entropy
  have hnew : (opened master {} entropy).vault.recordOrNewIn .epoch (opened master {} entropy).memory path =
      .ok (KeyRecord.new path .epoch) := Vault.recordOrNewIn_of_none (record_opened master {} entropy path)
  have hanswer := (ask_write hruns.kept hset hpath data cas hp hnew hcas (KeyRecord.not_exhausted_new _ _)).1
  have hshown := shown_of_write hruns.kept hset hpath data cas hp hnew hcas (KeyRecord.not_exhausted_new _ _) rfl
  have hcheck := (vault_ask hruns.kept hset Faults.none .epoch (.writeData path data cas)).2
  have hruns' := hruns.ask Faults.none .epoch (.writeData path data cas)
  rw [hanswer] at hruns'
  exact ⟨hruns', hcheck ▸ hset, hshown⟩

/-! ## Further requests -/

/-- Where a run with no failing call stands: the storage is set up, this policy is in force, and this
    record is under the path. -/
structure Stands (master : MasterKey) (path : String) (policy : Policy) (found : Option KeyRecord) (s : Session) : Prop where
  runs : ∃ log, Runs master log s ∧ ∀ e ∈ log, e.IsCalm
  check : s.memory[checkKey]? ≠ none
  policy_eq : s.contents.policy s.store.defaults = .ok policy
  record_eq : s.contents.record s.ring path = .ok found

theorem stands_opened (master : MasterKey) (policy : Policy) (entropy : Entropy) (path : String) :
    (opened master policy entropy).Stands master path policy none where
  runs := ⟨_, runs_opened master policy entropy, by simp [Event.IsCalm]⟩
  check := (isSetUp_opened master policy entropy).check
  policy_eq := policy_opened master policy entropy
  record_eq := record_opened master policy entropy path

namespace Stands

variable {policy : Policy} {found : Option KeyRecord} {record : KeyRecord}

theorem kept (h : s.Stands master path policy found) : s.Kept master :=
  let ⟨_, hruns, _⟩ := h.runs
  hruns.kept

/-- A request none of whose calls fail goes on from there. -/
theorem ask (h : s.Stands master path policy found) (now : Instant) (r : Request) {found' : Option KeyRecord}
    (hr : (s.ask Faults.none now r).2.contents.record (s.ask Faults.none now r).2.ring path = .ok found')
    (hp : (s.ask Faults.none now r).2.contents.policy (s.ask Faults.none now r).2.store.defaults = .ok policy) :
    (s.ask Faults.none now r).2.Stands master path policy found' := by
  obtain ⟨log, hruns, hcalm⟩ := h.runs
  refine ⟨⟨_, hruns.ask Faults.none now r, List.forall_mem_cons.mpr ⟨rfl, hcalm⟩⟩, ?_, hp, hr⟩
  rw [(vault_ask hruns.kept h.check Faults.none now r).2]
  exact h.check

theorem write (h : s.Stands master path policy found) (now : Instant) (hpath : KeyPath.fault? path = none) (data : Bytes)
    (cas : Option UInt64) (before : KeyRecord) (hbefore : found.getD (KeyRecord.new path now) = before)
    (hcas : Vault.casRejection? before policy cas = none) (hmore : ¬ before.Exhausted) :
    (s.ask Faults.none now (.writeData path data cas)).2.Stands master path policy
      (some (before.written now (Vault.keptOf policy before))) := by
  have hbase : s.vault.recordOrNewIn now s.memory path = .ok before := by
    rw [← hbefore]
    cases found with
    | none => exact Vault.recordOrNewIn_of_none h.record_eq
    | some record => exact Vault.recordOrNewIn_of_record h.record_eq
  obtain ⟨hr, hp⟩ := left_by_write h.kept h.check hpath data cas h.policy_eq hbase hcas hmore
  exact h.ask now _ hr hp

theorem destroy (h : s.Stands master path policy (some record)) (now : Instant) (hpath : KeyPath.fault? path = none)
    (version : UInt64) (entry : VersionEntry) (hv : record.versions[version]? = some entry) (hd : entry.destroyed = false) :
    (s.ask Faults.none now (.destroyVersions path [version])).2.Stands master path policy
      (some ((record.setEntry version { entry with destroyed := true }).advancedOldest.touch now)) := by
  obtain ⟨hr, hp⟩ := left_by_destroy now h.kept h.check hpath h.record_eq hv hd
  exact h.ask now _ hr (hp.trans h.policy_eq)

end Stands

end Session

end Strongbox
