/-
  Strongbox.Proofs.Vault.Filing — what a write leaves in the files, and a later read finds there.

  The tree under the root may hold anything. A set-up that succeeds leaves a salt and a check that the
  next set-up with the master key takes as they are. A write that is accepted leaves the payload and
  the record that lists it, for neither the deletes before the record is written nor that write reach
  the payload, and the set-up and the policy are reached by none of them.

  Proved:
  - `unlocks_of_setUp`, `Unlocks.setUp`: what a set-up leaves, and how the next one goes.
  - `deposit_of_accepted`: what a write that was accepted leaves.
  - `Deposit.readData`: a later read shows the value exactly if the version has not expired.
-/

import Strongbox.Proofs.Storage.Untouched
import Strongbox.Proofs.Vault.Backends
import Strongbox.Proofs.Vault.Succeeding

namespace Strongbox

open Time (Instant)
open KeyRing (saltKey checkKey)
open Vault (recordAddress payloadAddress policyKey)
open Directory (Gives Beside Rooted valuePath place)
open Access (run_bind_eq_ok run_pure_eq_ok run_get_eq_ok run_put_eq_ok run_delete_eq_ok run_random_eq_ok run_ofExcept_eq_ok)

variable {here base : List String} {root : FilePath} {w w' : World FileTree} {b : Backend (StateM (World FileTree))}
  {key other path : String} {found : Option Bytes} {value : Bytes} {ring : KeyRing} {version : UInt64}

/-! ## Keys beside each other -/

theorem IsWord.place_eq (h : IsWord key) : Directory.place key = ([], key) := Directory.place_eq h.segments

/-- A value at the top is beside what has a directory. -/
theorem IsWord.beside (h : IsWord key) {first : String} {above : List String} (hplace : (place other).1 = first :: above)
    (hne : Directory.valueName key ≠ first) : Beside key other where
  ne := by
    rintro rfl
    rw [h.place_eq] at hplace
    cases hplace
  clear := by
    rw [hplace]
    exact clear_of_word h hne above

/-- A value at the top needs no directory. -/
theorem beside_of_word (hother : IsWord other) (hne : other ≠ key) : Beside key other where
  ne := hne
  clear := by
    rw [hother.place_eq, List.prefix_nil]
    exact Directory.valuePath_ne_nil key

/-- A key at the top that no directory of a vault is named for. -/
structure AtTop (key : String) : Prop where
  word : IsWord key
  metadata : Directory.valueName key ≠ "metadata"
  versions : Directory.valueName key ≠ "versions"

theorem AtTop.beside_record (h : AtTop key) (hpath : KeyPath.fault? path = none) : Beside key (recordAddress ring path) :=
  h.word.beside (congrArg Prod.fst (place_recordAddress (KeyPath.not_mem_of_valid hpath))) h.metadata

theorem AtTop.beside_payload (h : AtTop key) : Beside key (payloadAddress ring path version) :=
  h.word.beside (congrArg Prod.fst (place_payloadAddress version)) h.versions

theorem AtTop.salt : AtTop saltKey := ⟨by decide, by decide, by decide⟩

theorem AtTop.check : AtTop checkKey := ⟨by decide, by decide, by decide⟩

theorem AtTop.policy : AtTop policyKey := ⟨by decide, by decide, by decide⟩

theorem beside_payload_record (hpath : KeyPath.fault? path = none) :
    Beside (payloadAddress ring path version) (recordAddress ring path) where
  ne := Vault.ne_of_initial? (by simp)
  clear := by
    rw [valuePath, place_payloadAddress, place_recordAddress (KeyPath.not_mem_of_valid hpath), List.cons_append, List.cons_prefix_cons]
    rintro ⟨hfirst, -⟩
    exact absurd hfirst (by decide)

/-! ## Calls -/

/-- What reads the files, whether or not it writes them. -/
def ReadsFiles (here : List String) (root : FilePath) (b : Backend (StateM (World FileTree))) : Prop :=
  ∀ key, b.perform (.get key) = (Backend.files here root).perform (.get key)

theorem files_perform (here : List String) (root : FilePath) (c : Call) (w : World FileTree) :
    (Backend.files here root).perform c w = ((Directory.perform (FileTree.fileSystem here) root c w.store).1,
      { w with store := (Directory.perform (FileTree.fileSystem here) root c w.store).2 }) := rfl

theorem readsFiles_files : ReadsFiles here root (Backend.files here root) := fun _ => rfl

theorem readsFiles_readOnly : ReadsFiles here root (Backend.files here root).readOnly := fun _ => rfl

theorem get_run_of_gives (hb : ReadsFiles here root b) (h : Gives here root base key found w.store) :
    (Access.get key).run b w = (.ok found, w) := by
  rw [run_get_eq_ok, hb, files_perform, h.reply]

/-- A get leaves the files as they are. -/
theorem get_run_files (h : (Access.get key).run (Backend.files here root) w = (.ok found, w')) :
    w' = w ∧ (Directory.perform (FileTree.fileSystem here) root (.get key) w.store).1 = .ok found := by
  rw [run_get_eq_ok, files_perform, Directory.perform_get_tree] at h
  obtain ⟨hanswer, hworld⟩ := Prod.mk.inj h
  exact ⟨hworld.symm, hanswer⟩

theorem put_run_files {done : Unit} (h : (Access.put key value).run (Backend.files here root) w = (.ok done, w')) :
    Directory.perform (FileTree.fileSystem here) root (.put key value) w.store = (.ok (), w'.store) := by
  rw [run_put_eq_ok, files_perform] at h
  obtain ⟨hanswer, rfl⟩ := Prod.mk.inj h
  exact Prod.ext hanswer rfl

theorem delete_run_files {done : Unit} (h : (Access.delete key).run (Backend.files here root) w = (.ok done, w')) :
    Directory.perform (FileTree.fileSystem here) root (.delete key) w.store = (.ok (), w'.store) := by
  rw [run_delete_eq_ok, files_perform] at h
  obtain ⟨hanswer, rfl⟩ := Prod.mk.inj h
  exact Prod.ext hanswer rfl

theorem random_run_files {n : Nat} {block : Block n} (h : (Access.random n).run (Backend.files here root) w = (.ok block, w')) :
    w'.store = w.store := by
  rw [run_random_eq_ok] at h
  rw [← (Prod.mk.inj h).2]

/-! ## Sealed values -/

/-- The tree gives what opens as a value. -/
def Filed (here : List String) (root : FilePath) (base : List String) (s : Sealed) (key : String) (value : Bytes) (t : FileTree) : Prop :=
  ∃ sealed, Gives here root base (s.physicalKey key) (some sealed) t ∧ s.ring.openSealed (s.physicalKey key) sealed = .ok value

section Sealed

variable {s : Sealed}

theorem Filed.get (hb : ReadsFiles here root b) (h : Filed here root base s key value w.store) :
    (s.get key).run b w = (.ok (some value), w) := by
  obtain ⟨sealed, hgives, hopen⟩ := h
  refine run_bind_eq_ok.mpr ⟨some sealed, w, get_run_of_gives hb hgives, ?_⟩
  exact run_bind_eq_ok.mpr ⟨value, w, run_ofExcept_eq_ok.mpr ⟨hopen, rfl⟩, rfl⟩

/-- A get that is answered found nothing, or what opens as the answer. -/
theorem sealed_get_run_files (h : (s.get key).run (Backend.files here root) w = (.ok found, w')) :
    w' = w ∧ ∃ stored, (Directory.perform (FileTree.fileSystem here) root (.get (s.physicalKey key)) w.store).1 = .ok stored ∧
      (stored = none ∧ found = none ∨
        ∃ sealed value, stored = some sealed ∧ s.ring.openSealed (s.physicalKey key) sealed = .ok value ∧ found = some value) := by
  obtain ⟨stored, mid, hget, h⟩ := run_bind_eq_ok.mp h
  obtain ⟨rfl, hanswer⟩ := get_run_files hget
  cases stored with
  | none =>
    obtain ⟨rfl, rfl⟩ := run_pure_eq_ok.mp h
    exact ⟨rfl, none, hanswer, .inl ⟨rfl, rfl⟩⟩
  | some sealed =>
    obtain ⟨value, _, hopened, h⟩ := run_bind_eq_ok.mp h
    obtain ⟨hopen, rfl⟩ := run_ofExcept_eq_ok.mp hopened
    obtain ⟨rfl, rfl⟩ := run_pure_eq_ok.mp h
    exact ⟨rfl, some sealed, hanswer, .inr ⟨sealed, value, rfl, hopen, rfl⟩⟩

/-- A put that succeeds files its value, and leaves what is given for other keys. -/
theorem sealed_put_run_files {done : Unit} (hroot : Rooted here root base w.store)
    (h : (s.put key value).run (Backend.files here root) w = (.ok done, w')) :
    Filed here root base s key value w'.store ∧
      ∀ other found, Beside other (s.physicalKey key) → Gives here root base other found w.store →
        Gives here root base other found w'.store := by
  obtain ⟨nonce, mid, hdraw, h⟩ := run_bind_eq_ok.mp h
  have hput := put_run_files h
  rw [random_run_files hdraw] at hput
  exact ⟨⟨_, Directory.gives_of_put hroot hput, s.ring.openSealed_sealWith nonce _ value⟩,
    fun other found hbeside hgives => hgives.put hbeside hput⟩

end Sealed

/-! ## Setting up -/

/-- The tree gives a salt that the keys are derived from, and a check that they pass. -/
structure Unlocks (here : List String) (root : FilePath) (base : List String) (master : MasterKey) (ring : KeyRing) (t : FileTree) :
    Prop where
  salt : ∃ salt, salt.length = 32 ∧ ring = .derive master salt ∧ Gives here root base saltKey (some salt) t
  check : ∃ sealed, ring.verify sealed = .ok () ∧ Gives here root base checkKey (some sealed) t

theorem Unlocks.rooted {master : MasterKey} {t : FileTree} (h : Unlocks here root base master ring t) : Rooted here root base t := by
  obtain ⟨salt, -, -, hsalt⟩ := h.salt
  exact hsalt.rooted

/-- What is set up needs no set-up. -/
theorem Unlocks.setUp {master : MasterKey} (hb : ReadsFiles here root b) (h : Unlocks here root base master ring w.store) :
    (KeyRing.setUp master).run b w = (.ok ring, w) := by
  obtain ⟨salt, hlength, rfl, hsalt⟩ := h.salt
  obtain ⟨sealed, hverify, hcheck⟩ := h.check
  refine run_bind_eq_ok.mpr ⟨salt, w, run_bind_eq_ok.mpr ⟨some salt, w, get_run_of_gives hb hsalt, rfl⟩, ?_⟩
  rw [if_neg (not_not_intro hlength)]
  refine run_bind_eq_ok.mpr ⟨(), w, run_bind_eq_ok.mpr ⟨some sealed, w, get_run_of_gives hb hcheck, ?_⟩, rfl⟩
  exact run_ofExcept_eq_ok.mpr ⟨hverify, rfl⟩

/-- A set-up that succeeds has found a salt and a check, or written them. -/
theorem unlocks_of_setUp {master : MasterKey} (hroot : Rooted here root base w.store)
    (h : (KeyRing.setUp master).run (Backend.files here root) w = (.ok ring, w')) : Unlocks here root base master ring w'.store := by
  obtain ⟨salt, mid, hsalted, h⟩ := run_bind_eq_ok.mp h
  have hsalt : Gives here root base saltKey (some salt) mid.store := by
    obtain ⟨stored, w₁, hget, hsalted⟩ := run_bind_eq_ok.mp hsalted
    obtain ⟨rfl, hanswer⟩ := get_run_files hget
    cases stored with
    | some stored =>
      obtain ⟨rfl, rfl⟩ := run_pure_eq_ok.mp hsalted
      exact Directory.gives_of_found hroot hanswer
    | none =>
      obtain ⟨drawn, w₂, hdraw, hsalted⟩ := run_bind_eq_ok.mp hsalted
      obtain ⟨_, w₃, hput, hsalted⟩ := run_bind_eq_ok.mp hsalted
      obtain ⟨rfl, rfl⟩ := run_pure_eq_ok.mp hsalted
      have hput := put_run_files hput
      rw [random_run_files hdraw] at hput
      exact Directory.gives_of_put hroot hput
  split at h
  · cases h
  · rename_i hlength
    obtain ⟨_, w₁, hchecked, h⟩ := run_bind_eq_ok.mp h
    obtain ⟨rfl, rfl⟩ := run_pure_eq_ok.mp h
    obtain ⟨stored, w₂, hget, hchecked⟩ := run_bind_eq_ok.mp hchecked
    obtain ⟨rfl, hanswer⟩ := get_run_files hget
    cases stored with
    | some sealed =>
      obtain ⟨hverify, rfl⟩ := run_ofExcept_eq_ok.mp hchecked
      exact ⟨⟨salt, not_not.mp hlength, rfl, hsalt⟩, sealed, hverify, Directory.gives_of_found hsalt.rooted hanswer⟩
    | none =>
      obtain ⟨nonce, w₃, hdraw, hput⟩ := run_bind_eq_ok.mp hchecked
      have hput := put_run_files hput
      rw [random_run_files hdraw] at hput
      refine ⟨⟨salt, not_not.mp hlength, rfl, hsalt.put ?_ hput⟩, _, Memory.verify_marker _ nonce,
        Directory.gives_of_put hsalt.rooted hput⟩
      exact beside_of_word AtTop.check.word (by decide)

/-! ## What a write leaves -/

/-- What is given for keys at the top of one tree is given in the other. -/
def Carries (here : List String) (root : FilePath) (base : List String) (t t' : FileTree) : Prop :=
  ∀ key found, AtTop key → Gives here root base key found t → Gives here root base key found t'

theorem Unlocks.carried {master : MasterKey} {t t' : FileTree} (h : Unlocks here root base master ring t)
    (hcarries : Carries here root base t t') : Unlocks here root base master ring t' := by
  obtain ⟨salt, hlength, hring, hsalt⟩ := h.salt
  obtain ⟨sealed, hverify, hcheck⟩ := h.check
  exact ⟨⟨salt, hlength, hring, hcarries _ _ .salt hsalt⟩, sealed, hverify, hcarries _ _ .check hcheck⟩

/-- The tree gives no policy, or one that can be read. -/
def Ruled (here : List String) (root : FilePath) (base : List String) (ring : KeyRing) (t : FileTree) : Prop :=
  ∃ found, Gives here root base policyKey found t ∧
    ∀ sealed, found = some sealed → ∃ bytes policy, ring.openSealed policyKey sealed = .ok bytes ∧ Policy.decode? bytes = some policy

/-- What a write leaves for a read of the version: the payload, and the record that lists it. -/
structure Deposit (here : List String) (root : FilePath) (base : List String) (ring : KeyRing) (path : String) (now : Instant)
    (number : UInt64) (data : Bytes) (t : FileTree) : Prop where
  ruled : Ruled here root base ring t
  payload : Filed here root base (Vault.payloads ring) (Vault.payloadKey ring path number) data t
  record : ∃ record : KeyRecord, record.key = path ∧ record.versions[number]? = some { createdTime := now } ∧
    Filed here root base (Vault.records ring) path record.encode t

section Vault

variable {v : Vault} {now : Instant} {policy : Policy} {data : Bytes}

theorem Ruled.carried {t t' : FileTree} (h : Ruled here root base ring t) (hcarries : Carries here root base t t') :
    Ruled here root base ring t' := by
  obtain ⟨found, hgives, hread⟩ := h
  exact ⟨found, hcarries _ _ .policy hgives, hread⟩

theorem ruled_of_readPolicy (hroot : Rooted here root base w.store)
    (h : v.readPolicy.run (Backend.files here root) w = (.ok policy, w')) : w' = w ∧ Ruled here root base v.ring w.store := by
  obtain ⟨found, mid, hget, h⟩ := run_bind_eq_ok.mp h
  obtain ⟨rfl, stored, hanswer, hfound⟩ := sealed_get_run_files hget
  rw [Vault.policy_physicalKey] at hanswer hfound
  have hgives := Directory.gives_of_top hroot (congrArg Prod.fst AtTop.policy.word.place_eq) hanswer
  rcases hfound with ⟨rfl, rfl⟩ | ⟨sealed, bytes, rfl, hopen, rfl⟩
  · obtain ⟨-, rfl⟩ := run_pure_eq_ok.mp h
    exact ⟨rfl, none, hgives, nofun⟩
  · cases hdecode : Policy.decode? bytes with
    | none =>
      simp only [hdecode] at h
      exact absurd h Access.run_fail_ne_ok
    | some read =>
      simp only [hdecode] at h
      obtain ⟨-, rfl⟩ := run_pure_eq_ok.mp h
      refine ⟨rfl, some sealed, hgives, fun other hother => ?_⟩
      cases hother
      exact ⟨bytes, read, hopen, hdecode⟩

theorem Ruled.readPolicy (hb : ReadsFiles here root b) (h : Ruled here root base v.ring w.store) :
    ∃ policy, v.readPolicy.run b w = (.ok policy, w) := by
  obtain ⟨found, hgives, hread⟩ := h
  rw [← Vault.policy_physicalKey v.ring] at hgives
  cases found with
  | none =>
    refine ⟨v.defaults, run_bind_eq_ok.mpr ⟨none, w, ?_, rfl⟩⟩
    exact run_bind_eq_ok.mpr ⟨none, w, get_run_of_gives hb hgives, rfl⟩
  | some sealed =>
    obtain ⟨bytes, policy, hopen, hdecode⟩ := hread sealed rfl
    rw [← Vault.policy_physicalKey v.ring] at hopen
    refine ⟨policy, run_bind_eq_ok.mpr ⟨some bytes, w, Filed.get hb ⟨sealed, hgives, hopen⟩, ?_⟩⟩
    simp only [hdecode]
    rfl

/-- A record that is read, or made for want of one, is that of the path. -/
theorem key_of_recordOrNew_files {record : KeyRecord}
    (h : (v.recordOrNew now path).run (Backend.files here root) w = (.ok record, w')) : w' = w ∧ record.key = path := by
  obtain ⟨found, mid, hread, h⟩ := run_bind_eq_ok.mp h
  obtain ⟨rfl, rfl⟩ := run_pure_eq_ok.mp h
  obtain ⟨bytes, mid, hget, hread⟩ := run_bind_eq_ok.mp hread
  obtain ⟨rfl, -⟩ := sealed_get_run_files hget
  cases bytes with
  | none =>
    obtain ⟨rfl, rfl⟩ := run_pure_eq_ok.mp hread
    exact ⟨rfl, rfl⟩
  | some bytes =>
    obtain ⟨record, mid, hchecked, hread⟩ := run_bind_eq_ok.mp hread
    obtain ⟨rfl, rfl⟩ := run_pure_eq_ok.mp hread
    obtain ⟨hchecked, rfl⟩ := Prod.mk.inj hchecked
    refine ⟨rfl, ?_⟩
    unfold Vault.checkRecord at hchecked
    split at hchecked
    · cases hchecked
    · split at hchecked
      · rename_i hkey
        cases hchecked
        exact hkey
      · cases hchecked

theorem Filed.readRecord (hb : ReadsFiles here root b) {record : KeyRecord} (hkey : record.key = path)
    (h : Filed here root base (Vault.records ring) path record.encode w.store) :
    (Vault.readRecord ring path).run b w = (.ok (some record), w) := by
  refine run_bind_eq_ok.mpr ⟨some record.encode, w, h.get hb, run_bind_eq_ok.mpr ⟨record, w, ?_, rfl⟩⟩
  show (Vault.checkRecord path record.encode, w) = _
  rw [Vault.checkRecord, KeyRecord.decode?_encode]
  simp only [if_pos hkey]

/-- A delete of another payload of the path leaves this payload, and what is at the top. -/
theorem payload_kept {w₀ : World FileTree} {number : UInt64} (hne : version ≠ number)
    (hpayload : Filed here root base (Vault.payloads ring) (Vault.payloadKey ring path number) data w.store)
    (hcarries : Carries here root base w₀.store w.store) {done : Unit}
    (h : (Vault.deletePayload ring path version).run (Backend.files here root) w = (.ok done, w')) :
    Filed here root base (Vault.payloads ring) (Vault.payloadKey ring path number) data w'.store ∧
      Carries here root base w₀.store w'.store := by
  obtain ⟨sealed, hgives, hopen⟩ := hpayload
  have hdelete := delete_run_files h
  have hother : payloadAddress ring path version ≠ payloadAddress ring path number :=
    fun heq => hne (Vault.payloadAddress_inj.mp heq).2
  have hplace : (place (payloadAddress ring path version)).1 = (place (payloadAddress ring path number)).1 := by
    rw [place_payloadAddress, place_payloadAddress]
  refine ⟨⟨sealed, hgives.delete hother hgives hother hplace hdelete, hopen⟩, fun key found htop hkey => ?_⟩
  exact (hcarries key found htop hkey).delete htop.beside_payload.ne hgives hother hplace hdelete

/-- A write that was accepted leaves its payload and its record, and the set-up and the policy as they were. -/
theorem deposit_of_accepted {master : MasterKey} {number : UInt64} (hunlocks : Unlocks here root base master v.ring w.store)
    (hpath : KeyPath.fault? path = none) (h : Vault.Accepted (Backend.files here root) v now path data w number w') :
    Unlocks here root base master v.ring w'.store ∧ Deposit here root base v.ring path now number data w'.store := by
  obtain ⟨policy, w₁, before, w₂, w₃, kept, after, w₄, hpolicy, hbefore, rfl, hpayload, hprune, hrecord⟩ := h.steps
  obtain ⟨rfl, hruled⟩ := ruled_of_readPolicy hunlocks.rooted hpolicy
  obtain ⟨rfl, rfl⟩ := key_of_recordOrNew_files hbefore
  obtain ⟨hpayload, hput⟩ := sealed_put_run_files hunlocks.rooted hpayload
  have hcarries : Carries here root base w₂.store w₃.store := fun key found htop => hput key found htop.beside_payload
  -- the payload and what is at the top stay while older payloads are deleted
  obtain ⟨hpayload, hcarries⟩ := (Vault.prune_eq_ok hprune).2
    (fun w => Filed here root base (Vault.payloads v.ring) (Vault.payloadKey v.ring before.key (before.currentVersion + 1)) data w.store ∧
      Carries here root base w₂.store w.store)
    ⟨hpayload, hcarries⟩ (fun other hother w w' done hkept hdelete => payload_kept (UInt64.ne_of_lt hother) hkept.1 hkept.2 hdelete)
  obtain ⟨sealed, hgives, hopen⟩ := hpayload
  obtain ⟨hrecord, hput⟩ := sealed_put_run_files hgives.rooted hrecord
  rw [KeyRecord.written_key] at hrecord hput
  have hlast : Carries here root base w₂.store w'.store :=
    fun key found htop hkey => hput key found (htop.beside_record hpath) (hcarries key found htop hkey)
  refine ⟨hunlocks.carried hlast, hruled.carried hlast, ⟨sealed, hput _ _ (beside_payload_record hpath) hgives, hopen⟩, ?_⟩
  exact ⟨before.written now kept, before.written_key now kept, before.getElem?_written_next now kept, hrecord⟩

/-! ## What a read finds -/

/-- A read of what a write left finds a policy and a record, and shows the value unless by these the
    version has expired; then, if it succeeds, it shows no data. -/
theorem Deposit.readData {number : UInt64} {later : Instant} (hb : ReadsFiles here root b)
    (h : Deposit here root base v.ring path now number data w.store) : ∃ policy record,
      v.readPolicy.run b w = (.ok policy, w) ∧ (Vault.readRecord v.ring path).run b w = (.ok (some record), w) ∧
      match ({ createdTime := now } : VersionEntry).expired? (record.lifetime? policy) later with
      | none => (v.readData later path (some number)).run b w =
          (.ok (some (record.secret number { createdTime := now } (some data))), w)
      | some _ => ∀ shown w', (v.readData later path (some number)).run b w = (.ok shown, w') →
          ∃ secret, shown = some secret ∧ secret.data = none := by
  obtain ⟨policy, hpolicy⟩ := h.ruled.readPolicy hb
  obtain ⟨record, hkey, hentry, hfiled⟩ := h.record
  have hrecord := hfiled.readRecord hb hkey
  refine ⟨policy, record, hpolicy, hrecord, ?_⟩
  cases hexpired : ({ createdTime := now } : VersionEntry).expired? (record.lifetime? policy) later with
  | none =>
    refine Vault.readData_of_live hpolicy hrecord hentry hexpired rfl ?_
    rw [hkey]
    exact h.payload.get hb
  | some ending => exact fun shown w' hread => Vault.readData_of_expired hpolicy hrecord hentry hexpired hread

end Vault

end Strongbox
