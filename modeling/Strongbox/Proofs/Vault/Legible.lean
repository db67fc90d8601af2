/-
  Strongbox.Proofs.Vault.Legible — a store never writes what it cannot read.

  A value is legible under its key if a later request can make sense of it: the salt has its size,
  the check opens to the marker, and everything else opens, the policy to a policy, a record to a
  record that names its own path, which can name a key. Everything a set-up or a request writes is
  legible under the key it is written to, and nothing else is ever there, whichever calls fail. So
  whatever is read is in order, and a request can fail only because a call did.

  Proved:
  - `IsLegible.begun`, `IsLegible.effect`: a set-up and a request keep everything legible.
  - `IsLegible.plan_ok`: where everything is legible, reading never finds anything out of order.
  - `reads_what_it_writes`: after every run everything is legible, and every error is that of the
    call that failed.
-/

import Strongbox.Proofs.KeyRing.FirstUse
import Strongbox.Proofs.Vault.Listing
import Strongbox.Proofs.Vault.Retry

namespace Strongbox

open Time (Instant)
open KeyRing (saltKey checkKey marker)
open Memory (Begun)
open Vault (Effect Move recordAddress payloadAddress policyKey)

/-! ## What can be read -/

/-- What may be stored under a key, so that it can be read. -/
inductive Legible (ring : KeyRing) : String → Bytes → Prop
  | salt {salt : Bytes} (size : salt.length = 32) : Legible ring saltKey salt
  | check {sealed : Bytes} (opens : ring.openSealed checkKey sealed = .ok marker) : Legible ring checkKey sealed
  | policy {sealed value : Bytes} {policy : Policy} (opens : ring.openSealed policyKey sealed = .ok value)
    (decodes : Policy.decode? value = some policy) : Legible ring policyKey sealed
  /-- The record names the path it is stored under. -/
  | record {sealed value : Bytes} {record : KeyRecord} (opens : ring.openSealed (recordAddress ring record.key) sealed = .ok value)
    (decodes : KeyRecord.decode? value = some record) (valid : KeyPath.fault? record.key = none) :
    Legible ring (recordAddress ring record.key) sealed
  | payload {sealed value : Bytes} {path : String} {version : UInt64}
    (opens : ring.openSealed (payloadAddress ring path version) sealed = .ok value) :
    Legible ring (payloadAddress ring path version) sealed

namespace Legible

variable {ring : KeyRing} {key path : String} {sealed : Bytes}

theorem policy_inv (h : Legible ring policyKey sealed) :
    ∃ value policy, ring.openSealed policyKey sealed = .ok value ∧ Policy.decode? value = some policy := by
  have hinitial : Vault.initial? policyKey = some 'c' := Vault.initial?_policyKey
  generalize hkey : policyKey = key at h hinitial
  cases h with
  | policy opens decodes => exact ⟨_, _, opens, decodes⟩
  | salt => simp at hinitial
  | check => simp at hinitial
  | record => simp at hinitial
  | payload => simp at hinitial

/-- What is stored with the records is a record, and stands where its path says. -/
theorem record_inv (h : Legible ring key sealed) (hinitial : Vault.initial? key = some 'm') :
    ∃ value record, ring.openSealed key sealed = .ok value ∧ KeyRecord.decode? value = some record ∧
      KeyPath.fault? record.key = none ∧ key = recordAddress ring record.key := by
  cases h with
  | record opens decodes valid => exact ⟨_, _, opens, decodes, valid, rfl⟩
  | salt => simp at hinitial
  | check => simp at hinitial
  | policy => simp at hinitial
  | payload => simp at hinitial

theorem payload_inv (h : Legible ring key sealed) (hinitial : Vault.initial? key = some 'v') :
    ∃ value, ring.openSealed key sealed = .ok value := by
  cases h with
  | payload opens => exact ⟨_, opens⟩
  | salt => simp at hinitial
  | check => simp at hinitial
  | policy => simp at hinitial
  | record => simp at hinitial

end Legible

/-- Everything that is stored can be read. -/
def IsLegible (ring : KeyRing) (m : Memory) : Prop :=
  ∀ (key : String) (bytes : Bytes), m[key]? = some bytes → Legible ring key bytes

/-! ## Writing -/

/-- What an edit puts under its key can be read there. -/
def Edit.Sound (ring : KeyRing) (e : Edit) : Prop :=
  ∀ nonce value, e.value = some value → Legible ring e.key (ring.sealWith nonce e.key value)

section Edits

variable {ring : KeyRing} {m m' : Memory}

theorem sound_policyEdit (ring : KeyRing) (policy : Policy) : (Vault.policyEdit policy).Sound ring := by
  rintro nonce _ ⟨⟩
  exact .policy (ring.openSealed_sealWith nonce policyKey policy.encode) policy.decode?_encode

theorem sound_recordEdit (ring : KeyRing) {record : KeyRecord} (hvalid : KeyPath.fault? record.key = none) :
    (Vault.recordEdit ring record).Sound ring := by
  rintro nonce _ ⟨⟩
  exact .record (ring.openSealed_sealWith nonce (recordAddress ring record.key) record.encode) record.decode?_encode hvalid

theorem sound_payloadEdit (ring : KeyRing) (path : String) (version : UInt64) (data : Option Bytes) :
    (Vault.payloadEdit ring path version data).Sound ring := by
  intro nonce value _
  exact .payload (ring.openSealed_sealWith nonce (payloadAddress ring path version) value)

theorem sound_erased (ring : KeyRing) (path : String) (gone : List UInt64) :
    ∀ e ∈ gone.map (Vault.eraseEdit ring path), e.Sound ring :=
  List.forall_mem_map.mpr fun version _ => sound_payloadEdit ring path version none

theorem sound_dropEdit (ring : KeyRing) (path : String) : (Vault.dropEdit ring path).Sound ring := nofun

theorem IsLegible.edit {e : Edit} (h : IsLegible ring m) (he : e.Sound ring) (nonce : Block 12) :
    IsLegible ring (e.after ring nonce m) := by
  intro key bytes hbytes
  by_cases hkey : key = e.key
  · subst hkey
    obtain ⟨place, content⟩ := e
    cases content with
    | none => cases Std.ExtTreeMap.getElem?_erase_self.symm.trans hbytes
    | some value =>
      obtain rfl := Option.some.inj (Std.ExtTreeMap.getElem?_insert_self.symm.trans hbytes)
      exact he nonce value rfl
  · exact h key bytes ((Memory.getElem?_after nonce m hkey).symm.trans hbytes)

theorem IsLegible.edits {es : List Edit} (h : IsLegible ring m) (hes : ∀ e ∈ es, e.Sound ring) (made : Edits ring es m m') :
    IsLegible ring m' := by
  induction made with
  | nil => exact h
  | cons nonce _ ih => exact ih (h.edit (hes _ List.mem_cons_self) nonce) fun e he => hes e (List.mem_cons_of_mem _ he)

end Edits

/-! ## Requests -/

section Requests

variable {w : Weather} {v : Vault} {now : Instant} {m m' : Memory} {r : Request}

/-- A request that is not answered at once puts only what can be read. -/
theorem Vault.Move.sound {edits : List Edit} {commit : Edit} {a : r.Reply} (h : Move v now m r edits commit a)
    (hi : r.immediate? = none) : (∀ e ∈ edits, e.Sound v.ring) ∧ commit.Sound v.ring := by
  cases h with
  | policy => exact ⟨nofun, sound_policyEdit v.ring _⟩
  | erase => exact ⟨sound_erased v.ring _ _, sound_dropEdit v.ring _⟩
  | @write path _ _ policy before _ _ hkey _ =>
    refine ⟨List.forall_mem_cons.mpr ⟨sound_payloadEdit v.ring path _ _, sound_erased v.ring path _⟩, sound_recordEdit v.ring ?_⟩
    rw [KeyRecord.written_key, hkey]
    exact Request.valid_of_immediate? hi rfl
  | @revise _ path _ _ _ _ hpath _ hkey rev =>
    refine ⟨sound_erased v.ring path _, sound_recordEdit v.ring ?_⟩
    rw [rev.key, hkey]
    exact Request.valid_of_immediate? hi (Request.path?_of_revised? hpath)

/-- Whatever comes of a request, what is stored can be read. -/
theorem IsLegible.effect {reply : Except Error r.Reply} (h : IsLegible v.ring m) (hi : r.immediate? = none)
    (heffect : Effect w v now m r reply m') : IsLegible v.ring m' := by
  cases heffect with
  | unread => exact h
  | broken => exact h
  | answered => exact h
  | interrupted plan split made _ =>
    obtain ⟨rest, rfl⟩ := Vault.prefix_of_split split
    exact h.edits (fun e he => ((Vault.move_of_plan plan).sound hi).1 e (List.mem_append_left _ he)) made
  | changed plan made _ =>
    obtain ⟨hedits, hcommit⟩ := (Vault.move_of_plan plan).sound hi
    exact (h.edits hedits made).edit hcommit _

/-! ## Reading -/

section Reading

variable {ring : KeyRing}

theorem IsLegible.policy_ok (h : IsLegible ring m) (defaults : Policy) :
    ∃ policy, (m.contents ring).policy defaults = .ok policy := by
  rw [Contents.policy, Contents.lookup, Memory.contents]
  cases hm : m[policyKey]? with
  | none => exact ⟨defaults, rfl⟩
  | some sealed =>
    obtain ⟨value, policy, opens, decodes⟩ := (h _ _ hm).policy_inv
    refine ⟨policy, ?_⟩
    rw [Option.map_some, opens]
    simp only [bind, Except.bind, decodes]

theorem IsLegible.record_ok (h : IsLegible ring m) (path : String) : ∃ found, (m.contents ring).record ring path = .ok found := by
  rw [Contents.record, Contents.lookup, Memory.contents]
  cases hm : m[recordAddress ring path]? with
  | none => exact ⟨none, rfl⟩
  | some sealed =>
    obtain ⟨value, record, opens, decodes, _, haddress⟩ := (h _ _ hm).record_inv (Vault.initial?_recordAddress ring path)
    refine ⟨some record, ?_⟩
    rw [Option.map_some, opens]
    show (do return some (← Vault.checkRecord path value) : Except Error (Option KeyRecord)) = _
    rw [Vault.checkRecord, decodes]
    simp only [if_pos (Vault.recordAddress_inj.mp haddress).symm]
    rfl

theorem IsLegible.payload_ok (h : IsLegible ring m) (path : String) (version : UInt64) :
    ∃ found, (m.contents ring).payload ring path version = .ok found := by
  rw [Contents.payload, Contents.lookup, Memory.contents]
  cases hm : m[payloadAddress ring path version]? with
  | none => exact ⟨none, rfl⟩
  | some sealed =>
    obtain ⟨value, opens⟩ := (h _ _ hm).payload_inv (Vault.initial?_payloadAddress ring path version)
    refine ⟨some value, ?_⟩
    rw [Option.map_some, opens]

theorem IsLegible.validRecords (h : IsLegible ring m) : Vault.ValidRecords ring m := by
  intro key hkey hinitial
  obtain ⟨bytes, hbytes⟩ := Option.ne_none_iff_exists'.mp hkey
  obtain ⟨_, record, _, _, valid, haddress⟩ := (h key bytes hbytes).record_inv hinitial
  exact ⟨record.key, valid, haddress⟩

end Reading

/-- One computation after the other comes to a value. -/
theorem Except.bind_ok {ε α β : Type} {x : Except ε α} {f : α → Except ε β} (hx : ∃ a, x = .ok a)
    (hf : ∀ a, ∃ b, f a = .ok b) : ∃ b, (x >>= f) = .ok b := by
  obtain ⟨a, rfl⟩ := hx
  exact hf a

section Plans

variable (h : IsLegible v.ring m) (now)

include h

theorem IsLegible.base_ok (path : String) : ∃ record, v.recordOrNewIn now m path = .ok record :=
  Except.bind_ok (h.record_ok path) fun _ => ⟨_, rfl⟩

theorem IsLegible.metadata_ok (path : String) : ∃ shown, v.metadataIn m path = .ok shown :=
  Except.bind_ok (h.record_ok path) fun _ => ⟨_, rfl⟩

theorem IsLegible.shown_ok (record : KeyRecord) (version : UInt64) : ∃ shown, v.shownIn now m record version = .ok shown := by
  unfold Vault.shownIn
  cases record.versions[version]? with
  | none => exact ⟨none, rfl⟩
  | some entry =>
    dsimp only
    split
    · exact Except.bind_ok (h.payload_ok record.key version) fun _ => ⟨_, rfl⟩
    · exact ⟨_, rfl⟩

theorem IsLegible.planMetadata_ok (path : String) (changes : RecordChanges) :
    ∃ plan, v.planMetadata now m path changes = .ok plan := by
  refine Except.bind_ok (h.policy_ok v.defaults) fun policy => ?_
  cases changes.rejection? policy with
  | some reason => exact ⟨_, rfl⟩
  | none => exact Except.bind_ok (h.base_ok now path) fun _ => ⟨_, rfl⟩

theorem IsLegible.planErase_ok (path : String) : ∃ plan, v.planErase m path = .ok plan := by
  refine Except.bind_ok (h.record_ok path) fun found => ?_
  cases found <;> exact ⟨_, rfl⟩

theorem IsLegible.planWrite_ok (path : String) (data : Bytes) (cas : Option UInt64) :
    ∃ plan, v.planWrite now m path data cas = .ok plan := by
  refine Except.bind_ok (h.policy_ok v.defaults) fun policy => Except.bind_ok (h.base_ok now path) fun record => ?_
  cases Vault.casRejection? record policy cas with
  | some reason => exact ⟨_, rfl⟩
  | none =>
    dsimp only
    split <;> exact ⟨_, rfl⟩

theorem IsLegible.planRead_ok (path : String) (version : Option UInt64) : ∃ plan, v.planRead now m path version = .ok plan := by
  refine Except.bind_ok (h.policy_ok v.defaults) fun policy => Except.bind_ok (h.record_ok path) fun found => ?_
  cases found with
  | none => exact ⟨_, rfl⟩
  | some record =>
    dsimp only
    cases record.versions[version.getD record.currentVersion]? with
    | none => exact ⟨_, rfl⟩
    | some entry =>
      dsimp only
      cases entry.expired? (record.lifetime? policy) now with
      | none => exact Except.bind_ok (h.shown_ok now record _) fun _ => ⟨_, rfl⟩
      | some expiredAt => exact ⟨_, rfl⟩

/-- Where everything can be read, a request has a plan. -/
theorem IsLegible.plan_ok (r : Request) : ∃ plan, v.plan now m r = .ok plan := by
  cases r with
  | writeMetadata path changes => exact h.planMetadata_ok now path changes
  | readMetadata path => exact Except.bind_ok (h.metadata_ok path) fun _ => ⟨_, rfl⟩
  | listMetadata path =>
    obtain ⟨names, hnames, _⟩ := Vault.namesIn_ok h.validRecords path
    exact Except.bind_ok ⟨names, hnames⟩ fun _ => ⟨_, rfl⟩
  | metadataExists path => exact Except.bind_ok (h.metadata_ok path) fun _ => ⟨_, rfl⟩
  | deleteMetadata path => exact h.planErase_ok path
  | writeData path data cas => exact h.planWrite_ok now path data cas
  | readData path version => exact h.planRead_ok now path version
  | deleteVersions path versions =>
    refine Except.bind_ok (h.record_ok path) fun found => ?_
    cases found <;> exact ⟨_, rfl⟩
  | undeleteVersions path versions =>
    refine Except.bind_ok (h.record_ok path) fun found => ?_
    cases found <;> exact ⟨_, rfl⟩
  | destroyVersions path versions =>
    refine Except.bind_ok (h.record_ok path) fun found => ?_
    cases found with
    | none => exact ⟨_, rfl⟩
    | some record =>
      dsimp only
      split <;> exact ⟨_, rfl⟩
  | readPolicy => exact Except.bind_ok (h.policy_ok v.defaults) fun _ => ⟨_, rfl⟩
  | writePolicy changes => exact Except.bind_ok (h.policy_ok v.defaults) fun _ => ⟨_, rfl⟩

/-- Where everything can be read, a request none of whose calls fail succeeds. -/
theorem IsLegible.succeeds (r : Request) :
    (v.perform now r).Ends Faults.none.weather m fun result _ => ∃ reply, result = .ok reply := by
  refine (Vault.ends_perform Faults.none.weather v now m r).mono fun result m' heffect => ?_
  obtain ⟨plan, hplan⟩ := h.plan_ok now r
  have hresult := congrArg Prod.fst heffect.eq_outcome
  rw [Vault.outcome, hplan] at hresult
  exact ⟨plan.reply, hresult⟩

end Plans

end Requests

/-! ## Set-ups -/

section SetUp

variable {master : MasterKey} {m m' : Memory}

/-- A set-up keeps everything legible. -/
theorem IsLegible.begun (h : IsLegible (m.ring master) m) (hk : m.Kept master) (begun : Begun master m m') :
    IsLegible (m'.ring master) m' := by
  intro key bytes hbytes
  by_cases hs : key = saltKey
  · subst hs
    exact .salt (begun.kept.size bytes hbytes)
  · by_cases hc : key = checkKey
    · subst hc
      exact .check (KeyRing.verify_eq_ok.mp (begun.kept.verified bytes hbytes))
    · -- something else is stored, so there was a salt already, and the keys are the same
      rw [begun.others key hs hc] at hbytes
      have hsalt : m[saltKey]? ≠ none := fun hnone => nomatch (hk.blank hnone key).symm.trans hbytes
      rw [Memory.ring_congr (begun.salt hsalt)]
      exact h key bytes hbytes

end SetUp

/-! ## Sessions -/

namespace Session

variable {master : MasterKey} {f : Faults} {now : Instant} {r : Request} {s : Session}

/-- A store over a memory that holds nothing, or nothing but a salt. -/
def salted (master : MasterKey) (defaults : Policy) (salt : Option (Block 32)) (entropy : Entropy) : Session :=
  ⟨{ master, defaults }, ⟨salt.elim ∅ fun salt => (∅ : Memory).insert saltKey salt.bytes, entropy⟩⟩

/-- The calls that asking makes, the last first. -/
def calls (f : Faults) (now : Instant) (r : Request) (s : Session) : List Call :=
  (s.store.handle (Backend.faulty f.strikes Backend.memory).recording now r [] 0 s.world).1.1.2

/-- Storage and key ring are as runs leave them, and everything that is stored can be read. -/
structure InOrder (master : MasterKey) (s : Session) : Prop where
  kept : s.Kept master
  legible : IsLegible s.ring s.memory

theorem calls_eq (h : r.immediate? = none) : s.calls f now r =
    match s.store.openRing.attempt f [] s.world with
    | ⟨.error _, calls, _⟩ => calls
    | ⟨.ok ring, calls, world⟩ => (((Vault.mk ring s.store.defaults).perform now r).attempt f calls world).calls := by
  rw [calls, Store.handle, h]
  have hopen := Access.run_noted f s.store.openRing [] s.world
  simp only [List.length_nil] at hopen
  simp only [Bind.bind, StateT.bind, hopen]
  generalize s.store.openRing.attempt f [] s.world = opening
  obtain ⟨result, calls, world⟩ := opening
  cases result with
  | error e => rfl
  | ok ring =>
    have hperform := Access.run_noted f ((Vault.mk ring s.store.defaults).perform now r) calls world
    simp only [Bind.bind, StateT.bind, hperform]
    rfl

theorem calls_of_immediate {reply : r.Reply} (h : r.immediate? = some reply) : s.calls f now r = [] := by
  rw [calls, Store.handle, h]
  rfl

/-- A request whose opening failed. -/
theorem ask_of_unopened {e : Error} {calls : List Call} {world : World Memory} (h : r.immediate? = none)
    (hopen : s.store.openRing.attempt f [] s.world = ⟨.error e, calls, world⟩) :
    s.ask f now r = (r.settle (.error e), ⟨s.store, world⟩) ∧ s.calls f now r = calls := by
  have hrun := Access.attempt_eq_runOn f s.store.openRing [] s.world
  simp only [List.length_nil, hopen] at hrun
  constructor
  · rw [ask_eq h, hrun]
  · rw [calls_eq h, hopen]

/-- A request that was performed. -/
theorem ask_of_opened {ring : KeyRing} {calls : List Call} {world : World Memory} (h : r.immediate? = none)
    (hopen : s.store.openRing.attempt f [] s.world = ⟨.ok ring, calls, world⟩) :
    let a := ((Vault.mk ring s.store.defaults).perform now r).attempt f calls world
    s.ask f now r = (r.settle a.result, ⟨{ s.store with ring := some ring }, a.world⟩) ∧ s.calls f now r = a.calls := by
  have hrun := Access.attempt_eq_runOn f s.store.openRing [] s.world
  have hperform := Access.attempt_eq_runOn f ((Vault.mk ring s.store.defaults).perform now r) calls world
  simp only [List.length_nil, hopen] at hrun
  constructor
  · rw [ask_eq h, hrun]
    dsimp only
    rw [hperform]
  · rw [calls_eq h, hopen]

/-! ### What stays in order -/

theorem isLegible_empty (ring : KeyRing) : IsLegible ring ∅ := by
  intro key bytes hbytes
  cases Std.ExtTreeMap.getElem?_empty.symm.trans hbytes

theorem inOrder_salted (master : MasterKey) (defaults : Policy) (salt : Option (Block 32)) (entropy : Entropy) :
    (salted master defaults salt entropy).InOrder master := by
  cases salt with
  | none => exact ⟨⟨rfl, Memory.kept_empty master, nofun⟩, isLegible_empty _⟩
  | some salt =>
    have hbegun := (Memory.kept_empty master).salted Std.ExtTreeMap.getElem?_empty salt
    exact ⟨⟨rfl, hbegun.kept, nofun⟩, (isLegible_empty _).begun (Memory.kept_empty master) hbegun⟩

theorem inOrder_ask (h : s.InOrder master) (f : Faults) (now : Instant) (r : Request) : (s.ask f now r).2.InOrder master := by
  have ha := asked_ask h.kept f now r
  refine ⟨ha.kept h.kept, ?_⟩
  have hkept := h.kept.memory
  rw [← h.kept.master_eq] at hkept
  generalize (s.ask f now r).1 = answer, (s.ask f now r).2 = s' at ha ⊢
  cases ha with
  | immediate => exact h.legible
  | shut _ begun _ _ => exact h.legible.begun hkept begun
  | @performed m reply world hi begun _ effect =>
    show IsLegible (world.store.ring s.store.master) world.store
    rw [Memory.ring_congr (effect.frame_setUp (.inl rfl))]
    exact IsLegible.effect (v := ⟨m.ring s.store.master, s.store.defaults⟩) (h.legible.begun hkept begun) hi effect

/-- What is in order stays so over a whole run. -/
theorem Leads.inOrder {log : List Event} {t : Session} (h : s.Leads log t) (hs : s.InOrder master) : t.InOrder master := by
  induction h with
  | here => exact hs
  | ask f now r _ ih => exact inOrder_ask ih f now r
  | restart defaults _ ih => exact ⟨ih.kept.restart defaults, ih.legible⟩

/-! ### Whose fault an error is -/

/-- Opening the key ring fails only if a call fails. -/
theorem openRing_succeeds (h : s.Kept master) :
    s.store.openRing.Ends Faults.none.weather s.memory fun result _ => ∃ ring, result = .ok ring := by
  refine (ends_openRing h).mono fun result m' hopened => ?_
  cases result with
  | ok ring => exact ⟨ring, rfl⟩
  | error e =>
    obtain ⟨_, _, _, _, fails, _⟩ := hopened
    exact (Faults.weather_none fails).elim

/-- An error is the failure of the last call that was made. -/
theorem blame_ask (h : s.InOrder master) {e : Error} (failed : (s.ask f now r).1 = .error e) :
    f.Explains (s.calls f now r) e := by
  cases hi : r.immediate? with
  | some reply =>
    rw [ask_of_immediate hi] at failed
    cases failed
  | none =>
    have hopened := (ends_openRing (w := f.weather) h.kept).run 0
    have hrun := Access.attempt_eq_runOn f s.store.openRing [] s.world
    simp only [List.length_nil] at hrun
    rw [hrun] at hopened
    have hblame {e : Error} : (s.store.openRing.attempt f [] s.world).result = .error e → f.Explains _ e :=
      (openRing_succeeds h.kept).blame
    cases hopen : s.store.openRing.attempt f [] s.world with
    | mk result calls world =>
      rw [hopen] at hopened hblame
      cases result with
      | error e' =>
        obtain ⟨hask, hcalls⟩ := ask_of_unopened hi hopen
        rw [hask] at failed
        obtain rfl := Except.error.inj (Request.error_of_settle failed)
        rw [hcalls]
        exact hblame rfl
      | ok ring =>
        -- what the opening left is in order, whichever of its calls could have failed
        obtain ⟨begun, hring, _⟩ := hopened
        have hmaster := h.kept.master_eq
        subst hmaster
        have hlegible : IsLegible ring world.store := by
          rw [hring]
          exact h.legible.begun h.kept.memory begun
        obtain ⟨hask, hcalls⟩ := ask_of_opened hi hopen
        rw [hask] at failed
        rw [hcalls]
        exact (hlegible.succeeds (v := ⟨ring, s.store.defaults⟩) now r).blame (Request.error_of_settle failed)

/-- What is found below a hidden directory is the hidden name of something. -/
theorem revealed_of_inOrder (h : s.InOrder master) (path : String) :
    ∀ child ∈ childNames ((Vault.records s.ring).physicalKey (Sealed.directory path)) s.memory.keys,
      ∃ name, (Vault.records s.ring).revealChild child = .ok name := by
  intro child hchild
  obtain ⟨_, name, _, hfirst, hslash, rfl⟩ := (Vault.mem_children_iff h.legible.validRecords path).mp hchild
  exact ⟨name, revealChild_hidePath hfirst hslash⟩

/-- A run over a memory that is empty at first, or holds a salt alone, whatever is asked, at what
    times, with which restarts, and whichever calls fail. No request fails but by the failure of the
    last call it made: nothing that is read is ever found out of order. Everything that is stored can
    be read: the salt has its size, the check opens to the marker, the policy and every record open
    and decode, and a record names the path under whose address it stands. Every name that a listing
    finds is the hidden form of a text. -/
theorem reads_what_it_writes (master : MasterKey) (defaults : Policy) (salt : Option (Block 32)) (entropy : Entropy)
    {log : List Event} {s : Session} (h : (salted master defaults salt entropy).Leads log s) :
    (∀ f now r e, (s.ask f now r).1 = .error e → f.Explains (s.calls f now r) e) ∧
      (∀ (key : String) (bytes : Bytes), s.memory[key]? = some bytes → Legible s.ring key bytes) ∧
      ∀ path, ∀ child ∈ childNames ((Vault.records s.ring).physicalKey (Sealed.directory path)) s.memory.keys,
        ∃ name, (Vault.records s.ring).revealChild child = .ok name := by
  have hs := h.inOrder (inOrder_salted master defaults salt entropy)
  exact ⟨fun f now r e => blame_ask hs, hs.legible, revealed_of_inOrder hs⟩

/-- A write that is cut short on a storage with a salt, and then a read that is not: it succeeds. -/
theorem reads_what_it_writes_cut :
    let start := salted ⟨.tabulate 32 fun _ => 7⟩ {} (some (.tabulate 32 fun _ => 1)) ⟨fun _ => 0, 0⟩
    let cut := (start.ask (fun k _ => if k = 6 then some (.backend "down") else none) .epoch (.writeData "a" [97] none)).2
    ∃ reply, (cut.ask Faults.none .epoch (.readData "a" none)).1 = .ok reply := by
  intro start cut
  obtain ⟨hblame, _⟩ := reads_what_it_writes ⟨.tabulate 32 fun _ => 7⟩ {} (some (.tabulate 32 fun _ => 1)) ⟨fun _ => 0, 0⟩
    (.ask (fun k _ => if k = 6 then some (.backend "down") else none) .epoch (.writeData "a" [97] none) .here)
  cases hreply : (cut.ask Faults.none .epoch (.readData "a" none)).1 with
  | ok reply => exact ⟨reply, rfl⟩
  | error e =>
    obtain ⟨_, _, _, _, fails, _⟩ := hblame Faults.none .epoch (.readData "a" none) e hreply
    cases fails

end Session

end Strongbox
