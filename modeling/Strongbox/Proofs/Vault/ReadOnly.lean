/-
  Strongbox.Proofs.Vault.ReadOnly — a store over a memory that refuses writes.

  Such a store can answer whatever takes no write, and it answers that as a store that may write
  would. Every other request fails with its first write, whichever that is: setting up an empty
  storage, changing a record or the policy, or destroying a version that is found to have expired.
  Only asking whether a key exists turns this failure into a no. It is then the right answer, since
  it comes before a storage is set up, and such a storage holds no record.

  Proved:
  - `peek_eq`: what is answered, read off the calls of the request where writes are taken.
  - `perform_readOnly`, `peek_of_ready`: what is answered, read off the plan of the request.
  - `no_change_of_read`, `plan_of_findsNothing`: the requests that take no write.
  - `read_only_law`: all of it, for every storage.
-/

import Strongbox.Proofs.Storage.ReadOnly
import Strongbox.Proofs.Vault.Listing
import Strongbox.Proofs.Vault.Policies
import Strongbox.Proofs.Vault.WrongKey

namespace Strongbox

open Time (Instant)
open KeyRing (saltKey checkKey)

/-! ## What takes no write -/

namespace Request

/-- Whether a request only asks. Reading a version that has expired destroys it nevertheless. -/
def isRead : Request → Bool
  | .readMetadata _ | .listMetadata _ | .metadataExists _ | .readData _ _ | .readPolicy => true
  | _ => false

theorem settle_of_ne {r : Request} (h : ∀ path, r ≠ .metadataExists path) (reply : Except Error r.Reply) :
    r.settle reply = reply := by
  cases r with
  | metadataExists path => exact absurd rfl (h path)
  | _ => rfl

/-- A change that finds nothing to do in the record of its path, and the answer to it: there is no
    record, or none of the versions is listed that could be deleted, undeleted or destroyed. -/
inductive FindsNothing (now : Instant) (found : Option KeyRecord) : (r : Request) → r.Reply → Prop
  | erase {path : String} (h : found = none) : FindsNothing now found (.deleteMetadata path) ()
  | delete {path : String} {versions : List UInt64}
    (h : ∀ record, found = some record → ∀ version ∈ (if versions = [] then [record.currentVersion] else versions),
      ∀ entry, record.versions[version]? = some entry → entry.isReadable now = false) :
    FindsNothing now found (.deleteVersions path versions) (.accepted ())
  | undelete {path : String} {versions : List UInt64}
    (h : ∀ record, found = some record → ∀ version ∈ versions,
      ∀ entry, record.versions[version]? = some entry → entry.destroyed = true ∨ entry.deletionTime = none) :
    FindsNothing now found (.undeleteVersions path versions) (.accepted ())
  | destroy {path : String} {versions : List UInt64}
    (h : ∀ record, found = some record → ∀ version ∈ versions,
      ∀ entry, record.versions[version]? = some entry → entry.destroyed = true) :
    FindsNothing now found (.destroyVersions path versions) (.accepted ())

end Request

/-- The version asked for, or the current one, is listed and has expired, but is not destroyed. -/
def Contents.Expired (c : Contents) (ring : KeyRing) (defaults : Policy) (now : Instant) (path : String)
    (version : Option UInt64) : Prop :=
  ∃ policy record entry expiredAt, c.policy defaults = .ok policy ∧ c.record ring path = .ok (some record) ∧
    record.versions[version.getD record.currentVersion]? = some entry ∧
    entry.expired? (record.lifetime? policy) now = some expiredAt

/-- What a plan comes to where nothing can be written. -/
def Plan.unwritten {α : Type} : Plan α → Except Error α
  | .answer a => .ok a
  | .change _ _ _ => .error (.storage .readOnly)

namespace Vault

variable {v : Vault} {now : Instant} {m : Memory} {r : Request} {path : String}

/-- Reading a version makes a change exactly if the version has expired. -/
theorem planRead_change_iff {version : Option UInt64} :
    (∃ edits commit a, v.planRead now m path version = .ok (.change edits commit a)) ↔
      (m.contents v.ring).Expired v.ring v.defaults now path version := by
  constructor
  · rintro ⟨edits, commit, a, h⟩
    obtain ⟨policy, hp, h⟩ := Except.of_bind_eq_ok h
    obtain ⟨found, hf, h⟩ := Except.of_bind_eq_ok h
    cases found with
    | none => cases h
    | some record =>
      simp only at h
      split at h
      · cases h
      · rename_i entry hentry
        split at h
        · obtain ⟨_, _, h⟩ := Except.of_bind_eq_ok h
          cases h
        · rename_i expiredAt hexpired
          exact ⟨policy, record, entry, expiredAt, hp, hf, hentry, hexpired⟩
  · rintro ⟨policy, record, entry, expiredAt, hp, hf, hentry, hexpired⟩
    simp only [planRead, hp, hf, bind, Except.bind, hentry, hexpired]
    exact ⟨_, _, _, rfl⟩

/-- A request that only asks makes no change, unless it reads a version that has expired. -/
theorem no_change_of_read (hr : r.isRead = true)
    (hlive : ∀ path version, r = .readData path version → ¬ (m.contents v.ring).Expired v.ring v.defaults now path version)
    {edits : List Edit} {commit : Edit} {a : r.Reply} : v.plan now m r ≠ .ok (.change edits commit a) := by
  intro h
  cases r with
  | readData path version => exact hlive path version rfl (planRead_change_iff.mp ⟨edits, commit, a, h⟩)
  | readMetadata path | listMetadata path | metadataExists path =>
    obtain ⟨_, _, h⟩ := Except.of_bind_eq_ok h
    cases h
  | readPolicy =>
    obtain ⟨_, _, h⟩ := Except.of_bind_eq_ok h
    cases h
  | _ => cases hr

theorem unwritten_of_no_change (h : ∀ edits commit a, v.plan now m r ≠ .ok (.change edits commit a)) :
    v.plan now m r >>= Plan.unwritten = (v.outcome now m r).1 := by
  rw [outcome]
  cases hplan : v.plan now m r with
  | error e => rfl
  | ok plan =>
    cases plan with
    | answer a => rfl
    | change edits commit a => exact absurd hplan (h edits commit a)

/-- A change that finds nothing to do is answered without one. -/
theorem plan_of_findsNothing {found : Option KeyRecord} {reply : r.Reply} (hpath : r.path? = some path)
    (hf : (m.contents v.ring).record v.ring path = .ok found) (h : r.FindsNothing now found reply) :
    v.plan now m r = .ok (.answer reply) := by
  cases h with
  | erase h =>
    cases hpath
    simp only [plan, planErase, hf, h, bind, Except.bind]
    rfl
  | delete h =>
    cases hpath
    simp only [plan, planDelete, hf, bind, Except.bind]
    cases found with
    | none => rfl
    | some record =>
      have hsame := KeyRecord.foldl_eq_self fun version hv => KeyRecord.markDeleted_eq_self (h record rfl version hv)
      simp only [planChanged, hsame, if_true]
      rfl
  | undelete h =>
    cases hpath
    simp only [plan, planUndelete, hf, bind, Except.bind]
    cases found with
    | none => rfl
    | some record =>
      have hsame := KeyRecord.foldl_eq_self fun version hv => KeyRecord.clearDeleted_eq_self (h record rfl version hv)
      simp only [planChanged, hsame, if_true]
      rfl
  | destroy h =>
    cases hpath
    simp only [plan, planDestroy, hf, bind, Except.bind]
    cases found with
    | none => rfl
    | some record =>
      simp only [KeyRecord.destroying_of_destroyed (h record rfl), if_true]
      rfl

/-- Where no call fails, a request comes to its outcome. -/
theorem result_of_calm (v : Vault) (now : Instant) (r : Request) (calls : List Call) (world : World Memory) :
    ((v.perform now r).attempt Faults.none calls world).result = (v.outcome now world.store r).1 := by
  have heffect := (ends_perform Faults.none.weather v now world.store r).run (f := Faults.none) calls.length
  rw [Access.attempt_eq_runOn] at heffect
  exact congrArg Prod.fst heffect.eq_outcome

/-- Where writes are refused, a request comes to its plan, and to the refusal if that is a change. -/
theorem perform_readOnly (v : Vault) (now : Instant) (r : Request) (world : World Memory) :
    ((v.perform now r).run Backend.memory.readOnly world).1 = v.plan now world.store r >>= Plan.unwritten := by
  have heffect := (ends_perform Weather.readOnly v now world.store r).run_readOnly
  obtain ⟨made, _, hresult⟩ := (v.perform now r).run_readOnly [] world
  generalize (v.perform now r).run Backend.memory.readOnly world = left at heffect hresult ⊢
  obtain ⟨result, world'⟩ := left
  dsimp only at heffect ⊢
  generalize world'.store = m' at heffect
  cases heffect with
  | unread reads fails =>
    rw [Weather.readOnly, reads] at fails
    cases fails
  | broken plan => rw [plan]; rfl
  | answered plan => rw [plan]; rfl
  | @interrupted _ _ _ _ _ _ _ _ e plan =>
    -- a write was refused, or else the request would have come to its answer
    split at hresult
    · rw [plan]
      exact hresult
    · have hanswer := result_of_calm v now r [] world
      rw [outcome, plan] at hanswer
      cases (congrArg Prod.fst hresult).trans hanswer
  | @changed _ commit _ nonce _ plan _ through =>
    rw [Weather.readOnly, Edit.isWrite_call] at through
    cases through

end Vault

/-! ## Sessions that may not write -/

/-- What a request does that is not answered at once, the set-up included. -/
def Store.program (now : Instant) (r : Request) (s : Store) : Access r.Reply := do
  let ring ← s.openRing
  (Vault.mk ring s.defaults).perform now r

namespace Session

variable {master : MasterKey} {f : Faults} {now : Instant} {r : Request} {s : Session} {ring : KeyRing}

/-- The answer to a request over the memory as one that refuses writes, and what it leaves. -/
def peek (now : Instant) (r : Request) (s : Session) : Except Error r.Reply × World Memory :=
  match s.store.handle Backend.memory.readOnly now r s.world with
  | ((reply, _), world) => (reply, world)

theorem peek_of_immediate {reply : r.Reply} (h : r.immediate? = some reply) : s.peek now r = (.ok reply, s.world) := by
  rw [peek, Store.handle, h]
  rfl

theorem peek_program (h : r.immediate? = none) : s.peek now r =
    let (result, world) := (s.store.program now r).run Backend.memory.readOnly s.world
    (r.settle result, world) := by
  rw [peek, Store.handle, h, Store.program, Access.run_bind]
  simp only [Bind.bind, StateT.bind]
  rcases s.store.openRing.run Backend.memory.readOnly s.world with ⟨result, world⟩
  cases result with
  | error e => rfl
  | ok ring => rfl

theorem ask_program (h : r.immediate? = none) :
    let a := (s.store.program now r).attempt f [] s.world
    (s.ask f now r).1 = r.settle a.result ∧ (s.ask f now r).2.world = a.world ∧ s.calls f now r = a.calls := by
  rw [Store.program, Access.attempt_bind]
  cases hopen : s.store.openRing.attempt f [] s.world with
  | mk result calls world =>
    cases result with
    | error e =>
      obtain ⟨hask, hcalls⟩ := ask_of_unopened h hopen
      rw [hask, hcalls]
      exact ⟨rfl, rfl, rfl⟩
    | ok ring =>
      obtain ⟨hask, hcalls⟩ := ask_of_opened h hopen
      rw [hask, hcalls]
      exact ⟨rfl, rfl, rfl⟩

/-! ### Read off the calls -/

theorem peek_store (s : Session) (now : Instant) (r : Request) : (s.peek now r).2.store = s.memory := by
  cases hi : r.immediate? with
  | some reply => rw [peek_of_immediate hi]
  | none =>
    rw [peek_program hi]
    exact Access.store_of_readOnly _ s.world

/-- A request fails if it would make a call that writes, and is answered as ever if not. -/
theorem peek_eq (s : Session) (now : Instant) (r : Request) : (s.peek now r).1 =
    if (s.calls Faults.none now r).any Call.isWrite then r.settle (.error (.storage .readOnly)) else (s.ask Faults.none now r).1 := by
  cases hi : r.immediate? with
  | some reply =>
    rw [peek_of_immediate hi, calls_of_immediate hi, ask_of_immediate hi]
    rfl
  | none =>
    obtain ⟨hanswer, _, hcalls⟩ := ask_program (s := s) (f := Faults.none) hi
    obtain ⟨made, hmade, hresult⟩ := (s.store.program now r).run_readOnly [] s.world
    rw [List.append_nil] at hmade
    rw [peek_program hi, hanswer, hcalls, hmade]
    split at hresult
    · rename_i hwrites
      rw [if_pos hwrites]
      exact congrArg r.settle hresult
    · rename_i hreads
      rw [if_neg hreads]
      exact congrArg (fun left => r.settle left.1) hresult

/-- A request that leaves another memory makes a call that writes. -/
theorem writes_of_changed (hi : r.immediate? = none) (h : (s.ask Faults.none now r).2.memory ≠ s.memory) :
    (s.calls Faults.none now r).any Call.isWrite = true := by
  obtain ⟨_, hworld, hcalls⟩ := ask_program (s := s) (f := Faults.none) hi
  rw [hcalls]
  refine eq_true_of_ne_false fun hreads => h ?_
  rw [memory, hworld]
  exact Access.store_of_reads hreads

/-! ### Read off the plan -/

section Ready

variable (hring : s.store.ring = none) (h : KeyRing.Ready s.store.master ring s.memory)
include hring h

theorem openRing_of_ready (hf : f.SparesReads) :
    s.store.openRing.attempt f [] s.world = ⟨.ok ring, [.get checkKey, .get saltKey], s.world⟩ := by
  rw [Store.openRing, hring]
  exact KeyRing.attempt_of_ready h hf

/-- Over a storage that is set up, a request comes to its plan. -/
theorem peek_of_ready (hi : r.immediate? = none) (now : Instant) :
    (s.peek now r).1 = r.settle ((Vault.mk ring s.store.defaults).plan now s.memory r >>= Plan.unwritten) := by
  obtain ⟨made, hmade, hopen⟩ := s.store.openRing.run_readOnly [] s.world
  rw [openRing_of_ready hring h Faults.sparesReads_none] at hmade hopen
  rw [List.append_nil] at hmade
  rw [← hmade] at hopen
  rw [peek_program hi, Store.program, Access.run_bind,
    show s.store.openRing.run Backend.memory.readOnly s.world = (.ok ring, s.world) from hopen]
  exact congrArg r.settle (Vault.perform_readOnly ⟨ring, s.store.defaults⟩ now r s.world)

theorem answer_of_ready (hi : r.immediate? = none) (now : Instant) :
    (s.ask Faults.none now r).1 = r.settle ((Vault.mk ring s.store.defaults).outcome now s.memory r).1 := by
  obtain ⟨hask, _⟩ := ask_of_opened hi (openRing_of_ready hring h Faults.sparesReads_none)
  rw [hask, Vault.result_of_calm]

end Ready

/-- Two sessions over one memory with one master key open the same. -/
theorem contents_of_memory {t : Session} (hm : t.memory = s.memory) (hmaster : t.store.master = s.store.master) :
    t.ring = s.ring ∧ t.contents = s.contents := by
  have hring : t.ring = s.ring := by rw [Session.ring, Session.ring, hm, hmaster]
  exact ⟨hring, by rw [contents, contents, hm, hring]⟩

theorem memory_eq (t : Session) : t.memory = t.world.store := rfl

/-- A session that was opened anew opens the same as before. -/
theorem views_restart (t : Session) (defaults : Policy) : (t.restart defaults).memory = t.memory ∧
    (t.restart defaults).ring = t.ring ∧ (t.restart defaults).contents = t.contents :=
  ⟨rfl, contents_of_memory rfl rfl⟩

/-! ### Storages that are set up -/

/-- A storage with salt and check belongs to the master key or to another. -/
theorem ready_or_foreign (h : s.IsSetUp) :
    KeyRing.Ready s.store.master s.ring s.memory ∨ ∃ salt sealed, KeyRing.Foreign s.store.master s.memory salt sealed := by
  obtain ⟨salt, hs⟩ := Option.ne_none_iff_exists'.mp (getElem?_ne_none.mpr h.1)
  obtain ⟨sealed, hc⟩ := Option.ne_none_iff_exists'.mp (getElem?_ne_none.mpr h.2)
  have hring : s.ring = KeyRing.derive s.store.master salt := by
    rw [ring, Memory.ring, hs]
    rfl
  by_cases hopens : salt.length = 32 ∧ (KeyRing.derive s.store.master salt).verify sealed = .ok ()
  · refine .inl ⟨⟨salt, hs, hopens.1, hring⟩, ⟨sealed, hc, ?_⟩⟩
    rw [hring]
    exact KeyRing.verify_eq_ok.mp hopens.2
  · exact .inr ⟨salt, sealed, hs, hc, fun hsize hverify => hopens ⟨hsize, hverify⟩⟩

/-- Where there is a check, there is a salt. -/
theorem Kept.isSetUp (h : s.Kept master) (hset : s.memory[checkKey]? ≠ none) : s.IsSetUp :=
  ⟨getElem?_ne_none.mp fun hnone => hset (h.memory.blank hnone checkKey), getElem?_ne_none.mp hset⟩

/-- What runs leave is ready once there is a check. -/
theorem Kept.ready (h : s.Kept master) (hset : s.memory[checkKey]? ≠ none) : KeyRing.Ready s.store.master s.ring s.memory := by
  refine (ready_or_foreign (h.isSetUp hset)).resolve_right ?_
  rintro ⟨salt, sealed, hforeign⟩
  refine hforeign.refuses (h.memory.size salt hforeign.salt_eq) ?_
  have hverified := h.memory.verified sealed hforeign.check_eq
  rw [Memory.ring, hforeign.salt_eq] at hverified
  rw [h.master_eq]
  exact hverified

/-- What only asks is answered as ever over a storage that is set up, if it finds nothing expired. -/
theorem peek_of_read (hring : s.store.ring = none) (hset : s.IsSetUp) (hr : r.isRead = true)
    (hlive : ∀ path version, r = .readData path version → ¬ s.contents.Expired s.ring s.store.defaults now path version) :
    (s.peek now r).1 = (s.ask Faults.none now r).1 := by
  cases hi : r.immediate? with
  | some reply => rw [peek_of_immediate hi, ask_of_immediate hi]
  | none =>
    rcases ready_or_foreign hset with hready | ⟨salt, sealed, hforeign⟩
    · rw [peek_of_ready hring hready hi, answer_of_ready hring hready hi]
      have hno : ∀ edits commit a, (Vault.mk s.ring s.store.defaults).plan now s.memory r ≠ .ok (.change edits commit a) :=
        fun _ _ _ => Vault.no_change_of_read (v := ⟨s.ring, s.store.defaults⟩) (m := s.memory) hr hlive
      rw [Vault.unwritten_of_no_change hno]
    · obtain ⟨⟨sm, defaults, sring⟩, world⟩ := s
      cases hring
      obtain ⟨_, hreads, _⟩ := ask_foreign hforeign defaults Faults.none now hi
      rw [peek_eq, if_neg]
      rw [List.any_eq_true]
      rintro ⟨c, hc, hwrites⟩
      exact absurd ((hreads c hc).symm.trans hwrites) Bool.false_ne_true

/-- Reading a version that has expired is refused. -/
theorem peek_of_expired {path : String} {version : Option UInt64} (hring : s.store.ring = none)
    (h : KeyRing.Ready s.store.master s.ring s.memory) (hvalid : KeyPath.fault? path = none)
    (hexpired : s.contents.Expired s.ring s.store.defaults now path version) :
    (s.peek now (.readData path version)).1 = .error (.storage .readOnly) := by
  have hi : (Request.readData path version).immediate? = none := by rw [Request.immediate?, hvalid]; rfl
  obtain ⟨edits, commit, a, hplan⟩ := Vault.planRead_change_iff (v := ⟨s.ring, s.store.defaults⟩) (m := s.memory) |>.mpr hexpired
  rw [peek_of_ready hring h hi, Vault.plan, hplan]
  rfl

/-- A change that finds nothing to do succeeds, whether or not writes are taken. -/
theorem peek_of_findsNothing {path : String} {found : Option KeyRecord} {reply : r.Reply} (hring : s.store.ring = none)
    (h : KeyRing.Ready s.store.master s.ring s.memory) (hi : r.immediate? = none) (hpath : r.path? = some path)
    (hf : s.contents.record s.ring path = .ok found) (hnothing : r.FindsNothing now found reply) :
    (s.peek now r).1 = .ok reply ∧ (s.ask Faults.none now r).1 = .ok reply := by
  have hplan := Vault.plan_of_findsNothing (v := ⟨s.ring, s.store.defaults⟩) (m := s.memory) hpath hf hnothing
  rw [peek_of_ready hring h hi, answer_of_ready hring h hi, Vault.outcome, hplan]
  cases r <;> exact ⟨rfl, rfl⟩

/-! ### Whether a key exists -/

/-- Asking whether a key exists is reading its record, with a refused write taken for a no. -/
theorem peek_exists (s : Session) (now : Instant) (path : String) : (s.peek now (.metadataExists path)).1 =
    match (s.peek now (.readMetadata path)).1 with
    | .error (.storage .readOnly) => .ok false
    | .error e => .error e
    | .ok found => .ok found.isSome := by
  cases hfault : KeyPath.fault? path with
  | some fault =>
    have hexists : (Request.metadataExists path).immediate? = some false := by rw [Request.immediate?, hfault]; rfl
    have hread : (Request.readMetadata path).immediate? = some none := by rw [Request.immediate?, hfault]; rfl
    rw [peek_of_immediate hexists, peek_of_immediate hread]
    rfl
  | none =>
    have hexists : (Request.metadataExists path).immediate? = none := by rw [Request.immediate?, hfault]; rfl
    have hread : (Request.readMetadata path).immediate? = none := by rw [Request.immediate?, hfault]; rfl
    have hprogram : s.store.program now (.metadataExists path) =
        s.store.program now (.readMetadata path) >>= fun found => pure found.isSome := by
      rw [Store.program, Store.program, bind_assoc]
      rfl
    rw [peek_program hexists, peek_program hread, hprogram, Access.run_bind]
    rcases (s.store.program now (.readMetadata path)).run Backend.memory.readOnly s.world with ⟨result, world⟩
    cases result with
    | ok found => rfl
    | error e =>
      cases e with
      | storage e => cases e <;> rfl
      | _ => rfl

/-- Over the memory that a run leaves, it is answered whether there is a record. -/
theorem peek_exists_of_runs {log : List Event} {t : Session} (h : Runs master log t) (hmaster : s.store.master = master)
    (hring : s.store.ring = none) (hm : t.memory = s.memory) (now : Instant) (path : String) :
    ∃ b, (s.peek now (.metadataExists path)).1 = .ok b ∧ (b = true ↔ t.HasRecord path) := by
  have hkept : s.Kept master := ⟨hmaster, hm ▸ h.kept.memory, fun _ hsome => nomatch hring.symm.trans hsome⟩
  obtain ⟨hsame, hcontents⟩ := contents_of_memory hm (h.kept.master_eq.trans hmaster.symm)
  cases hi : (Request.metadataExists path).immediate? with
  | some reply =>
    obtain ⟨fault, hfault, rfl⟩ := Option.map_eq_some_iff.mp hi
    rw [peek_of_immediate hi]
    exact ⟨false, rfl, nofun, fun hr => nomatch (hr.valid h).symm.trans hfault⟩
  | none =>
    by_cases hset : s.memory[checkKey]? = none
    · -- the set-up would write the check, and nothing but a salt is stored
      have hwrites : (s.calls Faults.none now (.metadataExists path)).any Call.isWrite = true :=
        writes_of_changed hi fun hsame => (isSetUp_ask hkept hi now).check (hsame ▸ hset)
      rw [peek_eq, if_pos hwrites]
      refine ⟨false, rfl, nofun, fun ⟨record, hr⟩ => ?_⟩
      refine absurd ?_ (Contents.stored_of_record hr)
      rw [hm]
      exact hkept.memory.bare hset _ (Vault.ne_of_initial? (by simp))
    · obtain ⟨found, hr, _⟩ := h.recorded (I := fun _ _ => True) (Request.valid_of_immediate? hi rfl) trivial
        (fun _ _ _ _ _ _ => trivial)
      have hfound : (s.memory.contents s.ring).record s.ring path = .ok found := by
        rw [hcontents, hsame] at hr
        exact hr
      rw [peek_of_ready hring (hkept.ready hset) hi, HasRecord, hr]
      simp only [Vault.plan, Vault.metadataIn, hfound, bind, Except.bind]
      refine ⟨found.isSome, ?_, ?_⟩
      · cases found <;> rfl
      · cases found <;> simp

/-- A new store over a storage that refuses writes, whatever is stored and at whatever time it is
    asked. It leaves the storage as it is. It refuses what would make a call that writes if writes
    were taken, and answers everything else as it would then; that is so for every request but the
    one whether a key exists, which is answered with no where reading the record is refused, and
    else with whether a record is found. So over a storage with salt and check, everything that only
    asks is answered alike, unless it reads a version that has expired and is not destroyed, which is
    refused; and changes that find nothing to do succeed. Over the memory that a run leaves, at any
    point of it, a key is said to exist exactly if it has a record. -/
theorem read_only_law (master : MasterKey) (defaults : Policy) (world : World Memory) :
    let s : Session := ⟨{ master, defaults }, world⟩
    (∀ now r, (s.peek now r).2.store = world.store) ∧
      (∀ now r, (∀ path, r ≠ .metadataExists path) → (s.peek now r).1 =
        if (s.calls Faults.none now r).any Call.isWrite then .error (.storage .readOnly) else (s.ask Faults.none now r).1) ∧
      (s.IsSetUp → ∀ now r, r.isRead = true →
        (∀ path version, r = .readData path version → ¬ s.contents.Expired s.ring defaults now path version) →
          (s.peek now r).1 = (s.ask Faults.none now r).1) ∧
      (KeyRing.Ready s.store.master s.ring s.memory →
        (∀ now path version, KeyPath.fault? path = none → s.contents.Expired s.ring defaults now path version →
          (s.peek now (.readData path version)).1 = .error (.storage .readOnly)) ∧
        ∀ now r path found reply, r.immediate? = none → r.path? = some path → s.contents.record s.ring path = .ok found →
          r.FindsNothing now found reply → (s.peek now r).1 = .ok reply ∧ (s.ask Faults.none now r).1 = .ok reply) ∧
      (∀ now path, (s.peek now (.metadataExists path)).1 =
        match (s.peek now (.readMetadata path)).1 with
        | .error (.storage .readOnly) => .ok false
        | .error e => .error e
        | .ok found => .ok found.isSome) ∧
      ∀ log t, Runs master log t → t.memory = world.store → ∀ now path,
        ∃ b, (s.peek now (.metadataExists path)).1 = .ok b ∧ (b = true ↔ t.HasRecord path) := by
  intro s
  refine ⟨peek_store s, fun now r hr => ?_, fun hset now r hread hlive => peek_of_read rfl hset hread hlive,
    fun h => ⟨fun _ _ _ => peek_of_expired rfl h, fun _ _ _ _ _ => peek_of_findsNothing rfl h⟩, peek_exists s, ?_⟩
  · rw [peek_eq, Request.settle_of_ne hr]
  · exact fun log t h hm now path => peek_exists_of_runs h rfl rfl hm now path

/-- A storage with one key, opened anew with a second for versions to last, and asked when that is
    over: the key exists, its data is refused, its record is shown, and deleting a version that it
    does not list succeeds. -/
theorem read_only_law_written :
    let later : Instant := ⟨1, 0, by decide, by decide⟩
    let s := (written ⟨.tabulate 32 fun _ => 7⟩ ⟨fun _ => 0, 0⟩ "a" [97] none).restart { deleteVersionAfter := some 1 }
    (s.peek later (.metadataExists "a")).1 = .ok true ∧
      (s.peek later (.readData "a" none)).1 = .error (.storage .readOnly) ∧
      (s.peek later (.readMetadata "a")).1 = (s.ask Faults.none later (.readMetadata "a")).1 ∧
      (s.peek later (.deleteVersions "a" [9])).1 = .ok (.accepted ()) := by
  intro later
  have hpath : KeyPath.fault? "a" = none := by decide
  have hcas : Vault.casRejection? (KeyRecord.new "a" .epoch) {} none = none := rfl
  obtain ⟨hruns, hcheck, hshown⟩ := runs_written ⟨.tabulate 32 fun _ => 7⟩ ⟨fun _ => 0, 0⟩ [97] hpath hcas
  have hpolicy := policyKey_written ⟨.tabulate 32 fun _ => 7⟩ ⟨fun _ => 0, 0⟩ "a" [97] none
  generalize written ⟨.tabulate 32 fun _ => 7⟩ ⟨fun _ => 0, 0⟩ "a" [97] none = t at hruns hcheck hshown hpolicy ⊢
  obtain ⟨_, _, hreads, hready, _, hexists⟩ := read_only_law t.store.master { deleteVersionAfter := some 1 } t.world
  obtain ⟨hmemory, hring, hcontents⟩ := views_restart t { deleteVersionAfter := some 1 }
  rw [← hmemory] at hcheck
  rw [← hcontents] at hpolicy
  have hrecord := hshown.record_eq
  rw [← hring, ← hcontents] at hrecord
  have hkept := hruns.kept.restart { deleteVersionAfter := some 1 }
  obtain ⟨hexpired, hnothing⟩ := hready (hkept.ready hcheck)
  refine ⟨?_, ?_, ?_, ?_⟩
  · have hsame := hruns.kept.master_eq
    obtain ⟨b, hb, hiff⟩ := hexists _ t (hsame ▸ hruns) (memory_eq t) later "a"
    exact hb.trans (congrArg _ (hiff.mpr ⟨_, hshown.record_eq⟩))
  · refine hexpired later "a" none hpath ⟨_, _, _, later, Contents.policy_of_none hpolicy _, hrecord, hshown.listed, ?_⟩
    rw [KeyRecord.written_lifetime?]
    decide
  · exact hreads (hkept.isSetUp hcheck) later (.readMetadata "a") rfl nofun
  · refine (hnothing later (.deleteVersions "a" [9]) "a" _ (.accepted ()) (by decide) rfl hrecord (.delete ?_)).1
    rintro _ ⟨⟩ version hversion entry hentry
    obtain rfl := List.mem_singleton.mp hversion
    rw [KeyRecord.getElem?_written] at hentry
    split at hentry
    · cases hentry
    · cases hentry

end Session

end Strongbox
