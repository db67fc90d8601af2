/-
  Strongbox.Proofs.Vault.Expiry — what reading a version comes to.

  Versions expire when they are read. A version that is found to be over is destroyed on the spot, its
  payload first, and shown without data. Any other read changes nothing, and shows the data of what is
  listed and neither destroyed nor deleted. Only the first request of all sets the storage up, also
  if it is a read.

  Proved:
  - `Runs.dated`: what runs leave was created at the times of their requests.
  - `Runs.complete`: if no call ever failed, every listed version that is not destroyed has its payload.
  - `calls_of_answered`: a request over a storage that is set up writes nothing unless it has a change to make.
  - `expiry_exact`: when a read finds a version over, in exact arithmetic, and what every read comes to.
  - `data_gone_with_identifier`: what is destroyed of one path can be the data of another.
  - `first_read_sets_up`: a first read writes, also if it finds nothing.
-/

import Strongbox.Proofs.KeyRing.Names
import Strongbox.Proofs.Record.Expiry
import Strongbox.Proofs.Vault.Independence
import Strongbox.Proofs.Vault.ReadOnly
import Strongbox.Proofs.Vault.Succession

namespace Strongbox

open Time (Instant)
open KeyRing (saltKey checkKey)
open Memory (Begun)
open Vault (Effect recordAddress payloadAddress eraseEdit recordEdit)

/-- The entry of the version asked for, or else of the current one. -/
def KeyRecord.selected? (r : KeyRecord) (version : Option UInt64) : Option VersionEntry :=
  r.versions[version.getD r.currentVersion]?

/-! ## When versions were created -/

/-- The request was not made within a leap second. -/
def Event.IsPlain : Event → Prop
  | .asked _ now _ _ => now.IsPlain
  | .restarted => True

/-- The versions of a record, if there is one, were created outside leap seconds. -/
def AllDated (found : Option KeyRecord) : Prop := ∀ record, found = some record → record.IsDated

theorem AllDated.base {found : Option KeyRecord} (h : AllDated found) (path : String) (now : Instant) :
    (found.getD (KeyRecord.new path now)).IsDated := by
  cases found with
  | none => exact .new path now
  | some record => exact h record rfl

section Dated

variable {w : Weather} {v : Vault} {now : Instant} {m m' : Memory} {r : Request} {path : String} {found found' : Option KeyRecord}

theorem Vault.Leaves.dated {a : r.Reply} (h : Leaves v now m path found r a found') (hnow : now.IsPlain) (hd : AllDated found) :
    AllDated found' := by
  cases h with
  | other => exact hd
  | erased =>
    intro record hrecord
    cases hrecord
  | written hbase =>
    rintro _ ⟨⟩
    exact (hbase ▸ hd.base path now : KeyRecord.IsDated _).written hnow _
  | rewritten _ hbase h =>
    rintro _ ⟨⟩
    exact (hbase ▸ hd.base path now : KeyRecord.IsDated _).amended h.amended

theorem Vault.Effect.dated {reply : Except Error r.Reply} (h : Effect w v now m r reply m') (hnow : now.IsPlain)
    (hr : (m.contents v.ring).record v.ring path = .ok found) (hd : AllDated found) :
    ∃ found', (m'.contents v.ring).record v.ring path = .ok found' ∧ AllDated found' := by
  cases reply with
  | error e => exact ⟨found, (h.views_of_error.2 path).trans hr, hd⟩
  | ok answer =>
    cases h with
    | answered => exact ⟨found, hr, hd⟩
    | changed plan made _ =>
      obtain ⟨found', hfound', hleaves⟩ := leaves_of_changed plan made hr
      exact ⟨found', hfound', hleaves.dated hnow hd⟩

end Dated

/-- What a run without leap seconds leaves was created outside them. -/
theorem Runs.dated {master : MasterKey} {log : List Event} {s : Session} (h : Runs master log s)
    (hplain : ∀ e ∈ log, e.IsPlain) (path : String) :
    ∃ found, s.contents.record s.ring path = .ok found ∧ AllDated found := by
  induction h with
  | start =>
    refine ⟨none, Contents.record_eq_none.mpr Std.ExtTreeMap.getElem?_empty, ?_⟩
    intro record hrecord
    cases hrecord
  | restart defaults _ ih => exact ih fun e he => hplain e (List.mem_cons_of_mem _ he)
  | ask f now r before ih =>
    obtain ⟨found, hr, hd⟩ := ih fun e he => hplain e (List.mem_cons_of_mem _ he)
    have hnow : now.IsPlain := hplain _ List.mem_cons_self
    exact Session.record_ask (Q := fun _ found' => AllDated found') before.kept hr (fun _ _ => hd)
      fun effect _ hfound => effect.dated hnow hfound hd

/-! ## Which payloads there are -/

theorem Turn.complete {path : String} {e : Event} {a a' : Account} (h : Turn path e a a') (hcalm : e.IsCalm) (ha : a.Complete) :
    a'.Complete := by
  cases h with
  | idle => exact ha
  | absent => exact ha
  | thinned _ hstorm => exact absurd hcalm hstorm
  | strayed _ _ hstorm => exact absurd hcalm hstorm
  | written kept hbase => exact ha.write hbase _ kept
  | erased =>
    intro version entry hentry
    cases hentry
  | revised hbase rev => exact ha.revise hbase rev

theorem Runs.complete {master : MasterKey} {log : List Event} {s : Session} {path : String} (h : Runs master log s)
    (hcalm : ∀ e ∈ log, e.IsCalm) (hvalid : KeyPath.fault? path = none) (hd : Distinct s.ring (path :: pathsIn log)) :
    ∃ a : Account, a.Of s.contents s.ring path ∧ a.Complete := by
  obtain ⟨a, ha, hcomplete⟩ := h.accounted (I := fun log a => (∀ e ∈ log, e.IsCalm) → a.Complete)
    (fun _ => Account.complete_blank)
    (fun e log a a' hturn ih hcalm => hturn.complete (hcalm e List.mem_cons_self)
      (ih fun e he => hcalm e (List.mem_cons_of_mem _ he)))
    hvalid List.mem_cons_self (fun p hp => List.mem_cons_of_mem path hp) hd fun _ => rfl
  exact ⟨a, ha, hcomplete hcalm⟩

/-! ## Plans -/

namespace Vault

variable {v : Vault} {now : Instant} {m m' : Memory} {path : String} {policy : Policy} {found : Option KeyRecord} {version : Option UInt64}

/-- A version that is found to have expired is going to be destroyed, and is shown without data. -/
theorem planRead_of_expired {record : KeyRecord} {entry : VersionEntry} {ending : Instant}
    (hp : (m.contents v.ring).policy v.defaults = .ok policy) (hr : (m.contents v.ring).record v.ring path = .ok (some record))
    (hentry : record.selected? version = some entry) (hexpired : entry.expired? (record.lifetime? policy) now = some ending) :
    ∃ secret : SecretVersion, secret.data = none ∧ v.plan now m (.readData path version) =
      .ok (.change [eraseEdit v.ring path (version.getD record.currentVersion)]
        (recordEdit v.ring (record.expired now (version.getD record.currentVersion) entry ending)) (some secret)) := by
  let number := version.getD record.currentVersion
  have hentry' : record.versions[number]? = some entry := hentry
  refine ⟨(record.expired now number entry ending).secret number { entry with destroyed := true, deletionTime := some ending } none,
    rfl, ?_⟩
  simp only [plan, planRead, hp, hr, bind, Except.bind, number, hentry', hexpired, Contents.key_of_record hr]
  rfl

/-- Otherwise the version is going to be shown. -/
theorem planRead_of_live (hp : (m.contents v.ring).policy v.defaults = .ok policy)
    (hr : (m.contents v.ring).record v.ring path = .ok found)
    (hlive : ∀ record entry, found = some record → record.selected? version = some entry →
      entry.expired? (record.lifetime? policy) now = none) :
    v.plan now m (.readData path version) = (match found with
      | none => .ok none
      | some record => v.shownIn now m record (version.getD record.currentVersion)) >>= fun shown => .ok (.answer shown) := by
  cases found with
  | none =>
    simp only [plan, planRead, hp, hr, bind, Except.bind]
    rfl
  | some record =>
    simp only [plan, planRead, hp, hr, bind, Except.bind]
    cases hentry : record.versions[version.getD record.currentVersion]? with
    | none =>
      simp only [shownIn, hentry]
      rfl
    | some entry =>
      simp only [hlive record entry rfl hentry]
      rfl

/-- Data is shown of what can be read and has a payload. -/
theorem shownIn_data {record : KeyRecord} {number : UInt64} {shown : Option SecretVersion}
    (h : v.shownIn now m record number = .ok shown) : (∃ secret, shown = some secret ∧ secret.data ≠ none) ↔
      ∃ entry data, record.versions[number]? = some entry ∧ entry.isReadable now = true ∧
        (m.contents v.ring).payload v.ring record.key number = .ok (some data) := by
  unfold shownIn at h
  cases hentry : record.versions[number]? with
  | none =>
    rw [hentry] at h
    cases h
    exact iff_of_false (by simp) (by simp)
  | some entry =>
    simp only [hentry] at h
    by_cases hreadable : entry.isReadable now
    · rw [if_pos hreadable] at h
      obtain ⟨data, hdata, h⟩ := Except.of_bind_eq_ok h
      cases h
      constructor
      · rintro ⟨_, ⟨⟩, hsome⟩
        obtain ⟨bytes, hbytes⟩ := Option.ne_none_iff_exists'.mp hsome
        obtain rfl : data = some bytes := hbytes
        exact ⟨entry, bytes, rfl, hreadable, hdata⟩
      · rintro ⟨_, bytes, _, _, hpayload⟩
        cases hdata.symm.trans hpayload
        exact ⟨_, rfl, Option.some_ne_none _⟩
    · rw [if_neg hreadable] at h
      cases h
      refine iff_of_false ?_ ?_
      · rintro ⟨_, ⟨⟩, hsome⟩
        exact hsome rfl
      · rintro ⟨_, _, ⟨⟩, hyes, _⟩
        exact hreadable hyes

end Vault

/-! ## Reads -/

namespace Session

variable {master : MasterKey} {log : List Event} {now : Instant} {s : Session} {path : String} {version : Option UInt64} {policy : Policy}

/-- What runs leave can be read. -/
theorem inOrder_of_runs (h : Runs master log s) : s.InOrder master := by
  rw [← log.append_nil] at h
  obtain ⟨first, hfirst, hleads⟩ := h.point
  cases hfirst with
  | start defaults entropy => exact hleads.inOrder ⟨kept_start master defaults entropy, isLegible_empty _⟩

/-- A request none of whose calls fail is performed on what the set-up left. -/
theorem performed_of_calm {r : Request} (h : s.Kept master) (hi : r.immediate? = none) (now : Instant) :
    ∃ m reply, Begun s.store.master s.memory m ∧ (s.ask Faults.none now r).1 = r.settle reply ∧
      Effect Faults.none.weather ⟨m.ring s.store.master, s.store.defaults⟩ now m r reply (s.ask Faults.none now r).2.memory := by
  have ha := asked_ask h Faults.none now r
  generalize (s.ask Faults.none now r).1 = answer, (s.ask Faults.none now r).2 = t at ha ⊢
  cases ha with
  | immediate hi' => cases hi.symm.trans hi'
  | shut _ _ fails _ => exact (Faults.weather_none fails).elim
  | performed _ begun _ effect => exact ⟨_, _, begun, rfl, effect⟩

/-- Once it has been set up, a request that has no change to make writes nothing. -/
theorem calls_of_answered {r : Request} {a : r.Reply} (h : s.Kept master) (hset : s.memory[checkKey]? ≠ none)
    (hi : r.immediate? = none) (hplan : s.vault.plan now s.memory r = .ok (.answer a)) :
    (s.calls Faults.none now r).any Call.isWrite = false := by
  have hopen : ∃ calls, s.store.openRing.attempt Faults.none [] s.world = ⟨.ok s.ring, calls, s.world⟩ ∧
      calls.any Call.isWrite = false := by
    cases hring : s.store.ring with
    | none => exact ⟨_, openRing_of_ready hring (h.ready hset) Faults.sparesReads_none, rfl⟩
    | some ring =>
      obtain ⟨rfl, _⟩ := h.ring ring hring
      refine ⟨[], ?_, rfl⟩
      rw [Store.openRing, hring]
      rfl
  obtain ⟨calls, hopen, hreads⟩ := hopen
  have hcalls : s.calls Faults.none now r = ((s.vault.perform now r).attempt Faults.none calls s.world).calls :=
    (ask_of_opened hi hopen).2
  obtain ⟨made, hmade, hresult⟩ := (s.vault.perform now r).run_readOnly calls s.world
  have hpeek := Vault.perform_readOnly s.vault now r s.world
  rw [hplan] at hpeek
  rw [hcalls, hmade, List.any_append, hreads, Bool.or_false]
  split at hresult
  · cases hresult.symm.trans hpeek
  · rename_i hno
    exact eq_false_of_ne_true hno

/-- What a read comes to that finds the version expired. -/
theorem read_of_expired {record : KeyRecord} {entry : VersionEntry} {ending : Instant} (h : s.Kept master)
    (hpath : KeyPath.fault? path = none) (hp : s.contents.policy s.store.defaults = .ok policy)
    (hr : s.contents.record s.ring path = .ok (some record)) (hentry : record.selected? version = some entry)
    (hexpired : entry.expired? (record.lifetime? policy) now = some ending) :
    let number := version.getD record.currentVersion
    let t := (s.ask Faults.none now (.readData path version)).2
    (∃ secret : SecretVersion, (s.ask Faults.none now (.readData path version)).1 = .ok (some secret) ∧ secret.data = none) ∧
      t.memory[payloadAddress s.ring path number]? = none ∧
      t.contents.record t.ring path = .ok (some (record.expired now number entry ending)) ∧
      ∀ key, key ≠ recordAddress s.ring path → key ≠ payloadAddress s.ring path number → t.memory[key]? = s.memory[key]? := by
  intro number t
  have hset := check_of_record h hr
  have hi : (Request.readData path version).immediate? = none := Option.map_eq_none_iff.mpr hpath
  have hkey : (record.expired now number entry ending).key = path := by
    rw [KeyRecord.expired, KeyRecord.touch_key, KeyRecord.advancedOldest_key, KeyRecord.setEntry_key, Contents.key_of_record hr]
  obtain ⟨secret, hsecret, hplan⟩ := Vault.planRead_of_expired (v := s.vault) hp hr hentry hexpired
  obtain ⟨reply, hreply, heffect⟩ := effect_ask h hset hi Faults.none now
  obtain ⟨rfl, nonce, m₁, made, hmemory⟩ := heffect.of_change hplan
  have hcontents := (ask_calm h hset hi now).2
  rw [Vault.outcome, hplan] at hcontents
  refine ⟨⟨secret, hreply, hsecret⟩, ?_, ?_, ?_⟩
  · have hcommit : payloadAddress s.ring path number ≠ (recordEdit s.vault.ring (record.expired now number entry ending)).key :=
      Vault.ne_of_initial? (by simp)
    have hgone : (m₁.contents s.ring).payload s.ring path number = .ok none := by
      rw [show m₁.contents s.ring = _ from made.contents]
      exact (Vault.payload_erased _ s.ring path path number [number]).trans (if_pos ⟨rfl, List.mem_singleton.mpr rfl⟩)
    rw [hmemory, Memory.getElem?_after _ _ hcommit]
    exact Contents.payload_eq_none.mp hgone
  · rw [ring_ask h hset, hcontents]
    conv => lhs; rw [← hkey]
    exact Contents.record_recordEdit _ _
  · intro key hrecord hpayload
    rw [hmemory, Memory.getElem?_after]
    · exact made.frame fun hmem => hpayload (List.mem_singleton.mp hmem)
    · rw [Vault.recordEdit_key, hkey]
      exact hrecord

/-- What any other read comes to. -/
theorem read_of_live {found : Option KeyRecord} (h : s.InOrder master) (hpath : KeyPath.fault? path = none)
    (hp : s.contents.policy s.store.defaults = .ok policy) (hr : s.contents.record s.ring path = .ok found)
    (hlive : ∀ record entry, found = some record → record.selected? version = some entry →
      entry.expired? (record.lifetime? policy) now = none) :
    let t := (s.ask Faults.none now (.readData path version)).2
    ∃ shown, (s.ask Faults.none now (.readData path version)).1 = .ok shown ∧
      (∀ key, key ≠ saltKey → key ≠ checkKey → t.memory[key]? = s.memory[key]?) ∧
      (s.memory[checkKey]? ≠ none → t.memory = s.memory ∧
        (s.calls Faults.none now (.readData path version)).any Call.isWrite = false) ∧
      ((∃ secret : SecretVersion, shown = some secret ∧ secret.data ≠ none) ↔ ∃ record entry data, found = some record ∧
        record.selected? version = some entry ∧ entry.isReadable now = true ∧
        s.contents.payload s.ring path (version.getD record.currentVersion) = .ok (some data)) := by
  intro t
  have hi : (Request.readData path version).immediate? = none := Option.map_eq_none_iff.mpr hpath
  obtain ⟨m, reply, begun, hreply, heffect⟩ := performed_of_calm h.kept hi now
  obtain ⟨hrecord, hpolicy⟩ := views_of_begun h.kept begun
  have hmaster := h.kept.master_eq
  have hlegible : IsLegible (m.ring s.store.master) m := by
    rw [hmaster] at begun ⊢
    have hs := h.legible
    rw [ring, hmaster] at hs
    exact hs.begun h.kept.memory begun
  let v : Vault := ⟨m.ring s.store.master, s.store.defaults⟩
  have hplan : v.plan now m (.readData path version) = _ :=
    Vault.planRead_of_live (v := v) ((hpolicy _).trans hp) ((hrecord path).trans hr) hlive
  have hshown : ∃ shown, (match found with
      | none => .ok none
      | some record => v.shownIn now m record (version.getD record.currentVersion) : Except Error _) = .ok shown := by
    cases found with
    | none => exact ⟨none, rfl⟩
    | some record => exact IsLegible.shown_ok (v := v) now hlegible record _
  obtain ⟨shown, hshown⟩ := hshown
  rw [hshown] at hplan
  obtain ⟨rfl, hmemory⟩ := heffect.of_answer hplan
  refine ⟨shown, hreply, ?_, ?_, ?_⟩
  · intro key hs hc
    rw [show t.memory = m from hmemory]
    exact begun.others key hs hc
  · intro hset
    obtain rfl := begun.done hset
    exact ⟨hmemory, calls_of_answered h.kept hset hi hplan⟩
  · cases found with
    | none =>
      have hnone : shown = none := (Except.ok.inj hshown).symm
      exact iff_of_false (by simp [hnone]) (by simp)
    | some record =>
      obtain rfl := begun.done (check_of_record h.kept hr)
      have hkey := Contents.key_of_record hr
      refine (Vault.shownIn_data hshown).trans ⟨?_, ?_⟩
      · rintro ⟨entry, data, hentry, hreadable, hpayload⟩
        rw [hkey] at hpayload
        exact ⟨record, entry, data, rfl, hentry, hreadable, hpayload⟩
      · rintro ⟨_, entry, data, ⟨⟩, hentry, hreadable, hpayload⟩
        rw [← hkey] at hpayload
        exact ⟨entry, data, hentry, hreadable, hpayload⟩

/-- A path that cannot name a key has no record, and to read it comes to nothing. -/
theorem read_of_fault {fault : KeyPath.Fault} {found : Option KeyRecord} (h : Runs master log s)
    (hpath : KeyPath.fault? path = some fault) (hr : s.contents.record s.ring path = .ok found) (now : Instant)
    (version : Option UInt64) : found = none ∧ s.ask Faults.none now (.readData path version) = (.ok none, s) ∧
      s.calls Faults.none now (.readData path version) = [] := by
  have hi : (Request.readData path version).immediate? = some none := by rw [Request.immediate?, hpath]; rfl
  refine ⟨Option.eq_none_iff_forall_ne_some.mpr ?_, ask_of_immediate hi, calls_of_immediate hi⟩
  rintro record rfl
  cases (h.valid_of_stored (Contents.stored_of_record hr)).symm.trans hpath

/-- If no call ever failed, a listed version that is not destroyed has its payload. -/
theorem payload_of_listed {record : KeyRecord} {number : UInt64} {entry : VersionEntry} (h : Runs master log s)
    (hcalm : ∀ e ∈ log, e.IsCalm) (hpath : KeyPath.fault? path = none) (hdistinct : Distinct s.ring (path :: pathsIn log))
    (hr : s.contents.record s.ring path = .ok (some record)) (hentry : record.versions[number]? = some entry)
    (hd : entry.destroyed = false) : ∃ data, s.contents.payload s.ring path number = .ok (some data) := by
  obtain ⟨a, ha, hcomplete⟩ := h.complete hcalm hpath hdistinct
  have hrecord : a.record = some record := Except.ok.inj (ha.record.symm.trans hr)
  have hlisted : a.listed? number = some entry := by
    rw [Account.listed?, hrecord, Option.bind_some]
    exact hentry
  obtain ⟨data, hpayload⟩ := Option.ne_none_iff_exists'.mp (hcomplete _ entry hlisted hd)
  exact ⟨data, hpayload ▸ ha.payload _⟩

/-- Any run with no request in a leap second, any path, any version of it or the current one, and any
    time now. The policy is found, and a record or none, and the read is answered.

    If the version is listed, not destroyed, and the seconds that it lasts are over, it is shown without
    data, its payload is gone, and nothing else is changed but the record: this now has the version
    destroyed, deleted at the very end of these seconds, is changed now, and starts its live range
    anew. That is so for every number of seconds.

    If not, nothing is changed, and nothing is written at all if the storage has been set up; if it
    has not, it is now. Data is shown only of a version that is listed, not destroyed, and not
    deleted by now. It is shown of every such version, if no call ever failed and no two paths have
    the same identifier. -/
theorem expiry_exact (h : Runs master log s) (hplain : ∀ e ∈ log, e.IsPlain) (hnow : now.IsPlain) (path : String)
    (version : Option UInt64) :
    let t := (s.ask Faults.none now (.readData path version)).2
    ∃ policy found shown, s.contents.policy s.store.defaults = .ok policy ∧ s.contents.record s.ring path = .ok found ∧
      (s.ask Faults.none now (.readData path version)).1 = .ok shown ∧
      (∀ record entry, found = some record → record.selected? version = some entry → entry.IsOver (record.span policy) now →
        let number := version.getD record.currentVersion
        (∃ secret : SecretVersion, shown = some secret ∧ secret.data = none) ∧
          t.memory[payloadAddress s.ring path number]? = none ∧
          (∃ ending oldest, ending.sinceEpoch = entry.createdTime.sinceEpoch + record.span policy * 1000000000 ∧
            t.contents.record t.ring path = .ok (some { record with
              versions := record.versions.insert number { entry with destroyed := true, deletionTime := some ending }
              oldestVersion := oldest
              updatedTime := now })) ∧
          ∀ key, key ≠ recordAddress s.ring path → key ≠ payloadAddress s.ring path number → t.memory[key]? = s.memory[key]?) ∧
      ((∀ record entry, found = some record → record.selected? version = some entry → ¬ entry.IsOver (record.span policy) now) →
        (∀ key, key ≠ saltKey → key ≠ checkKey → t.memory[key]? = s.memory[key]?) ∧
        (s.memory[checkKey]? ≠ none → t.memory = s.memory ∧
          (s.calls Faults.none now (.readData path version)).any Call.isWrite = false) ∧
        let visible := ∃ record entry, found = some record ∧ record.selected? version = some entry ∧ entry.IsVisible now
        ((∃ secret : SecretVersion, shown = some secret ∧ secret.data ≠ none) → visible) ∧
          ((∀ e ∈ log, e.IsCalm) → Distinct s.ring (path :: pathsIn log) → visible →
            ∃ secret : SecretVersion, shown = some secret ∧ secret.data ≠ none)) := by
  intro t
  have hs := inOrder_of_runs h
  obtain ⟨policy, hp⟩ : ∃ policy, s.contents.policy s.store.defaults = .ok policy := hs.legible.policy_ok _
  obtain ⟨found, hr, hdated⟩ := h.dated hplain path
  cases hpath : KeyPath.fault? path with
  | some fault =>
    obtain ⟨rfl, hask, hcalls⟩ := read_of_fault h hpath hr now version
    refine ⟨policy, none, none, hp, hr, congrArg Prod.fst hask, by simp, fun _ => ⟨?_, ?_, by simp, by simp⟩⟩
    · intro key _ _
      rw [show t = s from congrArg Prod.snd hask]
    · intro _
      rw [show t = s from congrArg Prod.snd hask, hcalls]
      exact ⟨rfl, rfl⟩
  | none =>
    by_cases hover : ∃ record entry, found = some record ∧ record.selected? version = some entry ∧ entry.IsOver (record.span policy) now
    · obtain ⟨record, entry, rfl, hentry, hover⟩ := hover
      obtain ⟨ending, hexpired, hending⟩ := VersionEntry.expired?_of_isOver (hdated record rfl _ _ hentry) hnow hover
      obtain ⟨⟨secret, hreply, hdata⟩, hpayload, hrecord, hframe⟩ := read_of_expired hs.kept hpath hp hr hentry hexpired
      refine ⟨policy, some record, some secret, hp, hr, hreply, ?_, ?_⟩
      · rintro _ entry' ⟨⟩ hentry' _
        cases hentry.symm.trans hentry'
        obtain ⟨oldest, hafter⟩ := record.expired_eq now (version.getD record.currentVersion) entry ending
        exact ⟨⟨secret, rfl, hdata⟩, hpayload, ⟨ending, oldest, hending, hafter ▸ hrecord⟩, hframe⟩
      · intro hnone
        exact absurd hover (hnone record entry rfl hentry)
    · have hlive : ∀ record entry, found = some record → record.selected? version = some entry →
          entry.expired? (record.lifetime? policy) now = none := by
        intro record entry hfound hentry
        exact VersionEntry.expired?_of_not_isOver (hdated record hfound _ _ hentry) hnow fun h => hover ⟨record, entry, hfound, hentry, h⟩
      obtain ⟨shown, hreply, hframe, hset, hdata⟩ := read_of_live hs hpath hp hr hlive
      refine ⟨policy, found, shown, hp, hr, hreply, ?_, fun _ => ⟨hframe, hset, ?_, ?_⟩⟩
      · intro record entry hfound hentry hyes
        exact absurd ⟨record, entry, hfound, hentry, hyes⟩ hover
      · intro hshown
        obtain ⟨record, entry, _, hfound, hentry, hreadable, _⟩ := hdata.mp hshown
        exact ⟨record, entry, hfound, hentry, VersionEntry.isReadable_iff.mp hreadable⟩
      · rintro hcalm hdistinct ⟨record, entry, rfl, hentry, hvisible⟩
        obtain ⟨data, hpayload⟩ := payload_of_listed h hcalm hpath hdistinct hr hentry hvisible.1
        exact hdata.mpr ⟨record, entry, data, rfl, hentry, VersionEntry.isReadable_iff.mpr hvisible, hpayload⟩

/-- A store with one version of one key, opened anew with a second for versions to last: the version is
    destroyed and shown without data when it is read after that second. -/
theorem expiry_exact_written :
    let later : Instant := ⟨1, 0, by decide, by decide⟩
    let s := (written ⟨.tabulate 32 fun _ => 7⟩ ⟨fun _ => 0, 0⟩ "a" [97] none).restart { deleteVersionAfter := some 1 }
    let answered := s.ask Faults.none later (.readData "a" none)
    (∃ secret : SecretVersion, answered.1 = .ok (some secret) ∧ secret.data = none) ∧
      answered.2.memory[payloadAddress s.ring "a" 1]? = none ∧
      ∃ record entry, answered.2.contents.record answered.2.ring "a" = .ok (some record) ∧
        record.versions[(1 : UInt64)]? = some entry ∧ entry.destroyed = true := by
  intro later
  have hpath : KeyPath.fault? "a" = none := by decide
  have hcas : Vault.casRejection? (KeyRecord.new "a" .epoch) {} none = none := rfl
  obtain ⟨hruns, _, hshown⟩ := runs_written ⟨.tabulate 32 fun _ => 7⟩ ⟨fun _ => 0, 0⟩ [97] hpath hcas
  have hpolicy := policyKey_written ⟨.tabulate 32 fun _ => 7⟩ ⟨fun _ => 0, 0⟩ "a" [97] none
  generalize written ⟨.tabulate 32 fun _ => 7⟩ ⟨fun _ => 0, 0⟩ "a" [97] none = t at *
  obtain ⟨_, hring, hcontents⟩ := views_restart t { deleteVersionAfter := some 1 }
  have hrecord := hshown.record_eq
  rw [← hring, ← hcontents] at hrecord
  rw [← hcontents] at hpolicy
  have hepoch : Instant.epoch.IsPlain := Nat.zero_lt_succ _
  have hlater : later.IsPlain := Nat.zero_lt_succ _
  obtain ⟨policy, found, shown, hp, hr, hreply, hover, _⟩ :=
    expiry_exact (hruns.restart { deleteVersionAfter := some 1 }) (by simp [Event.IsPlain, hepoch]) hlater "a" none
  cases (Contents.policy_of_none hpolicy _).symm.trans hp
  cases hrecord.symm.trans hr
  have hspan : ((KeyRecord.new "a" .epoch).written .epoch (Vault.keptOf {} (KeyRecord.new "a" .epoch))).span
      { deleteVersionAfter := some 1 } = 1 := by decide
  have hpast : VersionEntry.IsOver { createdTime := .epoch } 1 later := ⟨rfl, by decide, by decide⟩
  obtain ⟨⟨secret, rfl, hdata⟩, hpayload, ⟨ending, oldest, _, hafter⟩, _⟩ := hover _ _ rfl hshown.listed (hspan.symm ▸ hpast)
  exact ⟨⟨secret, hreply, hdata⟩, hpayload, _, _, hafter, Std.ExtTreeMap.getElem?_insert_self, rfl⟩

/-- A request about another path leaves the record of this one, whatever identifiers they have. -/
theorem Stands.other {found : Option KeyRecord} {other : String} (h : s.Stands master path policy found) (now : Instant)
    (r : Request) (hpath : r.path? = some other) (hne : path ≠ other) :
    (s.ask Faults.none now r).2.Stands master path policy found := by
  refine h.ask now r ?_ ?_
  · rw [ring_ask h.kept h.check, ← h.record_eq]
    exact Contents.record_congr (contents_frame h.kept h.check hpath _ now (Vault.not_entry_record hne))
  · rw [defaults_ask h.kept, ← h.policy_eq]
    exact Contents.policy_congr (contents_frame h.kept h.check hpath _ now fun hentry => hentry.ne.1 rfl)

/-- Under every master key there are two paths with the same identifier. Once a version of the one is
    destroyed, no data is shown of that version of the other, though it is listed, neither destroyed
    nor deleted, and no call ever failed. -/
theorem data_gone_with_identifier (master : MasterKey) (entropy : Entropy) :
    ∃ log s path record entry shown, Runs master log s ∧ (∀ e ∈ log, e.IsCalm) ∧
      s.contents.record s.ring path = .ok (some record) ∧ record.selected? none = some entry ∧ entry.IsVisible .epoch ∧
      (s.ask Faults.none .epoch (.readData path none)).1 = .ok shown ∧
      ¬ ∃ secret : SecretVersion, shown = some secret ∧ secret.data ≠ none := by
  obtain ⟨p, q, hne, hp, hq, hid⟩ := (opened master {} entropy).ring.identifiers_meet
  have hp₀ := stands_opened master {} entropy p
  have hq₀ := stands_opened master {} entropy q
  generalize opened master {} entropy = s₀ at *
  -- both are written
  have hp₁ := hp₀.write .epoch hp [97] none _ rfl rfl (KeyRecord.not_exhausted_new _ _)
  have hq₁ := hq₀.other .epoch (.writeData p [97] none) rfl hne.symm
  have hring₁ : (s₀.ask Faults.none .epoch (.writeData p [97] none)).2.ring = s₀.ring := ring_ask hp₀.kept hp₀.check _ _ _
  generalize (s₀.ask Faults.none .epoch (.writeData p [97] none)).2 = s₁ at *
  have hp₂ := hp₁.other .epoch (.writeData q [98] none) rfl hne
  have hq₂ := hq₁.write .epoch hq [98] none _ rfl rfl (KeyRecord.not_exhausted_new _ _)
  have hring₂ : (s₁.ask Faults.none .epoch (.writeData q [98] none)).2.ring = s₁.ring := ring_ask hq₁.kept hq₁.check _ _ _
  generalize (s₁.ask Faults.none .epoch (.writeData q [98] none)).2 = s₂ at *
  -- the version of the second is destroyed, and its payload was that of the first
  have hlisted : ((KeyRecord.new q .epoch).written .epoch (Vault.keptOf {} (KeyRecord.new q .epoch))).versions[(1 : UInt64)]? =
      some { createdTime := .epoch } := KeyRecord.getElem?_written_next _ _ _
  have hp₃ := hp₂.other .epoch (.destroyVersions q [1]) rfl hne
  have hgone := payload_of_destroy .epoch hq₂.kept hq₂.check hq hq₂.record_eq hlisted rfl
    (show s₂.ring.identifier p = s₂.ring.identifier q by rw [hring₂, hring₁, hid])
  generalize (s₂.ask Faults.none .epoch (.destroyVersions q [1])).2 = s at *
  obtain ⟨log, hruns, hcalm⟩ := hp₃.runs
  let record := (KeyRecord.new p .epoch).written .epoch (Vault.keptOf {} (KeyRecord.new p .epoch))
  have hselected : record.selected? none = some { createdTime := .epoch } :=
    (KeyRecord.new p .epoch).getElem?_written_next .epoch (Vault.keptOf {} (KeyRecord.new p .epoch))
  have hvisible : VersionEntry.IsVisible { createdTime := .epoch } .epoch := VersionEntry.isReadable_iff.mp rfl
  have hlive (found : KeyRecord) (entry : VersionEntry) (hfound : some record = some found)
      (hentry : found.selected? none = some entry) : entry.expired? (found.lifetime? {}) .epoch = none := by
    cases hfound
    cases hselected.symm.trans hentry
    rfl
  obtain ⟨shown, hreply, -, -, hdata⟩ := read_of_live (inOrder_of_runs hruns) hp hp₃.policy_eq hp₃.record_eq hlive
  refine ⟨log, s, p, record, _, shown, hruns, hcalm, hp₃.record_eq, hselected, hvisible, hreply, ?_⟩
  rw [hdata]
  rintro ⟨found, _, data, hfound, -, -, hpayload⟩
  have hnumber : found.currentVersion = 1 := by rw [← Option.some.inj hfound]; rfl
  rw [Option.getD_none, hnumber] at hpayload
  cases hgone.symm.trans hpayload

/-- Nothing is stored yet, and a read of a path without a record stores a salt and a check. -/
theorem first_read_sets_up :
    let s := start ⟨.tabulate 32 fun _ => 0⟩ {} ⟨fun _ => 0, 0⟩
    Runs ⟨.tabulate 32 fun _ => 0⟩ [] s ∧ s.contents.record s.ring "k" = .ok none ∧
      (s.ask Faults.none .epoch (.readData "k" none)).2.memory ≠ s.memory := by
  intro s
  have hruns : Runs ⟨.tabulate 32 fun _ => 0⟩ [] s := .start {} _
  have hpath : KeyPath.fault? "k" = none := by decide
  have hi : (Request.readData "k" none).immediate? = none := by rw [Request.immediate?, hpath]; rfl
  have hempty : s.memory[checkKey]? = none := Std.ExtTreeMap.getElem?_empty
  refine ⟨hruns, Contents.record_eq_none.mpr Std.ExtTreeMap.getElem?_empty, ?_⟩
  intro hsame
  exact (isSetUp_ask hruns.kept hi .epoch).check (hsame ▸ hempty)

end Session

end Strongbox
