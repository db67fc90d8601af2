/-
  Strongbox.Proofs.Vault.Erase — what erasing a path leaves behind.

  An erasure deletes the payloads of the versions that the record lists, and the record. A write
  that failed after its payload was put has left a payload that no record lists. The erasure does
  not find it: it stays in the storage, and another erasure does not find it either. Everything
  that an erasure leaves behind has come about in this way.

  Proved:
  - `erase_complete_iff`: what an erasure that succeeds deletes and what it leaves.
-/

import Strongbox.Proofs.Vault.FailedWrite
import Strongbox.Proofs.Vault.Payloads

namespace Strongbox

open Time (Instant)
open KeyRing (checkKey)
open Vault (recordAddress payloadAddress Below Effect)

/-! ## Erasing -/

/-- A key is that of the payload of a version that the record of the path lists. -/
def Contents.Lists (c : Contents) (ring : KeyRing) (path key : String) : Prop :=
  ∃ record version, c.record ring path = .ok (some record) ∧ version ∈ record.versions ∧ key = payloadAddress ring path version

theorem Contents.not_lists {c : Contents} {ring : KeyRing} {path key : String} (h : c.record ring path = .ok none) :
    ¬ c.Lists ring path key := by
  rintro ⟨record, _, hr, _⟩
  cases h.symm.trans hr

/-- What a record lists is what an erasure deletes. -/
theorem Contents.mem_erased_iff {c : Contents} {ring : KeyRing} {path key : String} {record : KeyRecord}
    (h : c.record ring path = .ok (some record)) :
    key ∈ (record.versions.keys.map (Vault.eraseEdit ring path)).map Edit.key ↔ c.Lists ring path key := by
  simp only [List.map_map, List.mem_map, Std.ExtTreeMap.mem_keys, Function.comp, Vault.eraseEdit_key]
  constructor
  · rintro ⟨version, hversion, rfl⟩
    exact ⟨record, version, h, hversion, rfl⟩
  · rintro ⟨record', version, hr, hversion, rfl⟩
    cases h.symm.trans hr
    exact ⟨version, hversion, rfl⟩

/-- An erasure that goes through deletes the record and the payloads of the versions it lists. -/
theorem Vault.Effect.erased {w : Weather} {v : Vault} {now : Instant} {m m' : Memory} {path : String}
    (h : Effect w v now m (.deleteMetadata path) (.ok ()) m') :
    m'[recordAddress v.ring path]? = none ∧ ∀ key, Below v.ring path key →
      (m'[key]? = none ↔ m[key]? = none ∨ (m.contents v.ring).Lists v.ring path key) := by
  cases h with
  | answered plan =>
    obtain ⟨found, hr, plan⟩ := Except.of_bind_eq_ok plan
    cases found with
    | some record => cases plan
    | none =>
      refine ⟨Contents.record_eq_none.mp hr, ?_⟩
      intro key _
      exact ⟨.inl, fun h => h.resolve_right (Contents.not_lists hr)⟩
  | changed plan made _ =>
    cases move_of_plan plan with
    | revise hpath => cases hpath
    | @erase _ record hr =>
      constructor
      · refine Memory.contents_eq_none.mp (?_ : Memory.contents v.ring _ _ = none)
        rw [Memory.contents_after]
        exact if_pos rfl
      · intro key hb
        have hkey : key ≠ (dropEdit v.ring path).key := by
          refine ne_of_initial? ?_
          rw [initial?_of_below hb]
          simp
        rw [Memory.getElem?_after _ _ hkey]
        by_cases hmem : key ∈ (record.versions.keys.map (eraseEdit v.ring path)).map Edit.key
        · refine iff_of_true ?_ (.inr ((Contents.mem_erased_iff hr).mp hmem))
          refine Memory.contents_eq_none.mp (?_ : Memory.contents v.ring _ _ = none)
          rw [made.contents]
          refine Contents.edits_of_deleted ?_ hmem
          intro e he
          obtain ⟨_, _, rfl⟩ := List.mem_map.mp he
          rfl
        · rw [made.frame hmem]
          exact ⟨.inl, fun h => h.resolve_right fun hl => hmem ((Contents.mem_erased_iff hr).mpr hl)⟩

namespace Session

variable {master : MasterKey} {log : List Event} {s : Session} {f : Faults} {now : Instant} {path : String}

/-- What an erasure that succeeds deletes: the record and what it lists. -/
theorem erased_of_ask (h : Runs master log s) (hok : (s.ask f now (.deleteMetadata path)).1 = .ok ()) :
    let after := (s.ask f now (.deleteMetadata path)).2
    after.memory[recordAddress after.ring path]? = none ∧ ∀ key, Below after.ring path key →
      (after.memory[key]? = none ↔ s.memory[key]? = none ∨ (s.memory.contents after.ring).Lists after.ring path key) := by
  cases hi : (Request.deleteMetadata path).immediate? with
  | some answer =>
    rw [ask_of_immediate hi]
    have hrecord : s.memory[recordAddress s.ring path]? = none := by
      refine Decidable.byContradiction ?_
      intro hstored
      obtain ⟨_, hfault, _⟩ := Option.map_eq_some_iff.mp hi
      rw [h.valid_of_stored hstored] at hfault
      cases hfault
    refine ⟨hrecord, ?_⟩
    intro key _
    exact ⟨.inl, fun h => h.resolve_right (Contents.not_lists (Contents.record_eq_none.mpr hrecord))⟩
  | none =>
    obtain ⟨m, world, begun, effect, hafter⟩ := performed_of_ok h.kept hi (fun _ => rfl) hok
    rw [hafter]
    have hring : m.ring s.store.master = world.store.ring s.store.master :=
      (Memory.ring_congr (effect.frame_setUp (.inl rfl))).symm
    rw [hring] at effect
    obtain ⟨hrecord, hbelow⟩ := effect.erased
    refine ⟨hrecord, ?_⟩
    intro key hb
    have hinitial := Vault.initial?_of_below hb
    have hlists : (m.contents (world.store.ring s.store.master)).Lists (world.store.ring s.store.master) path key ↔
        (s.memory.contents (world.store.ring s.store.master)).Lists (world.store.ring s.store.master) path key := by
      rw [Contents.Lists, Contents.Lists, Contents.record_congr (Memory.contents_congr (begun.frame (by simp) (by simp)))]
    have hiff := hbelow key hb
    rw [begun.frame (by simp [hinitial]) (by simp [hinitial]), hlists] at hiff
    exact hiff

/-- What stands below a path is of a version that the record lists, or some write to it failed. -/
theorem lists_or_failed (h : Runs master log s) (hd : Distinct s.ring (path :: pathsIn log)) {key : String}
    (hb : Below s.ring path key) (hstored : s.memory[key]? ≠ none) :
    s.contents.Lists s.ring path key ∨ ∃ e ∈ log, e.failedWrite path = true := by
  obtain ⟨hmem, version, rfl⟩ := h.payload_of_below hd hb hstored
  obtain ⟨a, ha, hexplained⟩ := h.origin (valid_of_mem_pathsIn hmem) hd
  have hpayload : a.payload version ≠ none := (ha.stored_iff version).mp hstored
  refine (hexplained version hpayload).imp ?_ fun ⟨e, he, hfailed, _⟩ => ⟨e, he, hfailed⟩
  intro hentry
  cases hr : a.record with
  | none =>
    rw [Account.listed?, hr] at hentry
    exact absurd rfl hentry
  | some record =>
    rw [Account.listed?, hr, Option.bind_some] at hentry
    refine ⟨record, version, hr ▸ ha.record, ?_, rfl⟩
    exact Decidable.byContradiction fun hout => hentry (Std.ExtTreeMap.getElem?_eq_none hout)

/-- After an erasure that succeeded there is no record. Nothing is left below the prefix of the
    path exactly if everything that stood there was of listed versions. And if no two paths have
    the same identifier, what is left was put by a write to the path that failed. -/
theorem erase_complete_iff (h : Runs master log s) (hok : (s.ask f now (.deleteMetadata path)).1 = .ok ()) :
    let after := (s.ask f now (.deleteMetadata path)).2
    after.memory[recordAddress after.ring path]? = none ∧
      ((∀ key, Below after.ring path key → after.memory[key]? = none) ↔
        ∀ key, Below after.ring path key → s.memory[key]? ≠ none →
          (s.memory.contents after.ring).Lists after.ring path key) ∧
      (Distinct after.ring (path :: pathsIn log) → ∀ key, Below after.ring path key → after.memory[key]? ≠ none →
        ∃ e ∈ log, e.failedWrite path = true) := by
  intro after
  obtain ⟨hrecord, hbelow⟩ := erased_of_ask h hok
  refine ⟨hrecord, ⟨fun hempty key hb hstored => ?_, fun hlisted key hb => ?_⟩, fun hd key hb hstored => ?_⟩
  · exact ((hbelow key hb).mp (hempty key hb)).resolve_left hstored
  · refine (hbelow key hb).mpr ?_
    by_cases hstored : s.memory[key]? = none
    · exact .inl hstored
    · exact .inr (hlisted key hb hstored)
  · have hruns := h.ask f now (.deleteMetadata path)
    have hd' : Distinct after.ring (path :: pathsIn (.asked f now (.deleteMetadata path) (s.ask f now _).1 :: log)) := by
      refine hd.mono ?_
      intro p hp
      rcases List.mem_cons.mp hp with rfl | hp
      · exact List.mem_cons_self
      · rcases of_mem_pathsIn_cons hp with hpath | hp
        · cases hpath
          exact List.mem_cons_self
        · exact List.mem_cons_of_mem path hp
    rcases lists_or_failed hruns hd' hb hstored with hlisted | ⟨e, he, hfailed⟩
    · exact absurd hlisted (Contents.not_lists (Contents.record_eq_none.mpr hrecord))
    · rcases List.mem_cons.mp he with rfl | he
      · cases hfailed
      · exact ⟨e, he, hfailed⟩

/-- A first write whose record could not be stored leaves its payload. -/
theorem stray_of_failed_write (h : s.Kept master) (hset : s.memory[checkKey]? ≠ none) (hpath : KeyPath.fault? path = none)
    {policy : Policy} (data : Bytes) (cas : Option UInt64) (hp : s.contents.policy s.store.defaults = .ok policy)
    (hr : s.contents.record s.ring path = .ok none) (hcas : Vault.casRejection? (KeyRecord.new path now) policy cas = none) :
    let failed := s.ask (.puts (recordAddress s.ring path)) now (.writeData path data cas)
    (∃ e, failed.1 = .error e) ∧ failed.2.contents.record failed.2.ring path = .ok none ∧
      failed.2.memory[payloadAddress failed.2.ring path 1]? ≠ none := by
  intro failed
  have hnew : s.vault.recordOrNewIn now s.memory path = .ok (KeyRecord.new path now) := Vault.recordOrNewIn_of_none hr
  obtain ⟨e, hfail, hcontents⟩ := write_without_record now data h hset hpath hp hnew hcas (KeyRecord.not_exhausted_new path now)
  have hring : failed.2.ring = s.ring := ring_ask h hset _ now _
  have hpayload : failed.2.contents.payload failed.2.ring path 1 = .ok (some data) := by
    rw [hcontents, hring, Vault.writeEdits, Vault.payload_written, if_pos rfl, if_neg]
    · exact if_pos rfl
    · exact (KeyRecord.new path now).next_not_mem_fallen now _
  refine ⟨⟨e, hfail⟩, ?_, fun hnone => ?_⟩
  · rw [hcontents, hring, ← hr]
    exact Contents.record_congr (Vault.edits_of_payloads (Vault.writeEdits_isPayload _ _ _ _ _) _ (by simp))
  · cases hpayload.symm.trans (Contents.payload_eq_none.mpr hnone)

/-- With no call failing, a path without record is erased. -/
theorem ask_erase_of_none (now : Instant) (h : s.Kept master) (hset : s.memory[checkKey]? ≠ none) (hpath : KeyPath.fault? path = none)
    (hr : s.contents.record s.ring path = .ok none) : (s.ask Faults.none now (.deleteMetadata path)).1 = .ok () := by
  have hi : (Request.deleteMetadata path).immediate? = none := Option.map_eq_none_iff.mpr hpath
  have hplan : s.vault.plan now s.memory (.deleteMetadata path) = .ok (.answer ()) := by
    show s.vault.planErase s.memory path = _
    rw [Vault.planErase, show (s.memory.contents s.vault.ring).record s.vault.ring path = _ from hr]
    rfl
  have hcalm := (ask_calm h hset hi now).1
  rw [Vault.outcome, hplan] at hcalm
  exact hcalm

/-- A failed first write leaves a payload that an erasure does not find. -/
theorem erase_misses_failed_write :
    let s := opened ⟨.tabulate 32 fun _ => 7⟩ {} ⟨fun _ => 0, 0⟩
    let failed := s.ask (.puts (recordAddress s.ring "k")) .epoch (.writeData "k" [97] none)
    let erased := failed.2.ask Faults.none .epoch (.deleteMetadata "k")
    (∃ e, failed.1 = .error e) ∧ erased.1 = .ok () ∧ erased.2.memory[recordAddress erased.2.ring "k"]? = none ∧
      ¬ ∀ key, Below erased.2.ring "k" key → erased.2.memory[key]? = none := by
  have hruns := runs_opened ⟨.tabulate 32 fun _ => 7⟩ {} ⟨fun _ => 0, 0⟩
  have hset := (isSetUp_opened ⟨.tabulate 32 fun _ => 7⟩ {} ⟨fun _ => 0, 0⟩).check
  have hp := policy_opened ⟨.tabulate 32 fun _ => 7⟩ {} ⟨fun _ => 0, 0⟩
  have hr := record_opened ⟨.tabulate 32 fun _ => 7⟩ {} ⟨fun _ => 0, 0⟩ "k"
  generalize opened ⟨.tabulate 32 fun _ => 7⟩ {} ⟨fun _ => 0, 0⟩ = s at *
  dsimp only
  have hpath : KeyPath.fault? "k" = none := by decide
  obtain ⟨hfail, hrecord, hstored⟩ := stray_of_failed_write hruns.kept hset hpath [97] none hp hr rfl
  have hruns' := hruns.ask (.puts (recordAddress s.ring "k")) .epoch (.writeData "k" [97] none)
  have hcheck := (vault_ask hruns.kept hset (.puts (recordAddress s.ring "k")) .epoch (.writeData "k" [97] none)).2
  rw [← hcheck] at hset
  refine ⟨hfail, ?_⟩
  generalize (s.ask (.puts (recordAddress s.ring "k")) .epoch (.writeData "k" [97] none)).1 = answer,
    (s.ask (.puts (recordAddress s.ring "k")) .epoch (.writeData "k" [97] none)).2 = failed at *
  have hok := ask_erase_of_none .epoch hruns'.kept hset hpath hrecord
  have hring := ring_ask hruns'.kept hset Faults.none .epoch (.deleteMetadata "k")
  obtain ⟨hgone, hcomplete, _⟩ := erase_complete_iff hruns' hok
  refine ⟨hok, hgone, ?_⟩
  intro hempty
  -- everything that stood there would be listed
  have hb : Below failed.ring "k" (payloadAddress failed.ring "k" 1) := Vault.below_payloadAddress.mpr rfl
  rw [hring] at hcomplete hempty
  exact Contents.not_lists hrecord (hcomplete.mp hempty _ hb hstored)

end Session

end Strongbox
