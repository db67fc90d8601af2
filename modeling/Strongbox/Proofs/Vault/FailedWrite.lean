/-
  Strongbox.Proofs.Vault.FailedWrite — what a write that fails can cost.

  A write puts its payload, deletes the payloads of the versions that fall out, and then stores
  the record. If it is cut short before the record, the versions that were to fall out are still
  listed and their payloads are gone. Every other version keeps its payload: the one that is put goes
  under the next number, which no version has.

  Proved:
  - `failed_write_loses_iff`: which versions a write can cost by failing.
-/

import Strongbox.Proofs.Vault.Succession

namespace Strongbox

open Time (Instant)
open KeyRing (checkKey)
open Vault (recordAddress payloadAddress keptOf casRejection?)

/-- Puts under this key fail. -/
def Faults.puts (key : String) : Faults := fun _ c =>
  match c with
  | .put other _ => if other = key then some (.backend "refused") else Option.none
  | _ => Option.none

theorem Faults.put_of_puts {key : String} {c : Call} (h : (puts key).weather c false) : ∃ value, c = .put key value := by
  obtain ⟨_, h⟩ := h
  unfold puts at h
  split at h
  · rename_i other value
    split at h
    · rename_i hkey
      exact ⟨value, by rw [hkey]⟩
    · cases h
  · cases h

theorem Faults.puts_fail {key : String} {value : Bytes} (h : (puts key).weather (.put key value) true) : False := by
  obtain ⟨_, h⟩ := h
  simp [puts] at h

namespace Session

/-- A version is at risk in a write: the write is accepted, there is a number for it, and the version
    is to fall out. -/
def AtRisk (now : Instant) (path : String) (cas : Option UInt64) (version : UInt64) (s : Session) : Prop :=
  ∃ policy record cutoff, s.contents.policy s.store.defaults = .ok policy ∧
    s.contents.record s.ring path = .ok (some record) ∧ casRejection? record policy cas = none ∧ ¬ record.Exhausted ∧
    (record.appended now).cutoff? (keptOf policy record) = some cutoff ∧ version ≤ cutoff

variable {master : MasterKey} {s : Session} {now : Instant} {path : String} {data held : Bytes} {cas : Option UInt64}
  {version : UInt64}

/-- A payload that is not at risk is there after a write that failed. -/
theorem payload_of_failed_write {w : Weather} {m' : Memory} {e : Error} {policy : Policy} {record : KeyRecord}
    {entry : VersionEntry} (hshown : s.contents.Shown s.ring s.store.defaults now path version held policy record entry)
    (hcapped : record.Capped) (hsafe : ¬ s.AtRisk now path cas version)
    (h : Vault.Effect w s.vault now s.memory (.writeData path data cas) (.error e) m') :
    (m'.contents s.ring).payload s.ring path version = .ok (some held) := by
  cases h with
  | unread => exact hshown.payload_eq
  | broken => exact hshown.payload_eq
  | interrupted plan split made _ =>
    obtain ⟨policy', before, hp, hr, -, hcas, hmore, rfl, -, -⟩ := (Vault.move_of_plan plan).write_inv
    obtain rfl : policy' = policy := Except.ok.inj (hp.symm.trans hshown.policy_eq)
    obtain rfl : before = record :=
      Except.ok.inj (hr.symm.trans (Vault.recordOrNewIn_of_record (v := s.vault) hshown.record_eq))
    obtain ⟨rest', hpre⟩ := Vault.prefix_of_split split
    have hcontents : m'.contents s.ring = s.contents.edits _ := made.contents
    rw [hcontents]
    rcases Vault.prefix_of_writeEdits hpre with rfl | ⟨gone, later, hgone, rfl⟩
    · exact hshown.payload_eq
    · have hout : version ∉ gone := by
        intro hmem
        obtain ⟨cutoff, hcutoff, hle, _⟩ := (before.appended now).mem_fallen.mp (hgone ▸ List.mem_append_left _ hmem)
        exact hsafe ⟨policy', before, cutoff, hshown.policy_eq, hshown.record_eq, hcas, hmore, hcutoff, hle⟩
      have hnext : version ≠ (before.appended now).currentVersion := by
        rintro rfl
        exact hcapped.next_not_mem hmore (KeyRecord.mem_versions_iff.mpr ⟨entry, hshown.listed⟩)
      have hwritten := Vault.payload_written s.contents s.ring path path (before.appended now).currentVersion version
        data gone
      rw [if_pos rfl, if_neg hout, if_neg hnext] at hwritten
      exact hwritten.trans hshown.payload_eq

/-- A version that is not at risk is shown after a write that failed. -/
theorem shows_of_failed_write {log : List Event} (hruns : Runs master log s) (hshows : s.Shows now path version held)
    (hsafe : ¬ s.AtRisk now path cas version) {f : Faults} {e : Error}
    (hfail : (s.ask f now (.writeData path data cas)).1 = .error e) :
    (s.ask f now (.writeData path data cas)).2.Shows now path version held := by
  have h := hruns.kept
  obtain ⟨hpath, hset, policy, record, entry, hshown⟩ := (shows_iff h).mp hshows
  have hi : (Request.writeData path data cas).immediate? = none := Option.map_eq_none_iff.mpr hpath
  obtain ⟨reply, hreply, heffect⟩ := effect_ask h hset hi f now
  obtain rfl : reply = .error e := hreply.symm.trans hfail
  have hcheck := (vault_ask h hset f now (.writeData path data cas)).2
  have hviews := heffect.views_of_error
  have hpayload := payload_of_failed_write hshown (hruns.capped hpath hshown.record_eq) hsafe heffect
  refine (shows_iff ((asked_ask h f now _).kept h)).mpr ⟨hpath, hcheck ▸ hset, policy, record, entry, ?_⟩
  rw [contents, ring_ask h hset, defaults_ask h]
  exact {
    policy_eq := hviews.1.trans hshown.policy_eq
    record_eq := (hviews.2 path).trans hshown.record_eq
    listed := hshown.listed
    live := hshown.live
    readable := hshown.readable
    payload_eq := hpayload }

/-- A write whose record cannot be stored fails when all its other edits have been made. -/
theorem write_without_record (now : Instant) (data : Bytes) (h : s.Kept master) (hset : s.memory[checkKey]? ≠ none)
    (hpath : KeyPath.fault? path = none) {policy : Policy} {record : KeyRecord}
    (hp : s.contents.policy s.store.defaults = .ok policy) (hr : s.vault.recordOrNewIn now s.memory path = .ok record)
    (hcas : casRejection? record policy cas = none) (hmore : ¬ record.Exhausted) :
    ∃ e, (s.ask (.puts (recordAddress s.ring path)) now (.writeData path data cas)).1 = .error e ∧
      (s.ask (.puts (recordAddress s.ring path)) now (.writeData path data cas)).2.contents =
        s.contents.edits (Vault.writeEdits s.ring path data (record.appended now) (keptOf policy record)) := by
  have hi : (Request.writeData path data cas).immediate? = none := Option.map_eq_none_iff.mpr hpath
  have hplan : s.vault.plan now s.memory (.writeData path data cas) = _ :=
    Vault.planWrite_of_accepted hp hr hcas hmore
  obtain ⟨reply, hreply, heffect⟩ := effect_ask h hset hi (.puts (recordAddress s.ring path)) now
  rw [hreply, contents, ring_ask h hset]
  generalize (s.ask (.puts (recordAddress s.ring path)) now (.writeData path data cas)).2.memory = m' at heffect
  have hkey : (record.written now (keptOf policy record)).key = path :=
    (record.written_key now _).trans (Vault.key_of_recordOrNewIn hr)
  cases heffect with
  | unread reads fails =>
    obtain ⟨_, rfl⟩ := Faults.put_of_puts fails
    cases reads
  | broken plan => cases hplan.symm.trans plan
  | answered plan => cases hplan.symm.trans plan
  | @interrupted edits commit a done rest next nonce _ e plan split made fails =>
    have hchange := hplan.symm.trans plan
    simp only [Except.ok.injEq, Plan.change.injEq] at hchange
    obtain ⟨rfl, rfl, -⟩ := hchange
    obtain ⟨value, hcall⟩ := Faults.put_of_puts fails
    have hnext : next ∉ Vault.writeEdits s.ring path data (record.appended now) (keptOf policy record) := by
      intro hmem
      have hpayload := (Vault.move_of_plan hplan).edit_isPayload next hmem
      rw [Edit.key_of_call hcall] at hpayload
      have hinitial := Vault.initial?_of_isPayload hpayload
      simp at hinitial
    obtain rfl := Vault.done_of_split split hnext
    exact ⟨_, rfl, made.contents⟩
  | @changed edits commit a nonce m₁ plan made through =>
    have hchange := hplan.symm.trans plan
    simp only [Except.ok.injEq, Plan.change.injEq] at hchange
    obtain ⟨rfl, rfl, -⟩ := hchange
    rw [Vault.recordEdit, hkey] at through
    exact (Faults.puts_fail through).elim

/-- A version at risk is not shown after a write whose record could not be stored. -/
theorem lost_of_atRisk (h : s.Kept master) (hshows : s.Shows now path version held)
    (hrisk : s.AtRisk now path cas version) :
    ∃ f e, (s.ask f now (.writeData path data cas)).1 = .error e ∧
      ¬ (s.ask f now (.writeData path data cas)).2.Shows now path version held := by
  obtain ⟨hpath, hset, _, _, entry, hshown⟩ := (shows_iff h).mp hshows
  obtain ⟨policy, record, cutoff, hp, hr, hcas, hmore, hcutoff, hle⟩ := hrisk
  obtain rfl := Except.ok.inj (hp.symm.trans hshown.policy_eq)
  obtain rfl := Option.some.inj (Except.ok.inj (hr.symm.trans hshown.record_eq))
  obtain ⟨e, hfail, hcontents⟩ := write_without_record now data h hset hpath hp (Vault.recordOrNewIn_of_record hr) hcas hmore
  refine ⟨_, e, hfail, ?_⟩
  intro hstill
  obtain ⟨_, _, _, _, _, hshown'⟩ := (shows_iff ((asked_ask h _ now _).kept h)).mp hstill
  have hpayload := hshown'.payload_eq
  rw [hcontents, ring_ask h hset, Vault.writeEdits, Vault.payload_written, if_pos rfl] at hpayload
  split at hpayload
  · cases hpayload
  · rename_i hout
    refine hout ((record.appended now).mem_fallen.mpr ⟨cutoff, hcutoff, hle, ?_⟩)
    exact KeyRecord.mem_appended.mpr (.inr (KeyRecord.mem_versions_iff.mpr ⟨entry, hshown.listed⟩))

/-- For a version that shows its data, there are failures that make a write fail and the version
    not show that data afterwards, exactly if it is at risk in the write. -/
theorem failed_write_loses_iff {log : List Event} (h : Runs master log s) (hshows : s.Shows now path version held) :
    (∃ f e, (s.ask f now (.writeData path data cas)).1 = .error e ∧
      ¬ (s.ask f now (.writeData path data cas)).2.Shows now path version held) ↔
      s.AtRisk now path cas version := by
  constructor
  · rintro ⟨f, e, hfail, hlost⟩
    exact Classical.byContradiction fun hsafe => hlost (shows_of_failed_write h hshows hsafe hfail)
  · exact lost_of_atRisk h.kept hshows

/-- With one version kept, a second write that fails costs the first version. -/
theorem failed_write_loses_first :
    let s := ((opened ⟨.tabulate 32 fun _ => 7⟩ { maxVersions := 1 } ⟨fun _ => 0, 0⟩).ask Faults.none .epoch
      (.writeData "k" [97] none)).2
    s.Shows .epoch "k" 1 [97] ∧
      ∃ f e, (s.ask f .epoch (.writeData "k" [98] none)).1 = .error e ∧
        ¬ (s.ask f .epoch (.writeData "k" [98] none)).2.Shows .epoch "k" 1 [97] := by
  have hruns := runs_opened ⟨.tabulate 32 fun _ => 7⟩ { maxVersions := 1 } ⟨fun _ => 0, 0⟩
  have hset := (isSetUp_opened ⟨.tabulate 32 fun _ => 7⟩ { maxVersions := 1 } ⟨fun _ => 0, 0⟩).check
  have hp := policy_opened ⟨.tabulate 32 fun _ => 7⟩ { maxVersions := 1 } ⟨fun _ => 0, 0⟩
  have hr := record_opened ⟨.tabulate 32 fun _ => 7⟩ { maxVersions := 1 } ⟨fun _ => 0, 0⟩ "k"
  generalize opened ⟨.tabulate 32 fun _ => 7⟩ { maxVersions := 1 } ⟨fun _ => 0, 0⟩ = s at *
  have hnew : s.vault.recordOrNewIn .epoch s.memory "k" = .ok (KeyRecord.new "k" .epoch) := Vault.recordOrNewIn_of_none hr
  have hpath : KeyPath.fault? "k" = none := by decide
  have hshown := shown_of_write hruns.kept hset hpath [97] none hp hnew rfl (KeyRecord.not_exhausted_new _ _) rfl
  have hshows := shows_of_write hruns.kept hset hpath [97] none hp hnew rfl (KeyRecord.not_exhausted_new _ _) rfl
  refine ⟨hshows, (failed_write_loses_iff (hruns.ask Faults.none .epoch (.writeData "k" [97] none)) hshows).mpr ?_⟩
  exact ⟨_, _, 1, hshown.policy_eq, hshown.record_eq, rfl, by decide, rfl, by decide⟩

end Session

end Strongbox
