/-
  Strongbox.Proofs.Vault.Payloads — which payloads there are.

  A payload is put before the record lists its version and erased before the record gives the
  version up, so a request that is cut short can leave a payload that is not listed, and a
  listed version without payload. Either way no version that was ever listed keeps a payload
  once it is destroyed or has fallen out: what no record lists stands above the numbers handed
  out, left there by a write that failed.

  Proved:
  - `Runs.accountable`: account, log and origin of the payloads of every path agree.
  - `payloads_agree`: which payloads there are, by what the record says.
-/

import Strongbox.Proofs.Vault.Keys
import Strongbox.Proofs.Vault.Ledger
import Strongbox.Proofs.Vault.Reading

namespace Strongbox

open Time (Instant)
open Vault (recordAddress payloadAddress)

/-! ## Where payloads come from -/

/-- Every payload is of a listed version, or some write failed. -/
def Account.Explained (failed : Prop) (a : Account) : Prop := ∀ version, a.payload version ≠ none → a.listed? version ≠ none ∨ failed

namespace Account.Explained

variable {failed : Prop} {a : Account}

theorem mono {failed' : Prop} (h : a.Explained failed) (hf : failed → failed') : a.Explained failed' :=
  fun version hp => (h version hp).imp_right hf

theorem without (h : a.Explained failed) (gone : List UInt64) : (a.without gone).Explained failed := by
  intro version hp
  simp only [Account.without] at hp
  split at hp
  · exact absurd rfl hp
  · exact h version hp

/-- The payload of a write is that of the version it lists. -/
theorem write (h : a.Explained failed) {path : String} {now : Instant} {base : KeyRecord}
    (hbase : base = a.record.getD (KeyRecord.new path now)) (kept : UInt64) (data : Bytes) :
    (a.write base now kept data).Explained failed := by
  intro version hp
  rw [Account.payload_write] at hp
  rw [Account.listed?_write hbase]
  split at hp
  · exact absurd rfl hp
  · rename_i hout
    rw [if_neg hout]
    split at hp
    · rename_i hversion
      rw [if_pos hversion.symm]
      exact .inl (Option.some_ne_none _)
    · rename_i hversion
      rw [if_neg (fun e => hversion e.symm)]
      exact h version hp

/-- Erasing what is listed leaves what a failed write has left. -/
theorem erase (h : a.Explained failed) {record : KeyRecord} (hr : a.record = some record) :
    Account.Explained failed { (a.without record.versions.keys) with record := none } := by
  intro version hp
  simp only [Account.without, Std.ExtTreeMap.mem_keys] at hp
  split at hp
  · exact absurd rfl hp
  · rename_i hout
    refine (h version hp).imp_left ?_
    intro hentry
    rw [Account.listed?, hr, Option.bind_some] at hentry
    exact absurd (Std.ExtTreeMap.getElem?_eq_none hout) hentry

theorem revise (h : a.Explained failed) {path : String} {now : Instant} {gone : List UInt64} {base after : KeyRecord}
    (hbase : base = a.record.getD (KeyRecord.new path now)) (rev : KeyRecord.Revises gone base after) :
    (a.revise gone after).Explained failed := by
  intro version hp
  refine (h.without gone version hp).imp_left ?_
  intro hentry hnone
  have hdestroyed := Account.destroyed_revise hbase rev version
  rw [hnone, Option.map_none] at hdestroyed
  exact hentry (Option.map_eq_none_iff.mp hdestroyed.symm)

end Account.Explained

/-- A turn leaves no payload that is not listed, unless it is a write cut short. -/
theorem Turn.explained {path : String} {e : Event} {a a' : Account} {failed : Prop} (h : Turn path e a a')
    (ha : a.Explained failed) : a'.Explained ((e.failedWrite path = true ∧ ¬ e.IsCalm) ∨ failed) := by
  have hold : a.Explained ((e.failedWrite path = true ∧ ¬ e.IsCalm) ∨ failed) := ha.mono .inr
  cases h with
  | idle => exact hold
  | absent => exact hold
  | thinned gone => exact hold.without gone
  | strayed _ _ hcalm hf =>
    intro version _
    exact .inr (.inl ⟨hf, hcalm⟩)
  | written kept hbase => exact hold.write hbase kept _
  | erased hr => exact hold.erase hr
  | revised hbase rev => exact hold.revise hbase rev

/-- A payload that no record lists is left by a write that was cut short. -/
theorem Runs.origin {master : MasterKey} {log : List Event} {s : Session} {path : String} (h : Runs master log s)
    (hvalid : KeyPath.fault? path = none) (hd : Distinct s.ring (path :: pathsIn log)) :
    ∃ a : Account, a.Of s.contents s.ring path ∧ a.Explained (∃ e ∈ log, e.failedWrite path = true ∧ ¬ e.IsCalm) := by
  refine h.accounted (I := fun log a => a.Explained (∃ e ∈ log, e.failedWrite path = true ∧ ¬ e.IsCalm)) ?_ ?_ hvalid
    List.mem_cons_self (fun p hp => List.mem_cons_of_mem path hp) hd fun _ => rfl
  · intro version hp
    exact absurd rfl hp
  · intro e log a a' hturn ih version hp
    refine (hturn.explained ih version hp).imp_right ?_
    rintro (hfailed | ⟨e', he', hfailed⟩)
    · exact ⟨e, List.mem_cons_self, hfailed⟩
    · exact ⟨e', List.mem_cons_of_mem e he', hfailed⟩

/-! ## Payloads and record agree -/

theorem Account.Of.unique {c : Contents} {ring : KeyRing} {path : String} {a a' : Account} (h : a.Of c ring path)
    (h' : a'.Of c ring path) : a = a' := by
  obtain ⟨record, payload⟩ := a
  obtain ⟨record', payload'⟩ := a'
  obtain rfl : record = record' := Except.ok.inj (h.record.symm.trans h'.record)
  obtain rfl : payload = payload' := funext fun version => Except.ok.inj ((h.payload version).symm.trans (h'.payload version))
  rfl

/-- A payload is stored for an account that has one. -/
theorem Account.Of.stored_iff {m : Memory} {ring : KeyRing} {path : String} {a : Account} (h : a.Of (m.contents ring) ring path)
    (version : UInt64) : m[payloadAddress ring path version]? ≠ none ↔ a.payload version ≠ none := by
  have hnone : m[payloadAddress ring path version]? = none ↔ a.payload version = none := by
    rw [← Contents.payload_eq_none, h.payload, Except.ok.injEq]
  exact not_congr hnone

/-- Every path that no other path is mistaken for has an account that agrees with the log, and
    only a write that was cut short has left payloads that are not listed. -/
theorem Runs.accountable {master : MasterKey} {log : List Event} {s : Session} {path : String} (h : Runs master log s)
    (hfew : writesIn log < 2 ^ 64 - 1) (hd : Distinct s.ring (path :: pathsIn log)) :
    ∃ a : Account, a.Of s.contents s.ring path ∧ Ledger (∀ e ∈ log, e.IsCalm) (writtenSince path log) a ∧
      a.Explained (∃ e ∈ log, e.failedWrite path = true ∧ ¬ e.IsCalm) := by
  by_cases hvalid : KeyPath.fault? path = none
  · obtain ⟨a, ha, hl⟩ := h.ledger hfew hvalid hd fun _ => rfl
    obtain ⟨a', ha', hexplained⟩ := h.origin hvalid hd
    exact ⟨a, ha, hl, ha.unique ha' ▸ hexplained⟩
  · -- nothing is stored for a path that cannot name a key
    have hrecord : s.memory[recordAddress s.ring path]? = none := by
      exact Decidable.byContradiction fun hstored => hvalid (h.valid_of_stored hstored)
    have hpayload (version : UInt64) : s.memory[payloadAddress s.ring path version]? = none := by
      refine Decidable.byContradiction fun hstored => hvalid ?_
      exact valid_of_mem_pathsIn (h.payload_of_below hd (Vault.below_payloadAddress.mpr rfl) hstored).1
    have hwritten : writtenSince path log = [] :=
      List.eq_nil_iff_forall_not_mem.mpr fun w hw => hvalid (h.valid_of_mem hw)
    refine ⟨.blank, ⟨Contents.record_eq_none.mpr hrecord, fun version => Contents.payload_eq_none.mpr (hpayload version)⟩, ?_, ?_⟩
    · rw [hwritten]
      exact .blank _
    · intro version hp
      exact absurd rfl hp

/-- The record, if there is one, lists the version, and it is not destroyed. -/
def Live (found : Option KeyRecord) (version : UInt64) : Prop :=
  ∃ record entry, found = some record ∧ record.versions[version]? = some entry ∧ entry.destroyed = false

theorem Account.live_iff {a : Account} {version : UInt64} :
    Live a.record version ↔ ∃ entry, a.listed? version = some entry ∧ entry.destroyed = false := by
  simp only [Live, Account.listed?, Option.bind_eq_some_iff]
  constructor
  · rintro ⟨record, entry, hr, hv, hd⟩
    exact ⟨entry, ⟨record, hr, hv⟩, hd⟩
  · rintro ⟨entry, ⟨record, hr, hv⟩, hd⟩
    exact ⟨record, entry, hr, hv, hd⟩

namespace Ledger

variable {calm : Prop} {written : List (UInt64 × Bytes)} {a : Account} {version : UInt64}

/-- A payload is that of a live version or stands above the numbers handed out. -/
theorem live_or_lt (h : Ledger calm written a) (hp : a.payload version ≠ none) :
    Live a.record version ∨ currentOf a.record < version := by
  obtain ⟨data, hdata⟩ := Option.ne_none_iff_exists'.mp hp
  rcases h.held version data hdata with ⟨entry, hentry, hd, _⟩ | hlt
  · exact .inl (Account.live_iff.mpr ⟨entry, hentry, hd⟩)
  · exact .inr (UInt64.lt_iff_toNat_lt.mpr hlt)

/-- If no call ever failed, the payloads are those of the live versions. -/
theorem payload_iff_live (h : Ledger calm written a) (hc : calm) {failed : Prop} (hx : a.Explained failed) (hf : ¬ failed) :
    a.payload version ≠ none ↔ Live a.record version := by
  constructor
  · intro hp
    refine (h.live_or_lt hp).resolve_right fun hlt => ?_
    obtain ⟨entry, hentry⟩ := Option.ne_none_iff_exists'.mp ((hx version hp).resolve_right hf)
    exact absurd (h.listed version entry hentry) (Nat.not_le.mpr (UInt64.lt_iff_toNat_lt.mp hlt))
  · intro hlive
    obtain ⟨entry, hentry, hd⟩ := Account.live_iff.mp hlive
    exact h.complete hc version entry hentry hd

end Ledger

namespace Session

variable {master : MasterKey} {log : List Event} {s : Session} {path : String}

/-- After every run with fewer writes than numbers, in which no two paths have the same
    identifier: a payload is that of a version that is listed and not destroyed, or it stands
    above the numbers handed out. So what is destroyed has none, nor has what is no longer listed.
    If no call failed in the run, the payloads are those of the versions listed and not destroyed. -/
theorem payloads_agree (h : Runs master log s) (hfew : writesIn log < 2 ^ 64 - 1) (hd : Distinct s.ring (path :: pathsIn log)) :
    ∃ found, s.contents.record s.ring path = .ok found ∧
      (∀ version, s.memory[payloadAddress s.ring path version]? ≠ none → Live found version ∨ currentOf found < version) ∧
      (∀ record version entry, found = some record → record.versions[version]? = some entry → entry.destroyed = true →
        s.memory[payloadAddress s.ring path version]? = none) ∧
      (∀ record version, found = some record → version ≤ record.currentVersion → version ∉ record.versions →
        s.memory[payloadAddress s.ring path version]? = none) ∧
      ((∀ e ∈ log, e.IsCalm) → ∀ version, s.memory[payloadAddress s.ring path version]? ≠ none ↔ Live found version) := by
  obtain ⟨a, ha, hl, hx⟩ := h.accountable hfew hd
  -- what is not live and has a number that was handed out has no payload
  have hgone (version : UInt64) (hlive : ¬ Live a.record version) (hle : version ≤ currentOf a.record) :
      s.memory[payloadAddress s.ring path version]? = none := by
    refine Decidable.byContradiction fun hstored => ?_
    rcases hl.live_or_lt ((ha.stored_iff version).mp hstored) with hlist | hlt
    · exact hlive hlist
    · exact absurd hle (UInt64.not_le.mpr hlt)
  refine ⟨a.record, ha.record, ?_, ?_, ?_, ?_⟩
  · intro version hstored
    exact hl.live_or_lt ((ha.stored_iff version).mp hstored)
  · intro record version entry hr hv hdestroyed
    refine hgone version ?_ ?_
    · rintro ⟨record', entry', hr', hv', hlive⟩
      cases hr.symm.trans hr'
      cases hv.symm.trans hv'
      rw [hdestroyed] at hlive
      cases hlive
    · refine UInt64.le_iff_toNat_le.mpr (hl.listed version entry ?_)
      rw [Account.listed?, hr, Option.bind_some, hv]
  · intro record version hr hle hout
    refine hgone version ?_ (hr ▸ hle)
    rintro ⟨record', entry, hr', hv, _⟩
    cases hr.symm.trans hr'
    rw [Std.ExtTreeMap.getElem?_eq_none hout] at hv
    cases hv
  · intro hcalm version
    rw [ha.stored_iff version]
    refine hl.payload_iff_live hcalm hx ?_
    rintro ⟨e, he, _, hstorm⟩
    exact hstorm (hcalm e he)

/-- A version that was written and destroyed has no payload. -/
theorem payloads_agree_destroyed :
    let s := ((written ⟨.tabulate 32 fun _ => 7⟩ ⟨fun _ => 0, 0⟩ "k" [97] none).ask Faults.none .epoch (.destroyVersions "k" [1])).2
    s.memory[payloadAddress s.ring "k" 1]? = none := by
  have hpath : KeyPath.fault? "k" = none := by decide
  have hcas : Vault.casRejection? (KeyRecord.new "k" .epoch) {} none = none := rfl
  obtain ⟨hruns, hset, hshown⟩ := runs_written ⟨.tabulate 32 fun _ => 7⟩ ⟨fun _ => 0, 0⟩ [97] hpath hcas
  generalize written ⟨.tabulate 32 fun _ => 7⟩ ⟨fun _ => 0, 0⟩ "k" [97] none = s at *
  obtain ⟨record, hr, hv⟩ := record_of_destroy .epoch hruns.kept hset hpath hshown.record_eq hshown.listed rfl
  have hruns' := hruns.ask Faults.none .epoch (.destroyVersions "k" [1])
  generalize (s.ask Faults.none .epoch (.destroyVersions "k" [1])).2 = s' at *
  have hfew : 3 < 2 ^ 64 - 1 := by decide
  have hdistinct : Distinct s'.ring ["k", "k", "k"] := .of_forall_eq "k" (by simp)
  obtain ⟨found, hfound, _, hgone, _⟩ := payloads_agree hruns' (Nat.lt_of_le_of_lt List.countP_le_length hfew) hdistinct
  exact hgone record 1 _ (Except.ok.inj (hfound.symm.trans hr)) hv rfl

end Session

end Strongbox
