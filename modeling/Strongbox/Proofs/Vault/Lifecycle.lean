/-
  Strongbox.Proofs.Vault.Lifecycle — the record of a path from one point of a run to another.

  Whatever is asked between two points, a record that is not erased stays. Its numbers only
  rise, and a number is handed out once. A version that is destroyed keeps its entry as it is
  until it falls out: no undeletion, no other lifetime and no clock set back revives it.

  Proved:
  - `stored_record_sound`: every record that a run stores is in order.
  - `Leads.ages`, `lifecycle_one_way`: what a later point keeps of an earlier one.
-/

import Strongbox.Proofs.Vault.Keys
import Strongbox.Proofs.Vault.Succession

namespace Strongbox

open Vault (recordAddress)

/-! ## Records at one point -/

namespace Session

variable {master : MasterKey} {log : List Event} {s : Session} {path : String}

/-- After every run with fewer writes than numbers, what is stored as the record of a path opens
    as a record that names the path and is in order. -/
theorem stored_record_sound (h : Runs master log s) (hfew : writesIn log < 2 ^ 64 - 1)
    (hstored : s.memory[recordAddress s.ring path]? ≠ none) :
    ∃ record, s.contents.record s.ring path = .ok (some record) ∧ record.key = path ∧ record.Sound := by
  obtain ⟨found, hr, hl⟩ := h.lineage hfew (h.valid_of_stored hstored)
  cases found with
  | none => exact absurd (Contents.record_eq_none.mp hr) hstored
  | some record => exact ⟨record, hr, Contents.key_of_record hr, hl.sound record rfl⟩

/-- The record that a first write leaves is in order. -/
theorem stored_record_sound_first :
    let s := written ⟨.tabulate 32 fun _ => 7⟩ ⟨fun _ => 0, 0⟩ "k" [97] none
    s.memory[recordAddress s.ring "k"]? ≠ none ∧
      ∃ record, s.contents.record s.ring "k" = .ok (some record) ∧ record.key = "k" ∧ record.Sound := by
  have hpath : KeyPath.fault? "k" = none := by decide
  have hcas : Vault.casRejection? (KeyRecord.new "k" .epoch) {} none = none := rfl
  obtain ⟨hruns, _, hshown⟩ := runs_written ⟨.tabulate 32 fun _ => 7⟩ ⟨fun _ => 0, 0⟩ [97] hpath hcas
  generalize written ⟨.tabulate 32 fun _ => 7⟩ ⟨fun _ => 0, 0⟩ "k" [97] none = s at *
  have hstored : s.memory[recordAddress s.ring "k"]? ≠ none := Contents.stored_of_record hshown.record_eq
  exact ⟨hstored, stored_record_sound hruns (by decide) hstored⟩

end Session

/-! ## Records from one point to another -/

/-- The number of accepted writes to a path. -/
def writesTo (path : String) (log : List Event) : Nat := log.countP fun e => (e.written? path).isSome

theorem writesTo_cons (path : String) (e : Event) (log : List Event) :
    writesTo path (e :: log) = writesTo path log + writesTo path [e] := by
  simp [writesTo, List.countP_cons]

/-- A succession that does not erase keeps the record, and it ages by the version written. -/
theorem Succession.ages {path : String} {e : Event} {record : KeyRecord} {found' : Option KeyRecord}
    (h : Succession path e (some record) found') (he : e.erases path = false)
    (hnext : (record.currentVersion + 1).toNat = record.currentVersion.toNat + 1) :
    ∃ record', found' = some record' ∧ KeyRecord.Ages (writesTo path [e]) record record' := by
  have hcount : writesTo path [e] = if (e.written? path).isSome then 1 else 0 := by simp [writesTo, List.countP_cons]
  rw [hcount]
  cases h with
  | idle hw _ =>
    rw [hw]
    exact ⟨record, rfl, .refl record⟩
  | erased _ hyes =>
    rw [he] at hyes
    cases hyes
  | written kept hbase _ hw _ =>
    subst hbase
    rw [hw]
    exact ⟨_, rfl, .written hnext _ kept⟩
  | amended hbase ham hw _ =>
    subst hbase
    rw [hw]
    exact ⟨_, rfl, .amended ham⟩

/-- What is not erased between two points ages by the versions written between them. -/
theorem Session.Leads.ages {master : MasterKey} {log later : List Event} {s t : Session} {path : String} {record : KeyRecord}
    (hl : s.Leads later t) (h : Runs master log s) (hvalid : KeyPath.fault? path = none)
    (hfew : writesIn (later ++ log) < 2 ^ 64 - 1) (hkept : ∀ e ∈ later, e.erases path = false)
    (hr : s.contents.record s.ring path = .ok (some record)) :
    ∃ record', t.contents.record t.ring path = .ok (some record') ∧ KeyRecord.Ages (writesTo path later) record record' := by
  induction hl with
  | here => exact ⟨record, hr, .refl record⟩
  | restart defaults _ ih => exact ih hfew fun e he => hkept e (List.mem_cons_of_mem _ he)
  | @ask later t f now r before ih =>
    have hrun := h.leads before
    have hbefore := Nat.lt_of_le_of_lt (writesIn_le_cons _ (later ++ log)) hfew
    obtain ⟨last, hlast, hages⟩ := ih hbefore fun e he => hkept e (List.mem_cons_of_mem _ he)
    -- the lineage tells that there is a next number
    obtain ⟨found, hfound, hlineage⟩ := hrun.lineage hbefore hvalid
    obtain rfl : found = some last := Except.ok.inj (hfound.symm.trans hlast)
    obtain ⟨_, hnew, hsuccession⟩ := Session.succession_ask hrun.kept hvalid hlast f now r
    obtain ⟨record', rfl, hstep⟩ := hsuccession.ages (hkept _ List.mem_cons_self) (hlineage.numbered.next hbefore)
    rw [writesTo_cons]
    exact ⟨record', hnew, hages.trans hstep⟩

namespace Session

variable {master : MasterKey} {log later : List Event} {s t : Session} {path : String}

/-- Between two points of a run with fewer writes than numbers, a record that is not erased stays.
    It was created when it was, its oldest version has not moved back, and its current version has
    risen by the versions written. What is listed at both points was made at the same time, what
    was destroyed has the same entry unless it has fallen out, and what had fallen out is not
    listed again. -/
theorem lifecycle_one_way (h : Runs master log s) (hl : s.Leads later t) (hfew : writesIn (later ++ log) < 2 ^ 64 - 1)
    (hkept : ∀ e ∈ later, e.erases path = false) {record : KeyRecord} (hr : s.contents.record s.ring path = .ok (some record)) :
    ∃ record', t.contents.record t.ring path = .ok (some record') ∧ record'.createdTime = record.createdTime ∧
      record.currentVersion ≤ record'.currentVersion ∧ record.oldestVersion ≤ record'.oldestVersion ∧
      record'.currentVersion.toNat = record.currentVersion.toNat + writesTo path later ∧
      (∀ (version : UInt64) (entry entry' : VersionEntry), record.versions[version]? = some entry →
        record'.versions[version]? = some entry' → entry'.createdTime = entry.createdTime) ∧
      (∀ (version : UInt64) (entry : VersionEntry), record.versions[version]? = some entry → entry.destroyed = true →
        version ∉ record'.versions ∨ record'.versions[version]? = some entry) ∧
      (∀ version : UInt64, version ≤ record.currentVersion → version ∉ record.versions → version ∉ record'.versions) := by
  have hstored : s.memory[recordAddress s.ring path]? ≠ none := Contents.stored_of_record hr
  have hvalid := h.valid_of_stored hstored
  have hfewer : writesIn log < 2 ^ 64 - 1 := Nat.lt_of_le_of_lt (writesIn_le_append later log) hfew
  obtain ⟨found, hfound, hlineage⟩ := h.lineage hfewer hvalid
  obtain rfl : found = some record := Except.ok.inj (hfound.symm.trans hr)
  obtain ⟨record', hr', hages⟩ := hl.ages h hvalid hfew hkept hr
  have hlisted (version : UInt64) (entry : VersionEntry) (hv : record.versions[version]? = some entry) :
      version ≤ record.currentVersion := ((hlineage.sound record rfl).bounds (KeyRecord.mem_versions_iff.mpr ⟨entry, hv⟩)).2
  refine ⟨record', hr', hages.createdTime, ?_, hages.oldest, hages.current, ?_, ?_, ?_⟩
  · rw [UInt64.le_iff_toNat_le, hages.current]
    exact Nat.le_add_right _ _
  · intro version entry entry' hv hv'
    obtain ⟨old, hold, htime, _⟩ := hages.entries version entry' hv' (hlisted version entry hv)
    cases hold.symm.trans hv
    exact htime
  · intro version entry hv hdestroyed
    cases hv' : record'.versions[version]? with
    | none =>
      refine .inl fun hin => ?_
      obtain ⟨_, hin⟩ := KeyRecord.mem_versions_iff.mp hin
      cases hv'.symm.trans hin
    | some entry' =>
      obtain ⟨old, hold, _, hsame⟩ := hages.entries version entry' hv' (hlisted version entry hv)
      cases hold.symm.trans hv
      exact .inr (congrArg some (hsame hdestroyed))
  · intro version hle hout hin
    obtain ⟨entry', hv'⟩ := KeyRecord.mem_versions_iff.mp hin
    obtain ⟨old, hold, _⟩ := hages.entries version entry' hv' hle
    rw [Std.ExtTreeMap.getElem?_eq_none hout] at hold
    cases hold

/-- A version that was written and destroyed stays destroyed when it is undeleted. -/
theorem lifecycle_one_way_destroyed :
    let s := ((written ⟨.tabulate 32 fun _ => 7⟩ ⟨fun _ => 0, 0⟩ "k" [97] none).ask Faults.none .epoch (.destroyVersions "k" [1])).2
    let t := (s.ask Faults.none .epoch (.undeleteVersions "k" [1])).2
    ∃ record, t.contents.record t.ring "k" = .ok (some record) ∧
      ∀ entry, record.versions[(1 : UInt64)]? = some entry → entry.destroyed = true := by
  have hpath : KeyPath.fault? "k" = none := by decide
  have hcas : Vault.casRejection? (KeyRecord.new "k" .epoch) {} none = none := rfl
  obtain ⟨hruns, hset, hshown⟩ := runs_written ⟨.tabulate 32 fun _ => 7⟩ ⟨fun _ => 0, 0⟩ [97] hpath hcas
  generalize written ⟨.tabulate 32 fun _ => 7⟩ ⟨fun _ => 0, 0⟩ "k" [97] none = s at *
  obtain ⟨record, hr, hv⟩ := record_of_destroy .epoch hruns.kept hset hpath hshown.record_eq hshown.listed rfl
  have hruns' := hruns.ask Faults.none .epoch (.destroyVersions "k" [1])
  generalize (s.ask Faults.none .epoch (.destroyVersions "k" [1])).2 = s' at *
  have hl : s'.Leads [.asked Faults.none .epoch (.undeleteVersions "k" [1]) _] _ := Leads.here.ask Faults.none .epoch _
  have hfew : 4 < 2 ^ 64 - 1 := by decide
  obtain ⟨record', hr', _, _, _, _, _, hdestroyed, _⟩ := lifecycle_one_way hruns' hl
    (Nat.lt_of_le_of_lt List.countP_le_length hfew) (by simp [Event.erases]) hr
  refine ⟨record', hr', fun entry he => ?_⟩
  rcases hdestroyed 1 _ hv rfl with hout | hsame
  · exact absurd (KeyRecord.mem_versions_iff.mpr ⟨entry, he⟩) hout
  · cases he.symm.trans hsame
    rfl

end Session

end Strongbox
