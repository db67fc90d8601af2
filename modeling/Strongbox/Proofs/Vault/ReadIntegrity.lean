/-
  Strongbox.Proofs.Vault.ReadIntegrity — what a read shows is what was written.

  Whatever calls failed before and during a read, the data it shows is that of the one accepted
  write that returned this version since the path was last erased. Data of a write that failed
  can be stored, but only under a number that no record lists, and it is overwritten by the
  write that is to return that number. If no call ever failed, nothing else gets lost either:
  what is listed and neither expired, deleted nor destroyed is shown.

  Proved:
  - `read_integrity`: both, for every path after every run.
-/

import Strongbox.Proofs.Vault.Ledger
import Strongbox.Proofs.Vault.Reading

namespace Strongbox

open Time (Instant)
open KeyRing (checkKey)

/-! ## Policy and record open -/

/-- The policy opens, whatever holds by default. -/
def Contents.PolicyOpens (c : Contents) : Prop := ∀ defaults, ∃ policy, c.policy defaults = .ok policy

theorem Contents.PolicyOpens.congr {c c' : Contents} (h : c.PolicyOpens) (he : c' Vault.policyKey = c Vault.policyKey) :
    c'.PolicyOpens := by
  intro defaults
  obtain ⟨policy, hp⟩ := h defaults
  exact ⟨policy, (Contents.policy_congr he).trans hp⟩

theorem Vault.Effect.policyOpens {w : Weather} {v : Vault} {now : Instant} {m m' : Memory} {r : Request}
    {reply : Except Error r.Reply} (h : Effect w v now m r reply m') (hp : (m.contents v.ring).PolicyOpens) :
    (m'.contents v.ring).PolicyOpens := by
  cases reply with
  | error e =>
    refine hp.congr (Memory.contents_congr (h.frame_of_error fun hpayload => ?_))
    have hinitial := initial?_of_isPayload hpayload
    simp at hinitial
  | ok a =>
    cases h with
    | answered => exact hp
    | changed plan made _ =>
      have hmove := move_of_plan plan
      have hedits : (m.contents v.ring).edits _ policyKey = _ := edits_of_payloads hmove.edit_isPayload _ (by simp)
      rw [Memory.contents_after, made.contents]
      cases hmove with
      | policy => exact fun defaults => ⟨_, Contents.policy_policyEdit _ _ _⟩
      | erase => exact hp.congr ((Contents.edit_of_ne (ne_of_initial? (by simp))).trans hedits)
      | write => exact hp.congr ((Contents.edit_of_ne (ne_of_initial? (by simp))).trans hedits)
      | revise => exact hp.congr ((Contents.edit_of_ne (ne_of_initial? (by simp))).trans hedits)

theorem Runs.policyOpens {master : MasterKey} {log : List Event} {s : Session} (h : Runs master log s) :
    s.contents.PolicyOpens := by
  refine h.preserve (I := fun _ m => (m.contents s.ring).PolicyOpens) (fun _ => rfl) ?_ ?_ ?_ ?_
  · intro defaults
    exact ⟨defaults, rfl⟩
  · intro _ _ _ _ hp
    exact hp
  · intro _ m m' begun hp
    exact hp.congr (Memory.contents_congr (begun.frame (by simp) (by simp)))
  · intro _ _ _ _ _ _ _ _ _ effect hp
    exact effect.policyOpens hp

/-! ## Read integrity -/

/-- The last version written has the last number. -/
theorem Numbered.head? {n : Nat} {written : List (UInt64 × Bytes)} (h : Numbered n written) {version : UInt64} {data : Bytes}
    (hw : (version, data) ∈ written) (hn : version.toNat = n) : written.head? = some (version, data) := by
  cases n with
  | zero =>
    rw [h] at hw
    cases hw
  | succ n =>
    obtain ⟨last, lastData, rest, rfl, _, hrest⟩ := h
    rcases List.mem_cons.mp hw with hhead | htail
    · rw [hhead]
      rfl
    · have hle := hrest.le htail
      simp only [hn] at hle
      omega

namespace Session

variable {master : MasterKey} {log : List Event} {s : Session} {path : String}

/-- A version that shows data was written with this data, and it is the last one if it is the
    current version of its record. -/
theorem mem_of_shown {calm : Prop} {a : Account} {defaults policy : Policy} {now : Instant} {version : UInt64} {data : Bytes}
    {record : KeyRecord} {entry : VersionEntry} (ha : a.Of s.contents s.ring path)
    (hl : Ledger calm (writtenSince path log) a)
    (h : s.contents.Shown s.ring defaults now path version data policy record entry) :
    (version, data) ∈ writtenSince path log ∧
      (version = record.currentVersion → (writtenSince path log).head? = some (version, data)) := by
  have hrecord : a.record = some record := Except.ok.inj (ha.record.symm.trans h.record_eq)
  have hpayload : a.payload version = some data := Except.ok.inj ((ha.payload version).symm.trans h.payload_eq)
  have hentry : a.listed? version = some entry := by rw [Account.listed?, hrecord, Option.bind_some, h.listed]
  have hle := hl.listed version entry hentry
  rcases hl.held version data hpayload with ⟨_, _, _, hw⟩ | hlt
  · refine ⟨hw, fun hcurrent => hl.numbered.head? hw ?_⟩
    rw [hcurrent, Account.current, hrecord]
    rfl
  · exact absurd hle (Nat.not_le.mpr hlt)

/-- With no call failed, a version that was written shows its data while it is listed, readable
    and not expired. -/
theorem shown_of_mem {calm : Prop} {a : Account} {defaults policy : Policy} {now : Instant} {version : UInt64} {data : Bytes}
    {record : KeyRecord} {entry : VersionEntry} (ha : a.Of s.contents s.ring path)
    (hl : Ledger calm (writtenSince path log) a) (hcalm : calm) (hw : (version, data) ∈ writtenSince path log)
    (hp : s.contents.policy defaults = .ok policy) (hr : s.contents.record s.ring path = .ok (some record))
    (hlisted : record.versions[version]? = some entry) (hreadable : entry.isReadable now = true)
    (hlive : entry.expired? (record.lifetime? policy) now = none) :
    s.contents.Shown s.ring defaults now path version data policy record entry := by
  have hrecord : a.record = some record := Except.ok.inj (ha.record.symm.trans hr)
  have hdestroyed : entry.destroyed = false := by
    rw [VersionEntry.isReadable, Bool.and_eq_true, Bool.not_eq_true'] at hreadable
    exact hreadable.1
  have hentry : a.listed? version = some entry := by rw [Account.listed?, hrecord, Option.bind_some, hlisted]
  have hle := hl.listed version entry hentry
  obtain ⟨held, hheld⟩ := Option.ne_none_iff_exists'.mp (hl.complete hcalm version entry hentry hdestroyed)
  refine ⟨hp, hr, hlisted, hlive, hreadable, ?_⟩
  rcases hl.held version held hheld with ⟨_, _, _, hw'⟩ | hlt
  · -- both stand under the same number
    have hsame := (hl.numbered.filter hw).symm.trans (hl.numbered.filter hw')
    cases hsame
    rw [ha.payload, hheld]
  · exact absurd hle (Nat.not_le.mpr hlt)

/-- After every run with fewer writes than numbers, in which no two paths have the same
    identifier: the data that a read shows, whatever calls of it or of the run failed, is that of
    the one write that returned this version since the path was last erased, and of the last one
    if none was asked for. If no call failed in the run, every version written since then shows
    its data while it is listed, neither destroyed nor deleted, and not expired. -/
theorem read_integrity (h : Runs master log s) (hfew : writesIn log < 2 ^ 64 - 1)
    (hd : Distinct s.ring (path :: pathsIn log)) :
    (∀ f now version secret data, (s.ask f now (.readData path version)).1 = .ok (some secret) → secret.data = some data →
      (∀ asked, version = some asked → secret.version = asked) ∧
        (version = none → (writtenSince path log).head? = some (secret.version, data)) ∧
        (writtenSince path log).filter (·.1 = secret.version) = [(secret.version, data)]) ∧
    ((∀ e ∈ log, e.IsCalm) → ∀ version data, (version, data) ∈ writtenSince path log →
      ∃ policy found, s.contents.policy s.store.defaults = .ok policy ∧ s.contents.record s.ring path = .ok found ∧
        ∀ now record entry, found = some record → record.versions[version]? = some entry → entry.isReadable now = true →
          entry.expired? (record.lifetime? policy) now = none → s.Shows now path version data) := by
  constructor
  · intro f now version secret data hread hdata
    obtain ⟨hvalid, _, policy, record, entry, hshown, hversion⟩ := shown_of_ask h.kept hread hdata
    obtain ⟨a, ha, hl⟩ := h.ledger hfew hvalid hd fun _ => rfl
    obtain ⟨hw, hlast⟩ := mem_of_shown ha hl hshown
    refine ⟨?_, ?_, hl.numbered.filter hw⟩
    · rintro asked rfl
      exact hversion
    · rintro rfl
      exact hlast hversion
  · intro hcalm version data hw
    have hvalid := h.valid_of_mem hw
    obtain ⟨a, ha, hl⟩ := h.ledger hfew hvalid hd fun _ => rfl
    obtain ⟨policy, hp⟩ := h.policyOpens s.store.defaults
    refine ⟨policy, a.record, hp, ha.record, ?_⟩
    intro now record entry hr hlisted hreadable hlive
    have hrecord := ha.record.trans (congrArg Except.ok hr)
    have hset : s.memory[checkKey]? ≠ none := by
      intro hset
      have hnone := record_of_begun path h.kept.memory (.refl h.kept.memory) hset s.ring
      cases hrecord.symm.trans hnone
    exact (shows_iff h.kept).mpr ⟨hvalid, hset, policy, record, entry,
      shown_of_mem ha hl hcalm hw hp hrecord hlisted hreadable hlive⟩

/-- After a first write, its version is what a read that shows data shows. -/
theorem read_integrity_first :
    let s := ((opened ⟨.tabulate 32 fun _ => 7⟩ {} ⟨fun _ => 0, 0⟩).ask Faults.none .epoch (.writeData "k" [97] none)).2
    s.Shows .epoch "k" 1 [97] ∧ ∀ f now version secret data,
      (s.ask f now (.readData "k" version)).1 = .ok (some secret) → secret.data = some data →
        secret.version = 1 ∧ data = [97] := by
  have hruns := runs_opened ⟨.tabulate 32 fun _ => 7⟩ {} ⟨fun _ => 0, 0⟩
  have hset := (isSetUp_opened ⟨.tabulate 32 fun _ => 7⟩ {} ⟨fun _ => 0, 0⟩).check
  have hp := policy_opened ⟨.tabulate 32 fun _ => 7⟩ {} ⟨fun _ => 0, 0⟩
  have hr := record_opened ⟨.tabulate 32 fun _ => 7⟩ {} ⟨fun _ => 0, 0⟩ "k"
  generalize opened ⟨.tabulate 32 fun _ => 7⟩ {} ⟨fun _ => 0, 0⟩ = s at *
  have hnew : s.vault.recordOrNewIn .epoch s.memory "k" = .ok (KeyRecord.new "k" .epoch) := Vault.recordOrNewIn_of_none hr
  have hpath : KeyPath.fault? "k" = none := by decide
  have hanswer := (ask_write hruns.kept hset hpath [97] none hp hnew rfl (KeyRecord.not_exhausted_new _ _)).1
  have hshown := shown_of_write hruns.kept hset hpath [97] none hp hnew rfl (KeyRecord.not_exhausted_new _ _) rfl
  have hruns' := hruns.ask Faults.none .epoch (.writeData "k" [97] none)
  rw [hanswer] at hruns'
  generalize (s.ask Faults.none .epoch (.writeData "k" [97] none)).2 = s' at hruns' hshown ⊢
  have hdistinct : Distinct s'.ring ["k", "k"] := by
    intro p hp q hq _
    simp only [List.mem_cons, List.not_mem_nil, or_false, or_self] at hp hq
    rw [hp, hq]
  obtain ⟨hread, hcalm⟩ := read_integrity hruns' (by decide) hdistinct
  constructor
  · obtain ⟨policy, found, hpolicy, hfound, hshows⟩ := hcalm (by simp [Event.IsCalm]) 1 [97] List.mem_cons_self
    obtain rfl := Except.ok.inj (hpolicy.symm.trans hshown.policy_eq)
    obtain rfl := Except.ok.inj (hfound.symm.trans hshown.record_eq)
    exact hshows .epoch _ _ rfl hshown.listed rfl rfl
  · intro f now version secret data hsecret hdata
    obtain ⟨_, _, hone⟩ := hread f now version secret data hsecret hdata
    have hmem := List.mem_filter.mp (hone ▸ List.mem_cons_self)
    exact Prod.mk.inj (List.mem_singleton.mp hmem.1)

end Session

end Strongbox
