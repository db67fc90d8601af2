/-
  Strongbox.Proofs.Vault.Retention — which versions a write keeps.

  A key keeps so many versions as its record says, or as the policy says if the record says zero; if
  that is zero too it keeps all. A write lists its version and drops every version that is by then
  too far behind, whether one, many or none, and whether destroyed or not: the payload first, then
  the entry. What the limit was at earlier writes does not matter.

  Proved:
  - `retains_written`: what a write makes of a record, in exact numbers.
  - `written_of_accepted`: what an accepted write found, and what it leaves.
  - `retention_exact`: both, at every point of a run.
-/

import Mathlib.Logic.Basic
import Strongbox.Proofs.Vault.CheckAndSet

namespace Strongbox

open Time (Instant)
open KeyRing (saltKey checkKey)
open Vault (recordAddress payloadAddress keptOf)

/-! ## The limit -/

/-- How many versions of a key are kept; zero stands for all. -/
def KeyRecord.limit (r : KeyRecord) (policy : Policy) : Nat :=
  if r.maxVersions = 0 then policy.maxVersions.toNat else r.maxVersions.toNat

theorem toNat_keptOf (policy : Policy) (r : KeyRecord) : (keptOf policy r).toNat = r.limit policy := by
  rw [keptOf, Policy.retention, KeyRecord.limit, UInt32.toNat_toUInt64]
  by_cases hzero : r.maxVersions = 0
  · rw [hzero]
    rfl
  · rw [if_neg hzero, if_pos (UInt32.pos_iff_ne_zero.mpr hzero)]

/-- Whether a version is kept when this one is written: there is no limit, or it is not reached, or
    the version is among the last so many. -/
def Keeps (limit : Nat) (written version : UInt64) : Prop :=
  limit = 0 ∨ written.toNat ≤ limit ∨ written.toNat - limit < version.toNat

instance (limit : Nat) (written version : UInt64) : Decidable (Keeps limit written version) :=
  inferInstanceAs (Decidable (_ ∨ _ ∨ _))

namespace KeyRecord

variable (r : KeyRecord) (now : Instant) (kept : UInt64)

/-- What a write of this version leaves of a record of which so many versions are kept. -/
structure Retains (limit : Nat) (now : Instant) (version : UInt64) (r r' : KeyRecord) : Prop where
  listed : ∀ other, r'.versions[other]? =
    if Keeps limit version other then (if other = version then some { createdTime := now } else r.versions[other]?) else none
  current : r'.currentVersion = version
  oldest : r'.oldestVersion.toNat =
    max (max r.oldestVersion.toNat 1) (if 0 < limit ∧ limit < version.toNat then version.toNat - limit + 1 else 0)
  touched : r'.updatedTime = now
  others : r' = { r with
    versions := r'.versions
    currentVersion := r'.currentVersion
    oldestVersion := r'.oldestVersion
    updatedTime := r'.updatedTime }

/-- The cutoff in exact numbers: there is one if the limit is exceeded. -/
theorem cutoff?_eq (r : KeyRecord) (kept : UInt64) : 0 < kept.toNat ∧ kept.toNat < r.currentVersion.toNat ∧
      (∃ cutoff, r.cutoff? kept = some cutoff ∧ cutoff.toNat = r.currentVersion.toNat - kept.toNat) ∨
    ¬ (0 < kept.toNat ∧ kept.toNat < r.currentVersion.toNat) ∧ r.cutoff? kept = none := by
  have hpos : 0 < kept ↔ 0 < kept.toNat := UInt64.lt_iff_toNat_lt
  by_cases hexceeds : 0 < kept ∧ kept < r.currentVersion
  · refine .inl ⟨hpos.mp hexceeds.1, UInt64.lt_iff_toNat_lt.mp hexceeds.2, _, if_pos hexceeds, ?_⟩
    exact UInt64.toNat_sub_of_le _ _ (UInt64.le_of_lt hexceeds.2)
  · refine .inr ⟨?_, if_neg hexceeds⟩
    rwa [← hpos, ← UInt64.lt_iff_toNat_lt]

/-- What falls out at a write are the versions listed that are not kept. -/
theorem mem_fallen_appended {version : UInt64} : version ∈ (r.appended now).fallen kept ↔
    version ∈ (r.appended now).versions ∧ ¬ Keeps kept.toNat (r.currentVersion + 1) version := by
  rw [mem_fallen, Keeps]
  rcases (r.appended now).cutoff?_eq kept with ⟨hpos, hlt, cutoff, hcutoff, hnat⟩ | ⟨hall, hcutoff⟩
  · rw [appended_currentVersion] at hlt hnat
    simp only [hcutoff, Option.some.injEq, exists_eq_left', UInt64.le_iff_toNat_le, hnat]
    rw [and_comm, and_congr_right_iff]
    omega
  · rw [appended_currentVersion] at hall
    simp only [hcutoff, reduceCtorEq, false_and, exists_false, false_iff, not_and, not_not]
    omega

theorem getElem?_written_of_keeps {version : UInt64} : (r.written now kept).versions[version]? =
    if Keeps kept.toNat (r.currentVersion + 1) version then
      (if version = r.currentVersion + 1 then some { createdTime := now } else r.versions[version]?)
    else none := by
  have happended := r.getElem?_appended now version
  simp only [eq_comm (a := r.currentVersion + 1)] at happended
  rw [written, touch_versions, getElem?_pruned, ← happended]
  by_cases hkeeps : Keeps kept.toNat (r.currentVersion + 1) version
  · rw [if_pos hkeeps, if_neg fun hfallen => (r.mem_fallen_appended now kept |>.mp hfallen).2 hkeeps]
  · rw [if_neg hkeeps, ite_eq_left_iff]
    intro hlisted
    refine Std.ExtTreeMap.getElem?_eq_none fun hmem => hlisted ?_
    exact (r.mem_fallen_appended now kept).mpr ⟨hmem, hkeeps⟩

theorem toNat_oldestVersion_written : (r.written now kept).oldestVersion.toNat =
    max (max r.oldestVersion.toNat 1)
      (if 0 < kept.toNat ∧ kept.toNat < (r.currentVersion + 1).toNat then (r.currentVersion + 1).toNat - kept.toNat + 1 else 0) := by
  show ((r.appended now).pruned kept).oldestVersion.toNat = _
  rw [pruned, ← r.toNat_oldestVersion_appended now]
  rcases (r.appended now).cutoff?_eq kept with ⟨hpos, hlt, cutoff, hcutoff, hnat⟩ | ⟨hall, hcutoff⟩
  · rw [hcutoff]
    dsimp only
    rw [oldestVersion_dropUpTo (lt_of_cutoff? _ hcutoff), hnat]
    exact congrArg _ (if_pos ⟨hpos, hlt⟩).symm
  · rw [hcutoff, ← r.appended_currentVersion now, if_neg hall, Nat.max_zero]

/-- What a write makes of a record. -/
theorem retains_written : Retains kept.toNat now (r.currentVersion + 1) r (r.written now kept) where
  listed version := r.getElem?_written_of_keeps now kept
  current := r.written_currentVersion now kept
  oldest := r.toNat_oldestVersion_written now kept
  touched := rfl
  others := by
    rw [written, pruned]
    split <;> rfl

end KeyRecord

/-! ## One write -/

namespace Vault

/-- What a write leaves of the payloads of its path: that of its version is there, those of the
    versions it drops are gone, and all others are byte for byte what they were. -/
structure Replaces (ring : KeyRing) (path : String) (data : Bytes) (written : UInt64) (before after : KeyRecord)
    (m m' : Memory) : Prop where
  put : (m'.contents ring).payload ring path written = .ok (some data)
  dropped : ∀ version ∈ before.versions, version ∉ after.versions → m'[payloadAddress ring path version]? = none
  others : ∀ version, version ≠ written → (version ∈ before.versions → version ∈ after.versions) →
    m'[payloadAddress ring path version]? = m[payloadAddress ring path version]?

variable {v : Vault} {now : Instant} {m m' : Memory} {path : String} {data : Bytes} {cas : Option UInt64}

/-- The version written is kept, and of the others those that do not fall out. -/
theorem mem_written_iff {r : KeyRecord} {kept version : UInt64} : version ∈ (r.written now kept).versions ↔
    version ∉ (r.appended now).fallen kept ∧ (version = r.currentVersion + 1 ∨ version ∈ r.versions) := by
  rw [KeyRecord.mem_versions_iff, KeyRecord.getElem?_written]
  by_cases hfallen : version ∈ (r.appended now).fallen kept
  · simp only [hfallen, if_true, reduceCtorEq, exists_false, not_true, false_and]
  · simp only [hfallen, if_false, not_false_eq_true, true_and, KeyRecord.mem_versions_iff, eq_comm (a := version)]
    split
    · rename_i hnext
      exact iff_of_true ⟨_, rfl⟩ (.inl hnext)
    · rename_i hother
      exact (or_iff_right hother).symm

theorem replaces_of_edits {before : KeyRecord} {kept : UInt64} {nonce : Block 12} {m₁ : Memory}
    (made : Edits v.ring (writeEdits v.ring path data (before.appended now) kept) m m₁) :
    Replaces v.ring path data (before.currentVersion + 1) before (before.written now kept) m
      ((recordEdit v.ring (before.written now kept)).after v.ring nonce m₁) := by
  have hcommit {version : UInt64} : payloadAddress v.ring path version ≠ (recordEdit v.ring (before.written now kept)).key :=
    ne_of_initial? (by simp)
  have hpayload (version : UInt64) := payload_written (m.contents v.ring) v.ring path path (before.currentVersion + 1) version data
    ((before.appended now).fallen kept)
  simp only [if_true] at hpayload
  constructor
  · rw [Memory.contents_after, Contents.payload_edit_of_ne hcommit, made.contents]
    exact (hpayload _).trans (by rw [if_neg (before.next_not_mem_fallen now kept), if_pos rfl])
  · intro version hbefore hafter
    have hfallen : version ∈ (before.appended now).fallen kept :=
      Decidable.byContradiction fun hno => hafter (mem_written_iff.mpr ⟨hno, .inr hbefore⟩)
    have hgone : (m₁.contents v.ring).payload v.ring path version = .ok none := by
      rw [made.contents]
      exact (hpayload version).trans (if_pos hfallen)
    rw [Memory.getElem?_after nonce m₁ hcommit]
    exact Contents.payload_eq_none.mp hgone
  · intro version hne hkept
    rw [Memory.getElem?_after nonce m₁ hcommit]
    refine made.frame fun hmem => ?_
    rw [writeEdits, List.map_cons, List.mem_cons] at hmem
    rcases hmem with hmem | hmem
    · exact hne (payloadAddress_inj.mp hmem).2
    · rw [List.map_map, List.mem_map] at hmem
      obtain ⟨other, hfallen, haddress⟩ := hmem
      obtain rfl := (payloadAddress_inj.mp haddress).2
      obtain ⟨_, _, _, hlisted⟩ := (before.appended now).mem_fallen.mp hfallen
      have hbefore : other ∈ before.versions :=
        (KeyRecord.mem_appended.mp hlisted).resolve_left fun hnext => hne hnext.symm
      exact (mem_written_iff.mp (hkept hbefore)).1 hfallen

/-- What an accepted write finds and leaves. -/
theorem Effect.written {w : Weather} {x : WrittenVersion} {warnings : List Warning}
    (h : Effect w v now m (.writeData path data cas) (.ok (.accepted x warnings)) m') :
    ∃ policy before, (m.contents v.ring).policy v.defaults = .ok policy ∧ v.recordOrNewIn now m path = .ok before ∧
      ¬ before.Exhausted ∧ x.version = before.currentVersion + 1 ∧
      (m'.contents v.ring).record v.ring path = .ok (some (before.written now (keptOf policy before))) ∧
      Replaces v.ring path data x.version before (before.written now (keptOf policy before)) m m' := by
  cases h with
  | answered plan =>
    obtain ⟨_, _, -, -, ⟨_, -, hanswer⟩ | ⟨-, -, hanswer⟩⟩ := answer_of_planWrite plan <;> cases hanswer
  | @changed edits commit _ nonce m₁ plan made through =>
    obtain ⟨policy, before, hp, hr, hkey, _, hmore, rfl, rfl, hanswer⟩ := (move_of_plan plan).write_inv
    cases hanswer
    refine ⟨policy, before, hp, hr, hmore, rfl, ?_, replaces_of_edits made⟩
    rw [Memory.contents_after]
    conv => lhs; rw [← hkey, ← before.written_key now (keptOf policy before)]
    exact Contents.record_recordEdit _ _

end Vault

namespace Session

variable {master : MasterKey} {log : List Event} {s : Session} {f : Faults} {now : Instant} {path : String} {data : Bytes}
  {cas : Option UInt64}

/-- What an accepted write found, and that it has made all its edits. -/
theorem written_of_accepted {w : WrittenVersion} {warnings : List Warning} (h : s.Kept master)
    (hok : (s.ask f now (.writeData path data cas)).1 = .ok (.accepted w warnings)) :
    let t := (s.ask f now (.writeData path data cas)).2
    ∃ policy found, s.contents.policy s.store.defaults = .ok policy ∧ s.contents.record s.ring path = .ok found ∧
      let before := found.getD (KeyRecord.new path now)
      let after := before.written now (keptOf policy before)
      ¬ before.Exhausted ∧ w.version = before.currentVersion + 1 ∧ t.contents.record t.ring path = .ok (some after) ∧
        Vault.Replaces t.ring path data w.version before after s.memory t.memory := by
  intro t
  obtain ⟨hvalid, -⟩ := found_of_accepted h hok
  have hi : (Request.writeData path data cas).immediate? = none := Option.map_eq_none_iff.mpr hvalid
  obtain ⟨m, world, begun, effect, hafter⟩ := performed_of_ok h hi (fun _ => rfl) hok
  have hring : t.ring = m.ring s.store.master := by
    rw [show t = _ from hafter]
    exact Memory.ring_congr (effect.frame_setUp (.inl rfl))
  have hmemory : t.memory = world.store := congrArg Session.memory hafter
  obtain ⟨hrecords, hpolicy⟩ := views_of_begun h begun
  obtain ⟨policy, before, hp, hr, hmore, hversion, hafter, hreplaces⟩ := effect.written
  obtain ⟨found, hfound, _⟩ := Except.of_bind_eq_ok hr
  obtain rfl := Vault.eq_of_recordOrNewIn hr hfound
  refine ⟨policy, found, (hpolicy _).symm.trans hp, (hrecords path).symm.trans hfound, hmore, hversion, ?_, ?_⟩
  · rw [contents, hring, hmemory]
    exact hafter
  · rw [hring, hmemory]
    exact { hreplaces with
      others := fun version hne hkept => (hreplaces.others version hne hkept).trans (begun.frame (by simp) (by simp)) }

/-- At any point of a run, a write that is accepted finds a policy and perhaps a record, and stores
    the record it makes of it: the version written is the next one. Listed are that version and those
    that were listed before, as they were, but only the last so many if there is a limit, which is
    that of the record if it is not zero and else that of the policy. The oldest version is the one
    there was, or the first, or the first that is kept, whichever is the highest. The payloads of the
    versions that are dropped are gone, and those of all others are what they were. -/
theorem retention_exact (h : Runs master log s) {w : WrittenVersion} {warnings : List Warning}
    (hok : (s.ask f now (.writeData path data cas)).1 = .ok (.accepted w warnings)) :
    let t := (s.ask f now (.writeData path data cas)).2
    ∃ policy found after, s.contents.policy s.store.defaults = .ok policy ∧ s.contents.record s.ring path = .ok found ∧
      t.contents.record t.ring path = .ok (some after) ∧
      let before := found.getD (KeyRecord.new path now)
      (w.version = before.currentVersion + 1 ∧ (writesIn log < 2 ^ 64 - 1 → w.version.toNat = before.currentVersion.toNat + 1)) ∧
        KeyRecord.Retains (before.limit policy) now w.version before after ∧
        Vault.Replaces t.ring path data w.version before after s.memory t.memory := by
  intro t
  obtain ⟨hvalid, -⟩ := found_of_accepted h.kept hok
  obtain ⟨policy, found, hp, hf, -, hversion, hafter, hreplaces⟩ := written_of_accepted h.kept hok
  refine ⟨policy, found, _, hp, hf, hafter, ⟨hversion, fun hfew => ?_⟩, ?_, hreplaces⟩
  · obtain ⟨_, hf', hl⟩ := h.lineage hfew hvalid
    obtain rfl := Except.ok.inj (hf.symm.trans hf')
    rw [hversion, currentOf_getD, hl.numbered.next hfew]
  · rw [hversion, ← toNat_keptOf]
    exact KeyRecord.retains_written _ _ _

/-- Two writes where one version is kept: the second drops the first. -/
theorem retention_exact_one :
    let s := ((opened ⟨.tabulate 32 fun _ => 7⟩ { maxVersions := 1 } ⟨fun _ => 0, 0⟩).ask Faults.none .epoch
      (.writeData "k" [97] none)).2
    let t := (s.ask Faults.none .epoch (.writeData "k" [98] none)).2
    (∃ w warnings, (s.ask Faults.none .epoch (.writeData "k" [98] none)).1 = .ok (.accepted w warnings)) ∧
      ∃ after, t.contents.record t.ring "k" = .ok (some after) ∧ after.versions[(1 : UInt64)]? = none ∧
        after.currentVersion = 2 ∧ after.oldestVersion.toNat = 2 ∧ t.memory[payloadAddress t.ring "k" 1]? = none := by
  let master : MasterKey := ⟨.tabulate 32 fun _ => 7⟩
  let policy : Policy := { maxVersions := 1 }
  let blank := KeyRecord.new "k" .epoch
  have hruns := runs_opened master policy ⟨fun _ => 0, 0⟩
  have hset := (isSetUp_opened master policy ⟨fun _ => 0, 0⟩).check
  have hp := policy_opened master policy ⟨fun _ => 0, 0⟩
  have hr := record_opened master policy ⟨fun _ => 0, 0⟩ "k"
  have hpath : KeyPath.fault? "k" = none := by decide
  have hcas : Vault.casRejection? blank policy none = none := rfl
  have hshown := shown_of_write hruns.kept hset hpath [97] none hp (Vault.recordOrNewIn_of_none hr) hcas
    (KeyRecord.not_exhausted_new _ _) rfl
  have hruns' := hruns.ask Faults.none .epoch (.writeData "k" [97] none)
  rw [← (vault_ask hruns.kept hset Faults.none .epoch (.writeData "k" [97] none)).2] at hset
  generalize ((opened _ _ _).ask _ _ _).2 = s at *
  have hsecond : Vault.casRejection? (blank.written .epoch (keptOf policy blank)) policy none = none := by decide
  have hok : (s.ask Faults.none .epoch (.writeData "k" [98] none)).1 = _ := (ask_write hruns'.kept hset hpath [98] none
    hshown.policy_eq (Vault.recordOrNewIn_of_record hshown.record_eq) hsecond (by decide)).1
  refine ⟨⟨_, _, hok⟩, ?_⟩
  obtain ⟨policy', found, after, hp', hf, hafter, _, hretains, hreplaces⟩ := retention_exact hruns' hok
  obtain rfl := Except.ok.inj (hshown.policy_eq.symm.trans hp')
  obtain rfl := Except.ok.inj (hshown.record_eq.symm.trans hf)
  have hgone : after.versions[(1 : UInt64)]? = none := (hretains.listed 1).trans (if_neg (by decide))
  have hlisted : (1 : UInt64) ∈ (blank.written .epoch (keptOf policy blank)).versions :=
    Vault.mem_written_iff.mpr ⟨by decide, .inl rfl⟩
  refine ⟨after, hafter, hgone, hretains.current, hretains.oldest.trans (by decide), hreplaces.dropped 1 hlisted fun hmem => ?_⟩
  obtain ⟨_, hentry⟩ := KeyRecord.mem_versions_iff.mp hmem
  cases hgone.symm.trans hentry

end Session

end Strongbox
