/-
  Strongbox.Proofs.Vault.Numbering — which number a write takes, whatever the record says.

  A record may come with any numbers: what is stored decides, not how it came to be stored. A write
  that is refused or fails leaves it as it is, and one that is accepted takes the number after the
  current one. The highest number has none after it. A write that would need one is not refused: it
  breaks off where the number is computed, before anything is written. Everything else that is
  computed on the way is exact: how far back versions fall out, and where the oldest version comes to
  stand.

  Proved:
  - `KeyRecord.cutoff_exact`: besides the number itself nothing can overflow.
  - `Session.overflows_iff`: a write can break off exactly if numbers are exhausted.
  - `Session.next_number_exact`: all of this for every write to every record.
-/

import Strongbox.Proofs.Vault.Retention

namespace Strongbox

open Time (Instant)
open KeyRing (saltKey checkKey)
open Vault (Effect keptOf recordEdit)

namespace KeyRecord

variable {r : KeyRecord}

theorem current_lt_next (h : ¬ r.Exhausted) : r.currentVersion < r.currentVersion + 1 := by
  rw [UInt64.lt_iff_toNat_lt, r.toNat_next h]
  exact Nat.lt_succ_self _

/-- The highest number that falls out at a write is so far below the one written, and it is followed
    by a number. -/
theorem cutoff_exact {now : Instant} {kept cutoff : UInt64} (h : (r.appended now).cutoff? kept = some cutoff) :
    cutoff.toNat + kept.toNat = (r.currentVersion + 1).toNat ∧ (cutoff + 1).toNat = cutoff.toNat + 1 := by
  refine ⟨?_, toNat_add_one_of_lt ((r.appended now).lt_of_cutoff? h)⟩
  rcases (r.appended now).cutoff?_eq kept with ⟨_, hlt, other, hother, hnat⟩ | ⟨_, hnone⟩
  · obtain rfl := Option.some.inj (h.symm.trans hother)
    rw [appended_currentVersion] at hlt hnat
    omega
  · cases h.symm.trans hnone

end KeyRecord

namespace Session

variable {master : MasterKey} {s : Session} {f : Faults} {now : Instant} {path : String} {data : Bytes} {cas : Option UInt64}

/-- A write that is not accepted leaves the record of its path as it is. -/
theorem record_of_unwritten {found : Option KeyRecord} (h : s.Kept master) (hr : s.contents.record s.ring path = .ok found)
    (hno : ∀ w warnings, (s.ask f now (.writeData path data cas)).1 ≠ .ok (.accepted w warnings)) :
    let t := (s.ask f now (.writeData path data cas)).2
    t.contents.record t.ring path = .ok found := by
  intro t
  let Q (e : Event) (found' : Option KeyRecord) : Prop := e.written? path = none → found' = found
  have hask : ∃ found', t.contents.record t.ring path = .ok found' ∧
      Q (.asked f now (.writeData path data cas) (s.ask f now (.writeData path data cas)).1) found' := by
    refine record_ask h hr (fun _ _ _ => rfl) ?_
    intro v m m' reply effect _ hfound
    cases reply with
    | error e => exact ⟨found, (effect.views_of_error.2 path).trans hfound, fun _ => rfl⟩
    | ok answer =>
      cases effect with
      | answered => exact ⟨found, hfound, fun _ => rfl⟩
      | changed plan made _ =>
        obtain ⟨found', hfound', hleaves⟩ := Vault.leaves_of_changed plan made hfound
        refine ⟨found', hfound', fun hw => ?_⟩
        cases hleaves with
        | other => rfl
        | written => simp [Request.settle, Event.written?] at hw
        | rewritten hpath => cases hpath
  obtain ⟨found', hfound', hQ⟩ := hask
  rw [hfound', hQ]
  revert hno
  generalize (s.ask f now (.writeData path data cas)).1 = reply
  intro hno
  cases reply with
  | error e => rfl
  | ok answer =>
    cases answer with
    | accepted w warnings => exact absurd rfl (hno w warnings)
    | rejected reason => rfl
    | overflowed => rfl

/-- A write that breaks off has found a record without a next number, and changes nothing. -/
theorem exhausted_of_overflowed (h : s.Kept master) {record : KeyRecord} (hr : s.contents.record s.ring path = .ok (some record))
    (hover : (s.ask f now (.writeData path data cas)).1 = .ok .overflowed) :
    record.Exhausted ∧ (s.ask f now (.writeData path data cas)).2.memory = s.memory := by
  cases hi : (Request.writeData path data cas).immediate? with
  | some answer =>
    obtain ⟨_, _, rfl⟩ := Option.map_eq_some_iff.mp hi
    rw [ask_of_immediate hi] at hover
    cases hover
  | none =>
    obtain ⟨reply, hreply, heffect⟩ := effect_ask h (check_of_record h hr) hi f now
    obtain rfl : reply = .ok .overflowed := hreply.symm.trans hover
    generalize (s.ask f now (.writeData path data cas)).2.memory = m' at heffect
    cases heffect with
    | answered plan =>
      obtain ⟨_, before, -, hbefore, ⟨_, -, hanswer⟩ | ⟨-, hexhausted, -⟩⟩ := Vault.answer_of_planWrite plan
      · cases hanswer
      · obtain rfl := Vault.eq_of_recordOrNewIn hbefore hr
        exact ⟨hexhausted, rfl⟩
    | changed plan =>
      obtain ⟨_, _, _, _, _, _, _, _, _, hanswer⟩ := (Vault.move_of_plan plan).write_inv
      cases hanswer

/-- Where a write can be made, there is one that breaks off exactly if numbers are exhausted. -/
theorem overflows_iff (h : s.Kept master) {record : KeyRecord}
    (hr : s.contents.record s.ring path = .ok (some record)) (hvalid : KeyPath.fault? path = none) {policy : Policy}
    (hp : s.contents.policy s.store.defaults = .ok policy) :
    (∃ f now data cas, (s.ask f now (.writeData path data cas)).1 = .ok .overflowed) ↔ record.Exhausted := by
  constructor
  · rintro ⟨_, _, _, _, hover⟩
    exact (exhausted_of_overflowed h hr hover).1
  · intro hexhausted
    have hcas : Vault.casRejection? record policy (some record.currentVersion) = none := if_pos rfl
    have hi : (Request.writeData path [] (some record.currentVersion)).immediate? = none := Option.map_eq_none_iff.mpr hvalid
    have hplan : s.vault.plan .epoch s.memory (.writeData path [] (some record.currentVersion)) = .ok (.answer .overflowed) :=
      Vault.planWrite_of_exhausted hp (Vault.recordOrNewIn_of_record hr) hcas hexhausted
    have hcalm := (ask_calm h (check_of_record h hr) hi .epoch).1
    rw [Vault.outcome, hplan] at hcalm
    exact ⟨_, _, _, _, hcalm⟩

/-- For every record that is stored, whatever it holds, and every write to its path. A write that
    fails or is rejected leaves the record. One that is accepted takes the number after the current
    one, which is higher; the versions that fall out and the oldest version are computed in exact
    numbers. The one other end of a write is that it breaks off, which changes nothing; if a write can
    be made at all, there is one that breaks off exactly if the current number is the highest. -/
theorem next_number_exact (h : s.Kept master) {record : KeyRecord}
    (hr : s.contents.record s.ring path = .ok (some record)) :
    (∀ f now data cas,
      let reply := (s.ask f now (.writeData path data cas)).1
      let t := (s.ask f now (.writeData path data cas)).2
      (∀ e, reply = .error e → t.contents.record t.ring path = .ok (some record)) ∧
      (∀ reason, reply = .ok (.rejected reason) → t.contents.record t.ring path = .ok (some record)) ∧
      (reply = .ok .overflowed → record.Exhausted ∧ t.memory = s.memory) ∧
      ∀ w warnings, reply = .ok (.accepted w warnings) →
        ∃ policy after, s.contents.policy s.store.defaults = .ok policy ∧ t.contents.record t.ring path = .ok (some after) ∧
          after.currentVersion = w.version ∧ record.currentVersion < w.version ∧
          w.version.toNat = record.currentVersion.toNat + 1 ∧
          (∀ cutoff, (record.appended now).cutoff? (keptOf policy record) = some cutoff →
            cutoff.toNat + record.limit policy = w.version.toNat ∧ (cutoff + 1).toNat = cutoff.toNat + 1) ∧
          after.oldestVersion.toNat = max (max record.oldestVersion.toNat 1)
            (if 0 < record.limit policy ∧ record.limit policy < w.version.toNat then
              w.version.toNat - record.limit policy + 1 else 0)) ∧
    (KeyPath.fault? path = none → (∃ policy, s.contents.policy s.store.defaults = .ok policy) →
      ((∃ f now data cas, (s.ask f now (.writeData path data cas)).1 = .ok .overflowed) ↔ record.Exhausted)) := by
  constructor
  · intro f now data cas reply t
    refine ⟨?_, ?_, exhausted_of_overflowed h hr, ?_⟩
    · intro e he
      exact record_of_unwritten h hr fun w warnings hok => nomatch he.symm.trans hok
    · intro reason hno
      exact record_of_unwritten h hr fun w warnings hok => nomatch hno.symm.trans hok
    · intro w warnings hok
      obtain ⟨policy, found, hp, hf, hmore, hversion, hafter, -⟩ := written_of_accepted h hok
      obtain rfl := Except.ok.inj (hr.symm.trans hf)
      dsimp only [Option.getD_some] at hmore hversion hafter
      refine ⟨policy, _, hp, hafter, ?_, ?_, ?_, ?_, ?_⟩
      · rw [hversion, KeyRecord.written_currentVersion]
      · rw [hversion]
        exact KeyRecord.current_lt_next hmore
      · rw [hversion]
        exact record.toNat_next hmore
      · intro cutoff hcutoff
        rw [hversion, ← toNat_keptOf]
        exact KeyRecord.cutoff_exact hcutoff
      · rw [hversion, ← toNat_keptOf]
        exact KeyRecord.toNat_oldestVersion_written _ _ _
  · intro hvalid ⟨policy, hp⟩
    exact overflows_iff h hr hvalid hp

/-- The session with a record put in its storage by other means, whatever it holds. -/
def holding (nonce : Block 12) (record : KeyRecord) (s : Session) : Session :=
  { s with world := { s.world with store := (recordEdit s.ring record).after s.ring nonce s.memory } }

/-- A storage that has been set up is in order with any record in it. -/
theorem kept_holding (h : s.Kept master) (hset : s.memory[checkKey]? ≠ none) (nonce : Block 12) (record : KeyRecord) :
    (s.holding nonce record).Kept master ∧ (s.holding nonce record).ring = s.ring ∧
      (s.holding nonce record).contents = s.contents.edit (recordEdit s.ring record) := by
  have hsalt : (s.holding nonce record).memory[saltKey]? = s.memory[saltKey]? :=
    Memory.getElem?_after nonce s.memory (Vault.ne_of_initial? (by simp)).symm
  have hcheck : (s.holding nonce record).memory[checkKey]? = s.memory[checkKey]? :=
    Memory.getElem?_after nonce s.memory (Vault.ne_of_initial? (by simp)).symm
  have hring : (s.holding nonce record).ring = s.ring := Memory.ring_congr hsalt
  refine ⟨⟨h.master_eq, ⟨?_, ?_, ?_, ?_⟩, ?_⟩, hring, ?_⟩
  · intro hnone
    exact absurd (h.memory.blank (hsalt.symm.trans hnone) checkKey) hset
  · rw [hsalt]
    exact h.memory.size
  · intro hnone
    exact absurd (hcheck.symm.trans hnone) hset
  · rw [hcheck, Memory.ring_congr hsalt]
    exact h.memory.verified
  · rw [hring, hcheck]
    exact h.ring
  · rw [contents, hring]
    exact Memory.contents_after _ nonce s.memory

/-- A record at the highest number: there is a write to it that is neither rejected nor fails, and
    leaves the record without having written anything. -/
theorem next_number_exact_exhausted :
    let record : KeyRecord :=
      { key := "k", currentVersion := 18446744073709551615, createdTime := .epoch, updatedTime := .epoch }
    let s := (opened ⟨.tabulate 32 fun _ => 7⟩ {} ⟨fun _ => 0, 0⟩).holding (.tabulate 12 fun _ => 0) record
    s.contents.record s.ring "k" = .ok (some record) ∧
      ∃ f now data cas, (s.ask f now (.writeData "k" data cas)).1 = .ok .overflowed ∧
        (s.ask f now (.writeData "k" data cas)).2.memory = s.memory := by
  intro record
  have hruns := runs_opened ⟨.tabulate 32 fun _ => 7⟩ {} ⟨fun _ => 0, 0⟩
  have hset := (isSetUp_opened ⟨.tabulate 32 fun _ => 7⟩ {} ⟨fun _ => 0, 0⟩).check
  have hp := policy_opened ⟨.tabulate 32 fun _ => 7⟩ {} ⟨fun _ => 0, 0⟩
  generalize opened ⟨.tabulate 32 fun _ => 7⟩ {} ⟨fun _ => 0, 0⟩ = before at *
  obtain ⟨hkept, hring, hcontents⟩ := kept_holding hruns.kept hset (.tabulate 12 fun _ => 0) record
  have hdefaults : (before.holding (.tabulate 12 fun _ => 0) record).store.defaults = before.store.defaults := rfl
  generalize before.holding (.tabulate 12 fun _ => 0) record = s at *
  have hr : s.contents.record s.ring "k" = .ok (some record) := by
    rw [hring, hcontents]
    exact Contents.record_recordEdit _ record
  have hpolicy : s.contents.policy s.store.defaults = .ok {} := by
    rw [hcontents, hdefaults, Contents.policy_edit_of_ne (Vault.ne_of_initial? (by simp))]
    exact hp
  have hexhausted : record.Exhausted := rfl
  obtain ⟨hwrites, hexists⟩ := next_number_exact hkept hr
  obtain ⟨f, now, data, cas, hover⟩ := (hexists (by decide) ⟨_, hpolicy⟩).mpr hexhausted
  exact ⟨hr, f, now, data, cas, hover, ((hwrites f now data cas).2.2.1 hover).2⟩

end Session

end Strongbox
