/-
  Strongbox.Proofs.Vault.CheckAndSet — writes that name the version they replace.

  A write may name the version that it takes to be the current one, zero for a path without
  record, and record or policy may demand that it does. Versions are numbered by the writes that
  were accepted, so what an accepted write names says how many went before it. Of all the writes
  that name the same version at most one is accepted before the path is erased, whoever sends
  them and whatever else is asked.

  Proved:
  - `found_of_accepted`, `unchanged_of_rejected`: what an accepted write found, and what a
    rejected one leaves.
  - `Runs.claimed`, `Runs.claims_unique`: how many writes go before one that names a version, and
    how many there are of these.
  - `check_and_set`: all of this, at every point of a run.
-/

import Strongbox.Proofs.Vault.Succession

namespace Strongbox

open Time (Instant)
open KeyRing (saltKey checkKey)

/-! ## One write -/

/-- A write that is let through names the current version, or it names none and none is demanded. -/
theorem Vault.casRejection?_eq_none {record : KeyRecord} {policy : Policy} {cas : Option UInt64}
    (h : casRejection? record policy cas = none) :
    (∀ named, cas = some named → record.currentVersion = named) ∧
      (cas = none → record.casRequired = false ∧ policy.casRequired = false) := by
  cases cas with
  | none =>
    refine ⟨nofun, fun _ => Bool.or_eq_false_iff.mp (Bool.eq_false_iff.mpr fun hneeds => ?_)⟩
    rw [casRejection?, KeyRecord.needsCas, if_pos hneeds] at h
    cases h
  | some named =>
    refine ⟨?_, nofun⟩
    rintro _ ⟨⟩
    simp only [casRejection?] at h
    split at h
    · rename_i heq
      exact heq.symm
    · cases h

namespace Session

/-- What is stored is the same, except that the storage may have been set up in between. -/
structure Unchanged (s t : Session) : Prop where
  defaults : t.store.defaults = s.store.defaults
  raw : ∀ key, key ≠ saltKey → key ≠ checkKey → t.memory[key]? = s.memory[key]?
  records : ∀ path, t.contents.record t.ring path = s.contents.record s.ring path
  policy : ∀ defaults, t.contents.policy defaults = s.contents.policy defaults

variable {master : MasterKey} {s : Session} {f : Faults} {now : Instant} {path : String} {data : Bytes} {cas : Option UInt64}

/-- An accepted write found a policy and a record that let it through, and returns the next number. -/
theorem found_of_accepted {w : WrittenVersion} {warnings : List Warning} (h : s.Kept master)
    (hok : (s.ask f now (.writeData path data cas)).1 = .ok (.accepted w warnings)) :
    KeyPath.fault? path = none ∧ ∃ policy found, s.contents.policy s.store.defaults = .ok policy ∧
      s.contents.record s.ring path = .ok found ∧
      Vault.casRejection? (found.getD (KeyRecord.new path now)) policy cas = none ∧ w.version = currentOf found + 1 := by
  cases hi : (Request.writeData path data cas).immediate? with
  | some answer =>
    obtain ⟨_, _, rfl⟩ := Option.map_eq_some_iff.mp hi
    rw [ask_of_immediate hi] at hok
    cases hok
  | none =>
    obtain ⟨m, world, begun, effect, _⟩ := performed_of_ok h hi (fun _ => rfl) hok
    generalize world.store = m' at effect
    cases effect with
    | answered plan =>
      obtain ⟨_, _, -, -, ⟨_, -, hanswer⟩ | ⟨-, -, hanswer⟩⟩ := Vault.answer_of_planWrite plan <;> cases hanswer
    | changed plan _ _ =>
      obtain ⟨policy, before, hp, hr, _, hcas, _, _, _, hanswer⟩ := (Vault.move_of_plan plan).write_inv
      obtain ⟨found, hfound, _⟩ := Except.of_bind_eq_ok hr
      obtain rfl := Vault.eq_of_recordOrNewIn hr hfound
      obtain ⟨hrecords, hpolicy⟩ := views_of_begun h begun
      cases hanswer
      exact ⟨Option.map_eq_none_iff.mp hi, policy, found, (hpolicy _).symm.trans hp, (hrecords path).symm.trans hfound, hcas,
        congrArg (· + 1) (currentOf_getD found path now)⟩

theorem unchanged_of_rejected {reason : Rejection} (h : s.Kept master)
    (hno : (s.ask f now (.writeData path data cas)).1 = .ok (.rejected reason)) :
    s.Unchanged (s.ask f now (.writeData path data cas)).2 := by
  cases hi : (Request.writeData path data cas).immediate? with
  | some answer =>
    rw [ask_of_immediate hi]
    exact ⟨rfl, fun _ _ _ => rfl, fun _ => rfl, fun _ => rfl⟩
  | none =>
    obtain ⟨m, ⟨m', entropy⟩, begun, effect, hafter⟩ := performed_of_ok h hi (fun _ => rfl) hno
    replace effect : Vault.Effect _ _ now m _ _ m' := effect
    rw [hafter]
    cases effect with
    | answered =>
      obtain ⟨hrecords, hpolicy⟩ := views_of_begun h begun
      exact ⟨rfl, begun.others, hrecords, hpolicy⟩
    | changed plan _ _ =>
      obtain ⟨_, _, _, _, _, _, _, _, _, hanswer⟩ := (Vault.move_of_plan plan).write_inv
      cases hanswer

end Session

/-! ## Many writes -/

/-- Whether the event is an accepted write to a path that named this version. -/
def Event.claims (path : String) (named : UInt64) : Event → Bool
  | .asked _ _ (.writeData other _ (some cas)) (.ok (.accepted _ _)) => other = path && cas = named
  | _ => false

theorem Event.eq_of_claims {path : String} {named : UInt64} {e : Event} (h : e.claims path named = true) :
    ∃ f now data w warnings, e = .asked f now (.writeData path data (some named)) (.ok (.accepted w warnings)) := by
  unfold claims at h
  split at h
  · rw [Bool.and_eq_true, decide_eq_true_eq, decide_eq_true_eq] at h
    obtain ⟨rfl, rfl⟩ := h
    exact ⟨_, _, _, _, _, rfl⟩
  · cases h

section Logs

variable {master : MasterKey} {log between : List Event} {s : Session} {path : String} {named : UInt64} {e : Event}

/-- An accepted write that names a version comes after as many writes since the path was last erased. -/
theorem Runs.claimed (h : Runs master (e :: log) s) (hfew : writesIn log < 2 ^ 64 - 1) (hc : e.claims path named = true) :
    (writtenSince path log).length = named.toNat := by
  obtain ⟨f, now, data, w, warnings, rfl⟩ := Event.eq_of_claims hc
  obtain ⟨s', before, hok, _⟩ := h.asked_inv
  obtain ⟨hvalid, policy, found, _, hfound, hcas, _⟩ := Session.found_of_accepted before.kept hok
  obtain ⟨_, hfound', hl⟩ := before.lineage hfew hvalid
  obtain rfl := Except.ok.inj (hfound.symm.trans hfound')
  have hcurrent := (Vault.casRejection?_eq_none hcas).1 named rfl
  rw [currentOf_getD] at hcurrent
  rw [hl.numbered.length, hcurrent]

theorem length_writtenSince_cons (log : List Event) (he : e.erases path = false) :
    (writtenSince path (e :: log)).length = (writtenSince path log).length + (e.written? path).toList.length := by
  rw [writtenSince, he, if_neg Bool.false_ne_true, List.length_append, Nat.add_comm]

/-- While a path is not erased, at most one accepted write names a version, and then more writes
    were accepted than that. -/
theorem Runs.claims_unique (h : Runs master (between ++ log) s) (hfew : writesIn (between ++ log) < 2 ^ 64 - 1)
    (hkept : ∀ e ∈ between, e.erases path = false) :
    between.countP (Event.claims path named) = 0 ∨
      between.countP (Event.claims path named) = 1 ∧ named.toNat < (writtenSince path (between ++ log)).length := by
  induction between generalizing s with
  | nil => exact .inl rfl
  | cons e between ih =>
    rw [List.cons_append] at h hfew ⊢
    obtain ⟨_, before, _⟩ := (show Runs master ([e] ++ (between ++ log)) s from h).point
    have hbefore := Nat.lt_of_le_of_lt (writesIn_le_cons e (between ++ log)) hfew
    have hlength := length_writtenSince_cons (between ++ log) (hkept e List.mem_cons_self)
    have ih := ih before hbefore fun e he => hkept e (List.mem_cons_of_mem _ he)
    rw [hlength]
    cases hc : e.claims path named with
    | true =>
      have hnamed := h.claimed hbefore hc
      obtain ⟨_, _, _, w, _, rfl⟩ := Event.eq_of_claims hc
      rw [List.countP_cons_of_pos hc]
      rcases ih with hzero | ⟨_, hlt⟩
      · refine .inr ⟨by rw [hzero], ?_⟩
        rw [hnamed]
        simp [Event.written?]
      · rw [hnamed] at hlt
        exact absurd hlt (Nat.lt_irrefl _)
    | false =>
      rw [List.countP_cons_of_neg (Bool.eq_false_iff.mp hc)]
      exact ih.imp_right fun ⟨hone, hlt⟩ => ⟨hone, Nat.lt_add_right _ hlt⟩

end Logs

namespace Session

variable {master : MasterKey} {log : List Event} {s : Session}

/-- At every point of a run with fewer writes than numbers. A write that names a version is
    accepted only if this is the current one, and returns the next number; a write that names none
    is accepted only if neither the policy in force nor the record demands that it does. A write
    that is rejected changes nothing. Among the events so far, at most one accepted write to a path
    names a given version while the path is not erased, and it comes after as many accepted writes
    since the path was last erased. -/
theorem check_and_set (h : Runs master log s) (hfew : writesIn log < 2 ^ 64 - 1) (path : String) :
    (∀ f now data cas w warnings, (s.ask f now (.writeData path data cas)).1 = .ok (.accepted w warnings) →
      ∃ policy found, s.contents.policy s.store.defaults = .ok policy ∧ s.contents.record s.ring path = .ok found ∧
        (∀ named, cas = some named → currentOf found = named ∧ w.version.toNat = named.toNat + 1) ∧
        (cas = none → policy.casRequired = false ∧ ∀ record, found = some record → record.casRequired = false)) ∧
    (∀ f now data cas reason, (s.ask f now (.writeData path data cas)).1 = .ok (.rejected reason) →
      s.Unchanged (s.ask f now (.writeData path data cas)).2) ∧
    (∀ later between earlier named, log = later ++ (between ++ earlier) → (∀ e ∈ between, e.erases path = false) →
      between.countP (Event.claims path named) ≤ 1) ∧
    (∀ later e earlier named, log = later ++ e :: earlier → e.claims path named = true →
      (writtenSince path earlier).length = named.toNat) := by
  have hpart {later earlier : List Event} (hlog : log = later ++ earlier) : writesIn earlier < 2 ^ 64 - 1 :=
    Nat.lt_of_le_of_lt (hlog ▸ writesIn_le_append later earlier) hfew
  refine ⟨?_, ?_, ?_, ?_⟩
  · intro f now data cas w warnings hok
    obtain ⟨hvalid, policy, found, hp, hr, hcas, hversion⟩ := found_of_accepted h.kept hok
    obtain ⟨_, hr', hl⟩ := h.lineage hfew hvalid
    obtain rfl := Except.ok.inj (hr.symm.trans hr')
    obtain ⟨hnamed, hfree⟩ := Vault.casRejection?_eq_none hcas
    refine ⟨policy, found, hp, hr, ?_, ?_⟩
    · intro named hsome
      have hcurrent := hnamed named hsome
      rw [currentOf_getD] at hcurrent
      refine ⟨hcurrent, ?_⟩
      rw [hversion, hl.numbered.next hfew, hcurrent]
    · intro hnone
      refine ⟨(hfree hnone).2, ?_⟩
      rintro record rfl
      exact (hfree hnone).1
  · intro f now data cas reason hno
    exact unchanged_of_rejected h.kept hno
  · intro later between earlier named hlog hkept
    obtain ⟨_, hpoint, _⟩ := Runs.point (hlog ▸ h)
    rcases hpoint.claims_unique (hpart hlog) hkept with hzero | ⟨hone, _⟩
    · exact hzero ▸ Nat.zero_le 1
    · exact Nat.le_of_eq hone
  · intro later e earlier named hlog hc
    obtain ⟨_, hpoint, _⟩ := Runs.point (hlog ▸ h)
    exact hpoint.claimed (Nat.lt_of_le_of_lt (writesIn_le_cons e earlier) (hpart hlog)) hc

/-- After a first write that named zero, a write is accepted that names one, and none that names
    anything else. -/
theorem check_and_set_first :
    let s := written ⟨.tabulate 32 fun _ => 7⟩ ⟨fun _ => 0, 0⟩ "k" [97] (some 0)
    (∃ w warnings, (s.ask Faults.none .epoch (.writeData "k" [98] (some 1))).1 = .ok (.accepted w warnings)) ∧
      ∀ f now data named w warnings, (s.ask f now (.writeData "k" data (some named))).1 = .ok (.accepted w warnings) →
        named = 1 ∧ w.version.toNat = 2 := by
  have hpath : KeyPath.fault? "k" = none := by decide
  have hcas : Vault.casRejection? (KeyRecord.new "k" .epoch) {} (some 0) = none := rfl
  obtain ⟨hruns, hset, hshown⟩ := runs_written ⟨.tabulate 32 fun _ => 7⟩ ⟨fun _ => 0, 0⟩ [97] hpath hcas
  generalize written ⟨.tabulate 32 fun _ => 7⟩ ⟨fun _ => 0, 0⟩ "k" [97] (some 0) = s at *
  have hr := hshown.record_eq
  constructor
  · have hnext : Vault.casRejection? ((KeyRecord.new "k" .epoch).written .epoch (Vault.keptOf {} (KeyRecord.new "k" .epoch))) {}
        (some 1) = none := by
      rw [Vault.casRejection?, KeyRecord.written_currentVersion]
      rfl
    exact ⟨_, _, (ask_write hruns.kept hset hpath [98] (some 1) hshown.policy_eq (Vault.recordOrNewIn_of_record hr) hnext (by decide)).1⟩
  · intro f now data named w warnings hok
    obtain ⟨haccepted, _⟩ := check_and_set hruns (by decide) "k"
    obtain ⟨_, found, _, hfound, hnamed, _⟩ := haccepted f now data (some named) w warnings hok
    obtain rfl := Except.ok.inj (hr.symm.trans hfound)
    obtain ⟨hcurrent, hversion⟩ := hnamed named rfl
    obtain rfl : 1 = named := (KeyRecord.written_currentVersion _ _ _).symm.trans hcurrent
    exact ⟨rfl, hversion⟩

end Session

end Strongbox
