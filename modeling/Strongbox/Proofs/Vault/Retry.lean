/-
  Strongbox.Proofs.Vault.Retry — what a request that failed leaves, and asking it again.

  A request that fails has made some of its edits of payloads and none of the edit that makes
  the change count. Records and policy are as before, so asked again it makes the same change,
  and makes the edits already made once more to the same effect.

  Proved:
  - `Effect.outcome_eq`: what is left of a failed request leads to the same outcome.
  - `retry_converges`: a failed request leaves everything but payloads as it was, and asked again
    without failures it answers and leaves what it would have at first.
-/

import Strongbox.Proofs.Vault.FailedWrite

namespace Strongbox

open Time (Instant)

namespace Vault

variable {w : Weather} {v : Vault} {now : Instant} {m m' : Memory} {r : Request}

/-- What is left of a failed request leads to the outcome it would have had. -/
theorem Effect.outcome_eq {e : Error} (h : Effect w v now m r (.error e) m') : v.outcome now m' r = v.outcome now m r := by
  have hviews := h.views_of_error
  cases h with
  | unread => rfl
  | broken => rfl
  | interrupted plan split made _ =>
    obtain ⟨rest', rfl⟩ := prefix_of_split split
    have plan' := plan_congr hviews.1 hviews.2 plan
    rw [outcome, outcome, plan, plan', made.contents]
    simp only [Plan.reply, Plan.after, Contents.edits_again]

end Vault

/-- An answer that is a failure is one that the request ended in. -/
theorem Request.error_of_settle {r : Request} {reply : Except Error r.Reply} {e : Error} (h : r.settle reply = .error e) :
    reply = .error e := by
  unfold Request.settle at h
  split at h
  · cases h
  · exact h

/-- A request that fails leaves records, policy, salt and check as they were, and asked again
    with no failing call it answers and leaves what it would have at first. -/
theorem retry_converges {master : MasterKey} {log : List Event} {s : Session} (h : Runs master log s)
    (hset : s.IsSetUp) {f : Faults} {now : Instant} {r : Request} {e : Error}
    (hfail : (s.ask f now r).1 = .error e) :
    (∀ key : String, ¬ Vault.IsPayload key → (s.ask f now r).2.memory[key]? = s.memory[key]?) ∧
      ((s.ask f now r).2.ask Faults.none now r).1 = (s.ask Faults.none now r).1 ∧
      ((s.ask f now r).2.ask Faults.none now r).2.contents = (s.ask Faults.none now r).2.contents := by
  have hkept := h.kept
  have hcheck := hset.check
  cases hi : r.immediate? with
  | some reply =>
    rw [Session.ask_of_immediate hi] at hfail
    cases hfail
  | none =>
    obtain ⟨reply, hreply, heffect⟩ := Session.effect_ask hkept hcheck hi f now
    rw [hreply] at hfail
    rw [Request.error_of_settle hfail] at heffect
    obtain ⟨hvault, hcheck'⟩ := Session.vault_ask hkept hcheck f now r
    have hkept' := (Session.asked_ask hkept f now r).kept hkept
    have hagain := Session.ask_calm hkept' (hcheck' ▸ hcheck) hi now
    have honce := Session.ask_calm hkept hcheck hi now
    rw [hvault, heffect.outcome_eq] at hagain
    exact ⟨fun key hkey => heffect.frame_of_error hkey, hagain.1.trans honce.1.symm, hagain.2.trans honce.2.symm⟩

/-- One version is kept, and a second write deletes the payload of the first and puts its own before it
    fails for the record. Asked again it ends as if it had not failed. -/
theorem retry_converges_write :
    let s := ((Session.opened ⟨.tabulate 32 fun _ => 7⟩ { maxVersions := 1 } ⟨fun _ => 0, 0⟩).ask Faults.none .epoch
      (.writeData "k" [97] none)).2
    let failed := s.ask (.puts (Vault.recordAddress s.ring "k")) .epoch (.writeData "k" [98] none)
    s.IsSetUp ∧ (∃ e, failed.1 = .error e) ∧
      s.contents.payload s.ring "k" 1 = .ok (some [97]) ∧ failed.2.contents.payload s.ring "k" 1 = .ok none ∧
      failed.2.contents.payload s.ring "k" 2 = .ok (some [98]) ∧
      (failed.2.ask Faults.none .epoch (.writeData "k" [98] none)).1 = (s.ask Faults.none .epoch (.writeData "k" [98] none)).1 ∧
      (failed.2.ask Faults.none .epoch (.writeData "k" [98] none)).2.contents =
        (s.ask Faults.none .epoch (.writeData "k" [98] none)).2.contents := by
  have hruns := Session.runs_opened ⟨.tabulate 32 fun _ => 7⟩ { maxVersions := 1 } ⟨fun _ => 0, 0⟩
  have hset := (Session.isSetUp_opened ⟨.tabulate 32 fun _ => 7⟩ { maxVersions := 1 } ⟨fun _ => 0, 0⟩).check
  have hp := Session.policy_opened ⟨.tabulate 32 fun _ => 7⟩ { maxVersions := 1 } ⟨fun _ => 0, 0⟩
  have hr := Session.record_opened ⟨.tabulate 32 fun _ => 7⟩ { maxVersions := 1 } ⟨fun _ => 0, 0⟩ "k"
  generalize Session.opened ⟨.tabulate 32 fun _ => 7⟩ { maxVersions := 1 } ⟨fun _ => 0, 0⟩ = first at *
  have hnew : first.vault.recordOrNewIn .epoch first.memory "k" = .ok (KeyRecord.new "k" .epoch) := Vault.recordOrNewIn_of_none hr
  have hpath : KeyPath.fault? "k" = none := by decide
  have hshown := Session.shown_of_write hruns.kept hset hpath [97] none hp hnew rfl (KeyRecord.not_exhausted_new _ _) rfl
  have hset' : (first.ask Faults.none .epoch (.writeData "k" [97] none)).2.IsSetUp := Session.isSetUp_ask hruns.kept rfl .epoch
  have hruns' := hruns.ask Faults.none .epoch (.writeData "k" [97] none)
  generalize (first.ask Faults.none .epoch (.writeData "k" [97] none)).2 = s at *
  have hcut : ∃ e, (s.ask (.puts (Vault.recordAddress s.ring "k")) .epoch (.writeData "k" [98] none)).1 = .error e ∧ _ = _ :=
    Session.write_without_record .epoch [98] hruns'.kept hset'.check hpath hshown.policy_eq
      (Vault.recordOrNewIn_of_record hshown.record_eq) rfl (by decide)
  obtain ⟨e, hfail, hleft⟩ := hcut
  obtain ⟨_, hanswer, hcontents⟩ := retry_converges hruns' hset' hfail
  refine ⟨hset', ⟨e, hfail⟩, hshown.payload_eq, ?_, ?_, hanswer, hcontents⟩
  · rw [hleft, Vault.writeEdits, Vault.payload_written, if_pos rfl, if_pos (by decide)]
  · rw [hleft, Vault.writeEdits, Vault.payload_written, if_pos rfl, if_neg (by decide)]
    rfl

end Strongbox
