/-
  Strongbox.Proofs.Vault.Rejections — a request that is rejected has no effect.

  A rejection is no failure: the request is answered, with the reason for which it was not accepted.
  What is wrong with the request itself is seen before the storage is opened. Everything else is seen
  after the policy has been read, and for a write the record, and before the first edit. Nothing is
  assumed here of what is stored, nor of which calls fail.

  Proved:
  - `refused_of_plan`, `Effect.refused`: a request that is performed is rejected because of its
    settings or its check-and-set, and never after an edit.
  - `fills_of_rejected`: what a rejection leaves is what was there, set up.
  - `rejected_has_no_effect`: what a rejection leaves, and when settings are rejected.
-/

import Mathlib.Logic.Basic
import Strongbox.Proofs.Record.Admission
import Strongbox.Proofs.Vault.Legible

namespace Strongbox

open Time (Instant)
open KeyRing (saltKey checkKey Fills)
open Vault (Effect policyKey)

/-! ## Malformed paths -/

/-- A segment of the path is empty, or a word for a directory. -/
def KeyPath.Malformed (path : String) : Prop :=
  ∃ segment ∈ segments path, segment = "" ∨ segment = "." ∨ segment = ".."

theorem KeyPath.malformed_iff {path : String} : Malformed path ↔ ∃ fault, fault? path = some fault := by
  have hnames : Malformed path ↔ ¬ (segments path).all isName := by
    simp only [Malformed, List.all_eq_true, not_forall, exists_prop, isName, ne_eq, decide_not, Bool.and_eq_true,
      Bool.not_eq_true', decide_eq_false_iff_not, not_and_or, not_not, or_assoc]
  rw [hnames, fault?]
  by_cases hempty : path = ""
  · subst hempty
    exact iff_of_true (by decide) ⟨_, rfl⟩
  · rw [if_neg hempty]
    split
    · rename_i hall
      exact iff_of_false (not_not_intro hall) nofun
    · rename_i hsome
      exact iff_of_true hsome ⟨_, rfl⟩

/-! ## Reasons -/

/-- Why a request was rejected, if it was. -/
def Outcome.reason? {α : Type} : Outcome α → Option Rejection
  | .rejected reason => some reason
  | .accepted .. | .overflowed => none

/-- Why a request was rejected, if it was. A request that only reads or erases never is. -/
def Request.reason? : (r : Request) → r.Reply → Option Rejection
  | .writeMetadata .., reply => reply.reason?
  | .writeData .., reply => reply.reason?
  | .deleteVersions .., reply => reply.reason?
  | .undeleteVersions .., reply => reply.reason?
  | .destroyVersions .., reply => reply.reason?
  | .writePolicy _, reply => reply.reason?
  | _, _ => none

/-- What can be rejected settles nothing. -/
theorem Request.settle_of_reason? {r : Request} {a : r.Reply} {reason : Rejection} (h : r.reason? a = some reason)
    (reply : Except Error r.Reply) : r.settle reply = reply := by
  cases r <;> first | rfl | cases h

/-- The request itself is at fault, whatever is stored. -/
inductive Rejection.IsOfRequest : Request → Rejection → Prop
  | path (r : Request) (fault : KeyPath.Fault) : IsOfRequest r (.path fault)
  | noVersions (r : Request) : IsOfRequest r .noVersions
  | negativeExpiry (changes : PolicyChanges) : IsOfRequest (.writePolicy changes) .negativeExpiry

namespace Vault

variable {v : Vault} {now : Instant} {m : Memory}

/-- Why a request that is performed is rejected. -/
inductive Refused (v : Vault) (now : Instant) (m : Memory) : Request → Rejection → Prop
  | settings {path : String} {changes : RecordChanges} {policy : Policy} {reason : Rejection}
    (hp : (m.contents v.ring).policy v.defaults = .ok policy) (h : changes.rejection? policy = some reason) :
    Refused v now m (.writeMetadata path changes) reason
  | write {path : String} {data : Bytes} {cas : Option UInt64} {policy : Policy} {before : KeyRecord} {reason : Rejection}
    (hp : (m.contents v.ring).policy v.defaults = .ok policy) (hr : v.recordOrNewIn now m path = .ok before)
    (h : casRejection? before policy cas = some reason) : Refused v now m (.writeData path data cas) reason

theorem reason?_planChanged (v : Vault) (now : Instant) (before after : KeyRecord) :
    (v.planChanged now before after).reply.reason? = none := by
  unfold planChanged
  split <;> rfl

/-- What has a plan is rejected because of its settings or its check-and-set, and then makes no edit. -/
theorem refused_of_plan {r : Request} {plan : Plan r.Reply} {reason : Rejection} (h : v.plan now m r = .ok plan)
    (hreason : r.reason? plan.reply = some reason) : Refused v now m r reason ∧ ∃ a, plan = .answer a := by
  cases r with
  | writeMetadata path changes =>
    obtain ⟨policy, hp, h⟩ := Except.of_bind_eq_ok h
    split at h
    · rename_i rejected
      cases h
      exact ⟨.settings hp (rejected.trans hreason), _, rfl⟩
    · obtain ⟨_, _, h⟩ := Except.of_bind_eq_ok h
      cases h
      cases hreason
  | writeData path data cas =>
    obtain ⟨policy, hp, h⟩ := Except.of_bind_eq_ok h
    obtain ⟨before, hr, h⟩ := Except.of_bind_eq_ok h
    split at h
    · rename_i rejected
      cases h
      exact ⟨.write hp hr (rejected.trans hreason), _, rfl⟩
    · split at h <;> cases h <;> cases hreason
  | deleteVersions path versions =>
    obtain ⟨found, _, h⟩ := Except.of_bind_eq_ok h
    cases found <;> cases h
    · cases hreason
    · cases (reason?_planChanged ..).symm.trans hreason
  | undeleteVersions path versions =>
    obtain ⟨found, _, h⟩ := Except.of_bind_eq_ok h
    cases found <;> cases h
    · cases hreason
    · cases (reason?_planChanged ..).symm.trans hreason
  | destroyVersions path versions =>
    obtain ⟨found, _, h⟩ := Except.of_bind_eq_ok h
    cases found with
    | none =>
      cases h
      cases hreason
    | some record =>
      dsimp only at h
      split at h <;> cases h <;> cases hreason
  | writePolicy changes =>
    obtain ⟨_, _, h⟩ := Except.of_bind_eq_ok h
    cases h
    cases hreason
  | readMetadata => cases hreason
  | listMetadata => cases hreason
  | metadataExists => cases hreason
  | deleteMetadata => cases hreason
  | readData => cases hreason
  | readPolicy => cases hreason

/-- A request that is performed and rejected leaves the memory as it was. -/
theorem Effect.refused {w : Weather} {r : Request} {a : r.Reply} {m' : Memory} {reason : Rejection}
    (h : Effect w v now m r (.ok a) m') (hreason : r.reason? a = some reason) : m' = m ∧ Refused v now m r reason := by
  cases h with
  | answered plan => exact ⟨rfl, (refused_of_plan plan hreason).1⟩
  | changed plan =>
    obtain ⟨_, _, hanswer⟩ := refused_of_plan plan hreason
    cases hanswer

/-- A write that is rejected has no more to do. -/
theorem planWrite_of_rejected {path : String} {data : Bytes} {cas : Option UInt64} {policy : Policy} {before : KeyRecord}
    {reason : Rejection} (hp : (m.contents v.ring).policy v.defaults = .ok policy)
    (hr : v.recordOrNewIn now m path = .ok before) (hcas : casRejection? before policy cas = some reason) :
    v.planWrite now m path data cas = .ok (.answer (.rejected reason)) := by
  simp only [planWrite, hp, hr, hcas, bind, Except.bind]
  rfl

theorem plan_of_policy {policy : Policy} (hp : (m.contents v.ring).policy v.defaults = .ok policy) :
    v.plan now m .readPolicy = .ok (.answer policy) := by
  simp only [plan, hp, bind, Except.bind]
  rfl

/-- The policy that is answered is the one that is stored. -/
theorem Effect.policy_eq {w : Weather} {policy : Policy} {m' : Memory} (h : Effect w v now m .readPolicy (.ok policy) m') :
    (m.contents v.ring).policy v.defaults = .ok policy := by
  cases h with
  | answered plan =>
    obtain ⟨_, hp, h⟩ := Except.of_bind_eq_ok plan
    cases h
    exact hp
  | changed plan =>
    obtain ⟨_, _, h⟩ := Except.of_bind_eq_ok plan
    cases h

/-- What is wrong with a request itself is not left to be seen when it is performed. -/
theorem Refused.not_isOfRequest {r : Request} {reason : Rejection} (h : Refused v now m r reason) : ¬ reason.IsOfRequest r := by
  have hsettings {changes : RecordChanges} {policy : Policy} (h : changes.rejection? policy = some reason) :
      (∀ fault, reason ≠ .path fault) ∧ reason ≠ .noVersions := by
    rw [RecordChanges.rejection?, Option.or_eq_some_iff, Option.bind_eq_some_iff, Option.bind_eq_some_iff] at h
    rcases h with ⟨_, _, h⟩ | ⟨_, _, _, h⟩
    · split at h
      · cases h
        exact ⟨by simp, by simp⟩
      · obtain ⟨_, _, h⟩ := Option.bind_eq_some_iff.mp h
        split at h <;> cases h
        exact ⟨by simp, by simp⟩
    · split at h <;> cases h
      exact ⟨by simp, by simp⟩
  have hwrite {record : KeyRecord} {policy : Policy} {cas : Option UInt64} (h : casRejection? record policy cas = some reason) :
      (∀ fault, reason ≠ .path fault) ∧ reason ≠ .noVersions := by
    cases cas <;> simp only [casRejection?] at h <;> split at h <;> cases h <;> exact ⟨by simp, by simp⟩
  intro hof
  cases h with
  | settings _ h =>
    cases hof with
    | path _ fault => exact (hsettings h).1 fault rfl
    | noVersions => exact (hsettings h).2 rfl
  | write _ _ h =>
    cases hof with
    | path _ fault => exact (hwrite h).1 fault rfl
    | noVersions => exact (hwrite h).2 rfl

end Vault

/-! ## Asking -/

namespace Session

variable {f : Faults} {now : Instant} {r : Request} {s : Session} {a : r.Reply} {reason : Rejection}

/-- Opening the key ring sets the storage up, if at all. -/
theorem fills_openRing (f : Faults) (s : Session) :
    Fills s.store.master s.memory (s.store.openRing.attempt f [] s.world).world.store := by
  unfold Store.openRing
  cases s.store.ring with
  | some ring => exact .refl
  | none => exact (KeyRing.comes_of_setUp f s.world s.store.master).fills

/-- What comes of a request once the key ring is open. -/
theorem effect_of_opened (f : Faults) (now : Instant) (r : Request) (v : Vault) (calls : List Call) (world : World Memory) :
    let a := (v.perform now r).attempt f calls world
    Effect f.weather v now world.store r a.result a.world.store := by
  have heffect := (Vault.ends_perform f.weather v now world.store r).run (f := f) calls.length
  rwa [Access.attempt_eq_runOn] at heffect

/-- A rejected request was answered at once, or refused over what opening the key ring left. -/
theorem rejected_cases (hok : (s.ask f now r).1 = .ok a) (hreason : r.reason? a = some reason) :
    r.immediate? = some a ∨ ∃ ring calls world, s.store.openRing.attempt f [] s.world = ⟨.ok ring, calls, world⟩ ∧
      (s.ask f now r).2.memory = world.store ∧ Vault.Refused ⟨ring, s.store.defaults⟩ now world.store r reason := by
  cases hi : r.immediate? with
  | some reply =>
    rw [ask_of_immediate hi] at hok
    exact .inl (congrArg some (Except.ok.inj hok))
  | none =>
    rcases hopen : s.store.openRing.attempt f [] s.world with ⟨_ | ring, calls, world⟩
    · rw [(ask_of_unopened hi hopen).1, Request.settle_of_reason? hreason] at hok
      cases hok
    · have hask : s.ask f now r = _ := (ask_of_opened hi hopen).1
      have heffect := effect_of_opened f now r ⟨ring, s.store.defaults⟩ calls world
      rw [hask, Request.settle_of_reason? hreason] at hok
      dsimp only at heffect hok
      rw [hok] at heffect
      obtain ⟨hmemory, hrefused⟩ := heffect.refused hreason
      refine .inr ⟨ring, calls, world, rfl, ?_, hrefused⟩
      rw [hask]
      exact hmemory

/-- A rejected request may have set the storage up, and has done nothing else to it. -/
theorem fills_of_rejected (hok : (s.ask f now r).1 = .ok a) (hreason : r.reason? a = some reason) :
    Fills s.store.master s.memory (s.ask f now r).2.memory := by
  rcases rejected_cases hok hreason with hi | ⟨ring, calls, world, hopen, hmemory, _⟩
  · rw [ask_of_immediate hi]
  · have hfills := fills_openRing f s
    rw [hopen] at hfills
    rw [hmemory]
    exact hfills

/-- What is wrong with the request itself is answered without any call. -/
theorem immediate_of_isOfRequest (hok : (s.ask f now r).1 = .ok a) (hreason : r.reason? a = some reason)
    (hof : reason.IsOfRequest r) : s.calls f now r = [] ∧ (s.ask f now r).2 = s := by
  rcases rejected_cases hok hreason with hi | ⟨_, _, _, _, _, hrefused⟩
  · rw [ask_of_immediate hi]
    exact ⟨calls_of_immediate hi, rfl⟩
  · exact absurd hof hrefused.not_isOfRequest

/-! ## Settings -/

/-- Where the policy can be read, settings are rejected because of the policy if it does not admit
    them. -/
theorem refused_settings_iff {path : String} {changes : RecordChanges} {policy : Policy}
    (hi : (Request.writeMetadata path changes).immediate? = none) (hpolicy : (s.ask f now .readPolicy).1 = .ok policy) :
    (s.ask f now (.writeMetadata path changes)).1 = .ok (.rejected reason) ↔ changes.rejection? policy = some reason := by
  rcases hopen : s.store.openRing.attempt f [] s.world with ⟨_ | ring, calls, world⟩
  · rw [(ask_of_unopened rfl hopen).1] at hpolicy
    cases hpolicy
  · rw [(ask_of_opened rfl hopen).1] at hpolicy
    rw [(ask_of_opened hi hopen).1]
    dsimp only [Request.settle] at hpolicy ⊢
    constructor
    · intro hrejected
      -- both requests read the same memory, so the policy that refuses is the one that was answered
      have hshown := effect_of_opened f now .readPolicy ⟨ring, s.store.defaults⟩ calls world
      have hasked := effect_of_opened f now (.writeMetadata path changes) ⟨ring, s.store.defaults⟩ calls world
      dsimp only at hshown hasked
      rw [hpolicy] at hshown
      rw [hrejected] at hasked
      obtain ⟨_, hrefused⟩ := hasked.refused rfl
      cases hrefused with
      | settings hp h =>
        obtain rfl := Except.ok.inj (hp.symm.trans hshown.policy_eq)
        exact h
    · intro hrejected
      rcases hread : (Vault.mk ring s.store.defaults).readPolicy.attempt f calls world with ⟨result, calls', world'⟩
      obtain rfl : result = .ok policy := by
        rw [← hpolicy]
        exact (congrArg Attempt.result hread).symm
      show (((Vault.mk ring s.store.defaults).readPolicy >>= _).attempt f calls world).result = _
      rw [Access.attempt_bind, hread]
      dsimp only
      rw [hrejected]
      rfl

/-- Where the policy can be read, settings are rejected exactly if the path is malformed, or some are
    supplied and they are inadmissible. -/
theorem settings_rejected_iff (path : String) (changes : RecordChanges) {policy : Policy}
    (hpolicy : (s.ask f now .readPolicy).1 = .ok policy) :
    (∃ reason, (s.ask f now (.writeMetadata path changes)).1 = .ok (.rejected reason)) ↔
      KeyPath.Malformed path ∨ changes.hasUpdates ∧ changes.Inadmissible policy := by
  rw [KeyPath.malformed_iff]
  cases hpath : KeyPath.fault? path with
  | some fault =>
    have hi : (Request.writeMetadata path changes).immediate? = some (.rejected (.path fault)) := by
      simp only [Request.immediate?, hpath]
    rw [ask_of_immediate hi]
    exact iff_of_true ⟨_, rfl⟩ (.inl ⟨fault, rfl⟩)
  | none =>
    cases hupdates : changes.hasUpdates with
    | false =>
      have hi : (Request.writeMetadata path changes).immediate? = some (.accepted ()) := by
        simp only [Request.immediate?, hpath, hupdates, Bool.false_eq_true, if_false]
      rw [ask_of_immediate hi]
      exact iff_of_false (by simp) (by simp)
    | true =>
      have hi : (Request.writeMetadata path changes).immediate? = none := by
        simp only [Request.immediate?, hpath, hupdates, if_true]
      rw [exists_congr fun reason => refused_settings_iff hi hpolicy, ← Option.ne_none_iff_exists', ne_eq,
        RecordChanges.rejection?_eq_none_iff, not_not]
      exact ⟨fun h => .inr ⟨rfl, h⟩, fun h => (h.resolve_left (by simp)).2⟩

/-- Any store over any memory, whichever calls fail. A request that is rejected leaves every record,
    payload and policy, whatever the keys, as they were: nothing that was stored is changed, and
    nothing is new but a salt and a check where there was none. If the reason is the path, missing
    versions or a negative expiry of the policy, no call was made at all, and the store is the same.
    Where the policy can be read, settings are rejected exactly if the path is malformed, or some are
    supplied and the expiry is negative or above the policy's, or the free entries break the rules. -/
theorem rejected_has_no_effect (s : Session) (f : Faults) (now : Instant) :
    (∀ (r : Request) (a : r.Reply) (reason : Rejection), (s.ask f now r).1 = .ok a → r.reason? a = some reason →
      let t := (s.ask f now r).2
      (∀ ring path, (t.memory.contents ring).record ring path = (s.memory.contents ring).record ring path) ∧
        (∀ ring path version,
          (t.memory.contents ring).payload ring path version = (s.memory.contents ring).payload ring path version) ∧
        (∀ ring defaults, (t.memory.contents ring).policy defaults = (s.memory.contents ring).policy defaults) ∧
        (∀ key : String, s.memory[key]? ≠ none ∨ key ≠ saltKey ∧ key ≠ checkKey → t.memory[key]? = s.memory[key]?) ∧
        Fills s.store.master s.memory t.memory ∧ (reason.IsOfRequest r → s.calls f now r = [] ∧ t = s)) ∧
      ∀ path changes policy, (s.ask f now .readPolicy).1 = .ok policy →
        ((∃ reason, (s.ask f now (.writeMetadata path changes)).1 = .ok (.rejected reason)) ↔
          KeyPath.Malformed path ∨ changes.hasUpdates ∧ changes.Inadmissible policy) := by
  refine ⟨fun r a reason hok hreason => ?_, fun path changes policy => settings_rejected_iff path changes⟩
  have hfills := fills_of_rejected hok hreason
  have hcontents (ring : KeyRing) {key : String} (hs : Vault.initial? key ≠ some 's') (hk : Vault.initial? key ≠ some 'k') :
      (s.ask f now r).2.memory.contents ring key = s.memory.contents ring key :=
    Memory.contents_congr (hfills.frame (.inr ⟨Vault.ne_of_initial? (by simpa using hs), Vault.ne_of_initial? (by simpa using hk)⟩))
  refine ⟨fun ring path => ?_, fun ring path version => ?_, fun ring defaults => ?_, fun key => hfills.frame, hfills,
    immediate_of_isOfRequest hok hreason⟩
  · exact Contents.record_congr (hcontents ring (by simp) (by simp))
  · exact Contents.lookup_congr (hcontents ring (by simp) (by simp))
  · exact Contents.policy_congr (hcontents ring (by simp) (by simp))

/-- A storage just set up, whose policy allows an expiry of a minute: a write that names a fifth
    version is rejected, as is a key that asks for a second more, and to undelete no versions is
    rejected without a call. -/
theorem rejected_has_no_effect_opened :
    let s := opened ⟨.tabulate 32 fun _ => 7⟩ { deleteVersionAfter := some 60 } ⟨fun _ => 0, 0⟩
    let mismatched := s.ask Faults.none .epoch (.writeData "a" [97] (some 5))
    mismatched.1 = .ok (.rejected .casMismatch) ∧ Fills s.store.master s.memory mismatched.2.memory ∧
      s.calls Faults.none .epoch (.undeleteVersions "a" []) = [] ∧ ∃ reason,
        (s.ask Faults.none .epoch (.writeMetadata "a" { deleteVersionAfter := some 61 })).1 = .ok (.rejected reason) := by
  let master : MasterKey := ⟨.tabulate 32 fun _ => 7⟩
  let policy : Policy := { deleteVersionAfter := some 60 }
  have hkept := (runs_opened master policy ⟨fun _ => 0, 0⟩).kept
  have hset := (isSetUp_opened master policy ⟨fun _ => 0, 0⟩).check
  have hp := policy_opened master policy ⟨fun _ => 0, 0⟩
  have hr := record_opened master policy ⟨fun _ => 0, 0⟩ "a"
  generalize opened _ _ _ = s at *
  have hmismatched : (s.ask Faults.none .epoch (.writeData "a" [97] (some 5))).1 = .ok (.rejected .casMismatch) := by
    have hplan : s.vault.planWrite .epoch s.memory "a" [97] (some 5) = .ok (.answer (.rejected .casMismatch)) :=
      Vault.planWrite_of_rejected hp (Vault.recordOrNewIn_of_none hr) rfl
    rw [(ask_calm hkept hset (by decide) .epoch).1, Vault.outcome, Vault.plan, hplan]
    rfl
  have hpolicy : (s.ask Faults.none .epoch .readPolicy).1 = .ok policy := by
    rw [(ask_calm hkept hset rfl .epoch).1, Vault.outcome, Vault.plan_of_policy (v := s.vault) hp]
    rfl
  obtain ⟨hrejected, hsettings⟩ := rejected_has_no_effect s Faults.none .epoch
  refine ⟨hmismatched, ?_, ?_, ?_⟩
  · obtain ⟨_, _, _, _, hfills, _⟩ := hrejected (.writeData "a" [97] (some 5)) _ .casMismatch hmismatched rfl
    exact hfills
  · have hundeleted : (s.ask Faults.none .epoch (.undeleteVersions "a" [])).1 = .ok (.rejected .noVersions) := by
      rw [ask_of_immediate (r := .undeleteVersions "a" []) (show _ = some (.rejected .noVersions) by decide)]
    obtain ⟨_, _, _, _, _, hcalls⟩ := hrejected _ _ _ hundeleted rfl
    exact (hcalls (.noVersions _)).1
  · exact (hsettings "a" _ policy hpolicy).mpr (.inr ⟨rfl, .inl ⟨61, rfl, .inr ⟨60, rfl, by decide, by decide⟩⟩⟩)

end Session

end Strongbox
