/-
  Strongbox.Proofs.Vault.Restarts — opening a storage anew changes nothing.

  A store keeps nothing but its master key, its defaults and the key ring, and the key ring is a
  function of master key and salt. The salt never changes once it is there, and the defaults are not
  asked for once a policy is stored, which then stays. So a store that was opened anew, with the same
  defaults or over a storage with a policy, goes on as the old one would have.

  Proved:
  - `Resumes.restart`, `ask_resumes`: what opening anew and a request keep.
  - `answers_restarted`: a run and the same run with restarts added answer alike.
  - `restarts_are_invisible`: so do they from an empty storage, and they leave the same contents.
-/

import Strongbox.Proofs.Vault.Answers
import Strongbox.Proofs.Vault.Policies

namespace Strongbox

open Time (Instant)
open KeyRing (saltKey checkKey)
open Vault (policyKey)

/-- The second sequence of steps is the first one with restarts added, for a session that the first
    one is about to begin from: with the defaults at hand, or with any others once a policy is stored. -/
inductive Restarted : Session → List Step → List Step → Prop
  | done {s : Session} : Restarted s [] []
  | ask {s : Session} {steps steps' : List Step} (now : Instant) (r : Request)
    (rest : Restarted (s.ask Faults.none now r).2 steps steps') : Restarted s (.ask now r :: steps) (.ask now r :: steps')
  | restart {s : Session} {steps steps' : List Step} (defaults : Policy) (rest : Restarted (s.restart defaults) steps steps') :
    Restarted s (.restart defaults :: steps) (.restart defaults :: steps')
  | added {s : Session} {steps steps' : List Step} {defaults : Policy}
    (h : defaults = s.store.defaults ∨ s.memory[policyKey]? ≠ none) (rest : Restarted s steps steps') :
    Restarted s steps (.restart defaults :: steps')

namespace Session

variable {master : MasterKey} {now : Instant} {r : Request} {s s' : Session}

/-- The second session opens the same as the first with the same keys, and has the same policy in
    force: the same defaults, or one that is stored. -/
structure Resumes (s s' : Session) : Prop where
  same : s.SameContents s'
  policy : s'.store.defaults = s.store.defaults ∨ s.memory[policyKey]? ≠ none

/-! ## What one step keeps -/

/-- A policy that is stored stays. -/
theorem stored_ask (h : s.Kept master) (hstored : s.memory[policyKey]? ≠ none) (f : Faults) (now : Instant) (r : Request) :
    (s.ask f now r).2.memory[policyKey]? ≠ none :=
  fun hnone => (ruling_ask h f now r).stored (fun hc => hstored (Memory.contents_eq_none.mp hc)) (Memory.contents_eq_none.mpr hnone)

/-- Once a change of the policy was asked for and no call failed, a policy is stored. -/
theorem stored_of_writePolicy {changes : PolicyChanges} (h : s.Kept master)
    (hi : (Request.writePolicy changes).immediate? = none) (now : Instant) :
    (s.ask Faults.none now (.writePolicy changes)).2.memory[policyKey]? ≠ none := by
  obtain ⟨m, _, _, hcontents, _⟩ := asked_calm h hi now
  intro hnone
  have hleft : (s.ask Faults.none now (.writePolicy changes)).2.memory.contents s.keys policyKey = none :=
    Memory.contents_eq_none.mpr hnone
  rw [hcontents, Vault.outcome, Vault.plan, Vault.planPolicyChanges] at hleft
  cases hp : (m.contents s.keys).policy s.store.defaults with
  | ok policy =>
    rw [hp] at hleft
    replace hleft : ((m.contents s.keys).edit (Vault.policyEdit (changes.apply policy))) policyKey = none := hleft
    cases (if_pos rfl).symm.trans hleft
  | error e =>
    -- a policy that does not open is a stored one
    rw [hp] at hleft
    replace hleft : m.contents s.keys policyKey = none := hleft
    rw [Contents.policy, Contents.lookup_eq_none.mpr hleft] at hp
    cases hp

/-- A store opened anew resumes the old one. -/
theorem Resumes.restart (hr : s.Resumes s') {defaults : Policy}
    (h : defaults = s.store.defaults ∨ s.memory[policyKey]? ≠ none) : s.Resumes (s'.restart defaults) :=
  ⟨⟨hr.same.master, hr.same.salt, hr.same.contents⟩, h⟩

/-- So does one where both were opened anew. -/
theorem Resumes.restart_both (hr : s.Resumes s') (defaults : Policy) : (s.restart defaults).Resumes (s'.restart defaults) :=
  ⟨⟨hr.same.master, hr.same.salt, hr.same.contents⟩, .inl rfl⟩

/-- A session that resumes another answers as it does, and resumes it afterwards. -/
theorem ask_resumes (hr : s.Resumes s') (h : s.Kept master) (h' : s'.Kept master) (now : Instant) (r : Request) :
    (s'.ask Faults.none now r).1 = (s.ask Faults.none now r).1 ∧
      (s.ask Faults.none now r).2.Resumes (s'.ask Faults.none now r).2 := by
  have hpolicy : ∀ m, Memory.Begun s.store.master s.memory m →
      (m.contents s.keys).policy s'.store.defaults = (m.contents s.keys).policy s.store.defaults := by
    intro m begun
    rcases hr.policy with hdefaults | hstored
    · rw [hdefaults]
    · refine Contents.policy_of_stored (fun hnone => hstored ?_) _ _
      exact (begun.frame (by simp) (by simp)).symm.trans (Memory.contents_eq_none.mp hnone)
  obtain ⟨hanswer, hafter⟩ := ask_sameContents hr.same h h' hpolicy now r
  refine ⟨hanswer, hafter, ?_⟩
  rw [defaults_ask h, defaults_ask h']
  exact hr.policy.imp_right fun hstored => stored_ask h hstored Faults.none now r

/-! ## Over a run -/

/-- A session that resumes another gives, with restarts added, the same answers, and leaves the same. -/
theorem answers_restarted {steps steps' : List Step} (hsteps : Restarted s steps steps') (hr : s.Resumes s')
    (h : s.Kept master) (h' : s'.Kept master) :
    let run := s.store.answers Backend.memory steps s.world
    let run' := s'.store.answers Backend.memory steps' s'.world
    run'.1 = run.1 ∧ ∀ key, key ≠ saltKey → key ≠ checkKey →
      run'.2.store.contents s.keys key = run.2.store.contents s.keys key := by
  induction hsteps generalizing s' with
  | done => exact ⟨rfl, hr.same.contents⟩
  | @ask s steps steps' now r _ ih =>
    obtain ⟨hanswer, hafter⟩ := ask_resumes hr h h' now r
    obtain ⟨hrest, hleft⟩ := ih hafter ((asked_ask h _ now r).kept h) ((asked_ask h' _ now r).kept h')
    rw [keys_ask h] at hleft
    rw [answers_ask, answers_ask]
    exact ⟨by simp only [hanswer, hrest], hleft⟩
  | restart defaults _ ih => exact ih (hr.restart_both defaults) (h.restart defaults) (h'.restart defaults)
  | @added s steps steps' defaults hdefaults _ ih => exact ih (hr.restart hdefaults) h (h'.restart defaults)

/-- Over an empty storage, both runs are asked the same, at the same times, and no call fails; the
    second one is opened anew at any further points, with the same defaults or, once a policy is
    stored, with any others. If the same bytes come for the salt, whatever the nonces, both give the
    same answers, and in the end the same opens under every key but those of the set-up: the same
    records, the same policy and the same payloads. -/
theorem restarts_are_invisible (master : MasterKey) (defaults : Policy) {entropy entropy' : Entropy}
    (hsalt : (Entropy.draw 32 entropy').1 = (Entropy.draw 32 entropy).1) {steps steps' : List Step}
    (h : Restarted (start master defaults entropy) steps steps') :
    let store : Store := { master, defaults }
    let ring := KeyRing.derive master (Entropy.draw 32 entropy).1.bytes
    let run := store.answers Backend.memory steps ⟨∅, entropy⟩
    let run' := store.answers Backend.memory steps' ⟨∅, entropy'⟩
    run'.1 = run.1 ∧ ∀ key, key ≠ saltKey → key ≠ checkKey → run'.2.store.contents ring key = run.2.store.contents ring key := by
  have hnone : (∅ : Memory)[saltKey]? = none := Std.ExtTreeMap.getElem?_empty
  have hsalted (entropy : Entropy) : (start master defaults entropy).salt = (Entropy.draw 32 entropy).1.bytes := by
    show (∅ : Memory)[saltKey]?.getD _ = _
    rw [hnone]
    rfl
  have hkeys : (start master defaults entropy).keys = KeyRing.derive master (Entropy.draw 32 entropy).1.bytes := by
    rw [keys, hsalted]
    rfl
  have hresumes : (start master defaults entropy).Resumes (start master defaults entropy') := by
    refine ⟨⟨rfl, ?_, fun _ _ _ => rfl⟩, .inl rfl⟩
    rw [hsalted, hsalted, hsalt]
  have hkept := kept_start master defaults
  have hrun := answers_restarted h hresumes (hkept entropy) (hkept entropy')
  rw [hkeys] at hrun
  exact hrun

/-- Three requests: the store is opened anew before the first, with the defaults it had, and before
    the second, with others that the policy stored by the first overrules. -/
theorem restarts_are_invisible_policy :
    let store : Store := { master := ⟨.tabulate 32 fun _ => 7⟩ }
    let mandate := Step.ask .epoch (.writePolicy { maxVersions := some 3 })
    let work := [Step.ask .epoch (.writeData "a" [97] none), .ask .epoch (.readData "a" none)]
    let run := store.answers Backend.memory (mandate :: work) ⟨∅, ⟨fun _ => 0, 0⟩⟩
    let run' := store.answers Backend.memory (.restart {} :: mandate :: .restart { maxVersions := 1 } :: work)
      ⟨∅, ⟨fun k => if k < 32 then 0 else 1, 0⟩⟩
    run'.1 = run.1 := by
  intro store mandate work run run'
  have hkept := kept_start ⟨.tabulate 32 fun _ => 7⟩ {} ⟨fun _ => 0, 0⟩
  have hstored := stored_of_writePolicy hkept (show (Request.writePolicy { maxVersions := some 3 }).immediate? = none from rfl) .epoch
  have hsteps : Restarted (start ⟨.tabulate 32 fun _ => 7⟩ {} ⟨fun _ => 0, 0⟩) (mandate :: work)
      (.restart {} :: mandate :: .restart { maxVersions := 1 } :: work) :=
    .added (.inl rfl) (.ask _ _ (.added (.inr hstored) (.ask _ _ (.ask _ _ .done))))
  exact (restarts_are_invisible ⟨.tabulate 32 fun _ => 7⟩ {} (by decide) hsteps).1

end Session

end Strongbox
