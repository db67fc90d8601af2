/-
  Strongbox.Proofs.Vault.Policies — what an event makes of the policy.

  The policy stands under a key of its own. An accepted change of it stores what it makes of the
  policy in force; nothing else touches that key, so a policy once stored stays, and from then on the
  defaults of a store make no difference.

  Proved:
  - `Session.ruling_ask`: what comes of a request is a `Ruling`.
  - `Contents.policy_of_stored`, `Ruling.stored`: a stored policy is in force, and stays.
-/

import Strongbox.Proofs.Vault.Succession

namespace Strongbox

open Time (Instant)
open KeyRing (saltKey checkKey)
open Vault (Effect policyKey)

/-- The changes of the policy that the event accepted. -/
def Event.policyChanges? : Event → Option PolicyChanges
  | .asked _ _ (.writePolicy changes) (.ok (.accepted _ _)) => some changes
  | _ => none

/-- What an event makes of the policy: it stays, or what the changes make of the one in force is
    stored. -/
inductive Ruling (e : Event) (defaults : Policy) (c c' : Contents) : Prop
  | kept (he : e.policyChanges? = none) (same : c' policyKey = c policyKey)
  | changed {changes : PolicyChanges} {policy : Policy} (he : e.policyChanges? = some changes)
    (hp : c.policy defaults = .ok policy) (stored : c' policyKey = some (.ok (changes.apply policy).encode))

/-! ## From requests to rulings -/

namespace Event

variable {f : Faults} {now : Instant} {r : Request}

theorem policyChanges?_of_error (f : Faults) (now : Instant) (r : Request) (e : Error) :
    (Event.asked f now r (r.settle (.error e))).policyChanges? = none := by
  cases r <;> rfl

theorem policyChanges?_of_path {path : String} (hpath : r.path? = some path) (reply : Except Error r.Reply) :
    (Event.asked f now r reply).policyChanges? = none := by
  cases r <;> first | rfl | cases hpath

/-- An answer given at once does not change the policy. -/
theorem policyChanges?_of_immediate? {reply : r.Reply} (h : r.immediate? = some reply) (f : Faults) (now : Instant) :
    (Event.asked f now r (.ok reply)).policyChanges? = none := by
  cases r with
  | writePolicy changes =>
    simp only [Request.immediate?] at h
    split at h
    · cases h
      rfl
    · cases h
  | _ => rfl

end Event

section Requests

variable {w : Weather} {v : Vault} {m m' : Memory} {r : Request}

/-- What comes of a request is a ruling. -/
theorem Vault.Effect.ruling {now : Instant} {reply : Except Error r.Reply} (h : Effect w v now m r reply m') (f : Faults) :
    Ruling (.asked f now r (r.settle reply)) v.defaults (m.contents v.ring) (m'.contents v.ring) := by
  cases reply with
  | error e =>
    refine .kept (Event.policyChanges?_of_error f now r e) (Memory.contents_congr (h.frame_of_error fun hpayload => ?_))
    have hinitial := Vault.initial?_of_isPayload hpayload
    simp at hinitial
  | ok a =>
    cases h with
    | answered plan =>
      refine .kept ?_ rfl
      cases r with
      | writePolicy changes =>
        obtain ⟨_, _, plan⟩ := Except.of_bind_eq_ok plan
        cases plan
      | _ => rfl
    | changed plan made _ =>
      have hmove := Vault.move_of_plan plan
      rw [Memory.contents_after, made.contents]
      cases hmove with
      | policy hp => exact .changed rfl hp (if_pos rfl)
      | erase =>
        exact .kept rfl ((Contents.edit_of_ne (Vault.ne_of_initial? (by simp))).trans
          (Vault.edits_of_payloads (Vault.erased_isPayload _ _ _) _ (by simp)))
      | write =>
        exact .kept rfl ((Contents.edit_of_ne (Vault.ne_of_initial? (by simp))).trans
          (Vault.edits_of_payloads (Vault.writeEdits_isPayload _ _ _ _ _) _ (by simp)))
      | revise hpath =>
        exact .kept (Event.policyChanges?_of_path (Request.path?_of_revised? hpath) _)
          ((Contents.edit_of_ne (Vault.ne_of_initial? (by simp))).trans
            (Vault.edits_of_payloads (Vault.erased_isPayload _ _ _) _ (by simp)))

end Requests

namespace Session

variable {master : MasterKey} {s : Session}

/-- A set-up leaves what is under the key of the policy, which is nothing unless it was done before. -/
theorem policyKey_of_begun {m : Memory} (h : s.Kept master) (hb : Memory.Begun s.store.master s.memory m) :
    m.contents (m.ring s.store.master) policyKey = s.contents policyKey := by
  by_cases hset : s.memory[checkKey]? = none
  · have hs : policyKey ≠ saltKey := Vault.ne_of_initial? (by simp)
    have hc : policyKey ≠ checkKey := Vault.ne_of_initial? (by simp)
    have hnone := h.memory.bare hset _ hs
    rw [contents, Memory.contents_eq_none.mpr hnone]
    exact Memory.contents_eq_none.mpr ((hb.others _ hs hc).trans hnone)
  · obtain rfl := hb.done hset
    rfl

/-- What comes of asking a session is a ruling. -/
theorem ruling_ask (h : s.Kept master) (f : Faults) (now : Instant) (r : Request) :
    Ruling (.asked f now r (s.ask f now r).1) s.store.defaults s.contents (s.ask f now r).2.contents := by
  have ha := asked_ask h f now r
  generalize (s.ask f now r).1 = reply, (s.ask f now r).2 = s' at ha ⊢
  cases ha with
  | immediate hi =>
    exact .kept (Event.policyChanges?_of_immediate? hi f now) rfl
  | @shut e c world _ begun _ _ =>
    show Ruling _ _ _ (world.store.contents (world.store.ring s.store.master))
    exact .kept (Event.policyChanges?_of_error f now r (.storage e)) (policyKey_of_begun h begun)
  | @performed m reply world _ begun _ effect =>
    have hring : world.store.ring s.store.master = m.ring s.store.master := Memory.ring_congr (effect.frame_setUp (.inl rfl))
    have hsame := policyKey_of_begun h begun
    show Ruling _ _ _ (world.store.contents (world.store.ring s.store.master))
    rw [hring]
    cases effect.ruling f with
    | kept he same => exact .kept he (same.trans hsame)
    | changed he hp stored => exact .changed he ((Contents.policy_congr hsame).symm.trans hp) stored

/-- A storage that only a key was written to has no policy. -/
theorem policyKey_written (master : MasterKey) (entropy : Entropy) (path : String) (data : Bytes) (cas : Option UInt64) :
    (written master entropy path data cas).contents policyKey = none := by
  have hruling := ruling_ask (runs_opened master {} entropy).kept Faults.none .epoch (.writeData path data cas)
  rw [written]
  cases hruling with
  | kept _ same =>
    rw [same]
    exact Memory.contents_eq_none.mpr (getElem?_opened master {} entropy policyKey (by decide) (by decide))
  | changed he => cases he.symm.trans (Event.policyChanges?_of_path rfl _)

end Session

/-! ## A stored policy -/

/-- What is stored is in force, whatever holds by default. -/
theorem Contents.policy_of_stored {c : Contents} (h : c policyKey ≠ none) (defaults defaults' : Policy) :
    c.policy defaults = c.policy defaults' := by
  rw [policy, policy]
  cases hl : c.lookup policyKey with
  | error e => rfl
  | ok found =>
    cases found with
    | none => exact absurd (lookup_eq_none.mp hl) h
    | some bytes => rfl

/-- While none is stored, the default holds. -/
theorem Contents.policy_of_none {c : Contents} (h : c policyKey = none) (defaults : Policy) : c.policy defaults = .ok defaults := by
  rw [policy, lookup_eq_none.mpr h]
  rfl

theorem Contents.policy_of_encoded {c : Contents} {policy : Policy} (h : c policyKey = some (.ok policy.encode))
    (defaults : Policy) : c.policy defaults = .ok policy := by
  have hsame : c policyKey = (c.edit (Vault.policyEdit policy)) policyKey := h.trans (if_pos rfl).symm
  exact (policy_congr hsame).trans (policy_policyEdit c policy defaults)

/-- A policy that is stored stays. -/
theorem Ruling.stored {e : Event} {defaults : Policy} {c c' : Contents} (h : Ruling e defaults c c') (hc : c policyKey ≠ none) :
    c' policyKey ≠ none := by
  cases h with
  | kept _ same => exact same ▸ hc
  | changed _ _ stored =>
    rw [stored]
    exact Option.some_ne_none _

end Strongbox
