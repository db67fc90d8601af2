/-
  Strongbox.Proofs.Vault.LastSupplied — settings and policy hold what was last supplied.

  A change of the settings of a key, or of the policy, supplies some of the values and leaves the
  others as they are. So each value is the one that an accepted change supplied last, seen for this
  value alone. For a key only what came after it was last erased counts, and before any change
  nothing is set. The policy starts from what held when one was first stored, which is the default of
  the store that stored it. Whether a waiver of check-and-set takes effect is up to the policy in force
  when it is asked for, so a `Chronicle` tells a run together with the policies in force.

  Proved:
  - `settling_ask`: what comes of a request is a `Settling` for every path.
  - `Chronicle.settings`, `Chronicle.policy`: what the settings and the policy are after a run.
  - `partial_updates_last`: both, for every run.
-/

import Strongbox.Proofs.Record.Settings
import Strongbox.Proofs.Vault.Listing
import Strongbox.Proofs.Vault.Policies
import Strongbox.Proofs.Vault.ReadIntegrity

namespace Strongbox

open Time (Instant)
open KeyRing (checkKey)
open Vault (Effect)

/-! ## What was supplied -/

/-- The changes of the settings of a path that the event accepted. -/
def Event.settingsChanges? (path : String) : Event → Option RecordChanges
  | .asked _ _ (.writeMetadata other changes) (.ok (.accepted _ _)) => if other = path then some changes else none
  | _ => none

/-- A run, told by its events, each with the policy that was in force when it came about, the last
    first, and the session that it leads to. -/
inductive Chronicle (master : MasterKey) : List (Policy × Event) → Session → Prop
  | start (defaults : Policy) (entropy : Entropy) : Chronicle master [] (.start master defaults entropy)
  | ask {entries : List (Policy × Event)} {s : Session} {policy : Policy} (f : Faults) (now : Instant) (r : Request)
    (hp : s.contents.policy s.store.defaults = .ok policy) (before : Chronicle master entries s) :
    Chronicle master ((policy, .asked f now r (s.ask f now r).1) :: entries) (s.ask f now r).2
  | restart {entries : List (Policy × Event)} {s : Session} {policy : Policy} (defaults : Policy)
    (hp : s.contents.policy s.store.defaults = .ok policy) (before : Chronicle master entries s) :
    Chronicle master ((policy, .restarted) :: entries) (s.restart defaults)

/-- The value that an accepted change of the settings supplied last, since the path was last erased. -/
def lastSupplied {α : Type} (path : String) (field : Policy → RecordChanges → Option α) (entries : List (Policy × Event)) :
    Option α :=
  (entries.takeWhile fun entry => !entry.2.erases path).findSome? fun entry =>
    (entry.2.settingsChanges? path).bind (field entry.1)

/-- The value that an accepted change of the policy supplied last. -/
def lastRuled {α : Type} (field : PolicyChanges → Option α) (entries : List (Policy × Event)) : Option α :=
  entries.findSome? fun entry => entry.2.policyChanges?.bind field

/-- The policy in force when one was first stored. -/
def firstInForce (entries : List (Policy × Event)) : Option Policy :=
  entries.reverse.findSome? fun entry => entry.2.policyChanges?.map fun _ => entry.1

section Supplied

variable {α : Type} {path : String} {policy : Policy} {e : Event} {entries : List (Policy × Event)}

theorem lastSupplied_of_erased (he : e.erases path = true) (field : Policy → RecordChanges → Option α) :
    lastSupplied path field ((policy, e) :: entries) = none := by
  rw [lastSupplied, List.takeWhile_cons_of_neg (by simp [he])]
  rfl

theorem lastSupplied_cons (he : e.erases path = false) (field : Policy → RecordChanges → Option α) :
    lastSupplied path field ((policy, e) :: entries) =
      ((e.settingsChanges? path).bind (field policy)).or (lastSupplied path field entries) := by
  rw [lastSupplied, List.takeWhile_cons_of_pos (by simp [he]), List.findSome?_cons]
  dsimp only
  cases (e.settingsChanges? path).bind (field policy) <;> rfl

theorem lastRuled_cons (field : PolicyChanges → Option α) :
    lastRuled field ((policy, e) :: entries) = (e.policyChanges?.bind field).or (lastRuled field entries) := by
  rw [lastRuled, List.findSome?_cons]
  dsimp only
  cases e.policyChanges?.bind field <;> rfl

theorem firstInForce_cons :
    firstInForce ((policy, e) :: entries) = (firstInForce entries).or (e.policyChanges?.map fun _ => policy) := by
  rw [firstInForce, List.reverse_cons, List.findSome?_append, List.findSome?_singleton]
  rfl

/-- Nothing was supplied before a policy was first stored. -/
theorem lastRuled_of_none (h : firstInForce entries = none) (field : PolicyChanges → Option α) : lastRuled field entries = none := by
  rw [firstInForce, List.findSome?_eq_none_iff] at h
  rw [lastRuled, List.findSome?_eq_none_iff]
  intro entry hentry
  rw [Option.map_eq_none_iff.mp (h entry (List.mem_reverse.mpr hentry))]
  rfl

end Supplied

/-- The settings of a path as they were last supplied. -/
def suppliedSettings (path : String) (entries : List (Policy × Event)) : Settings where
  maxVersions := (lastSupplied path (fun _ c => c.maxVersions) entries).getD 0
  casRequired := (lastSupplied path (fun policy c => c.casRequired.map (· || policy.casRequired)) entries).getD false
  deleteVersionAfter := (lastSupplied path (fun _ c => c.deleteVersionAfter) entries).map secondsOf
  customMetadata := (lastSupplied path (fun _ c => c.customMetadata) entries).getD ∅

/-- The policy as it was last supplied, for a store with these defaults. -/
def suppliedPolicy (defaults : Policy) (entries : List (Policy × Event)) : Policy :=
  let base := (firstInForce entries).getD defaults
  { maxVersions := (lastRuled (·.maxVersions) entries).getD base.maxVersions
    casRequired := (lastRuled (·.casRequired) entries).getD base.casRequired
    deleteVersionAfter := ((lastRuled (·.deleteVersionAfter) entries).map secondsOf).or base.deleteVersionAfter }

section Folds

variable {path : String} {policy : Policy} {e : Event} {entries : List (Policy × Event)}

theorem suppliedSettings_of_erased (he : e.erases path = true) : suppliedSettings path ((policy, e) :: entries) = {} := by
  simp only [suppliedSettings, lastSupplied_of_erased he]
  rfl

theorem suppliedSettings_updated {changes : RecordChanges} (he : e.erases path = false)
    (hc : e.settingsChanges? path = some changes) :
    suppliedSettings path ((policy, e) :: entries) = (suppliedSettings path entries).updated policy changes := by
  simp only [suppliedSettings, Settings.updated, lastSupplied_cons he, hc, Option.bind_some, Option.getD_or, Option.map_or]

theorem suppliedSettings_kept (he : e.erases path = false) (hc : e.settingsChanges? path = none) :
    suppliedSettings path ((policy, e) :: entries) = suppliedSettings path entries := by
  simp only [suppliedSettings, lastSupplied_cons he, hc, Option.bind_none, Option.none_or]

theorem suppliedPolicy_kept (he : e.policyChanges? = none) (defaults : Policy) :
    suppliedPolicy defaults ((policy, e) :: entries) = suppliedPolicy defaults entries := by
  simp only [suppliedPolicy, lastRuled_cons, firstInForce_cons, he, Option.bind_none, Option.none_or, Option.map_none,
    Option.or_none]

/-- A change stores what it makes of the policy in force, whatever the defaults are later. -/
theorem suppliedPolicy_changed {changes : PolicyChanges} (he : e.policyChanges? = some changes) (defaults defaults' : Policy) :
    suppliedPolicy defaults' ((suppliedPolicy defaults entries, e) :: entries) = changes.apply (suppliedPolicy defaults entries) := by
  cases hfirst : firstInForce entries with
  | some base =>
    simp only [suppliedPolicy, PolicyChanges.apply, lastRuled_cons, firstInForce_cons, he, hfirst, Option.bind_some,
      Option.getD_or, Option.map_or, Option.or_assoc, Option.some_or, Option.getD_some]
  | none =>
    -- nothing was supplied before, so the default was in force
    simp only [suppliedPolicy, PolicyChanges.apply, lastRuled_cons, firstInForce_cons, he, hfirst, lastRuled_of_none hfirst,
      Option.bind_some, Option.map_some, Option.none_or, Option.or_none, Option.map_none, Option.getD_none, Option.getD_some]

end Folds

/-! ## What a request makes of the settings -/

/-- The settings of a record; nothing is set where there is none. -/
def settingsOf (found : Option KeyRecord) : Settings := (found.map KeyRecord.settings).getD {}

theorem settings_getD_new (found : Option KeyRecord) (path : String) (now : Instant) :
    (found.getD (KeyRecord.new path now)).settings = settingsOf found := by
  cases found <;> rfl

/-- What an event makes of the settings of a path: they go with the record, stay, or are changed
    under the policy in force. -/
inductive Settling (path : String) (policy : Policy) (e : Event) (found : Option KeyRecord) : Option KeyRecord → Prop
  | erased (he : e.erases path = true) : Settling path policy e found none
  | kept {found' : Option KeyRecord} (he : e.erases path = false) (hc : e.settingsChanges? path = none)
    (there : found ≠ none → found' ≠ none) (same : settingsOf found' = settingsOf found) : Settling path policy e found found'
  | updated {changes : RecordChanges} {found' : Option KeyRecord} (he : e.erases path = false)
    (hc : e.settingsChanges? path = some changes) (admitted : changes.rejection? policy = none)
    (set : settingsOf found' = (settingsOf found).updated policy changes) : Settling path policy e found found'

/-- Seconds that are not rejected are not negative. -/
theorem RecordChanges.nonneg_of_rejection? {changes : RecordChanges} {policy : Policy} {n : Int64}
    (h : changes.rejection? policy = none) (hn : changes.deleteVersionAfter = some n) : ¬ n < 0 := by
  intro hneg
  obtain ⟨hexpiry, _⟩ := Option.or_eq_none_iff.mp h
  rw [hn, Option.bind_some, if_pos hneg] at hexpiry
  cases hexpiry

/-- Changes that supply nothing are not rejected. -/
theorem RecordChanges.rejection?_of_no_updates {changes : RecordChanges} (h : changes.hasUpdates = false) (policy : Policy) :
    changes.rejection? policy = none := by
  rw [eq_of_no_updates h]
  rfl

namespace Event

variable {path : String} {f : Faults} {now : Instant} {r : Request}

theorem path?_of_settingsChanges? {e : Event} {changes : RecordChanges} (h : e.settingsChanges? path = some changes) :
    e.path? = some path := by
  unfold settingsChanges? at h
  split at h
  · split at h
    · rename_i hpath
      exact congrArg some hpath
    · cases h
  · cases h

theorem settingsChanges?_of_error (path : String) (f : Faults) (now : Instant) (r : Request) (e : Error) :
    (Event.asked f now r (r.settle (.error e))).settingsChanges? path = none := by
  cases r <;> rfl

/-- A request that answers without a change has not accepted changes of the settings. -/
theorem settingsChanges?_of_answered {v : Vault} {m : Memory} {answer : r.Reply} (plan : v.plan now m r = .ok (.answer answer))
    (path : String) (f : Faults) : (Event.asked f now r (r.settle (.ok answer))).settingsChanges? path = none := by
  cases r with
  | writeMetadata other changes =>
    obtain ⟨policy, _, plan⟩ := Except.of_bind_eq_ok plan
    split at plan
    · cases plan
      rfl
    · obtain ⟨record, _, plan⟩ := Except.of_bind_eq_ok plan
      cases plan
  | _ => rfl

/-- Changes that are accepted at once supply nothing. -/
theorem no_updates_of_immediate? {reply : r.Reply} {changes : RecordChanges} (h : r.immediate? = some reply)
    (hc : (Event.asked f now r (.ok reply)).settingsChanges? path = some changes) : changes.hasUpdates = false := by
  cases r with
  | writeMetadata other changes' =>
    simp only [Request.immediate?] at h
    split at h
    · cases h
      cases hc
    · split at h
      · cases h
      · rename_i hnone
        cases h
        simp only [settingsChanges?] at hc
        split at hc
        · cases hc
          exact eq_false_of_ne_true hnone
        · cases hc
  | _ => cases hc

end Event

section Requests

variable {f : Faults} {v : Vault} {now : Instant} {m m' : Memory} {r : Request} {path : String} {policy : Policy}
  {found found' : Option KeyRecord}

/-- Changes of the settings that are stored are accepted. -/
theorem Vault.accepted_of_planMetadata {changes : RecordChanges} {edits : List Edit} {commit : Edit} {a : Outcome Unit}
    (h : v.planMetadata now m path changes = .ok (.change edits commit a)) : ∃ warnings, a = .accepted () warnings := by
  obtain ⟨policy, _, h⟩ := Except.of_bind_eq_ok h
  split at h
  · cases h
  · obtain ⟨record, _, h⟩ := Except.of_bind_eq_ok h
    cases h
    exact ⟨_, rfl⟩

/-- What a change leaves of the record of a path is a settling. -/
theorem Vault.Leaves.settling {edits : List Edit} {commit : Edit} {answer : r.Reply}
    (h : Leaves v now m path found r answer found') (plan : v.plan now m r = .ok (.change edits commit answer))
    (hp : (m.contents v.ring).policy v.defaults = .ok policy) :
    Settling path policy (.asked f now r (r.settle (.ok answer))) found found' := by
  cases h with
  | other hr =>
    refine .kept ?_ ?_ id rfl
    · exact eq_false_of_ne_true fun he => hr (Event.path?_of_erases he)
    · exact Option.eq_none_iff_forall_ne_some.mpr fun changes hc => hr (Event.path?_of_settingsChanges? hc)
  | erased => exact .erased (decide_eq_true rfl)
  | @written _ _ base kept _ hbase =>
    refine .kept rfl rfl (fun _ => Option.some_ne_none _) ?_
    exact (base.settings_written now kept).trans (hbase ▸ settings_getD_new found path now)
  | @rewritten _ _ _ base after hpath hbase hrewrites =>
    have hfound : base.settings = settingsOf found := hbase ▸ settings_getD_new found path now
    cases hrewrites with
    | @settings _ changes policy' hp' admitted =>
      cases hpath
      obtain rfl : policy' = policy := Except.ok.inj (hp'.symm.trans hp)
      obtain ⟨warnings, rfl⟩ := Vault.accepted_of_planMetadata plan
      refine .updated rfl (if_pos rfl) admitted ?_
      show (((changes.underPolicy policy').1.apply base).touch now).settings = _
      rw [KeyRecord.settings_touch, KeyRecord.settings_underPolicy, hfound]
    | expired =>
      exact .kept rfl rfl (fun _ => Option.some_ne_none _) ((KeyRecord.settings_expired ..).trans hfound)
    | deleted =>
      refine .kept rfl rfl (fun _ => Option.some_ne_none _) ((KeyRecord.settings_touch ..).trans (.trans ?_ hfound))
      exact base.settings_foldl (fun r version => r.settings_markDeleted now version) _
    | undeleted =>
      refine .kept rfl rfl (fun _ => Option.some_ne_none _) ((KeyRecord.settings_touch ..).trans (.trans ?_ hfound))
      exact base.settings_foldl (fun r version => r.settings_clearDeleted version) _
    | @destroyed _ versions =>
      refine .kept rfl rfl (fun _ => Option.some_ne_none _) ((KeyRecord.settings_touch ..).trans (.trans ?_ hfound))
      exact (KeyRecord.settings_advancedOldest _).trans (base.settings_destroying versions)

/-- What comes of a request is a settling for every path. -/
theorem settling_of_effect {reply : Except Error r.Reply} (heffect : Effect f.weather v now m r reply m')
    (hp : (m.contents v.ring).policy v.defaults = .ok policy) (h : (m.contents v.ring).record v.ring path = .ok found) :
    ∃ found', (m'.contents v.ring).record v.ring path = .ok found' ∧
      Settling path policy (.asked f now r (r.settle reply)) found found' := by
  cases reply with
  | error e =>
    refine ⟨found, (heffect.views_of_error.2 path).trans h, ?_⟩
    exact .kept (Event.erases_of_error ..) (Event.settingsChanges?_of_error ..) id rfl
  | ok answer =>
    cases heffect with
    | answered plan =>
      refine ⟨found, h, ?_⟩
      obtain ⟨_, hnone⟩ := Event.of_answered plan path f
      by_cases he : (Event.asked f now r (r.settle (.ok answer))).erases path = true
      · obtain rfl : found = none := Except.ok.inj (h.symm.trans (hnone he))
        exact .erased he
      · exact .kept (eq_false_of_ne_true he) (Event.settingsChanges?_of_answered plan path f) id rfl
    | changed plan made _ =>
      obtain ⟨found', hfound', hleaves⟩ := Vault.leaves_of_changed plan made h
      exact ⟨found', hfound', hleaves.settling plan hp⟩

end Requests

namespace Session

variable {master : MasterKey} {s : Session} {path : String} {policy : Policy}

/-- What comes of asking a session is a settling for every path that can name a key. -/
theorem settling_ask {found : Option KeyRecord} (h : s.Kept master) (hvalid : KeyPath.fault? path = none)
    (hp : s.contents.policy s.store.defaults = .ok policy) (hr : s.contents.record s.ring path = .ok found) (f : Faults)
    (now : Instant) (r : Request) :
    ∃ found', (s.ask f now r).2.contents.record (s.ask f now r).2.ring path = .ok found' ∧
      Settling path policy (.asked f now r (s.ask f now r).1) found found' := by
  refine record_ask (Q := fun e => Settling path policy e found) h hr (fun reply hi => ?_) fun effect hpolicy hfound =>
    settling_of_effect effect (hpolicy.trans hp) hfound
  obtain ⟨_, he⟩ := hi.says_nothing hvalid
  cases hc : (Event.asked f now r reply).settingsChanges? path with
  | none => exact .kept he hc id rfl
  | some changes =>
    -- the changes supply nothing
    cases hi with
    | immediate hi =>
      have hnone := Event.no_updates_of_immediate? hi hc
      exact .updated he hc (RecordChanges.rejection?_of_no_updates hnone policy)
        (Settings.updated_of_no_updates hnone policy (settingsOf found)).symm
    | shut => cases hc.symm.trans (Event.settingsChanges?_of_error ..)

/-- A change of the policy that is accepted has no negative seconds. -/
theorem nonneg_of_policyChanges? {f : Faults} {now : Instant} {r : Request} {changes : PolicyChanges} {n : Int64}
    (hc : (Event.asked f now r (s.ask f now r).1).policyChanges? = some changes) (hn : changes.deleteVersionAfter = some n) :
    ¬ n < 0 := by
  cases hi : r.immediate? with
  | some reply =>
    rw [ask_of_immediate hi] at hc
    cases hc.symm.trans (Event.policyChanges?_of_immediate? hi f now)
  | none =>
    generalize (s.ask f now r).1 = reply at hc
    unfold Event.policyChanges? at hc
    split at hc
    · rename_i heq
      cases heq
      cases hc
      intro hneg
      simp [Request.immediate?, hn, hneg] at hi
    · cases hc

/-- Asking for the policy shows the one in force. -/
theorem readPolicy_ask (h : s.Kept master) (hp : s.contents.policy s.store.defaults = .ok policy) (now : Instant) :
    (s.ask Faults.none now .readPolicy).1 = .ok policy ∧
      ∀ f answer, (s.ask f now .readPolicy).1 = .ok answer → answer = policy := by
  constructor
  · have ha := asked_ask h Faults.none now .readPolicy
    generalize (s.ask Faults.none now .readPolicy).1 = reply, (s.ask Faults.none now .readPolicy).2 = s' at ha ⊢
    cases ha with
    | immediate hi => cases hi
    | shut _ _ fails _ => exact (Faults.weather_none fails).elim
    | performed _ begun _ effect =>
      have hreply := congrArg Prod.fst effect.eq_outcome
      rw [Vault.outcome, Vault.plan, (views_of_begun h begun).2, hp] at hreply
      exact hreply
  · intro f answer hok
    obtain ⟨m, world, begun, effect, _⟩ := performed_of_ok h rfl (fun _ => rfl) hok
    have hm := ((views_of_begun h begun).2 s.store.defaults).trans hp
    generalize world.store = m' at effect
    cases effect with
    | answered plan =>
      obtain ⟨inForce, hforce, plan⟩ := Except.of_bind_eq_ok plan
      cases plan
      exact Except.ok.inj (hforce.symm.trans hm)
    | changed plan =>
      obtain ⟨_, _, plan⟩ := Except.of_bind_eq_ok plan
      cases plan

end Session

/-! ## Over a run -/

section Chronicles

variable {master : MasterKey} {log : List Event} {s : Session} {path : String} {entries : List (Policy × Event)}

theorem Chronicle.runs (h : Chronicle master entries s) : Runs master (entries.map Prod.snd) s := by
  induction h with
  | start defaults entropy => exact .start defaults entropy
  | ask f now r _ _ ih => exact ih.ask f now r
  | restart defaults _ _ ih => exact ih.restart defaults

/-- Every run has a chronicle. -/
theorem Runs.chronicle (h : Runs master log s) : ∃ entries, Chronicle master entries s ∧ entries.map Prod.snd = log := by
  induction h with
  | start defaults entropy => exact ⟨[], .start defaults entropy, rfl⟩
  | @ask _ s f now r before ih =>
    obtain ⟨entries, hentries, rfl⟩ := ih
    obtain ⟨policy, hp⟩ := before.policyOpens s.store.defaults
    exact ⟨_, hentries.ask f now r hp, rfl⟩
  | @restart _ s defaults before ih =>
    obtain ⟨entries, hentries, rfl⟩ := ih
    obtain ⟨policy, hp⟩ := before.policyOpens s.store.defaults
    exact ⟨_, hentries.restart defaults hp, rfl⟩

/-- The settings hold what was last supplied, and seconds among it are not negative. -/
structure Settled (path : String) (entries : List (Policy × Event)) (found : Option KeyRecord) : Prop where
  settings : settingsOf found = suppliedSettings path entries
  nonneg : ∀ n, lastSupplied path (fun _ c => c.deleteVersionAfter) entries = some n → ¬ n < 0

/-- What a settling keeps. -/
theorem Settled.settling {policy : Policy} {e : Event} {found found' : Option KeyRecord} (h : Settled path entries found)
    (hs : Settling path policy e found found') : Settled path ((policy, e) :: entries) found' := by
  cases hs with
  | erased he =>
    refine ⟨(suppliedSettings_of_erased he).symm, ?_⟩
    rw [lastSupplied_of_erased he]
    exact nofun
  | kept he hc _ same =>
    refine ⟨same.trans (h.settings.trans (suppliedSettings_kept he hc).symm), ?_⟩
    rw [lastSupplied_cons he, hc]
    exact h.nonneg
  | updated he hc admitted set =>
    refine ⟨set.trans ?_, ?_⟩
    · rw [h.settings, suppliedSettings_updated he hc]
    · rw [lastSupplied_cons he, hc, Option.bind_some]
      intro n hn
      rcases Option.or_eq_some_iff.mp hn with hnow | ⟨_, hbefore⟩
      · exact RecordChanges.nonneg_of_rejection? admitted hnow
      · exact h.nonneg n hbefore

/-- After every run the settings of a path are as they were last supplied. -/
theorem Chronicle.settings (h : Chronicle master entries s) (hvalid : KeyPath.fault? path = none) :
    ∃ found, s.contents.record s.ring path = .ok found ∧ Settled path entries found := by
  induction h with
  | start defaults entropy =>
    exact ⟨none, Contents.record_eq_none.mpr Std.ExtTreeMap.getElem?_empty, rfl, nofun⟩
  | ask f now r hp before ih =>
    obtain ⟨found, hr, hsettled⟩ := ih
    obtain ⟨found', hr', hs⟩ := Session.settling_ask before.runs.kept hvalid hp hr f now r
    exact ⟨found', hr', hsettled.settling hs⟩
  | restart defaults hp _ ih =>
    obtain ⟨found, hr, hsettled⟩ := ih
    exact ⟨found, hr, hsettled.settling (.kept rfl rfl id rfl)⟩

/-- After every run the policy in force is as it was last supplied, whatever holds by default. -/
theorem Chronicle.policy (h : Chronicle master entries s) (defaults : Policy) :
    s.contents.policy defaults = .ok (suppliedPolicy defaults entries) := by
  induction h generalizing defaults with
  | start => exact Contents.policy_of_none (Memory.contents_eq_none.mpr Std.ExtTreeMap.getElem?_empty) defaults
  | @ask entries s policy f now r hp before ih =>
    cases Session.ruling_ask before.runs.kept f now r with
    | kept he same => rw [Contents.policy_congr same, ih, suppliedPolicy_kept he]
    | changed he hp' stored =>
      -- the policy in force is the one supplied so far
      obtain rfl := Except.ok.inj (hp'.symm.trans (ih _))
      obtain rfl := Except.ok.inj (hp.symm.trans hp')
      rw [Contents.policy_of_encoded stored, suppliedPolicy_changed he s.store.defaults defaults]
  | restart _ _ _ ih => exact (ih defaults).trans (congrArg Except.ok (suppliedPolicy_kept rfl defaults).symm)

/-- The seconds that were last supplied for the policy are not negative. -/
theorem Chronicle.ruled_nonneg (h : Chronicle master entries s) {n : Int64} (hn : lastRuled (·.deleteVersionAfter) entries = some n) :
    ¬ n < 0 := by
  induction h with
  | start => cases hn
  | ask f now r _ _ ih =>
    rw [lastRuled_cons] at hn
    rcases Option.or_eq_some_iff.mp hn with hnow | ⟨_, hbefore⟩
    · obtain ⟨changes, hc, hseconds⟩ := Option.bind_eq_some_iff.mp hnow
      exact Session.nonneg_of_policyChanges? hc hseconds
    · exact ih hbefore
  | restart _ _ _ ih => exact ih hn

/-- Seconds that are stored, as numbers. -/
theorem map_toNat_secondsOf {supplied : Option Int64} (h : ∀ n, supplied = some n → ¬ n < 0) :
    (supplied.map secondsOf).map (fun seconds => (seconds.toNat : Int)) = supplied.map Int64.toInt := by
  cases supplied with
  | none => rfl
  | some n => exact congrArg some (toNat_secondsOf (h n rfl))

end Chronicles

namespace Session

variable {master : MasterKey} {log : List Event} {s : Session}

/-- After every run, whatever calls failed and however it is told with the policies in force: every
    setting of a record is the value that an accepted change of the settings supplied last for it since
    the path was last erased, where a waiver of check-and-set under a policy that mandates it counts as
    a requirement; if none did, nothing is set. Nothing else changes them. Every value of the policy
    that is shown is the one that an accepted change of the policy supplied last for it, or else the one
    in force when a policy was first stored, or else the default. -/
theorem partial_updates_last (h : Runs master log s) :
    (∃ entries, Chronicle master entries s ∧ entries.map Prod.snd = log) ∧
    ∀ entries, Chronicle master entries s → entries.map Prod.snd = log →
      (∀ path record, s.contents.record s.ring path = .ok (some record) →
        record.maxVersions = (lastSupplied path (fun _ c => c.maxVersions) entries).getD 0 ∧
        record.casRequired = (lastSupplied path (fun policy c => c.casRequired.map (· || policy.casRequired)) entries).getD false ∧
        record.deleteVersionAfter.map (fun seconds => (seconds.toNat : Int)) =
          (lastSupplied path (fun _ c => c.deleteVersionAfter) entries).map Int64.toInt ∧
        record.customMetadata = (lastSupplied path (fun _ c => c.customMetadata) entries).getD ∅ ∧
        ∀ f now r, (Event.asked f now r (s.ask f now r).1).settingsChanges? path = none →
          (Event.asked f now r (s.ask f now r).1).erases path = false →
          ∃ after, (s.ask f now r).2.contents.record (s.ask f now r).2.ring path = .ok (some after) ∧
            after.settings = record.settings) ∧
      ∃ policy, (∀ now, (s.ask Faults.none now .readPolicy).1 = .ok policy ∧
          ∀ f answer, (s.ask f now .readPolicy).1 = .ok answer → answer = policy) ∧
        let base := (firstInForce entries).getD s.store.defaults
        policy.maxVersions = (lastRuled (·.maxVersions) entries).getD base.maxVersions ∧
        policy.casRequired = (lastRuled (·.casRequired) entries).getD base.casRequired ∧
        policy.deleteVersionAfter.map (fun seconds => (seconds.toNat : Int)) =
          ((lastRuled (·.deleteVersionAfter) entries).map Int64.toInt).or
            (base.deleteVersionAfter.map fun seconds => (seconds.toNat : Int)) := by
  refine ⟨h.chronicle, fun entries hentries _ => ⟨fun path record hr => ?_, ?_⟩⟩
  · have hvalid := HasRecord.valid h ⟨record, hr⟩
    obtain ⟨found, hfound, hsettled⟩ := hentries.settings hvalid
    obtain rfl : found = some record := Except.ok.inj (hfound.symm.trans hr)
    have hsettings : record.settings = suppliedSettings path entries := hsettled.settings
    refine ⟨congrArg Settings.maxVersions hsettings, congrArg Settings.casRequired hsettings, ?_,
      congrArg Settings.customMetadata hsettings, fun f now r hc he => ?_⟩
    · rw [← map_toNat_secondsOf hsettled.nonneg]
      exact congrArg (Option.map _) (congrArg Settings.deleteVersionAfter hsettings)
    · obtain ⟨after, hafter, hs⟩ := settling_ask h.kept hvalid (hentries.policy s.store.defaults) hr f now r
      cases hs with
      | erased hyes => cases he.symm.trans hyes
      | updated _ hchanges => cases hc.symm.trans hchanges
      | kept _ _ there same =>
        obtain ⟨after, rfl⟩ := Option.ne_none_iff_exists'.mp (there (Option.some_ne_none record))
        exact ⟨after, hafter, same⟩
  · have hp := hentries.policy s.store.defaults
    refine ⟨suppliedPolicy s.store.defaults entries, fun now => readPolicy_ask h.kept hp now, rfl, rfl, ?_⟩
    rw [suppliedPolicy, Option.map_or, map_toNat_secondsOf fun n hn => hentries.ruled_nonneg hn]

/-- What admitted changes of the settings leave if no call fails. -/
theorem record_of_settings {path : String} {changes : RecordChanges} {policy : Policy} {before : KeyRecord} (h : s.Kept master)
    (hset : s.memory[checkKey]? ≠ none) (hi : (Request.writeMetadata path changes).immediate? = none) (now : Instant)
    (hp : s.contents.policy s.store.defaults = .ok policy) (hr : s.vault.recordOrNewIn now s.memory path = .ok before)
    (admitted : changes.rejection? policy = none) :
    let s' := (s.ask Faults.none now (.writeMetadata path changes)).2
    (s.ask Faults.none now (.writeMetadata path changes)).1 = .ok (.accepted () (changes.underPolicy policy).2) ∧
      ∃ record, s'.contents.record s'.ring path = .ok (some record) := by
  intro s'
  let after := ((changes.underPolicy policy).1.apply before).touch now
  have hplan : s.vault.plan now s.memory (.writeMetadata path changes) = .ok (.change [] (Vault.recordEdit s.ring after)
      (.accepted () (changes.underPolicy policy).2)) := by
    show s.vault.planMetadata now s.memory path changes = _
    simp only [Vault.planMetadata, show (s.memory.contents s.vault.ring).policy s.vault.defaults = _ from hp, bind, Except.bind,
      admitted, hr]
    rfl
  obtain ⟨hanswer, hcontents⟩ := ask_calm h hset hi now
  rw [Vault.outcome, hplan] at hanswer hcontents
  have hkey : after.key = path := (show after.key = before.key from rfl).trans (Vault.key_of_recordOrNewIn hr)
  refine ⟨hanswer, after, ?_⟩
  rw [hcontents, ring_ask h hset]
  conv => lhs; rw [← hkey]
  exact Contents.record_recordEdit _ after

/-- The chronicle of a storage that has just been set up. -/
theorem chronicle_opened (master : MasterKey) (defaults : Policy) (entropy : Entropy) : ∃ reply,
    Chronicle master [(defaults, .asked Faults.none .epoch .readPolicy reply)] (opened master defaults entropy) := by
  refine ⟨_, .ask Faults.none .epoch .readPolicy ?_ (.start defaults entropy)⟩
  exact Contents.policy_of_none (Memory.contents_eq_none.mpr Std.ExtTreeMap.getElem?_empty) _

/-- A key whose first settings waive check-and-set against a mandate, and clear the expiry: the
    waiver counts as a requirement, and the cleared expiry is kept apart from none. -/
theorem partial_updates_last_mandated :
    let changes : RecordChanges := { casRequired := some false, deleteVersionAfter := some 0 }
    let s := ((opened ⟨.tabulate 32 fun _ => 7⟩ { casRequired := true } ⟨fun _ => 0, 0⟩).ask Faults.none .epoch
      (.writeMetadata "a" changes)).2
    ∃ record, s.contents.record s.ring "a" = .ok (some record) ∧ record.maxVersions = 0 ∧ record.casRequired = true ∧
      record.deleteVersionAfter.map (fun seconds => (seconds.toNat : Int)) = some 0 := by
  intro changes
  obtain ⟨reply, hopened⟩ := chronicle_opened ⟨.tabulate 32 fun _ => 7⟩ { casRequired := true } ⟨fun _ => 0, 0⟩
  have hset := (isSetUp_opened ⟨.tabulate 32 fun _ => 7⟩ { casRequired := true } ⟨fun _ => 0, 0⟩).check
  have hp := policy_opened ⟨.tabulate 32 fun _ => 7⟩ { casRequired := true } ⟨fun _ => 0, 0⟩
  have hr := record_opened ⟨.tabulate 32 fun _ => 7⟩ { casRequired := true } ⟨fun _ => 0, 0⟩ "a"
  generalize opened ⟨.tabulate 32 fun _ => 7⟩ { casRequired := true } ⟨fun _ => 0, 0⟩ = s at *
  have hnew : s.vault.recordOrNewIn .epoch s.memory "a" = .ok (KeyRecord.new "a" .epoch) := Vault.recordOrNewIn_of_none hr
  have hi : (Request.writeMetadata "a" changes).immediate? = none := by decide
  obtain ⟨hanswer, record, hrecord⟩ := record_of_settings hopened.runs.kept hset hi .epoch hp hnew (by decide)
  have hchronicle := hopened.ask Faults.none .epoch (.writeMetadata "a" changes) hp
  rw [hanswer] at hchronicle
  generalize (s.ask Faults.none .epoch (.writeMetadata "a" changes)).2 = s' at hchronicle hrecord ⊢
  obtain ⟨hmax, hcas, hexpiry, _⟩ := ((partial_updates_last hchronicle.runs).2 _ hchronicle rfl).1 "a" record hrecord
  exact ⟨record, hrecord, hmax, hcas, hexpiry⟩

end Session

end Strongbox
