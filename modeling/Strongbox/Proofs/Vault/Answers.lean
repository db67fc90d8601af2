/-
  Strongbox.Proofs.Vault.Answers — what a store answers, request after request.

  A store is asked one request after the other and may be opened anew in between. Two stores over
  memories match if they have the same master key, defaults and salt, and the same opens under every
  key but those of the set-up. Then they answer alike and go on matching: what is going to be done
  depends on what opens, and not on the nonces it was sealed with.

  Proved:
  - `plan_of_contents`, `plan_of_defaults`: what a request is going to do depends on what opens
    outside the set-up, and on the defaults only as far as they are in force.
  - `ask_matches`: matching stores answer alike, and still match afterwards.
  - `answers_matches`: so they do over every sequence of requests and restarts.
-/

import Strongbox.Proofs.Storage.Children
import Strongbox.Proofs.Vault.Independence

namespace Strongbox

open Time (Instant)
open KeyRing (saltKey checkKey)
open Memory (Begun)
open Vault (Effect)

/-- A request at a time of its own, or opening the storage anew. -/
inductive Step where
  | ask (now : Instant) (r : Request)
  | restart (defaults : Policy)

/-- A request and the answer to it. -/
abbrev Answer := Sigma fun r : Request => Except Error r.Reply

/-- The answers to requests one after the other; a restart forgets the key ring. -/
def Store.answers {m : Type → Type} [Monad m] (b : Backend m) : List Step → Store → m (List Answer)
  | [], _ => pure []
  | .ask now r :: rest, s => do
    let (reply, s) ← s.handle b now r
    return ⟨r, reply⟩ :: (← answers b rest s)
  | .restart defaults :: rest, s => answers b rest { master := s.master, defaults }

/-! ## What requests depend on -/

namespace Vault

variable {v : Vault} {m m' : Memory}

/-- What is listed depends on where records are stored. -/
theorem namesIn_congr (h : ∀ key, initial? key = some 'm' → (m'.contents v.ring key = none ↔ m.contents v.ring key = none))
    (path : String) : v.namesIn m' path = v.namesIn m path := by
  have hkeys (relative : String) : (records v.ring).physicalKey (Sealed.directory path) ++ relative ∈ m'.keys ↔
      (records v.ring).physicalKey (Sealed.directory path) ++ relative ∈ m.keys := by
    have hinitial : initial? ((records v.ring).physicalKey (Sealed.directory path) ++ relative) = some 'm' := by
      rw [show (records v.ring).physicalKey (Sealed.directory path) = recordAddress v.ring (Sealed.directory path) from rfl,
        recordAddress_eq, String.append_assoc, initial?, String.toList_append]
      rfl
    have hstored (m : Memory) (key : String) : key ∈ m.keys ↔ ¬ m.contents v.ring key = none := by
      rw [Std.ExtTreeMap.mem_keys, ← Session.getElem?_ne_none, ne_eq, Memory.contents_eq_none]
    rw [hstored, hstored, h _ hinitial]
  have hnames : childNames ((records v.ring).physicalKey (Sealed.directory path)) m'.keys =
      childNames ((records v.ring).physicalKey (Sealed.directory path)) m.keys := by
    refine sortedNames_congr fun name => mem_sortedNames.symm.trans (Iff.trans ?_ mem_sortedNames)
    exact mem_childNames.trans ((exists_congr fun relative => and_congr_left fun _ => hkeys relative).trans mem_childNames.symm)
  simp only [namesIn, hnames]

/-- What a request is going to do depends on what opens outside the set-up. -/
theorem plan_of_contents (h : ∀ key, key ≠ saltKey → key ≠ checkKey → m'.contents v.ring key = m.contents v.ring key)
    (now : Instant) (r : Request) : v.plan now m' r = v.plan now m r := by
  have hpolicy := h policyKey (by decide) (by decide)
  have hp : (m'.contents v.ring).policy v.defaults = (m.contents v.ring).policy v.defaults := Contents.policy_congr hpolicy
  cases hpath : r.path? with
  | some path => exact plan_local hpath hpolicy fun key hentry => h key hentry.ne.2.1 hentry.ne.2.2
  | none =>
    cases r with
    | readPolicy => simp only [plan, hp]
    | writePolicy changes => simp only [plan, planPolicyChanges, hp]
    | listMetadata path =>
      have hnames : v.namesIn m' path = v.namesIn m path := by
        refine namesIn_congr (fun key hinitial => ?_) path
        rw [h key (ne_of_initial? (by rw [hinitial]; simp)) (ne_of_initial? (by rw [hinitial]; simp))]
      simp only [plan, hnames]
    | _ => cases hpath

/-- So do its answer and what it leaves. -/
theorem outcome_of_contents (h : ∀ key, key ≠ saltKey → key ≠ checkKey → m'.contents v.ring key = m.contents v.ring key)
    (now : Instant) (r : Request) : (v.outcome now m' r).1 = (v.outcome now m r).1 ∧
      ∀ key, key ≠ saltKey → key ≠ checkKey → (v.outcome now m' r).2 key = (v.outcome now m r).2 key := by
  have hplan := plan_of_contents h now r
  simp only [outcome, hplan]
  cases v.plan now m r with
  | error e => exact ⟨rfl, h⟩
  | ok plan => exact ⟨rfl, fun key hs hc => plan.after_congr (h key hs hc)⟩

/-- The defaults matter to a request only through the policy in force. -/
theorem plan_of_defaults {ring : KeyRing} {defaults defaults' : Policy}
    (h : (m.contents ring).policy defaults' = (m.contents ring).policy defaults) (now : Instant) (r : Request) :
    (Vault.mk ring defaults').plan now m r = (Vault.mk ring defaults).plan now m r := by
  cases r with
  | writeMetadata path changes => simp only [plan, planMetadata, recordOrNewIn, h]
  | writeData path data cas => simp only [plan, planWrite, recordOrNewIn, h]
  | readData path version => simp only [plan, planRead, shownIn, h]
  | readPolicy => simp only [plan, h]
  | writePolicy changes => simp only [plan, planPolicyChanges, h]
  | _ => rfl

theorem outcome_of_defaults {ring : KeyRing} {defaults defaults' : Policy}
    (h : (m.contents ring).policy defaults' = (m.contents ring).policy defaults) (now : Instant) (r : Request) :
    (Vault.mk ring defaults').outcome now m r = (Vault.mk ring defaults).outcome now m r := by
  rw [outcome, outcome, plan_of_defaults h]

end Vault

/-! ## Stores that match -/

namespace Session

variable {master : MasterKey} {now : Instant} {r : Request} {s s' : Session}

/-- The salt: the one there is, or else the bytes that will be drawn for it. -/
def salt (s : Session) : Bytes := s.memory[saltKey]?.getD (Entropy.draw 32 s.world.entropy).1.bytes

/-- The keys that come of it. -/
def keys (s : Session) : KeyRing := KeyRing.derive s.store.master s.salt

/-- All that comes of a request none of whose calls fail, also of one that sets the storage up. -/
theorem asked_calm (h : s.Kept master) (hi : r.immediate? = none) (now : Instant) :
    ∃ m, Begun s.store.master s.memory m ∧
      (s.ask Faults.none now r).1 = r.settle ((Vault.mk s.keys s.store.defaults).outcome now m r).1 ∧
      (s.ask Faults.none now r).2.memory.contents s.keys = ((Vault.mk s.keys s.store.defaults).outcome now m r).2 ∧
      (s.ask Faults.none now r).2.store = { s.store with ring := some s.keys } ∧ (s.ask Faults.none now r).2.salt = s.salt := by
  have hsalt := salt_ask h hi now
  have ha := asked_ask h Faults.none now r
  generalize (s.ask Faults.none now r).1 = answer, (s.ask Faults.none now r).2 = s' at ha hsalt ⊢
  cases ha with
  | immediate hi' => rw [hi] at hi'; cases hi'
  | shut _ _ fails _ => exact (Faults.weather_none fails).elim
  | @performed m reply world _ begun _ effect =>
    have hring : m.ring s.store.master = s.keys := by
      have hstored : m[saltKey]? = some s.salt := (effect.frame_setUp (.inl rfl)).symm.trans hsalt
      rw [Memory.ring, hstored]
      rfl
    rw [hring] at effect
    refine ⟨m, begun, ?_, ?_, by rw [hring], ?_⟩
    · rw [← effect.eq_outcome]
    · rw [← effect.eq_outcome]
    · rw [Session.salt, hsalt]
      rfl

/-- The salt that there is, or is going to be, stays. -/
theorem salt_of_ask (h : s.Kept master) (now : Instant) (r : Request) : (s.ask Faults.none now r).2.salt = s.salt := by
  cases hi : r.immediate? with
  | some reply => rw [ask_of_immediate hi]
  | none =>
    obtain ⟨_, _, _, _, _, hsalt⟩ := asked_calm h hi now
    exact hsalt

theorem master_ask (h : s.Kept master) (f : Faults) (now : Instant) (r : Request) :
    (s.ask f now r).2.store.master = s.store.master :=
  ((asked_ask h f now r).kept h).master_eq.trans h.master_eq.symm

theorem keys_ask (h : s.Kept master) (now : Instant) (r : Request) : (s.ask Faults.none now r).2.keys = s.keys := by
  rw [keys, keys, salt_of_ask h, master_ask h]

/-- The same is opened by both, and both have the same keys; they may have other defaults. -/
structure SameContents (s s' : Session) : Prop where
  master : s'.store.master = s.store.master
  salt : s'.salt = s.salt
  contents : ∀ key, key ≠ saltKey → key ≠ checkKey → s'.memory.contents s.keys key = s.memory.contents s.keys key

theorem SameContents.keys (h : s.SameContents s') : s'.keys = s.keys := by rw [Session.keys, Session.keys, h.master, h.salt]

/-- The same is opened by both, and both have the same keys. -/
structure Matches (s s' : Session) : Prop where
  master : s'.store.master = s.store.master
  defaults : s'.store.defaults = s.store.defaults
  salt : s'.salt = s.salt
  contents : ∀ key, key ≠ saltKey → key ≠ checkKey → s'.memory.contents s.keys key = s.memory.contents s.keys key

theorem Matches.sameContents (h : s.Matches s') : s.SameContents s' := ⟨h.master, h.salt, h.contents⟩

theorem Matches.restart (h : s.Matches s') (defaults : Policy) : (s.restart defaults).Matches (s'.restart defaults) where
  master := h.master
  defaults := rfl
  salt := h.salt
  contents := h.contents

/-- Stores over the same contents answer alike if what a set-up leaves puts the same policy in force
    with both defaults, and they have the same contents afterwards. -/
theorem ask_sameContents (hc : s.SameContents s') (h : s.Kept master) (h' : s'.Kept master)
    (hpolicy : ∀ m, Begun s.store.master s.memory m →
      (m.contents s.keys).policy s'.store.defaults = (m.contents s.keys).policy s.store.defaults) (now : Instant) (r : Request) :
    (s'.ask Faults.none now r).1 = (s.ask Faults.none now r).1 ∧
      (s.ask Faults.none now r).2.SameContents (s'.ask Faults.none now r).2 := by
  cases hi : r.immediate? with
  | some reply =>
    rw [ask_of_immediate hi, ask_of_immediate hi]
    exact ⟨rfl, hc⟩
  | none =>
    obtain ⟨m, begun, hanswer, hcontents, hstore, hsalt⟩ := asked_calm h hi now
    obtain ⟨m', begun', hanswer', hcontents', hstore', hsalt'⟩ := asked_calm h' hi now
    have hsame : ∀ key, key ≠ saltKey → key ≠ checkKey → m'.contents s.keys key = m.contents s.keys key := by
      intro key hs hk
      rw [Memory.contents_congr (begun'.others key hs hk), Memory.contents_congr (begun.others key hs hk), hc.contents key hs hk]
    have houtcome := Vault.outcome_of_contents (v := ⟨s.keys, s'.store.defaults⟩) hsame now r
    rw [Vault.outcome_of_defaults (hpolicy m begun)] at houtcome
    rw [hc.keys] at hanswer' hcontents'
    refine ⟨by rw [hanswer, hanswer', houtcome.1], ?_, ?_, ?_⟩
    · rw [hstore, hstore']
      exact hc.master
    · rw [hsalt, hsalt', hc.salt]
    · intro key hs hk
      rw [keys_ask h now r, hcontents, hcontents', houtcome.2 key hs hk]

/-- Stores that match answer alike, and match afterwards. -/
theorem ask_matches (hm : s.Matches s') (h : s.Kept master) (h' : s'.Kept master) (now : Instant) (r : Request) :
    (s'.ask Faults.none now r).1 = (s.ask Faults.none now r).1 ∧
      (s.ask Faults.none now r).2.Matches (s'.ask Faults.none now r).2 := by
  obtain ⟨hanswer, hafter⟩ := ask_sameContents hm.sameContents h h' (fun m _ => by rw [hm.defaults]) now r
  refine ⟨hanswer, hafter.master, ?_, hafter.salt, hafter.contents⟩
  rw [defaults_ask h, defaults_ask h', hm.defaults]

/-! ## Over a sequence of requests -/

/-- Asking a store over a memory is asking the session. -/
theorem handle_memory (s : Session) (now : Instant) (r : Request) : s.store.handle Backend.memory now r s.world =
    (((s.ask Faults.none now r).1, (s.ask Faults.none now r).2.store), (s.ask Faults.none now r).2.world) := by
  cases hi : r.immediate? with
  | some reply =>
    rw [ask_of_immediate hi, Store.handle, hi]
    rfl
  | none =>
    rw [ask_eq hi, Store.handle, hi]
    have hopen := s.store.openRing.runOn_none 0 s.world
    simp only [Bind.bind, StateT.bind]
    generalize s.store.openRing.runOn Faults.none 0 s.world = opened, s.store.openRing.run Backend.memory s.world = opened' at hopen ⊢
    obtain ⟨⟨result, k⟩, world⟩ := opened
    obtain ⟨result', world'⟩ := opened'
    obtain ⟨rfl, rfl⟩ := hopen
    cases result with
    | error e => rfl
    | ok ring =>
      have hperform := ((Vault.mk ring s.store.defaults).perform now r).runOn_none k world
      simp only [hperform.1, hperform.2]
      rfl

theorem answers_ask (s : Session) (now : Instant) (r : Request) (rest : List Step) :
    s.store.answers Backend.memory (.ask now r :: rest) s.world =
      let s₁ := (s.ask Faults.none now r).2
      (⟨r, (s.ask Faults.none now r).1⟩ :: (s₁.store.answers Backend.memory rest s₁.world).1,
        (s₁.store.answers Backend.memory rest s₁.world).2) := by
  rw [Store.answers]
  simp only [Bind.bind, StateT.bind, handle_memory]
  rfl

/-- Stores that match answer every sequence of requests alike. -/
theorem answers_matches (hm : s.Matches s') (h : s.Kept master) (h' : s'.Kept master) (steps : List Step) :
    (s'.store.answers Backend.memory steps s'.world).1 = (s.store.answers Backend.memory steps s.world).1 := by
  induction steps generalizing s s' with
  | nil => rfl
  | cons step rest ih =>
    cases step with
    | ask now r =>
      obtain ⟨hanswer, hafter⟩ := ask_matches hm h h' now r
      have hrest := ih hafter ((asked_ask h _ now r).kept h) ((asked_ask h' _ now r).kept h')
      rw [answers_ask, answers_ask]
      simp only [hanswer, hrest]
    | restart defaults => exact ih (hm.restart defaults) (h.restart defaults) (h'.restart defaults)

end Session

end Strongbox
