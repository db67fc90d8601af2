/-
  Strongbox.Proofs.Vault.Session — a store over memory and what it is asked, over whole runs.

  A session is a store with the memory behind it. It is asked one request after the other, each
  at a time of its own and with calls of its own that fail; a restart forgets the key ring. A
  run starts on an empty memory. Its log holds what was asked and answered, the last first.

  Proved:
  - `asked_ask`: all that can come of asking, from a session that is `Kept`.
  - `Runs.kept`: every session that a run leads to is `Kept`.
  - `Runs.preserve`: what set-up and every request keep, every run keeps.
-/

import Strongbox.Proofs.KeyRing.Setup
import Strongbox.Proofs.Vault.Moves
import Strongbox.Vault.Store

namespace Strongbox

open Time (Instant)
open KeyRing (saltKey checkKey)
open Memory (Begun)
open Vault (Effect)

structure Session where
  store : Store
  world : World Memory

namespace Session

/-- The memory behind the store. -/
abbrev memory (s : Session) : Memory := s.world.store

/-- The keys of the memory. -/
def ring (s : Session) : KeyRing := s.memory.ring s.store.master

/-- What opens in the memory. -/
def contents (s : Session) : Contents := s.memory.contents s.ring

/-- A store over an empty memory. -/
def start (master : MasterKey) (defaults : Policy) (entropy : Entropy) : Session :=
  ⟨{ master, defaults }, ⟨∅, entropy⟩⟩

/-- The answer to a request, whose calls fail as told, and the session after it. -/
def ask (f : Faults) (now : Instant) (r : Request) (s : Session) : Except Error r.Reply × Session :=
  match s.store.handle (Backend.faulty f.strikes Backend.memory) now r 0 s.world with
  | (((reply, store), _), world) => (reply, ⟨store, world⟩)

/-- A new store over the same memory, with the same master key. -/
def restart (defaults : Policy) (s : Session) : Session := { s with store := { master := s.store.master, defaults } }

end Session

/-- A set-up leaves alone what is neither salt nor check. -/
theorem Memory.Begun.frame {master : MasterKey} {m m' : Memory} (h : Begun master m m') {key : String}
    (hs : Vault.initial? key ≠ some 's') (hk : Vault.initial? key ≠ some 'k') : m'[key]? = m[key]? :=
  h.others key (Vault.ne_of_initial? (by simpa using hs)) (Vault.ne_of_initial? (by simpa using hk))

/-! ## Runs -/

inductive Event where
  | asked (f : Faults) (now : Instant) (r : Request) (reply : Except Error r.Reply)
  | restarted

/-- The session that a run leads to, and its log, the last event first. -/
inductive Runs (master : MasterKey) : List Event → Session → Prop
  | start (defaults : Policy) (entropy : Entropy) : Runs master [] (.start master defaults entropy)
  | ask {log : List Event} {s : Session} (f : Faults) (now : Instant) (r : Request) (before : Runs master log s) :
    Runs master (.asked f now r (s.ask f now r).1 :: log) (s.ask f now r).2
  | restart {log : List Event} {s : Session} (defaults : Policy) (before : Runs master log s) :
    Runs master (.restarted :: log) (s.restart defaults)

/-- The session that one session leads to, and what happened on the way, the last event first. -/
inductive Session.Leads (s : Session) : List Event → Session → Prop
  | here : Leads s [] s
  | ask {log : List Event} {t : Session} (f : Faults) (now : Instant) (r : Request) (before : Leads s log t) :
    Leads s (.asked f now r (t.ask f now r).1 :: log) (t.ask f now r).2
  | restart {log : List Event} {t : Session} (defaults : Policy) (before : Leads s log t) :
    Leads s (.restarted :: log) (t.restart defaults)

section Points

variable {master : MasterKey} {log later : List Event} {s t : Session}

/-- What a run leads to, a run leads to. -/
theorem Runs.leads (h : Runs master log s) (hl : s.Leads later t) : Runs master (later ++ log) t := by
  induction hl with
  | here => exact h
  | ask f now r _ ih => exact ih.ask f now r
  | restart defaults _ ih => exact ih.restart defaults

/-- A run passes through every point of its log. -/
theorem Runs.point (h : Runs master (later ++ log) t) : ∃ s, Runs master log s ∧ s.Leads later t := by
  induction later generalizing t with
  | nil => exact ⟨t, h, .here⟩
  | cons e later ih =>
    cases h with
    | ask f now r before =>
      obtain ⟨s, hs, hl⟩ := ih before
      exact ⟨s, hs, hl.ask f now r⟩
    | restart defaults before =>
      obtain ⟨s, hs, hl⟩ := ih before
      exact ⟨s, hs, hl.restart defaults⟩

theorem Runs.asked_inv {f : Faults} {now : Instant} {r : Request} {reply : Except Error r.Reply}
    (h : Runs master (.asked f now r reply :: log) t) :
    ∃ s, Runs master log s ∧ (s.ask f now r).1 = reply ∧ (s.ask f now r).2 = t := by
  cases h with
  | ask f now r before => exact ⟨_, before, rfl, rfl⟩

end Points

namespace Session

variable {f : Faults} {now : Instant} {r : Request} {s : Session}

/-! ## Asking as two programs -/

theorem ask_of_immediate {reply : r.Reply} (h : r.immediate? = some reply) : s.ask f now r = (.ok reply, s) := by
  rw [ask, Store.handle, h]
  rfl

theorem ask_eq (h : r.immediate? = none) : s.ask f now r =
    match s.store.openRing.runOn f 0 s.world with
    | ((.error e, _), world) => (r.settle (.error e), ⟨s.store, world⟩)
    | ((.ok ring, k), world) =>
      let ((reply, _), world) := ((Vault.mk ring s.store.defaults).perform now r).runOn f k world
      (r.settle reply, ⟨{ s.store with ring := some ring }, world⟩) := by
  rw [ask, Store.handle, h]
  simp only [Bind.bind, StateT.bind, Access.runOn]
  rcases s.store.openRing.run (Backend.faulty f.strikes Backend.memory) 0 s.world with ⟨⟨result, k⟩, world⟩
  cases result with
  | ok ring => rfl
  | error e => rfl

/-! ## What comes of asking -/

/-- Storage and key ring are as runs leave them. -/
structure Kept (master : MasterKey) (s : Session) : Prop where
  master_eq : s.store.master = master
  memory : s.memory.Kept master
  ring : ∀ ring, s.store.ring = some ring → ring = s.ring ∧ s.memory[checkKey]? ≠ none

theorem Kept.restart {master : MasterKey} {s : Session} (h : s.Kept master) (defaults : Policy) : (s.restart defaults).Kept master where
  master_eq := h.master_eq
  memory := h.memory
  ring := nofun

/-- All that can come of asking a session. -/
inductive Asked (f : Faults) (now : Instant) (r : Request) (s : Session) : Except Error r.Reply → Session → Prop
  | immediate {reply : r.Reply} (h : r.immediate? = some reply) : Asked f now r s (.ok reply) s
  /-- The set-up was cut short. -/
  | shut {e : StorageError} {c : Call} {world : World Memory} (h : r.immediate? = none)
    (begun : Begun s.store.master s.memory world.store) (fails : f.weather c false)
    (reads : s.memory[checkKey]? ≠ none → c.isWrite = false) : Asked f now r s (r.settle (.error (.storage e))) ⟨s.store, world⟩
  /-- The request was performed on what the set-up left. -/
  | performed {m : Memory} {reply : Except Error r.Reply} {world : World Memory} (h : r.immediate? = none)
    (begun : Begun s.store.master s.memory m) (set : m[checkKey]? ≠ none)
    (effect : Effect f.weather ⟨m.ring s.store.master, s.store.defaults⟩ now m r reply world.store) :
    Asked f now r s (r.settle reply) ⟨{ s.store with ring := some (m.ring s.store.master) }, world⟩

theorem ends_openRing {master : MasterKey} {w : Weather} (h : s.Kept master) :
    s.store.openRing.Ends w s.memory (Access.Opened master w s.memory) := by
  unfold Store.openRing
  cases hr : s.store.ring with
  | some ring =>
    obtain ⟨hring, hcheck⟩ := h.ring ring hr
    refine ⟨.refl h.memory, ?_, hcheck⟩
    rw [hring, Session.ring, h.master_eq]
  | none =>
    rw [h.master_eq]
    exact Access.ends_setUp h.memory

theorem asked_ask {master : MasterKey} (h : s.Kept master) (f : Faults) (now : Instant) (r : Request) :
    Asked f now r s (s.ask f now r).1 (s.ask f now r).2 := by
  cases hi : r.immediate? with
  | some reply =>
    rw [ask_of_immediate hi]
    exact .immediate hi
  | none =>
    rw [ask_eq hi]
    have hopen := (ends_openRing (w := f.weather) h).run 0
    rw [← h.master_eq] at hopen
    generalize s.store.openRing.runOn f 0 s.world = opened at hopen ⊢
    obtain ⟨⟨result, k⟩, world⟩ := opened
    cases result with
    | error e =>
      obtain ⟨hb, failure, c, rfl, hw, hreads⟩ := hopen
      exact .shut hi hb hw hreads
    | ok ring =>
      obtain ⟨hb, hring, hset⟩ := hopen
      replace hring : ring = world.store.ring s.store.master := hring
      subst hring
      have heffect :=
        (Vault.ends_perform f.weather ⟨world.store.ring s.store.master, s.store.defaults⟩ now world.store r).run k
      exact .performed hi hb hset heffect

/-- A request that was answered, and not at once, was performed on what the set-up left. -/
theorem performed_of_ok {master : MasterKey} {a : r.Reply} (h : s.Kept master) (hi : r.immediate? = none)
    (hsettle : ∀ reply, r.settle reply = reply) (hok : (s.ask f now r).1 = .ok a) :
    ∃ m world, Begun s.store.master s.memory m ∧
      Effect f.weather ⟨m.ring s.store.master, s.store.defaults⟩ now m r (.ok a) world.store ∧
      (s.ask f now r).2 = ⟨{ s.store with ring := some (m.ring s.store.master) }, world⟩ := by
  have ha := asked_ask h f now r
  generalize (s.ask f now r).1 = answer, (s.ask f now r).2 = s' at ha hok ⊢
  cases ha with
  | immediate hi' =>
    rw [hi] at hi'
    cases hi'
  | shut =>
    rw [hsettle] at hok
    cases hok
  | performed _ begun _ effect =>
    rw [hsettle] at hok
    subst hok
    exact ⟨_, _, begun, effect, rfl⟩

/-! ## What stays in order -/

theorem Asked.kept {master : MasterKey} {reply : Except Error r.Reply} {s' : Session} (h : s.Kept master)
    (ha : Asked f now r s reply s') : s'.Kept master := by
  have hm := h.master_eq
  cases ha with
  | immediate => exact h
  | shut _ begun _ _ =>
    refine ⟨hm, hm ▸ begun.kept, ?_⟩
    intro ring hr
    obtain ⟨hring, hset⟩ := h.ring ring hr
    rw [Session.ring, Session.memory, begun.done hset]
    exact ⟨hring, hset⟩
  | @performed m reply world _ begun set effect =>
    have hsalt := effect.frame_setUp (.inl rfl)
    have hcheck := effect.frame_setUp (.inr rfl)
    refine ⟨hm, (hm ▸ begun.kept).congr set hsalt hcheck, ?_⟩
    intro ring hr
    refine ⟨?_, hcheck ▸ set⟩
    rw [← Option.some.inj hr]
    exact (Memory.ring_congr hsalt).symm

theorem kept_start (master : MasterKey) (defaults : Policy) (entropy : Entropy) : (start master defaults entropy).Kept master where
  master_eq := rfl
  memory := Memory.kept_empty master
  ring _ h := nomatch h

end Session

theorem Runs.kept {master : MasterKey} {log : List Event} {s : Session} (h : Runs master log s) : s.Kept master := by
  induction h with
  | start defaults entropy => exact Session.kept_start master defaults entropy
  | ask f now r _ ih => exact (Session.asked_ask ih f now r).kept ih
  | restart defaults _ ih => exact ih.restart defaults

/-- An event that did nothing to the memory, except perhaps set it up. -/
inductive Event.Idle : Event → Prop
  | restarted : Idle .restarted
  | immediate {f : Faults} {now : Instant} {r : Request} {reply : r.Reply} (h : r.immediate? = some reply) :
    Idle (.asked f now r (.ok reply))
  | shut {f : Faults} {now : Instant} {r : Request} {e : Error} : Idle (.asked f now r (r.settle (.error e)))

/-- What set-up and every request keep, every run keeps. The key ring is that of the memory once
    there is a salt. -/
theorem Runs.preserve {master : MasterKey} {log : List Event} {s : Session} {ring : KeyRing}
    {I : List Event → Memory → Prop} (h : Runs master log s) (hring : s.memory[saltKey]? ≠ none → ring = s.ring)
    (h0 : I [] ∅) (hidle : ∀ e log m, e.Idle → I log m → I (e :: log) m)
    (hbegun : ∀ log m m', Begun master m m' → I log m → I log m')
    (heffect : ∀ log f now r defaults m reply m', r.immediate? = none →
      Effect f.weather ⟨ring, defaults⟩ now m r reply m' → I log m → I (.asked f now r (r.settle reply) :: log) m') :
    I log s.memory := by
  induction h with
  | start => exact h0
  | restart defaults _ ih => exact hidle _ _ _ .restarted (ih hring)
  | @ask log s f now r before ih =>
    have hmaster := before.kept.master_eq
    have hasked := Session.asked_ask before.kept f now r
    generalize (s.ask f now r).1 = reply, (s.ask f now r).2 = s' at hasked hring ⊢
    cases hasked with
    | immediate hi => exact hidle _ _ _ (.immediate hi) (ih hring)
    | shut _ begun _ _ =>
      refine hidle _ _ _ .shut (hbegun _ _ _ (hmaster ▸ begun) (ih fun hs => ?_))
      have hsalt := begun.salt hs
      exact (hring (hsalt ▸ hs)).trans (Memory.ring_congr hsalt)
    | performed hi begun set effect =>
      have hframe := effect.frame_setUp (.inl rfl)
      have hsalt := fun h0 => set (begun.kept.blank h0 checkKey)
      have hm := (hring (hframe ▸ hsalt)).trans (Memory.ring_congr hframe)
      refine heffect _ f now r s.store.defaults _ _ _ hi ?_ (hbegun _ _ _ (hmaster ▸ begun) (ih fun hs => ?_))
      · rw [hm]
        exact effect
      · exact hm.trans (Memory.ring_congr (begun.salt hs))

namespace Session

variable {master : MasterKey} {f : Faults} {now : Instant} {r : Request} {s : Session}

theorem defaults_ask (h : s.Kept master) (f : Faults) (now : Instant) (r : Request) :
    (s.ask f now r).2.store.defaults = s.store.defaults := by
  have ha := asked_ask h f now r
  generalize (s.ask f now r).1 = answer, (s.ask f now r).2 = s' at ha ⊢
  cases ha <;> rfl

/-! ## Storage that has been set up -/

/-- Salt and check are there. -/
def IsSetUp (s : Session) : Prop := saltKey ∈ s.memory ∧ checkKey ∈ s.memory

theorem getElem?_ne_none {m : Memory} {key : String} : m[key]? ≠ none ↔ key ∈ m := by
  rw [← Std.ExtTreeMap.isSome_getElem?_iff_mem]
  cases m[key]? <;> simp

theorem IsSetUp.check (h : s.IsSetUp) : s.memory[checkKey]? ≠ none := getElem?_ne_none.mpr h.2

/-- The first request that is not answered at once sets the storage up. -/
theorem isSetUp_ask (h : s.Kept master) (hi : r.immediate? = none) (now : Instant) : (s.ask Faults.none now r).2.IsSetUp := by
  have ha := asked_ask h Faults.none now r
  generalize (s.ask Faults.none now r).1 = answer, (s.ask Faults.none now r).2 = s' at ha ⊢
  cases ha with
  | immediate h => rw [hi] at h; cases h
  | shut _ _ fails _ => exact (Faults.weather_none fails).elim
  | performed _ begun set effect =>
    refine ⟨getElem?_ne_none.mp ?_, getElem?_ne_none.mp ?_⟩
    · rw [Session.memory, effect.frame_setUp (.inl rfl)]
      exact fun h0 => set (begun.kept.blank h0 _)
    · rw [Session.memory, effect.frame_setUp (.inr rfl)]
      exact set

/-- The salt that opening leaves: the one there was, or else the bytes that are drawn. -/
theorem salt_openRing (h : s.Kept master) : (s.store.openRing.runOn Faults.none 0 s.world).2.store[saltKey]? =
    some (s.memory[saltKey]?.getD (Entropy.draw 32 s.world.entropy).1.bytes) := by
  unfold Store.openRing
  cases hr : s.store.ring with
  | none => exact Access.salt_of_setUp (h.master_eq ▸ h.memory) 0
  | some ring =>
    cases hs : s.memory[saltKey]? with
    | none => exact absurd (h.memory.blank hs checkKey) (h.ring ring hr).2
    | some salt => exact hs

/-- The salt that the first request leaves: the one there was, or else the bytes that are drawn. -/
theorem salt_ask (h : s.Kept master) (hi : r.immediate? = none) (now : Instant) :
    (s.ask Faults.none now r).2.memory[saltKey]? =
      some (s.memory[saltKey]?.getD (Entropy.draw 32 s.world.entropy).1.bytes) := by
  have hopen := (ends_openRing (w := Faults.none.weather) h).run 0
  have hsalt := salt_openRing h
  rw [ask_eq hi]
  generalize s.store.openRing.runOn Faults.none 0 s.world = opened at hopen hsalt ⊢
  obtain ⟨⟨result, k⟩, world⟩ := opened
  cases result with
  | error e =>
    obtain ⟨_, _, _, _, hw, _⟩ := hopen
    exact (Faults.weather_none hw).elim
  | ok ring =>
    have heffect := (Vault.ends_perform Faults.none.weather ⟨ring, s.store.defaults⟩ now world.store r).run (f := Faults.none) k
    exact (heffect.frame_setUp (.inl rfl)).trans hsalt

/-- What the store works with once it is set up. -/
def vault (s : Session) : Vault := ⟨s.ring, s.store.defaults⟩

/-- What a set-up storage makes of a request. -/
theorem effect_ask (h : s.Kept master) (hset : s.memory[checkKey]? ≠ none) (hi : r.immediate? = none) (f : Faults)
    (now : Instant) : ∃ reply, (s.ask f now r).1 = r.settle reply ∧
      Effect f.weather s.vault now s.memory r reply (s.ask f now r).2.memory := by
  have ha := asked_ask h f now r
  generalize (s.ask f now r).1 = answer, (s.ask f now r).2 = s' at ha ⊢
  cases ha with
  | immediate h => rw [hi] at h; cases h
  | @shut e c world _ begun fails reads =>
    refine ⟨_, rfl, ?_⟩
    show Effect f.weather s.vault now s.memory r _ world.store
    rw [begun.done hset]
    exact .unread (reads hset) fails
  | performed _ begun _ effect =>
    rw [begun.done hset] at effect
    exact ⟨_, rfl, effect⟩

/-- The store and its keys stay the same. -/
theorem vault_ask (h : s.Kept master) (hset : s.memory[checkKey]? ≠ none) (f : Faults) (now : Instant) (r : Request) :
    (s.ask f now r).2.vault = s.vault ∧ (s.ask f now r).2.memory[checkKey]? = s.memory[checkKey]? := by
  have ha := asked_ask h f now r
  generalize (s.ask f now r).1 = answer, (s.ask f now r).2 = s' at ha ⊢
  cases ha with
  | immediate h => exact ⟨rfl, rfl⟩
  | @shut e c world _ begun _ _ =>
    have hm : world.store = s.memory := begun.done hset
    simp only [vault, ring, memory, hm, and_self]
  | @performed m reply world _ begun _ effect =>
    rw [begun.done hset] at effect
    have hring : world.store.ring s.store.master = s.memory.ring s.store.master :=
      Memory.ring_congr (effect.frame_setUp (.inl rfl))
    exact ⟨by simp only [vault, ring, hring], effect.frame_setUp (.inr rfl)⟩

theorem ring_ask (h : s.Kept master) (hset : s.memory[checkKey]? ≠ none) (f : Faults) (now : Instant) (r : Request) :
    (s.ask f now r).2.ring = s.ring := congrArg Vault.ring (vault_ask h hset f now r).1

/-- The answer to a request none of whose calls fail, and what opens afterwards. -/
theorem ask_calm (h : s.Kept master) (hset : s.memory[checkKey]? ≠ none) (hi : r.immediate? = none) (now : Instant) :
    (s.ask Faults.none now r).1 = r.settle (s.vault.outcome now s.memory r).1 ∧
      (s.ask Faults.none now r).2.contents = (s.vault.outcome now s.memory r).2 := by
  obtain ⟨reply, hreply, heffect⟩ := effect_ask h hset hi Faults.none now
  rw [hreply, contents, ring_ask h hset, ← heffect.eq_outcome]
  exact ⟨rfl, rfl⟩

/-! ## A storage just set up -/

/-- A store whose first request set the storage up. -/
def opened (master : MasterKey) (defaults : Policy) (entropy : Entropy) : Session :=
  ((start master defaults entropy).ask Faults.none .epoch .readPolicy).2

variable (master : MasterKey) (defaults : Policy) (entropy : Entropy)

theorem runs_opened : Runs master
    [.asked Faults.none .epoch .readPolicy ((start master defaults entropy).ask Faults.none .epoch .readPolicy).1]
    (opened master defaults entropy) :=
  (Runs.start defaults entropy).ask Faults.none .epoch .readPolicy

theorem isSetUp_opened : (opened master defaults entropy).IsSetUp :=
  isSetUp_ask (kept_start master defaults entropy) rfl .epoch

/-- The keys are those of the first bytes drawn. -/
theorem ring_opened : (opened master defaults entropy).ring = KeyRing.derive master (Entropy.draw 32 entropy).1.bytes := by
  have hmaster := (runs_opened master defaults entropy).kept.master_eq
  have hsalt : (opened master defaults entropy).memory[saltKey]? = some (Entropy.draw 32 entropy).1.bytes := by
    refine (salt_ask (kept_start master defaults entropy) (r := .readPolicy) rfl .epoch).trans ?_
    have hnone : (start master defaults entropy).memory[saltKey]? = none := Std.ExtTreeMap.getElem?_empty
    rw [hnone]
    rfl
  rw [ring, hmaster, Memory.ring, hsalt]
  rfl

/-- Nothing but salt and check is stored. -/
theorem getElem?_opened (key : String) (hs : key ≠ saltKey) (hc : key ≠ checkKey) :
    (opened master defaults entropy).memory[key]? = none := by
  unfold opened
  have ha := asked_ask (kept_start master defaults entropy) Faults.none .epoch .readPolicy
  generalize ((start master defaults entropy).ask Faults.none .epoch .readPolicy).1 = answer,
    ((start master defaults entropy).ask Faults.none .epoch .readPolicy).2 = s' at ha ⊢
  cases ha with
  | immediate h => cases h
  | shut _ _ fails _ => exact (Faults.weather_none fails).elim
  | @performed m reply world _ begun _ effect =>
    show world.store[key]? = none
    have hm : m[key]? = none := (begun.others key hs hc).trans Std.ExtTreeMap.getElem?_empty
    generalize world.store = m' at effect
    cases effect with
    | unread => exact hm
    | broken => exact hm
    | answered => exact hm
    | interrupted _ _ _ fails => exact (Faults.weather_none fails).elim
    | changed plan =>
      obtain ⟨_, _, plan⟩ := Except.of_bind_eq_ok plan
      cases plan

theorem defaults_opened : (opened master defaults entropy).store.defaults = defaults :=
  defaults_ask (kept_start master defaults entropy) Faults.none .epoch .readPolicy

theorem policy_opened :
    (opened master defaults entropy).contents.policy (opened master defaults entropy).store.defaults = .ok defaults := by
  have hm := getElem?_opened master defaults entropy Vault.policyKey (by decide) (by decide)
  rw [defaults_opened, Contents.policy, Contents.lookup, contents, Memory.contents, hm]
  rfl

theorem record_opened (path : String) :
    (opened master defaults entropy).contents.record (opened master defaults entropy).ring path = .ok none := by
  have hm := getElem?_opened master defaults entropy (Vault.recordAddress (opened master defaults entropy).ring path)
    (Vault.ne_of_initial? (by simp)) (Vault.ne_of_initial? (by simp))
  exact Contents.record_eq_none.mpr hm

end Session

end Strongbox
