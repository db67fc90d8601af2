/-
  Strongbox.Proofs.KeyRing.FirstUse — a set-up may be cut short, and is finished by the next.

  Nothing is assumed of the storage here. A set-up reads the salt and writes one if there is none,
  then reads the check and writes one if there is none; what it finds it never replaces. So a memory
  that a set-up would accept it still accepts once a set-up has been cut short, wherever that was:
  what is there then was either there before or is what the next set-up needs.

  Proved:
  - `comes_of_setUp`: all that can come of a set-up, with the calls it made.
  - `Acceptable.fill`, `Acceptable.fills`: what each write of a set-up keeps, a set-up keeps.
  - `attempt_of_ready`: a set-up of a storage that is set up reads salt and check, and that is all.
  - `set_up_resumes`: what set-ups write, when they succeed, and how they go on.
-/

import Mathlib.Logic.Relation
import Strongbox.Proofs.KeyRing.Setup
import Strongbox.Proofs.Storage.Attempts

namespace Strongbox.KeyRing

open Access (attempt_call attempt_bind)

/-! ## The check -/

section Check

variable {ring : KeyRing} {sealed : Bytes}

theorem verify_eq_ok : ring.verify sealed = .ok () ↔ ring.openSealed checkKey sealed = .ok marker := by
  rw [verify]
  cases ring.openSealed checkKey sealed with
  | error e => exact iff_of_false (by rintro ⟨⟩) (by rintro ⟨⟩)
  | ok plain =>
    by_cases hplain : plain = marker
    · rw [hplain]
      exact iff_of_true (if_pos rfl) rfl
    · refine iff_of_false (fun h => ?_) fun h => hplain (Except.ok.inj h)
      simp only [if_neg hplain] at h
      cases h

theorem verify_eq_error {e : StorageError} (h : ring.verify sealed = .error e) : ∃ fault, e = .decryption checkKey fault := by
  rw [verify] at h
  split at h
  · cases h
    exact ⟨_, rfl⟩
  · split at h
    · cases h
    · cases h
      exact ⟨_, rfl⟩

end Check

/-! ## All that can come of a set-up -/

/-- How the salt is come by. -/
inductive Salting (f : Faults) (world : World Memory) : Attempt Bytes → Prop
  | unread {e : StorageError} (fails : f 0 (.get saltKey) = some e) :
    Salting f world ⟨.error (.storage e), [.get saltKey], world⟩
  | found {salt : Bytes} (h : world.store[saltKey]? = some salt) : Salting f world ⟨.ok salt, [.get saltKey], world⟩
  | unwritten {salt : Block 32} {entropy : Entropy} {e : StorageError} (h : world.store[saltKey]? = none)
    (fails : f 1 (.put saltKey salt.bytes) = some e) :
    Salting f world ⟨.error (.storage e), [.put saltKey salt.bytes, .get saltKey], { world with entropy }⟩
  | made {salt : Block 32} {entropy : Entropy} (h : world.store[saltKey]? = none) :
    Salting f world ⟨.ok salt.bytes, [.put saltKey salt.bytes, .get saltKey], ⟨world.store.insert saltKey salt.bytes, entropy⟩⟩

/-- How the check comes out, after these calls. -/
inductive Checking (f : Faults) (ring : KeyRing) (calls : List Call) (world : World Memory) : Attempt Unit → Prop
  | unread {e : StorageError} (fails : f calls.length (.get checkKey) = some e) :
    Checking f ring calls world ⟨.error (.storage e), .get checkKey :: calls, world⟩
  | verified {sealed : Bytes} (h : world.store[checkKey]? = some sealed) (opens : ring.openSealed checkKey sealed = .ok marker) :
    Checking f ring calls world ⟨.ok (), .get checkKey :: calls, world⟩
  | refused {sealed : Bytes} {fault : SealFault} (h : world.store[checkKey]? = some sealed)
    (opens : ring.openSealed checkKey sealed ≠ .ok marker) :
    Checking f ring calls world ⟨.error (.storage (.decryption checkKey fault)), .get checkKey :: calls, world⟩
  | unwritten {sealed : Bytes} {entropy : Entropy} {e : StorageError} (h : world.store[checkKey]? = none)
    (fails : f (calls.length + 1) (.put checkKey sealed) = some e) :
    Checking f ring calls world ⟨.error (.storage e), .put checkKey sealed :: .get checkKey :: calls, { world with entropy }⟩
  | marked {nonce : Block 12} {entropy : Entropy} (h : world.store[checkKey]? = none) :
    Checking f ring calls world ⟨.ok (), .put checkKey (ring.sealWith nonce checkKey marker) :: .get checkKey :: calls,
      ⟨world.store.insert checkKey (ring.sealWith nonce checkKey marker), entropy⟩⟩

/-- All that can come of a set-up. -/
inductive Comes (f : Faults) (master : MasterKey) (world : World Memory) : Attempt KeyRing → Prop
  | unsalted {e : StorageError} {calls : List Call} {left : World Memory}
    (salting : Salting f world ⟨.error (.storage e), calls, left⟩) : Comes f master world ⟨.error (.storage e), calls, left⟩
  | missized {salt : Bytes} {calls : List Call} {left : World Memory} (salting : Salting f world ⟨.ok salt, calls, left⟩)
    (size : salt.length ≠ 32) :
    Comes f master world ⟨.error (.storage (.decryption saltKey (.saltSize salt.length))), calls, left⟩
  | unchecked {salt : Bytes} {e : StorageError} {calls calls' : List Call} {salted left : World Memory}
    (salting : Salting f world ⟨.ok salt, calls, salted⟩) (size : salt.length = 32)
    (checking : Checking f (derive master salt) calls salted ⟨.error (.storage e), calls', left⟩) :
    Comes f master world ⟨.error (.storage e), calls', left⟩
  | opened {salt : Bytes} {calls calls' : List Call} {salted left : World Memory}
    (salting : Salting f world ⟨.ok salt, calls, salted⟩) (size : salt.length = 32)
    (checking : Checking f (derive master salt) calls salted ⟨.ok (), calls', left⟩) :
    Comes f master world ⟨.ok (derive master salt), calls', left⟩

section Comes

variable (f : Faults) (world : World Memory)

theorem salting_ensureSalt : Salting f world (ensureSalt.attempt f [] world) := by
  show Salting f world ((Access.call (.get saltKey) _).attempt f [] world)
  rw [attempt_call]
  cases hget : f [].length (.get saltKey) with
  | some e => exact .unread hget
  | none =>
    dsimp only
    generalize hs : Memory.reply (.get saltKey) world.store = reply
    replace hs : world.store[saltKey]? = reply := hs
    cases reply with
    | some salt => exact .found hs
    | none =>
      let drawn : Block 32 × World Memory := World.draw 32 world
      show Salting f world ((Access.call (.put saltKey drawn.1.bytes) _).attempt f [.get saltKey] drawn.2)
      rw [attempt_call]
      cases hput : f [Call.get saltKey].length (.put saltKey drawn.1.bytes) with
      | some e => exact .unwritten hs hput
      | none => exact .made hs

theorem checking_ensureCheck (ring : KeyRing) (calls : List Call) :
    Checking f ring calls world ((ensureCheck ring).attempt f calls world) := by
  show Checking f ring calls world ((Access.call (.get checkKey) _).attempt f calls world)
  rw [attempt_call]
  cases hget : f calls.length (.get checkKey) with
  | some e => exact .unread hget
  | none =>
    dsimp only
    generalize hc : Memory.reply (.get checkKey) world.store = reply
    replace hc : world.store[checkKey]? = reply := hc
    cases reply with
    | some sealed =>
      show Checking f ring calls world ((Access.ofExcept (ring.verify sealed)).attempt f (.get checkKey :: calls) world)
      cases hverify : ring.verify sealed with
      | ok _ => exact .verified hc (verify_eq_ok.mp hverify)
      | error e =>
        obtain ⟨fault, rfl⟩ := verify_eq_error hverify
        refine .refused hc fun hopens => ?_
        rw [verify_eq_ok.mpr hopens] at hverify
        cases hverify
    | none =>
      let drawn : Block 12 × World Memory := World.draw 12 world
      let sealed := ring.sealWith drawn.1 checkKey marker
      show Checking f ring calls world ((Access.call (.put checkKey sealed) _).attempt f (.get checkKey :: calls) drawn.2)
      rw [attempt_call]
      cases hput : f (Call.get checkKey :: calls).length (.put checkKey sealed) with
      | some e => exact .unwritten hc hput
      | none => exact .marked hc

theorem comes_of_setUp (master : MasterKey) : Comes f master world ((setUp master).attempt f [] world) := by
  have hsalting := salting_ensureSalt f world
  rw [Access.setUp_eq, attempt_bind]
  generalize ensureSalt.attempt f [] world = salting at hsalting ⊢
  obtain ⟨result, calls, salted⟩ := salting
  cases result with
  | error e =>
    dsimp only
    obtain ⟨failure, rfl⟩ : ∃ failure, e = .storage failure := by cases hsalting <;> exact ⟨_, rfl⟩
    exact .unsalted hsalting
  | ok salt =>
    dsimp only
    by_cases hsize : salt.length = 32
    · have hchecking := checking_ensureCheck f salted (derive master salt) calls
      rw [Access.withSalt, if_neg (not_not_intro hsize), attempt_bind]
      generalize (ensureCheck (derive master salt)).attempt f calls salted = checking at hchecking ⊢
      obtain ⟨result, calls', left⟩ := checking
      cases result with
      | error e =>
        obtain ⟨failure, rfl⟩ : ∃ failure, e = .storage failure := by cases hchecking <;> exact ⟨_, rfl⟩
        exact .unchecked hsalting hsize hchecking
      | ok _ => exact .opened hsalting hsize hchecking
    · rw [Access.withSalt, if_pos hsize]
      exact .missized hsalting hsize

end Comes

/-! ## What set-ups write -/

/-- A write of a set-up: the salt where there is none, or the check where there is none. -/
inductive Fill (master : MasterKey) (m : Memory) : Memory → Prop
  | salted (salt : Block 32) (h : m[saltKey]? = none) : Fill master m (m.insert saltKey salt.bytes)
  | marked {salt : Bytes} (nonce : Block 12) (hs : m[saltKey]? = some salt) (h : m[checkKey]? = none) :
    Fill master m (m.insert checkKey ((derive master salt).sealWith nonce checkKey marker))

/-- The writes of any number of set-ups. -/
abbrev Fills (master : MasterKey) : Memory → Memory → Prop := Relation.ReflTransGen (Fill master)

/-- A set-up accepts the memory: there is no salt or it has its size, and there is no check or it
    opens to the marker, under the keys of the salt. -/
structure Acceptable (master : MasterKey) (m : Memory) : Prop where
  size : ∀ salt, m[saltKey]? = some salt → salt.length = 32
  verified : ∀ sealed, m[checkKey]? = some sealed →
    ∃ salt, m[saltKey]? = some salt ∧ (derive master salt).openSealed checkKey sealed = .ok marker

section Fills

variable {master : MasterKey} {m m' : Memory} {f : Faults} {world : World Memory} {a : Attempt KeyRing}

theorem getElem?_saltKey_insert (m : Memory) (sealed : Bytes) : (m.insert checkKey sealed)[saltKey]? = m[saltKey]? :=
  Memory.getElem?_insert_of_ne m sealed (by decide)

theorem getElem?_checkKey_insert (m : Memory) (salt : Bytes) : (m.insert saltKey salt)[checkKey]? = m[checkKey]? :=
  Memory.getElem?_insert_of_ne m salt (by decide)

/-- What is there stays, and nothing but salt and check is written. -/
theorem Fill.frame (h : Fill master m m') {key : String} (hkey : m[key]? ≠ none ∨ key ≠ saltKey ∧ key ≠ checkKey) :
    m'[key]? = m[key]? := by
  cases h with
  | salted salt hs => exact Memory.getElem?_insert_of_ne m _ (by rintro rfl; exact hkey.elim (· hs) (·.1 rfl))
  | marked nonce _ hc => exact Memory.getElem?_insert_of_ne m _ (by rintro rfl; exact hkey.elim (· hc) (·.2 rfl))

theorem Fills.frame (h : Fills master m m') {key : String} (hkey : m[key]? ≠ none ∨ key ≠ saltKey ∧ key ≠ checkKey) :
    m'[key]? = m[key]? := by
  induction h with
  | refl => rfl
  | tail _ hlast ih => exact (hlast.frame (hkey.imp_left (ih ▸ ·))).trans ih

/-- A memory that is accepted is so after each write of a set-up. -/
theorem Acceptable.fill (h : Acceptable master m) (hfill : Fill master m m') : Acceptable master m' := by
  cases hfill with
  | salted salt hs =>
    refine ⟨fun salt' hs' => ?_, fun sealed hc => ?_⟩
    · rw [Std.ExtTreeMap.getElem?_insert_self] at hs'
      exact Option.some.inj hs' ▸ salt.length_eq
    · obtain ⟨_, hs', _⟩ := h.verified sealed (getElem?_checkKey_insert m _ ▸ hc)
      rw [hs] at hs'
      cases hs'
  | marked nonce hs hc =>
    refine ⟨fun salt' hs' => h.size salt' (getElem?_saltKey_insert m _ ▸ hs'), fun sealed hc' => ?_⟩
    rw [Std.ExtTreeMap.getElem?_insert_self] at hc'
    obtain rfl := Option.some.inj hc'
    exact ⟨_, (getElem?_saltKey_insert m _).trans hs, openSealed_sealWith _ nonce checkKey marker⟩

theorem Acceptable.fills (h : Acceptable master m) (hfills : Fills master m m') : Acceptable master m' := by
  induction hfills with
  | refl => exact h
  | tail _ hlast ih => exact ih.fill hlast

theorem Salting.fills {a : Attempt Bytes} (h : Salting f world a) (master : MasterKey) :
    Fills master world.store a.world.store := by
  cases h with
  | unread => exact .refl
  | found => exact .refl
  | unwritten => exact .refl
  | made hs => exact .single (.salted _ hs)

theorem Salting.stored {salt : Bytes} {calls : List Call} {salted : World Memory}
    (h : Salting f world ⟨.ok salt, calls, salted⟩) : salted.store[saltKey]? = some salt := by
  cases h with
  | found hs => exact hs
  | made => exact Std.ExtTreeMap.getElem?_insert_self

theorem Checking.fills {a : Attempt Unit} {salt : Bytes} {calls : List Call}
    (h : Checking f (derive master salt) calls world a) (hs : world.store[saltKey]? = some salt) :
    Fills master world.store a.world.store := by
  cases h with
  | unread => exact .refl
  | verified => exact .refl
  | refused => exact .refl
  | unwritten => exact .refl
  | marked hc => exact .single (.marked _ hs hc)

theorem Comes.fills (h : Comes f master world a) : Fills master world.store a.world.store := by
  cases h with
  | unsalted salting => exact salting.fills master
  | missized salting => exact salting.fills master
  | unchecked salting _ checking => exact (salting.fills master).trans (checking.fills salting.stored)
  | opened salting _ checking => exact (salting.fills master).trans (checking.fills salting.stored)

/-- A call of a set-up: one that reads, or a write of salt or check where there was none. -/
inductive Careful (m : Memory) : Call → Prop
  | read {c : Call} (h : c.isWrite = false) : Careful m c
  | salt (value : Bytes) (h : m[saltKey]? = none) : Careful m (.put saltKey value)
  | check (value : Bytes) (h : m[checkKey]? = none) : Careful m (.put checkKey value)

theorem Salting.careful {a : Attempt Bytes} (h : Salting f world a) : ∀ c ∈ a.calls, Careful world.store c := by
  have hget : ∀ c ∈ [Call.get saltKey], Careful world.store c := List.forall_mem_singleton.mpr (.read rfl)
  cases h with
  | unread => exact hget
  | found => exact hget
  | unwritten hs => exact List.forall_mem_cons.mpr ⟨.salt _ hs, hget⟩
  | made hs => exact List.forall_mem_cons.mpr ⟨.salt _ hs, hget⟩

theorem Checking.careful {a : Attempt Unit} {ring : KeyRing} {calls : List Call} (h : Checking f ring calls world a)
    (hfills : Fills master m world.store) (hcalls : ∀ c ∈ calls, Careful m c) : ∀ c ∈ a.calls, Careful m c := by
  have hget : ∀ c ∈ .get checkKey :: calls, Careful m c := List.forall_mem_cons.mpr ⟨.read rfl, hcalls⟩
  have habsent (hc : world.store[checkKey]? = none) : m[checkKey]? = none :=
    Decidable.byContradiction fun hm => hm ((hfills.frame (.inl hm)).symm.trans hc)
  cases h with
  | unread => exact hget
  | verified => exact hget
  | refused => exact hget
  | unwritten hc => exact List.forall_mem_cons.mpr ⟨.check _ (habsent hc), hget⟩
  | marked hc => exact List.forall_mem_cons.mpr ⟨.check _ (habsent hc), hget⟩

theorem Comes.careful (h : Comes f master world a) : ∀ c ∈ a.calls, Careful world.store c := by
  cases h with
  | unsalted salting => exact salting.careful
  | missized salting => exact salting.careful
  | unchecked salting _ checking => exact checking.careful (salting.fills master) salting.careful
  | opened salting _ checking => exact checking.careful (salting.fills master) salting.careful

end Fills

/-! ## When set-ups succeed -/

section Success

variable {master : MasterKey} {ring : KeyRing} {f : Faults} {world : World Memory} {a : Attempt KeyRing}

/-- Salt and check are there and in order, and these are their keys. -/
structure Ready (master : MasterKey) (ring : KeyRing) (m : Memory) : Prop where
  salted : ∃ salt, m[saltKey]? = some salt ∧ salt.length = 32 ∧ ring = derive master salt
  marked : ∃ sealed, m[checkKey]? = some sealed ∧ ring.openSealed checkKey sealed = .ok marker

/-- A set-up that succeeds leaves a storage that is set up. -/
theorem Comes.ready (h : Comes f master world a) (hok : a.result = .ok ring) : Ready master ring a.world.store := by
  cases h with
  | unsalted => cases hok
  | missized => cases hok
  | unchecked => cases hok
  | opened salting size checking =>
    cases hok
    have hs := salting.stored
    refine ⟨⟨_, ?_, size, rfl⟩, ?_⟩
    · rw [(checking.fills hs).frame (.inl (by rw [hs]; exact Option.some_ne_none _)), hs]
    · cases checking with
      | verified hc opens => exact ⟨_, hc, opens⟩
      | marked hc => exact ⟨_, Std.ExtTreeMap.getElem?_insert_self, openSealed_sealWith _ _ checkKey marker⟩

/-- A set-up succeeds only on a memory that is acceptable. -/
theorem Comes.acceptable (h : Comes f master world a) (hok : a.result = .ok ring)
    (hsound : world.store[saltKey]? ≠ none ∨ world.store[checkKey]? = none) : Acceptable master world.store := by
  obtain ⟨⟨salt, hs, hsize, rfl⟩, ⟨sealed, hc, hopens⟩⟩ := h.ready hok
  -- what was there is there still, and was found in order
  have hstays {key : String} {value : Bytes} (hkey : world.store[key]? = some value) : a.world.store[key]? = some value :=
    (h.fills.frame (.inl (by rw [hkey]; exact Option.some_ne_none _))).trans hkey
  refine ⟨fun salt' hs' => ?_, fun sealed' hc' => ?_⟩
  · rw [hstays hs'] at hs
    cases hs
    exact hsize
  · cases hs' : world.store[saltKey]? with
    | none => exact absurd hs' (hsound.resolve_right (by rw [hc']; exact Option.some_ne_none _))
    | some salt' =>
      rw [hstays hs'] at hs
      rw [hstays hc'] at hc
      cases hs
      cases hc
      exact ⟨_, rfl, hopens⟩

/-- A set-up of a memory that it accepts succeeds, unless a call fails. -/
theorem Acceptable.opens (h : Acceptable master world.store) :
    ∃ ring, ((setUp master).attempt Faults.none [] world).result = .ok ring := by
  have hcomes := comes_of_setUp Faults.none world master
  generalize (setUp master).attempt Faults.none [] world = a at hcomes ⊢
  have hsize {salt : Bytes} {calls : List Call} {salted : World Memory}
      (salting : Salting Faults.none world ⟨.ok salt, calls, salted⟩) : salt.length = 32 :=
    (h.fills (salting.fills master)).size salt salting.stored
  cases hcomes with
  | unsalted salting => cases salting <;> contradiction
  | missized salting size => exact absurd (hsize salting) size
  | unchecked salting _ checking =>
    cases checking with
    | unread fails => cases fails
    | unwritten _ fails => cases fails
    | refused hc opens =>
      obtain ⟨salt, hs, hopens⟩ := (h.fills (salting.fills master)).verified _ hc
      rw [salting.stored] at hs
      cases hs
      exact absurd hopens opens
  | opened => exact ⟨_, rfl⟩

/-- A set-up of a memory that it does not accept writes nothing, and says that salt or check does
    not decrypt, unless a call that reads fails. -/
theorem Comes.refused (h : Comes f master world a) (hno : ¬ Acceptable master world.store)
    (hsound : world.store[saltKey]? ≠ none ∨ world.store[checkKey]? = none) :
    a.world = world ∧ (∀ c ∈ a.calls, c.isWrite = false) ∧
      (f.SparesReads → ∃ key fault, (key = saltKey ∨ key = checkKey) ∧ a.result = .error (.storage (.decryption key fault))) := by
  -- without a salt there is no check either, and such a memory is acceptable
  have hsalt : world.store[saltKey]? ≠ none := by
    refine hsound.elim id fun hc hs => hno ⟨fun salt hs' => ?_, fun sealed hc' => ?_⟩
    · rw [hs] at hs'
      cases hs'
    · rw [hc] at hc'
      cases hc'
  cases h with
  | unsalted salting =>
    cases salting with
    | unread fails => exact ⟨rfl, List.forall_mem_singleton.mpr rfl, fun hf => (hf.through rfl fails).elim⟩
    | unwritten hs => exact absurd hs hsalt
  | missized salting size =>
    cases salting with
    | found hs => exact ⟨rfl, List.forall_mem_singleton.mpr rfl, fun _ => ⟨saltKey, _, .inl rfl, rfl⟩⟩
    | made hs => exact absurd hs hsalt
  | unchecked salting size checking =>
    cases salting with
    | made hs => exact absurd hs hsalt
    | found hs =>
      have hcalls : ∀ c ∈ [Call.get checkKey, .get saltKey], c.isWrite = false := by decide
      cases checking with
      | unread fails => exact ⟨rfl, hcalls, fun hf => (hf.through rfl fails).elim⟩
      | refused hc opens => exact ⟨rfl, hcalls, fun _ => ⟨checkKey, _, .inr rfl, rfl⟩⟩
      | unwritten hc =>
        refine absurd ⟨fun salt hs' => ?_, fun sealed hc' => ?_⟩ hno
        · rw [hs] at hs'
          cases hs'
          exact size
        · rw [hc] at hc'
          cases hc'
  | opened salting size checking =>
    exact absurd ((Comes.opened salting size checking).acceptable rfl hsound) hno

theorem Salting.eq_found {a : Attempt Bytes} {salt : Bytes} (h : Salting f world a) (hf : f.SparesReads)
    (hs : world.store[saltKey]? = some salt) : a = ⟨.ok salt, [.get saltKey], world⟩ := by
  cases h with
  | unread fails => exact (hf.through rfl fails).elim
  | found hs' => rw [Option.some.inj (hs'.symm.trans hs)]
  | unwritten hs' => cases hs'.symm.trans hs
  | made hs' => cases hs'.symm.trans hs

theorem Checking.eq_verified {a : Attempt Unit} {calls : List Call} {sealed : Bytes} (h : Checking f ring calls world a)
    (hf : f.SparesReads) (hc : world.store[checkKey]? = some sealed) (opens : ring.openSealed checkKey sealed = .ok marker) :
    a = ⟨.ok (), .get checkKey :: calls, world⟩ := by
  cases h with
  | unread fails => exact (hf.through rfl fails).elim
  | verified => rfl
  | refused hc' hno => exact absurd (Option.some.inj (hc'.symm.trans hc) ▸ opens) hno
  | unwritten hc' => cases hc'.symm.trans hc
  | marked hc' => cases hc'.symm.trans hc

/-- A set-up of a storage that is set up reads salt and check, and that is all. -/
theorem attempt_of_ready (h : Ready master ring world.store) (hf : f.SparesReads) :
    (setUp master).attempt f [] world = ⟨.ok ring, [.get checkKey, .get saltKey], world⟩ := by
  obtain ⟨⟨salt, hs, hsize, rfl⟩, ⟨sealed, hc, hopens⟩⟩ := h
  rw [Access.setUp_eq, attempt_bind, (salting_ensureSalt f world).eq_found hf hs]
  dsimp only
  rw [Access.withSalt, if_neg (not_not_intro hsize), attempt_bind, (checking_ensureCheck f world _ _).eq_verified hf hc hopens]
  rfl

end Success

/-- A set-up of a storage in which there is a salt or no check yet, whichever calls fail. It changes
    nothing that is there, and writes only salt and check. If no call fails it succeeds exactly if
    the storage is acceptable, that is, if the salt, where there is one, has its size, and the check,
    where there is one, opens to the marker. What is not acceptable is left as it is and reported as
    undecryptable. An acceptable storage can be set up, also once set-ups have been cut short by
    failing calls or by a storage that refuses writes. After a success every further set-up gives
    the same keys and does nothing but read salt and check. -/
theorem set_up_resumes (master : MasterKey) (world : World Memory)
    (h : world.store[saltKey]? ≠ none ∨ world.store[checkKey]? = none) :
    (∀ f, let a := (setUp master).attempt f [] world
      (∀ key : String, world.store[key]? ≠ none ∨ key ≠ saltKey ∧ key ≠ checkKey → a.world.store[key]? = world.store[key]?) ∧
        ∀ c ∈ a.calls, Careful world.store c) ∧
      ((∃ ring, ((setUp master).attempt Faults.none [] world).result = .ok ring) ↔ Acceptable master world.store) ∧
      (¬ Acceptable master world.store → ∀ f, let a := (setUp master).attempt f [] world
        a.world = world ∧ (∀ c ∈ a.calls, c.isWrite = false) ∧ (f.SparesReads → ∃ key fault,
          (key = saltKey ∨ key = checkKey) ∧ a.result = .error (.storage (.decryption key fault)))) ∧
      (Acceptable master world.store → ∀ left, (∃ f, left = ((setUp master).attempt f [] world).world) ∨
        left = ((setUp master).run Backend.memory.readOnly world).2 →
          ∃ ring, ((setUp master).attempt Faults.none [] left).result = .ok ring) ∧
      ∀ f ring, let a := (setUp master).attempt f [] world
        a.result = .ok ring → ∀ g : Faults, g.SparesReads →
          (setUp master).attempt g [] a.world = ⟨.ok ring, [.get checkKey, .get saltKey], a.world⟩ := by
  have hcomes (f : Faults) := comes_of_setUp f world master
  refine ⟨?_, ⟨?_, ?_⟩, ?_, ?_, ?_⟩
  · exact fun f => ⟨fun key => (hcomes f).fills.frame, (hcomes f).careful⟩
  · rintro ⟨ring, hok⟩
    exact (hcomes Faults.none).acceptable hok h
  · exact Acceptable.opens
  · exact fun hno f => (hcomes f).refused hno h
  · intro hacceptable left hleft
    refine Acceptable.opens ?_
    rcases hleft with ⟨f, rfl⟩ | rfl
    · exact hacceptable.fills (hcomes f).fills
    · rw [Access.store_of_readOnly]
      exact hacceptable
  · exact fun f ring hok g hg => attempt_of_ready ((hcomes f).ready hok) hg

/-- An empty storage can be set up after a set-up whose last write failed; one whose salt is a single
    byte cannot, and stays as it is. -/
theorem set_up_resumes_empty :
    let master : MasterKey := ⟨.tabulate 32 fun _ => 7⟩
    let empty : World Memory := ⟨∅, ⟨fun _ => 0, 0⟩⟩
    let cut := (setUp master).attempt (fun k _ => if k = 3 then some (.backend "down") else none) [] empty
    let odd : World Memory := ⟨(∅ : Memory).insert saltKey [1], ⟨fun _ => 0, 0⟩⟩
    let refused := (setUp master).attempt Faults.none [] odd
    empty.store[checkKey]? = none ∧ (∃ ring, ((setUp master).attempt Faults.none [] cut.world).result = .ok ring) ∧
      odd.store[saltKey]? = some [1] ∧ (∃ key fault, refused.result = .error (.storage (.decryption key fault))) ∧
        refused.world = odd := by
  intro master empty cut odd refused
  have hempty (key : String) : empty.store[key]? = none := Std.ExtTreeMap.getElem?_empty
  have hodd : odd.store[saltKey]? = some [1] := Std.ExtTreeMap.getElem?_insert_self
  have haccepted : Acceptable master empty.store := by
    constructor
    · intro salt hs
      cases (hempty saltKey).symm.trans hs
    · intro sealed hc
      cases (hempty checkKey).symm.trans hc
  have hrefused : ¬ Acceptable master odd.store := fun h => absurd (h.size [1] hodd) (by decide)
  obtain ⟨_, _, _, hresumes, _⟩ := set_up_resumes master empty (.inr (hempty checkKey))
  obtain ⟨_, _, hleft, _⟩ := set_up_resumes master odd (.inl (by rw [hodd]; exact Option.some_ne_none _))
  obtain ⟨hworld, _, herror⟩ := hleft hrefused Faults.none
  obtain ⟨key, fault, _, hresult⟩ := herror Faults.sparesReads_none
  exact ⟨hempty checkKey, hresumes haccepted _ (.inl ⟨_, rfl⟩), hodd, ⟨key, fault, hresult⟩, hworld⟩

end Strongbox.KeyRing
