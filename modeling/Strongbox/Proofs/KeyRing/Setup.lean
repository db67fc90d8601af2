/-
  Strongbox.Proofs.KeyRing.Setup — how the set-up of a storage ends.

  The salt is written first, the sealed marker second, and nothing else before both are there.
  `Kept` says that a memory is as set-ups leave it that may have been cut short at any call. A
  set-up of such a memory never finds anything out of order: it fails only if a call fails.

  Proved:
  - `ends_setUp`: a set-up leaves what `Begun` says, and succeeds with the keys of the salt.
-/

import Strongbox.KeyRing.Setup
import Strongbox.Proofs.Storage.Contents

namespace Strongbox

open KeyRing (saltKey checkKey marker)

namespace Memory

/-- The keys of a memory, as its salt says. -/
def ring (master : MasterKey) (m : Memory) : KeyRing := KeyRing.derive master (m[saltKey]?.getD [])

/-- Salt and marker are in order, and nothing else is stored before both are. -/
structure Kept (master : MasterKey) (m : Memory) : Prop where
  blank : m[saltKey]? = none → ∀ key : String, m[key]? = none
  size : ∀ salt, m[saltKey]? = some salt → salt.length = 32
  bare : m[checkKey]? = none → ∀ key : String, key ≠ saltKey → m[key]? = none
  verified : ∀ sealed, m[checkKey]? = some sealed → (m.ring master).verify sealed = .ok ()

/-- The second memory is the first one after a set-up that may have been cut short. -/
structure Begun (master : MasterKey) (m m' : Memory) : Prop where
  kept : m'.Kept master
  others : ∀ key : String, key ≠ saltKey → key ≠ checkKey → m'[key]? = m[key]?
  salt : m[saltKey]? ≠ none → m'[saltKey]? = m[saltKey]?
  done : m[checkKey]? ≠ none → m' = m

theorem ring_congr {master : MasterKey} {m m' : Memory} (h : m'[saltKey]? = m[saltKey]?) :
    m'.ring master = m.ring master := by rw [ring, ring, h]

variable {master : MasterKey} {m : Memory}

theorem kept_empty (master : MasterKey) : Kept master (∅ : Memory) where
  blank _ key := Std.ExtTreeMap.getElem?_empty
  size salt h := by rw [Std.ExtTreeMap.getElem?_empty] at h; cases h
  bare _ key _ := Std.ExtTreeMap.getElem?_empty
  verified sealed h := by rw [Std.ExtTreeMap.getElem?_empty] at h; cases h

/-- What touches neither salt nor marker keeps a memory in order that was set up. -/
theorem Kept.congr {m' : Memory} (h : m.Kept master) (hset : m[checkKey]? ≠ none) (hsalt : m'[saltKey]? = m[saltKey]?)
    (hcheck : m'[checkKey]? = m[checkKey]?) : m'.Kept master where
  blank h0 := by
    rw [hsalt] at h0
    exact absurd (h.blank h0 checkKey) hset
  size salt h0 := h.size salt (hsalt ▸ h0)
  bare h0 := absurd (hcheck ▸ h0) hset
  verified sealed h0 := by
    rw [ring_congr hsalt]
    exact h.verified sealed (hcheck ▸ h0)

theorem Begun.refl (h : m.Kept master) : Begun master m m := ⟨h, fun _ _ _ => rfl, fun _ => rfl, fun _ => rfl⟩

theorem verify_marker (ring : KeyRing) (nonce : Block 12) : ring.verify (ring.sealWith nonce checkKey marker) = .ok () := by
  rw [KeyRing.verify, KeyRing.openSealed_sealWith]
  rfl

/-- A salt that was written where there was nothing. -/
theorem Kept.salted (h : m.Kept master) (hs : m[saltKey]? = none) (salt : Block 32) :
    Begun master m (m.insert saltKey salt.bytes) := by
  have hne : checkKey ≠ saltKey := by decide
  have hblank := h.blank hs
  have hsalt : (m.insert saltKey salt.bytes)[saltKey]? = some salt.bytes := Std.ExtTreeMap.getElem?_insert_self
  refine ⟨⟨?_, ?_, ?_, ?_⟩, ?_, ?_, ?_⟩
  · intro h0
    rw [hsalt] at h0
    cases h0
  · intro s h0
    rw [hsalt] at h0
    exact Option.some.inj h0 ▸ salt.length_eq
  · intro _ key hk
    rw [getElem?_insert_of_ne m _ hk, hblank]
  · intro sealed h0
    rw [getElem?_insert_of_ne m _ hne, hblank] at h0
    cases h0
  · intro key hk _
    exact getElem?_insert_of_ne m _ hk
  · intro h0
    exact absurd hs h0
  · intro h0
    exact absurd (hblank checkKey) h0

/-- A marker that was written beside a salt. -/
theorem Kept.marked (h : m.Kept master) (hs : m[saltKey]? ≠ none) (hc : m[checkKey]? = none) (nonce : Block 12) :
    Begun master m (m.insert checkKey ((m.ring master).sealWith nonce checkKey marker)) := by
  have hne : saltKey ≠ checkKey := by decide
  have hsalt := getElem?_insert_of_ne m ((m.ring master).sealWith nonce checkKey marker) hne
  refine ⟨⟨?_, ?_, ?_, ?_⟩, ?_, ?_, ?_⟩
  · intro h0
    exact absurd (hsalt ▸ h0) hs
  · intro salt h0
    exact h.size salt (hsalt ▸ h0)
  · intro h0
    rw [Std.ExtTreeMap.getElem?_insert_self] at h0
    cases h0
  · intro sealed h0
    rw [Std.ExtTreeMap.getElem?_insert_self] at h0
    rw [← Option.some.inj h0, ring_congr hsalt]
    exact verify_marker _ nonce
  · intro key _ hk
    exact getElem?_insert_of_ne m _ hk
  · intro _
    exact hsalt
  · intro h0
    exact absurd hc h0

theorem Begun.trans {m' m'' : Memory} (h : Begun master m m') (h' : Begun master m' m'') : Begun master m m'' where
  kept := h'.kept
  others key hs hc := (h'.others key hs hc).trans (h.others key hs hc)
  salt h0 := (h'.salt (h.salt h0 ▸ h0)).trans (h.salt h0)
  done h0 := by
    have he := h.done h0
    exact (h'.done (he ▸ h0)).trans he

end Memory

namespace Access

open Memory

variable {master : MasterKey} {w : Weather} {m : Memory}

/-- A call of a set-up failed; if both salt and marker are there, it is one that reads. -/
def CutShort (w : Weather) (m : Memory) (e : Error) : Prop :=
  ∃ failure c, e = .storage failure ∧ w c false ∧ (m[checkKey]? ≠ none → c.isWrite = false)

/-- How a set-up ends: with the keys of the salt, or because a call failed. -/
def Opened (master : MasterKey) (w : Weather) (m : Memory) (result : Except Error KeyRing) (m' : Memory) : Prop :=
  Begun master m m' ∧
    match result with
    | .ok ring => ring = m'.ring master ∧ m'[checkKey]? ≠ none
    | .error e => CutShort w m e

theorem ends_ensureCheck (hk : m.Kept master) (hs : m[saltKey]? ≠ none) :
    (KeyRing.ensureCheck (m.ring master)).Ends w m fun result m' =>
      Begun master m m' ∧
        match result with
        | .ok _ => m'[checkKey]? ≠ none
        | .error e => CutShort w m e := by
  refine ⟨fun hw e => ⟨.refl hk, e, _, rfl, hw, fun _ => rfl⟩, fun _ => ?_⟩
  generalize hc : Memory.reply (.get checkKey) m = reply
  replace hc : m[checkKey]? = reply := hc
  cases reply with
  | some sealed =>
    show Ends w (Access.ofExcept ((m.ring master).verify sealed)) m _
    rw [hk.verified sealed hc]
    exact ⟨.refl hk, by rw [hc]; exact Option.some_ne_none _⟩
  | none =>
    intro nonce
    refine ⟨fun hw e => ⟨.refl hk, e, _, rfl, hw, fun h => absurd hc h⟩, fun _ => ⟨hk.marked hs hc nonce, ?_⟩⟩
    show (m.insert checkKey _)[checkKey]? ≠ none
    rw [Std.ExtTreeMap.getElem?_insert_self]
    exact Option.some_ne_none _

/-- What a set-up does once the salt is there. -/
def withSalt (master : MasterKey) (salt : Bytes) : Access KeyRing :=
  if salt.length ≠ 32 then Access.fail (.storage (.decryption saltKey (.saltSize salt.length)))
  else do
    KeyRing.ensureCheck (KeyRing.derive master salt)
    return KeyRing.derive master salt

theorem setUp_eq (master : MasterKey) : KeyRing.setUp master = KeyRing.ensureSalt >>= withSalt master := rfl

/-- How a set-up ends that has found the salt or written it. -/
theorem ends_withSalt {m₁ : Memory} (hb : Begun master m m₁) {salt : Bytes} (hsalt : m₁[saltKey]? = some salt) :
    (withSalt master salt).Ends w m₁ (Opened master w m) := by
  have hring : KeyRing.derive master salt = m₁.ring master := by rw [Memory.ring, hsalt]; rfl
  rw [withSalt, if_neg (not_not_intro (hb.kept.size salt hsalt)), hring]
  refine ends_bind.mpr ((ends_ensureCheck hb.kept (by rw [hsalt]; exact Option.some_ne_none _)).mono ?_)
  intro result m' h
  cases result with
  | ok _ =>
    refine ⟨hb.trans h.1, ?_, h.2⟩
    exact (ring_congr (h.1.salt (by rw [hsalt]; exact Option.some_ne_none _))).symm
  | error e =>
    obtain ⟨failure, c, he, hw, hreads⟩ := h.2
    exact ⟨hb.trans h.1, failure, c, he, hw, fun hset => hreads (hb.done hset ▸ hset)⟩

theorem ends_setUp (hk : m.Kept master) : (KeyRing.setUp master).Ends w m (Opened master w m) := by
  rw [setUp_eq]
  refine ends_bind.mpr ⟨fun hw e => ⟨.refl hk, e, _, rfl, hw, fun _ => rfl⟩, fun _ => ?_⟩
  generalize hs : Memory.reply (.get saltKey) m = reply
  replace hs : m[saltKey]? = reply := hs
  cases reply with
  | some salt => exact ends_withSalt (.refl hk) hs
  | none =>
    intro salt
    refine ⟨fun hw e => ⟨.refl hk, e, _, rfl, hw, fun h => absurd (hk.blank hs checkKey) h⟩, fun _ => ?_⟩
    exact ends_withSalt (hk.salted hs salt) Std.ExtTreeMap.getElem?_insert_self

/-- A set-up that finds no salt goes on with the bytes it draws. -/
theorem runOn_setUp {world : World Memory} (hs : world.store[saltKey]? = none) (k : Nat) :
    let (salt, entropy) := Entropy.draw 32 world.entropy
    (KeyRing.setUp master).runOn Faults.none k world =
      (withSalt master salt.bytes).runOn Faults.none (k + 2) ⟨world.store.insert saltKey salt.bytes, entropy⟩ := by
  have hreply : Memory.reply (.get saltKey) world.store = none := hs
  show (Access.call (.get saltKey) _).runOn Faults.none k world = _
  rw [runOn_call, Backend.perform_through rfl]
  simp only [hreply]
  show (Access.draw 32 fun salt => .call (.put saltKey salt.bytes) fun _ => withSalt master salt.bytes).runOn _ _ _ = _
  rw [runOn_draw, runOn_call, Backend.perform_through rfl]
  rfl

/-- The salt that a set-up leaves: the one there was, or else the bytes it draws. -/
theorem salt_of_setUp {world : World Memory} (hk : world.store.Kept master) (k : Nat) :
    ((KeyRing.setUp master).runOn Faults.none k world).2.store[saltKey]? =
      some (world.store[saltKey]?.getD (Entropy.draw 32 world.entropy).1.bytes) := by
  cases hs : world.store[saltKey]? with
  | some salt =>
    have hopened := (ends_setUp (w := Faults.none.weather) hk).run k
    exact (hopened.1.salt (by rw [hs]; exact Option.some_ne_none _)).trans hs
  | none =>
    rw [runOn_setUp hs]
    let salted : World Memory := ⟨world.store.insert saltKey (Entropy.draw 32 world.entropy).1.bytes, (Entropy.draw 32 world.entropy).2⟩
    have hb := hk.salted hs (Entropy.draw 32 world.entropy).1
    have hsalt : salted.store[saltKey]? = some (Entropy.draw 32 world.entropy).1.bytes := Std.ExtTreeMap.getElem?_insert_self
    have hends : (withSalt master _).Ends Faults.none.weather salted.store (Opened master _ salted.store) :=
      ends_withSalt (.refl hb.kept) hsalt
    have hopened := hends.run (k + 2)
    exact (hopened.1.salt (by rw [hsalt]; exact Option.some_ne_none _)).trans hsalt

end Access

end Strongbox
