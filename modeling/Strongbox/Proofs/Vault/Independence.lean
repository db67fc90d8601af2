/-
  Strongbox.Proofs.Vault.Independence — requests about different keys do not meet.

  The entries of a path are its record and all that stands below its payload prefix. A request
  about a path reads the policy and entries of the path, and touches entries of the path only. If
  two paths differ and so do their identifiers, they have no entry in common, so neither request
  sees the other. A listing is about no single key; it touches nothing.

  Proved:
  - `Effect.entry_of_touched`: what a request touches is an entry of its path.
  - `plan_local`: what a request is going to do depends on the policy and the entries of its path.
  - `keys_independent`: requests about different keys leave each other's entries alone, and come to
    the same in either order.
-/

import Strongbox.Proofs.Vault.History

namespace Strongbox

open Time (Instant)
open KeyRing (saltKey checkKey)
open Vault (recordAddress payloadAddress policyKey Below Effect)

namespace Vault

/-! ## The entries of a path -/

/-- Whether a key is that of the record of a path or below the prefix of its payloads. -/
def Entry (ring : KeyRing) (path key : String) : Prop := key = recordAddress ring path ∨ Below ring path key

section Entries

variable {ring : KeyRing} {path key : String}

theorem entry_record (ring : KeyRing) (path : String) : Entry ring path (recordAddress ring path) := .inl rfl

theorem entry_payload (ring : KeyRing) (path : String) (version : UInt64) :
    Entry ring path (payloadAddress ring path version) := .inr (below_payloadAddress.mpr rfl)

theorem initial?_of_entry (h : Entry ring path key) : initial? key = some 'm' ∨ initial? key = some 'v' := by
  rcases h with rfl | h
  · exact .inl (initial?_recordAddress ring path)
  · exact .inr (initial?_of_below h)

/-- Entries have none of the keys that belong to no path. -/
theorem Entry.ne (h : Entry ring path key) : key ≠ policyKey ∧ key ≠ saltKey ∧ key ≠ checkKey := by
  refine ⟨?_, ?_, ?_⟩
  all_goals
    rintro rfl
    simpa using initial?_of_entry h

theorem below_unique {other : String} (h : Below ring path key) (h' : Below ring other key) :
    ring.identifier path = ring.identifier other := by
  obtain ⟨rest, h⟩ := h
  obtain ⟨rest', h'⟩ := h'
  have hcut (path : String) (rest : List Char) : Text.cutAt '/' (("versions/" ++ ring.identifier path ++ "/").toList ++ rest) =
      "versions".toList :: (ring.identifier path).toList :: Text.cutAt '/' rest := by
    rw [show ("versions/" ++ ring.identifier path ++ "/").toList ++ rest =
      "versions".toList ++ '/' :: ((ring.identifier path).toList ++ '/' :: rest) by simp]
    rw [Text.cutAt_append_cons '/' _ (by decide)]
    exact congrArg _ (Text.cutAt_append_cons '/' _ (Hex.slash_not_mem_encode _))
  have hsame := (hcut path rest).symm.trans ((congrArg (Text.cutAt '/') (h.trans h'.symm)).trans (hcut other rest'))
  simp only [List.cons.injEq, true_and] at hsame
  exact String.toList_inj.mp hsame.1

/-- The address of the record of a path is no entry of another path, whatever identifiers they have. -/
theorem not_entry_record {other : String} (hne : path ≠ other) : ¬ Entry ring other (recordAddress ring path) := by
  rintro (heq | h)
  · exact hne (recordAddress_inj.mp heq)
  · have hv := initial?_of_below h
    simp at hv

/-- Different paths with different identifiers have no entry in common. -/
theorem entry_unique {other : String} (hne : path ≠ other) (hid : ring.identifier path ≠ ring.identifier other)
    (h : Entry ring path key) : ¬ Entry ring other key := by
  intro h'
  rcases h with rfl | h
  · exact not_entry_record hne h'
  · rcases h' with rfl | h'
    · have hv := initial?_of_below h
      simp at hv
    · exact hid (below_unique h h')

end Entries

/-! ## What a request touches -/

section Touched

variable {v : Vault} {now : Instant} {m m' : Memory} {r : Request} {path key : String}

/-- What a request touches is an entry of its path. -/
theorem Effect.entry_of_touched {w : Weather} {reply : Except Error r.Reply} (h : Effect w v now m r reply m')
    (hpath : r.path? = some path) (hkey : m'[key]? ≠ m[key]?) : Entry v.ring path key := by
  rcases h.touched hkey with ⟨_, hnone⟩ | ⟨other, hother, hk⟩
  · rw [hpath] at hnone
    cases hnone
  · obtain rfl : path = other := Option.some.inj (hpath.symm.trans hother)
    rcases hk with rfl | ⟨version, rfl⟩
    · exact entry_record v.ring path
    · exact entry_payload v.ring path version

end Touched

/-! ## What a request depends on -/

section Local

variable {v : Vault} {now : Instant} {m m' : Memory} {r : Request} {path : String}

/-- What a request is going to do depends on the policy and the entries of its path. -/
theorem plan_local (hpath : r.path? = some path) (hpolicy : m'.contents v.ring policyKey = m.contents v.ring policyKey)
    (hentries : ∀ key, Entry v.ring path key → m'.contents v.ring key = m.contents v.ring key) :
    v.plan now m' r = v.plan now m r := by
  have hp : (m'.contents v.ring).policy v.defaults = (m.contents v.ring).policy v.defaults := Contents.policy_congr hpolicy
  have hr : (m'.contents v.ring).record v.ring path = (m.contents v.ring).record v.ring path :=
    Contents.record_congr (hentries _ (entry_record v.ring path))
  cases r with
  | writeMetadata other changes =>
    cases hpath
    simp only [plan, planMetadata, recordOrNewIn, hp, hr]
  | readMetadata other =>
    cases hpath
    simp only [plan, metadataIn, hr]
  | metadataExists other =>
    cases hpath
    simp only [plan, metadataIn, hr]
  | deleteMetadata other =>
    cases hpath
    simp only [plan, planErase, hr]
  | writeData other data cas =>
    cases hpath
    simp only [plan, planWrite, recordOrNewIn, hp, hr]
  | readData other version =>
    cases hpath
    simp only [plan, planRead, hp, hr]
    refine bind_congr fun policy => ?_
    cases hfound : (m.contents v.ring).record v.ring path with
    | error e => rfl
    | ok found =>
      cases found with
      | none => rfl
      | some record =>
        have hkey := Contents.key_of_record hfound
        have hpayload (version : UInt64) : (m'.contents v.ring).payload v.ring record.key version =
            (m.contents v.ring).payload v.ring record.key version :=
          Contents.lookup_congr (hentries _ (hkey ▸ entry_payload v.ring record.key version))
        simp only [bind, Except.bind, shownIn, hpayload]
  | deleteVersions other versions =>
    cases hpath
    simp only [plan, planDelete, hr]
  | undeleteVersions other versions =>
    cases hpath
    simp only [plan, planUndelete, hr]
  | destroyVersions other versions =>
    cases hpath
    simp only [plan, planDestroy, hr]
  | listMetadata => cases hpath
  | readPolicy => cases hpath
  | writePolicy => cases hpath

end Local

end Vault

/-! ## What comes of it -/

theorem Contents.edits_congr {c c' : Contents} {key : String} (es : List Edit) (h : c key = c' key) :
    c.edits es key = c'.edits es key := by
  by_cases hmem : key ∈ es.map Edit.key
  · exact edits_of_mem hmem c c'
  · rw [edits_of_not_mem hmem, edits_of_not_mem hmem, h]

/-- What opens under a key after a plan depends on what opened there before. -/
theorem Plan.after_congr {α : Type} {c c' : Contents} {key : String} (plan : Plan α) (h : c key = c' key) :
    plan.after c key = plan.after c' key := by
  cases plan with
  | answer a => exact h
  | change edits commit a =>
    have hedits := Contents.edits_congr edits h
    simp only [after, Contents.edit, hedits]

namespace Vault

variable {v : Vault} {now : Instant} {m m' : Memory} {r : Request} {path : String}

/-- The answer to a request and what it leaves under a key depend on policy and entries, and on
    what was under the key. -/
theorem outcome_local (hpath : r.path? = some path) (hpolicy : m'.contents v.ring policyKey = m.contents v.ring policyKey)
    (hentries : ∀ key, Entry v.ring path key → m'.contents v.ring key = m.contents v.ring key) :
    (v.outcome now m' r).1 = (v.outcome now m r).1 ∧
      ∀ key, m'.contents v.ring key = m.contents v.ring key → (v.outcome now m' r).2 key = (v.outcome now m r).2 key := by
  have hplan : v.plan now m' r = v.plan now m r := plan_local hpath hpolicy hentries
  simp only [outcome, hplan]
  cases v.plan now m r with
  | error e => exact ⟨rfl, fun key hkey => hkey⟩
  | ok plan => exact ⟨rfl, fun key hkey => plan.after_congr hkey⟩

end Vault

namespace Session

variable {master : MasterKey} {log : List Event} {s s' : Session} {r : Request} {path : String}

/-- What a request leaves alone. -/
theorem ask_frame (h : s.Kept master) (hset : s.memory[checkKey]? ≠ none) (hpath : r.path? = some path) (f : Faults)
    (now : Instant) {key : String} (hkey : ¬ Vault.Entry s.ring path key) : (s.ask f now r).2.memory[key]? = s.memory[key]? := by
  cases hi : r.immediate? with
  | some reply => rw [ask_of_immediate hi]
  | none =>
    obtain ⟨_, _, heffect⟩ := effect_ask h hset hi f now
    exact Decidable.byContradiction fun hne => hkey (heffect.entry_of_touched hpath hne)

theorem contents_frame (h : s.Kept master) (hset : s.memory[checkKey]? ≠ none) (hpath : r.path? = some path) (f : Faults)
    (now : Instant) {key : String} (hkey : ¬ Vault.Entry s.ring path key) : (s.ask f now r).2.contents key = s.contents key := by
  rw [contents, contents, ring_ask h hset]
  exact Memory.contents_congr (ask_frame h hset hpath f now hkey)

/-- Two stores with the same keys and defaults, and the same entries of a path and policy. -/
structure Agree (path : String) (s s' : Session) : Prop where
  vault : s'.vault = s.vault
  policy : s'.contents policyKey = s.contents policyKey
  entries : ∀ key, Vault.Entry s.ring path key → s'.contents key = s.contents key

/-- A request about another path leaves a store that agrees with the one before. -/
theorem agree_ask {other : String} (h : s.Kept master) (hset : s.memory[checkKey]? ≠ none) (hpath : r.path? = some other)
    (hapart : ∀ key, Vault.Entry s.ring path key → ¬ Vault.Entry s.ring other key) (f : Faults) (now : Instant) :
    Agree path s (s.ask f now r).2 where
  vault := (vault_ask h hset f now r).1
  policy := contents_frame h hset hpath f now fun he => he.ne.1 rfl
  entries key hkey := contents_frame h hset hpath f now (hapart key hkey)

/-- Stores that agree on a path give the same answer to a request about it, and what it leaves
    under a key depends on what was there. -/
theorem Agree.ask (ha : Agree path s s') (h : s.Kept master) (h' : s'.Kept master) (hset : s.memory[checkKey]? ≠ none)
    (hset' : s'.memory[checkKey]? ≠ none) (hpath : r.path? = some path) (now : Instant) :
    (s'.ask Faults.none now r).1 = (s.ask Faults.none now r).1 ∧ ∀ key, s'.contents key = s.contents key →
      (s'.ask Faults.none now r).2.contents key = (s.ask Faults.none now r).2.contents key := by
  cases hi : r.immediate? with
  | some reply =>
    rw [ask_of_immediate hi, ask_of_immediate hi]
    exact ⟨rfl, fun key hkey => hkey⟩
  | none =>
    obtain ⟨hanswer, hleft⟩ := ask_calm h hset hi now
    obtain ⟨hanswer', hleft'⟩ := ask_calm h' hset' hi now
    have hring : s'.ring = s.ring := congrArg Vault.ring ha.vault
    have hcontents : s'.contents = s'.memory.contents s.vault.ring := by rw [contents, hring]; rfl
    have hpolicy := ha.policy
    have hentries := ha.entries
    rw [hcontents] at hpolicy hentries
    have hlocal : (s.vault.outcome now s'.memory r).1 = (s.vault.outcome now s.memory r).1 ∧ _ :=
      Vault.outcome_local hpath hpolicy hentries
    rw [hanswer, hanswer', hleft, hleft', ha.vault, hlocal.1, hcontents]
    exact ⟨rfl, hlocal.2⟩

/-- On a storage that is set up, a request about one key leaves the record and the payloads of
    every other key alone, and policy, salt and check as well, however it ends; a listing leaves
    everything alone. If no call fails, two requests about different keys give the same answers
    and leave the same in either order. -/
theorem keys_independent (h : Runs master log s) (hset : s.IsSetUp) {p q : String} (hne : p ≠ q) (hd : Distinct s.ring [p, q])
    {r₁ r₂ : Request} (hp : r₁.path? = some p) (hq : r₂.path? = some q) (now₁ now₂ : Instant) :
    (∀ f (key : String), Vault.Entry s.ring q key ∨ key = policyKey ∨ key = saltKey ∨ key = checkKey →
      (s.ask f now₁ r₁).2.memory[key]? = s.memory[key]?) ∧
    (∀ f directory, (s.ask f now₁ (.listMetadata directory)).2.memory = s.memory) ∧
    (((s.ask Faults.none now₂ r₂).2).ask Faults.none now₁ r₁).1 = (s.ask Faults.none now₁ r₁).1 ∧
    (((s.ask Faults.none now₁ r₁).2).ask Faults.none now₂ r₂).1 = (s.ask Faults.none now₂ r₂).1 ∧
    (((s.ask Faults.none now₁ r₁).2).ask Faults.none now₂ r₂).2.contents =
      (((s.ask Faults.none now₂ r₂).2).ask Faults.none now₁ r₁).2.contents := by
  have hkept := h.kept
  have hcheck := hset.check
  have hid : s.ring.identifier p ≠ s.ring.identifier q := fun he => hne (hd p (by simp) q (by simp) he)
  have hapart : ∀ key, Vault.Entry s.ring p key → ¬ Vault.Entry s.ring q key := fun key => Vault.entry_unique hne hid
  have hapart' : ∀ key, Vault.Entry s.ring q key → ¬ Vault.Entry s.ring p key := fun key h he => hapart key he h
  -- each request finds policy and entries of its path as if the other had not been made
  have hagree₁ := agree_ask hkept hcheck hq hapart Faults.none now₂
  have hagree₂ := agree_ask hkept hcheck hp hapart' Faults.none now₁
  have hcheck₁ : (s.ask Faults.none now₁ r₁).2.memory[checkKey]? ≠ none := by
    rw [(vault_ask hkept hcheck Faults.none now₁ r₁).2]
    exact hcheck
  have hcheck₂ : (s.ask Faults.none now₂ r₂).2.memory[checkKey]? ≠ none := by
    rw [(vault_ask hkept hcheck Faults.none now₂ r₂).2]
    exact hcheck
  have hkept₁ := (asked_ask hkept Faults.none now₁ r₁).kept hkept
  have hkept₂ := (asked_ask hkept Faults.none now₂ r₂).kept hkept
  obtain ⟨hanswer₁, hleft₁⟩ := hagree₁.ask hkept hkept₂ hcheck hcheck₂ hp now₁
  obtain ⟨hanswer₂, hleft₂⟩ := hagree₂.ask hkept hkept₁ hcheck hcheck₁ hq now₂
  refine ⟨?_, ?_, hanswer₁, hanswer₂, ?_⟩
  · intro f key hkey
    refine ask_frame hkept hcheck hp f now₁ fun he => ?_
    rcases hkey with hkey | rfl | rfl | rfl
    · exact hapart key he hkey
    · exact he.ne.1 rfl
    · exact he.ne.2.1 rfl
    · exact he.ne.2.2 rfl
  · intro f directory
    obtain ⟨_, _, heffect⟩ := effect_ask hkept hcheck (r := .listMetadata directory) rfl f now₁
    exact heffect.unchanged_of_listing
  · funext key
    have hring₁ := ring_ask hkept hcheck Faults.none now₁ r₁
    have hring₂ := ring_ask hkept hcheck Faults.none now₂ r₂
    by_cases hkey : Vault.Entry s.ring q key
    · -- only the second request can have touched the key
      have hp' := hapart' key hkey
      rw [hleft₂ key (contents_frame hkept hcheck hp Faults.none now₁ hp')]
      rw [← hring₂] at hp'
      exact (contents_frame hkept₂ hcheck₂ hp Faults.none now₁ hp').symm
    · rw [hleft₁ key (contents_frame hkept hcheck hq Faults.none now₂ hkey)]
      rw [← hring₁] at hkey
      exact contents_frame hkept₁ hcheck₁ hq Faults.none now₂ hkey

/-- Two keys, one above the other, are written in either order. -/
theorem keys_independent_parent :
    let s := opened ⟨.tabulate 32 fun _ => 7⟩ {} ⟨fun _ => 0, 0⟩
    let above := Request.writeData "a" [97] none
    let below := Request.writeData "a/b" [98] none
    s.IsSetUp ∧ s.ring.identifier "a" ≠ s.ring.identifier "a/b" ∧
      ((s.ask Faults.none .epoch above).2.ask Faults.none .epoch below).2.contents =
        ((s.ask Faults.none .epoch below).2.ask Faults.none .epoch above).2.contents := by
  intro s above below
  have hid : s.ring.identifier "a" ≠ s.ring.identifier "a/b" := by
    rw [show s.ring = _ from ring_opened ⟨.tabulate 32 fun _ => 7⟩ {} ⟨fun _ => 0, 0⟩]
    decide +kernel
  have hset := isSetUp_opened ⟨.tabulate 32 fun _ => 7⟩ {} ⟨fun _ => 0, 0⟩
  have hd : Distinct s.ring ["a", "a/b"] := by
    simp only [Distinct, List.mem_cons, List.not_mem_nil, or_false]
    rintro p (rfl | rfl) q (rfl | rfl) he
    · rfl
    · exact absurd he hid
    · exact absurd he.symm hid
    · rfl
  have habove : above.path? = some "a" := rfl
  have hbelow : below.path? = some "a/b" := rfl
  obtain ⟨_, _, _, _, hsame⟩ := keys_independent (runs_opened _ _ _) hset (by decide) hd habove hbelow .epoch .epoch
  exact ⟨hset, hid, hsame⟩

end Session

end Strongbox
