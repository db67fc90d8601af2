/-
  Strongbox.Proofs.Vault.Keys — what the keys of the storage stand for.

  Every key is that of the salt, of the check of the master key or of the policy, or it is the
  address of the record or of a payload of a path that was asked about and can name a key. Where
  a key stands tells which of these it is, so what is stored for a path says that it was asked
  about.

  Proved:
  - `Runs.forms`: every key that a run stores has one of these forms.
  - `Runs.valid_of_stored`: a path with a record can name a key.
  - `Runs.payload_of_below`: what stands below a path is one of its payloads.
-/

import Strongbox.Proofs.Vault.History

namespace Strongbox

open KeyRing (saltKey checkKey)
open Vault (recordAddress payloadAddress policyKey Below)

/-! ## Forms of keys -/

/-- What a key stands for: the set-up, the policy, or the record or a payload of one of these paths. -/
inductive Form (ring : KeyRing) (paths : List String) : String → Prop
  | salt : Form ring paths saltKey
  | check : Form ring paths checkKey
  | policy : Form ring paths policyKey
  | record {path : String} (hpath : path ∈ paths) : Form ring paths (recordAddress ring path)
  | payload {path : String} (hpath : path ∈ paths) (version : UInt64) : Form ring paths (payloadAddress ring path version)

namespace Form

variable {ring : KeyRing} {paths : List String} {path key : String}

theorem mono {paths' : List String} (h : Form ring paths key) (hp : ∀ path ∈ paths, path ∈ paths') : Form ring paths' key := by
  cases h with
  | salt => exact .salt
  | check => exact .check
  | policy => exact .policy
  | record hpath => exact .record (hp _ hpath)
  | payload hpath version => exact .payload (hp _ hpath) version

theorem of_recordAddress (h : Form ring paths (recordAddress ring path)) : path ∈ paths := by
  have hinitial := Vault.initial?_recordAddress ring path
  generalize hkey : recordAddress ring path = key at h hinitial
  cases h with
  | salt => simp at hinitial
  | check => simp at hinitial
  | policy => simp at hinitial
  | record hpath => exact Vault.recordAddress_inj.mp hkey ▸ hpath
  | payload => simp at hinitial

theorem of_below (h : Form ring paths key) (hb : Below ring path key) :
    ∃ other ∈ paths, ∃ version, key = payloadAddress ring other version ∧ ring.identifier other = ring.identifier path := by
  have hinitial := Vault.initial?_of_below hb
  cases h with
  | salt => simp at hinitial
  | check => simp at hinitial
  | policy => simp at hinitial
  | record => simp at hinitial
  | payload hpath version => exact ⟨_, hpath, version, rfl, Vault.below_payloadAddress.mp hb⟩

end Form

/-- Every key of the storage is of the set-up, of the policy, or of a path that was asked about. -/
theorem Runs.forms {master : MasterKey} {log : List Event} {s : Session} (h : Runs master log s) {key : String}
    (hkey : s.memory[key]? ≠ none) : Form s.ring (pathsIn log) key := by
  refine h.preserve (I := fun log m => ∀ key : String, m[key]? ≠ none → Form s.ring (pathsIn log) key) (fun _ => rfl)
    ?_ ?_ ?_ ?_ key hkey
  · intro key hkey
    exact absurd Std.ExtTreeMap.getElem?_empty hkey
  · intro e log m _ ih key hkey
    exact (ih key hkey).mono fun _ => mem_pathsIn_cons e
  · intro log m m' begun ih key hkey
    by_cases hs : key = saltKey
    · exact hs ▸ .salt
    · by_cases hc : key = checkKey
      · exact hc ▸ .check
      · exact ih key (begun.others key hs hc ▸ hkey)
  · intro log f now r defaults m reply m' hi effect ih key hkey
    by_cases hsame : m'[key]? = m[key]?
    · exact (ih key (hsame ▸ hkey)).mono fun _ => mem_pathsIn_cons _
    · rcases effect.touched hsame with ⟨rfl, _⟩ | ⟨path, hpath, rfl | ⟨version, rfl⟩⟩
      · exact .policy
      · exact .record (mem_pathsIn_of_asked hi hpath)
      · exact .payload (mem_pathsIn_of_asked hi hpath) version

/-- A path with a record can name a key. -/
theorem Runs.valid_of_stored {master : MasterKey} {log : List Event} {s : Session} {path : String} (h : Runs master log s)
    (hstored : s.memory[recordAddress s.ring path]? ≠ none) : KeyPath.fault? path = none :=
  valid_of_mem_pathsIn (h.forms hstored).of_recordAddress

/-- What stands below a path that no other path is mistaken for is one of its payloads, and the
    path was asked about. -/
theorem Runs.payload_of_below {master : MasterKey} {log : List Event} {s : Session} {path : String} (h : Runs master log s)
    (hd : Distinct s.ring (path :: pathsIn log)) {key : String} (hb : Below s.ring path key) (hstored : s.memory[key]? ≠ none) :
    path ∈ pathsIn log ∧ ∃ version, key = payloadAddress s.ring path version := by
  obtain ⟨other, hother, version, rfl, hid⟩ := (h.forms hstored).of_below hb
  obtain rfl : other = path := hd other (List.mem_cons_of_mem path hother) path List.mem_cons_self hid
  exact ⟨hother, version, rfl⟩

end Strongbox
