/-
  Strongbox.Proofs.Vault.WrongKey — a store whose master key is not the one of its storage.

  A storage with a salt and a check belongs to the master key under which the check opens. To every
  other key it stays shut: the set-up is tried anew for each request and refused each time, after
  reading salt and check, before anything else is read and without a write. So nothing is ever said
  about what is stored, neither that it is there nor that it is not. Only what needs no storage is
  answered as always.

  Proved:
  - `needsNoStorage_iff`: which requests are answered at once.
  - `ask_foreign`: what comes of one request, and `Leads.foreign`, that it stays so over a run.
  - `wrong_key_opens_nothing`: what is answered at any point of a run, and that nothing is written.
-/

import Strongbox.Proofs.KeyRing.FirstUse
import Strongbox.Proofs.Vault.Legible

namespace Strongbox

open Time (Instant)
open KeyRing (saltKey checkKey)

/-! ## What needs no storage -/

/-- A request that names a path which names no key, changes nothing, or has a bad argument. -/
inductive Request.NeedsNoStorage : Request → Prop
  | malformed {r : Request} {path : String} {fault : KeyPath.Fault} (hpath : r.path? = some path)
    (h : KeyPath.fault? path = some fault) : NeedsNoStorage r
  | noFields {path : String} {changes : RecordChanges} (h : changes.hasUpdates = false) :
    NeedsNoStorage (.writeMetadata path changes)
  | negativeExpiry {changes : PolicyChanges} {seconds : Int64} (h : changes.deleteVersionAfter = some seconds)
    (hneg : seconds < 0) : NeedsNoStorage (.writePolicy changes)
  | undeletesNothing (path : String) : NeedsNoStorage (.undeleteVersions path [])
  | destroysNothing (path : String) : NeedsNoStorage (.destroyVersions path [])

namespace Request

variable {r : Request} {path : String}

theorem immediate?_of_malformed {fault : KeyPath.Fault} (hpath : r.path? = some path) (h : KeyPath.fault? path = some fault) :
    r.immediate?.isSome := by
  cases r <;> cases hpath <;> simp only [immediate?, versionsFault?, h, Option.map_some, Option.isSome_some]

theorem needsNoStorage_of_fault {α : Type} {fault : KeyPath.Fault → α} (hpath : r.path? = some path)
    (h : ((KeyPath.fault? path).map fault).isSome) : r.NeedsNoStorage := by
  rw [Option.isSome_map] at h
  obtain ⟨_, hfault⟩ := Option.isSome_iff_exists.mp h
  exact .malformed hpath hfault

theorem versionsFault?_isSome {versions : List UInt64} (h : (versionsFault? path versions).isSome) :
    (∃ fault, KeyPath.fault? path = some fault) ∨ versions = [] := by
  unfold versionsFault? at h
  split at h
  · rename_i fault hfault
    exact .inl ⟨fault, hfault⟩
  · split at h
    · rename_i hnil
      exact .inr hnil
    · cases h

theorem needsNoStorage_iff : r.NeedsNoStorage ↔ r.immediate?.isSome := by
  constructor
  · intro h
    cases h with
    | malformed hpath h => exact immediate?_of_malformed hpath h
    | @noFields path changes h =>
      simp only [immediate?, h]
      split <;> rfl
    | @negativeExpiry changes seconds h hneg =>
      have hany : changes.deleteVersionAfter.any (· < 0) = true := by
        rw [h]
        exact decide_eq_true hneg
      rw [immediate?, if_pos hany]
      rfl
    | undeletesNothing path =>
      simp only [immediate?, versionsFault?]
      split <;> rfl
    | destroysNothing path =>
      simp only [immediate?, versionsFault?]
      split <;> rfl
  · intro h
    cases r with
    | writeMetadata path changes =>
      simp only [immediate?] at h
      split at h
      · rename_i fault hfault
        exact .malformed rfl hfault
      · split at h
        · cases h
        · rename_i hfields
          exact .noFields (eq_false_of_ne_true hfields)
    | undeleteVersions path versions =>
      rcases versionsFault?_isSome h with ⟨fault, hfault⟩ | rfl
      · exact .malformed rfl hfault
      · exact .undeletesNothing path
    | destroyVersions path versions =>
      rcases versionsFault?_isSome h with ⟨fault, hfault⟩ | rfl
      · exact .malformed rfl hfault
      · exact .destroysNothing path
    | listMetadata path => cases h
    | readPolicy => cases h
    | writePolicy changes =>
      simp only [immediate?] at h
      split at h
      · rename_i hany
        obtain ⟨seconds, hseconds, hneg⟩ := Option.any_eq_true _ _ |>.mp hany
        exact .negativeExpiry hseconds (of_decide_eq_true hneg)
      · cases h
    | readMetadata path => exact needsNoStorage_of_fault rfl h
    | metadataExists path => exact needsNoStorage_of_fault rfl h
    | deleteMetadata path => exact needsNoStorage_of_fault rfl h
    | writeData path data cas => exact needsNoStorage_of_fault rfl h
    | readData path version => exact needsNoStorage_of_fault rfl h
    | deleteVersions path versions => exact needsNoStorage_of_fault rfl h

end Request

/-! ## A storage of another master key -/

/-- Salt and check are stored, and with this master key the salt has not its size or the check does
    not verify. -/
structure KeyRing.Foreign (master : MasterKey) (m : Memory) (salt sealed : Bytes) : Prop where
  salt_eq : m[saltKey]? = some salt
  check_eq : m[checkKey]? = some sealed
  refuses : salt.length = 32 → (KeyRing.derive master salt).verify sealed ≠ .ok ()

theorem KeyRing.Foreign.not_acceptable {master : MasterKey} {m : Memory} {salt sealed : Bytes}
    (h : Foreign master m salt sealed) : ¬ Acceptable master m := by
  intro hacceptable
  obtain ⟨salt', hs, hopens⟩ := hacceptable.verified sealed h.check_eq
  obtain rfl := Option.some.inj (hs.symm.trans h.salt_eq)
  exact h.refuses (hacceptable.size salt' hs) (KeyRing.verify_eq_ok.mpr hopens)

namespace Session

variable {master : MasterKey} {defaults : Policy} {world : World Memory} {f : Faults} {now : Instant} {r : Request}
  {s : Session} {salt sealed : Bytes}

/-- A refused set-up leaves the session as it was, and is what the request is answered with. -/
theorem ask_foreign (h : KeyRing.Foreign master world.store salt sealed) (defaults : Policy) (f : Faults) (now : Instant)
    (hi : r.immediate? = none) :
    let s : Session := ⟨{ master, defaults }, world⟩
    (s.ask f now r).2 = s ∧ (∀ c ∈ s.calls f now r, c.isWrite = false) ∧
      (f.SparesReads → ∃ key fault, (key = saltKey ∨ key = checkKey) ∧
        (s.ask f now r).1 = .error (.storage (.decryption key fault))) := by
  intro s
  have hsalt : world.store[saltKey]? ≠ none := by
    rw [h.salt_eq]
    exact Option.some_ne_none _
  have hcomes := KeyRing.comes_of_setUp f world master
  obtain ⟨hworld, hcalls, hresult⟩ := hcomes.refused h.not_acceptable (.inl hsalt)
  have hopened : ∀ ring, ((KeyRing.setUp master).attempt f [] world).result ≠ .ok ring :=
    fun _ hok => h.not_acceptable (hcomes.acceptable hok (.inl hsalt))
  cases hopen : (KeyRing.setUp master).attempt f [] world with
  | mk result calls left =>
    rw [hopen] at hworld hcalls hresult hopened
    obtain rfl : left = world := hworld
    cases result with
    | ok ring => exact (hopened ring rfl).elim
    | error e =>
      obtain ⟨hask, hmade⟩ : s.ask f now r = _ ∧ s.calls f now r = _ := ask_of_unopened hi hopen
      rw [hask, hmade]
      refine ⟨rfl, hcalls, fun hf => ?_⟩
      obtain ⟨key, fault, hkey, herror⟩ := hresult hf
      obtain rfl := Except.error.inj herror
      refine ⟨key, fault, hkey, ?_⟩
      cases r <;> rfl

/-- It is the same over a whole run, but for the policies that the restarts bring. -/
theorem Leads.foreign {log : List Event} (h : KeyRing.Foreign master world.store salt sealed)
    (hl : (Session.mk { master, defaults } world).Leads log s) : ∃ defaults', s = ⟨{ master, defaults := defaults' }, world⟩ := by
  induction hl with
  | here => exact ⟨defaults, rfl⟩
  | ask f now r _ ih =>
    obtain ⟨defaults', rfl⟩ := ih
    refine ⟨defaults', ?_⟩
    cases hi : r.immediate? with
    | some reply => rw [ask_of_immediate hi]
    | none => exact (ask_foreign h defaults' f now hi).1
  | restart defaults' _ ih =>
    obtain ⟨_, rfl⟩ := ih
    exact ⟨defaults', rfl⟩

/-- A new store over a storage with a salt and a check, whose master key does not open the check or
    with which the salt has not its size. Whatever it is asked, at what times, with which restarts,
    and whichever calls fail, the storage stays byte for byte what it was, and at every point of such
    a run: a request that needs no storage is answered without any call. Every other request makes
    no call that writes, and if its reads go through it fails, because salt or check do not decrypt. -/
theorem wrong_key_opens_nothing {master : MasterKey} {world : World Memory} {salt sealed : Bytes}
    (h : KeyRing.Foreign master world.store salt sealed) (defaults : Policy) {log : List Event} {s : Session}
    (hl : (Session.mk { master, defaults } world).Leads log s) :
    s.memory = world.store ∧ ∀ f now r,
      (s.ask f now r).2.memory = world.store ∧ (∀ c ∈ s.calls f now r, c.isWrite = false) ∧
        (r.NeedsNoStorage → s.calls f now r = [] ∧ ∃ reply, r.immediate? = some reply ∧ (s.ask f now r).1 = .ok reply) ∧
        (¬ r.NeedsNoStorage → f.SparesReads → ∃ key fault, (key = saltKey ∨ key = checkKey) ∧
          (s.ask f now r).1 = .error (.storage (.decryption key fault))) := by
  obtain ⟨defaults', rfl⟩ := hl.foreign h
  refine ⟨rfl, fun f now r => ?_⟩
  rw [Request.needsNoStorage_iff]
  cases hi : r.immediate? with
  | some reply =>
    rw [ask_of_immediate hi, calls_of_immediate hi]
    exact ⟨rfl, nofun, fun _ => ⟨rfl, reply, rfl, rfl⟩, fun hno => absurd rfl hno⟩
  | none =>
    obtain ⟨hsession, hcalls, herror⟩ := ask_foreign h defaults' f now hi
    exact ⟨congrArg Session.memory hsession, hcalls, nofun, fun _ => herror⟩

set_option maxRecDepth 20000 in
/-- The storage of one master key, opened with another: after a write that is refused, asking whether
    the key exists is not answered with no. -/
theorem wrong_key_opens_nothing_exists :
    let other : MasterKey := ⟨.tabulate 32 fun _ => 8⟩
    let salt : Block 32 := .tabulate 32 fun _ => 1
    let sealed := (KeyRing.derive ⟨.tabulate 32 fun _ => 7⟩ salt.bytes).sealWith (.tabulate 12 fun _ => 9) checkKey KeyRing.marker
    let s : Session := ⟨{ master := other }, ⟨((∅ : Memory).insert saltKey salt.bytes).insert checkKey sealed, ⟨fun _ => 0, 0⟩⟩⟩
    let asked := (s.ask Faults.none .epoch (.writeData "a" [97] none)).2
    asked.memory = s.memory ∧ ∃ key fault,
      (asked.ask Faults.none .epoch (.metadataExists "a")).1 = .error (.storage (.decryption key fault)) := by
  intro other salt sealed s asked
  have hforeign : KeyRing.Foreign other s.memory salt.bytes sealed := by
    refine ⟨?_, Std.ExtTreeMap.getElem?_insert_self, fun _ hverify => ?_⟩
    · exact (Memory.getElem?_insert_of_ne _ _ (by decide)).trans Std.ExtTreeMap.getElem?_insert_self
    · have hopens := congrArg Except.toOption (KeyRing.verify_eq_ok.mp hverify)
      revert hopens
      decide +kernel
  have hl : s.Leads [.asked Faults.none .epoch (.writeData "a" [97] none) _] asked := .ask _ _ _ .here
  obtain ⟨hmemory, hasked⟩ := wrong_key_opens_nothing hforeign {} hl
  obtain ⟨_, _, _, herror⟩ := hasked Faults.none .epoch (.metadataExists "a")
  have hneeds : ¬ (Request.metadataExists "a").NeedsNoStorage := by
    rw [Request.needsNoStorage_iff]
    decide
  obtain ⟨key, fault, _, hanswer⟩ := herror hneeds Faults.sparesReads_none
  exact ⟨hmemory, key, fault, hanswer⟩

end Session

end Strongbox
