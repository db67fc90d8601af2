/-
  Strongbox.Proofs.Vault.Address — where records, payloads and the policy are stored.

  Records, payloads, the policy, the salt and the check of the master key are stored under keys
  that begin with different characters. The address of a payload is the identifier of its path
  and its number with a slash between them; neither part holds a slash, so both can be read off.

  Proved:
  - `recordAddress_inj`: different paths have their records at different addresses.
  - `payloadAddress_inj`: payloads share an address only if their numbers and the identifiers of
    their paths agree.
-/

import Strongbox.Proofs.KeyRing
import Strongbox.Proofs.Text.Decimal
import Strongbox.Vault.Basic

namespace Strongbox

/-! ## Texts -/

theorem Hex.slash_not_mem_encode (bytes : Bytes) : '/' ∉ (Hex.encode bytes).toList := by
  have hdigit : ∀ n < 16, '/' ≠ Hex.digit n := by decide
  intro h
  rw [Hex.encode, String.toList_ofList, List.mem_flatMap] at h
  obtain ⟨b, _, hb⟩ := h
  have hlt := b.toNat_lt
  rcases List.mem_cons.mp hb with h1 | h2
  · exact hdigit _ (by omega) h1
  · exact hdigit _ (by omega) (List.mem_singleton.mp h2)

namespace Vault

variable {ring : KeyRing}

/-! ## Addresses -/

def recordAddress (ring : KeyRing) (path : String) : String := (records ring).physicalKey path

def payloadAddress (ring : KeyRing) (path : String) (version : UInt64) : String :=
  (payloads ring).physicalKey (payloadKey ring path version)

theorem policy_physicalKey (ring : KeyRing) : (policies ring).physicalKey policyKey = policyKey := by
  simp [Sealed.physicalKey, policies]

theorem recordAddress_eq (ring : KeyRing) (path : String) :
    recordAddress ring path = "metadata/" ++ ring.hidePath path := by
  simp [recordAddress, Sealed.physicalKey, records]

theorem payloadAddress_eq (ring : KeyRing) (path : String) (version : UInt64) : payloadAddress ring path version =
    "versions/" ++ (ring.identifier path ++ "/" ++ Text.Decimal.text version.toNat) := by
  simp [payloadAddress, Sealed.physicalKey, payloads, payloadKey]

/-- What every payload address begins with. -/
def IsPayload (key : String) : Prop := "versions/".toList <+: key.toList

theorem isPayload_payloadAddress (ring : KeyRing) (path : String) (version : UInt64) :
    IsPayload (payloadAddress ring path version) := by
  rw [IsPayload, payloadAddress_eq, String.toList_append]
  exact List.prefix_append _ _

/-- The addresses by their first character. -/
def initial? (key : String) : Option Char := key.toList.head?

@[simp] theorem initial?_recordAddress (ring : KeyRing) (path : String) :
    initial? (recordAddress ring path) = some 'm' := by
  rw [recordAddress_eq, initial?, String.toList_append]
  rfl

theorem initial?_of_isPayload {key : String} (h : IsPayload key) : initial? key = some 'v' := by
  obtain ⟨rest, h⟩ := h
  rw [initial?, ← h]
  rfl

@[simp] theorem initial?_payloadAddress (ring : KeyRing) (path : String) (version : UInt64) :
    initial? (payloadAddress ring path version) = some 'v' :=
  initial?_of_isPayload (isPayload_payloadAddress ring path version)

@[simp] theorem initial?_policyKey : initial? policyKey = some 'c' := by decide

@[simp] theorem initial?_saltKey : initial? KeyRing.saltKey = some 's' := by decide

@[simp] theorem initial?_checkKey : initial? KeyRing.checkKey = some 'k' := by decide

theorem ne_of_initial? {a b : String} (h : initial? a ≠ initial? b) : a ≠ b := fun e => h (congrArg initial? e)

/-! ## One address, one thing -/

theorem recordAddress_inj {p q : String} : recordAddress ring p = recordAddress ring q ↔ p = q := by
  refine ⟨fun h => ?_, fun h => h ▸ rfl⟩
  rw [recordAddress_eq, recordAddress_eq] at h
  exact ring.hidePath_injective ((String.append_right_inj _).mp h)

theorem payloadAddress_inj {p q : String} {v u : UInt64} :
    payloadAddress ring p v = payloadAddress ring q u ↔ ring.identifier p = ring.identifier q ∧ v = u := by
  constructor
  · intro h
    rw [payloadAddress_eq, payloadAddress_eq] at h
    have hl := congrArg (Text.cutAt '/' ∘ String.toList) ((String.append_right_inj _).mp h)
    have hcut (path : String) (v : UInt64) :
        Text.cutAt '/' (ring.identifier path ++ "/" ++ Text.Decimal.text v.toNat).toList =
          (ring.identifier path).toList :: Text.cutAt '/' (Text.Decimal.text v.toNat).toList := by
      rw [String.toList_append, String.toList_append, List.append_assoc]
      exact Text.cutAt_append_cons '/' _ (Hex.slash_not_mem_encode _)
    simp only [Function.comp, hcut, List.cons.injEq] at hl
    have hid := String.toList_inj.mp hl.1
    rw [hid] at h
    have ht := (String.append_right_inj _).mp ((String.append_right_inj _).mp h)
    exact ⟨hid, UInt64.toNat_inj.mp (Text.Decimal.text_injective ht)⟩
  · rintro ⟨hid, rfl⟩
    rw [payloadAddress_eq, payloadAddress_eq, hid]

/-! ## The addresses below a path -/

/-- Whether a key is below the prefix that all payloads of a path have. -/
def Below (ring : KeyRing) (path key : String) : Prop := ("versions/" ++ ring.identifier path ++ "/").toList <+: key.toList

theorem initial?_of_below {path key : String} (h : Below ring path key) : initial? key = some 'v' := by
  rw [Below, String.append_assoc, String.toList_append] at h
  exact initial?_of_isPayload ((List.prefix_append _ _).trans h)

theorem below_payloadAddress {path other : String} {version : UInt64} :
    Below ring path (payloadAddress ring other version) ↔ ring.identifier other = ring.identifier path := by
  simp only [Below, payloadAddress_eq, String.toList_append, List.append_assoc, List.prefix_append_right_inj]
  constructor
  · rintro ⟨rest, h⟩
    have hcut := congrArg (Text.cutAt '/') h
    rw [List.append_assoc] at hcut
    have hl := (Text.cutAt_append_cons '/' rest (Hex.slash_not_mem_encode _)).symm.trans
      (hcut.trans (Text.cutAt_append_cons '/' _ (Hex.slash_not_mem_encode _)))
    exact (String.toList_inj.mp (List.cons.inj hl).1).symm
  · intro h
    rw [h, ← List.append_assoc]
    exact List.prefix_append _ _

end Vault

end Strongbox
