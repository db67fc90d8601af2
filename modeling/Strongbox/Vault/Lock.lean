/-
  Strongbox.Vault.Lock — which of 256 locks guards a key.

  Changes of one key wait for each other at its lock, and so do changes of keys that share one. A store
  answers one request at a time, so no lock is ever held: this is the choice of one alone.
-/

import Strongbox.Crypto.Sha256

namespace Strongbox.Vault

def lockCount : Nat := 256

/-- The lock of a key: the first eight bytes of its digest as a number, modulo the count. -/
def lockOf (key : String) : Nat :=
  let digest := Crypto.Sha256.digest (Bytes.utf8 key)
  Bytes.ofLittleEndian (digest.bytes.take 8).reverse % lockCount

theorem lockOf_lt (key : String) : lockOf key < lockCount := Nat.mod_lt _ (by decide)

/-- The lock of a key is the eighth byte of its digest: the others fall out with the modulus. -/
theorem lockOf_eq (key : String) : lockOf key = ((Crypto.Sha256.digest (Bytes.utf8 key)).bytes.getD 7 0).toNat := by
  have hlength := (Crypto.Sha256.digest (Bytes.utf8 key)).length_eq
  rw [lockOf]
  generalize (Crypto.Sha256.digest (Bytes.utf8 key)).bytes = bytes at *
  have hseven : 7 < bytes.length := by omega
  have hlast : (bytes.take 8).reverse = bytes[7] :: (bytes.take 7).reverse := by
    rw [List.take_succ_eq_append_getElem hseven, List.reverse_append]
    rfl
  have hlt := bytes[7].toNat_lt
  rw [List.getD_eq_getElem?_getD, List.getElem?_eq_getElem hseven, Option.getD_some, hlast, Bytes.ofLittleEndian, lockCount]
  omega

end Strongbox.Vault
