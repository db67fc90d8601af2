/-
  Strongbox.Crypto.Hmac — keyed digests with SHA-256, and keys derived from key material.
-/

import Strongbox.Crypto.Sha256

namespace Strongbox.Crypto.Hmac

/-- The key as one block of 64 bytes: digested first if longer, then filled up with zeros. -/
def keyBlock (key : Bytes) : Bytes :=
  let short := if key.length > 64 then (Sha256.digest key).bytes else key
  short ++ List.replicate (64 - short.length) 0

theorem length_keyBlock (key : Bytes) : (keyBlock key).length = 64 := by
  simp only [keyBlock, List.length_append, List.length_replicate]
  split
  · rw [(Sha256.digest key).length_eq]
  · omega

/-- The keyed digest of a message. -/
def digest (key message : Bytes) : Block 32 :=
  let block := keyBlock key
  let inner := Sha256.digest (block.map (· ^^^ 0x36) ++ message)
  Sha256.digest (block.map (· ^^^ 0x5c) ++ inner.bytes)

-- The vector published for a key shorter than a digest.
example : (digest (Bytes.utf8 "Jefe") (Bytes.utf8 "what do ya want for nothing?")).bytes =
    Bytes.bigEndian 32 0x5bdcc146bf60754e6a042426089575c75a003f089d2739839dec58b964ec3843 := by decide +kernel

/-- The key for one purpose, derived from key material and a salt: extract a pseudorandom key,
    then expand it to a single block under the label of the purpose. -/
def derive (salt material label : Bytes) : Block 32 :=
  digest (digest salt material).bytes (label ++ [1])

-- The first 32 bytes of the vector published for a salt and a label.
example : (derive (Bytes.bigEndian 13 0x000102030405060708090a0b0c) (List.replicate 22 0x0b)
    (Bytes.bigEndian 10 0xf0f1f2f3f4f5f6f7f8f9)).bytes =
    Bytes.bigEndian 32 0x3cb25f25faacd57a90434f64d0362f2a2d2d0a90cf1a5a4c5db02d56ecc4c5bf := by decide +kernel

end Strongbox.Crypto.Hmac
