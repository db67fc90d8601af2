/-
  Strongbox.Crypto.Aead — authenticated encryption with ChaCha20 and Poly1305.

  A sealed text is the enciphered text followed by a tag of 16 bytes. The tag depends on the
  key, the nonce, the bound text and the enciphered text only, so it is checked before
  anything is deciphered.
-/

import Strongbox.Crypto.ChaCha20
import Strongbox.Crypto.Poly1305

namespace Strongbox.Crypto.Aead

/-- What is authenticated: bound text and enciphered text, each filled up to 16 bytes, then
    their lengths. -/
def authenticated (bound cipherText : Bytes) : Bytes :=
  bound ++ Bytes.padding 16 bound.length ++ cipherText ++ Bytes.padding 16 cipherText.length ++
    Bytes.littleEndian 8 bound.length ++ Bytes.littleEndian 8 cipherText.length

/-- The one-time authentication key: the first half of key stream block 0. -/
def oneTimeKey (key : Block 32) (nonce : Block 12) : Block 32 :=
  let first := ChaCha20.block key nonce 0
  ⟨first.bytes.take 32, by simp [first.length_eq]⟩

def tag (key : Block 32) (nonce : Block 12) (bound cipherText : Bytes) : Block 16 :=
  Poly1305.tag (oneTimeKey key nonce) (authenticated bound cipherText)

/-- The enciphered text and its tag. -/
def encrypt (key : Block 32) (nonce : Block 12) (bound plain : Bytes) : Bytes :=
  let cipherText := ChaCha20.apply key nonce plain
  cipherText ++ (tag key nonce bound cipherText).bytes

-- The published vector, with a text that ends in the middle of a block.
example : encrypt (.tabulate 32 fun i => UInt8.ofNat (0x80 + i)) ⟨[7, 0, 0, 0, 0x40, 0x41, 0x42, 0x43, 0x44, 0x45, 0x46, 0x47], rfl⟩
    (Bytes.bigEndian 12 0x50515253c0c1c2c3c4c5c6c7) (Bytes.utf8 ("Ladies and Gentlemen of the class of '99: " ++
      "If I could offer you only one tip for the future, sunscreen would be it.")) =
    Bytes.bigEndian 32 0xd31a8d34648e60db7b86afbc53ef7ec2a4aded51296e08fea9e2b5a736ee62d6 ++
    Bytes.bigEndian 32 0x3dbea45e8ca9671282fafb69da92728b1a71de0a9e060b2905d6a5b67ecd3b36 ++
    Bytes.bigEndian 32 0x92ddbd7f2d778b8c9803aee328091b58fab324e4fad675945585808b4831d7bc ++
    Bytes.bigEndian 18 0x3ff4def08e4b7a9de576d26586cec64b6116 ++
    Bytes.bigEndian 16 0x1ae10b594f09e26a7e902ecbd0600691 := by decide +kernel

/-- The plain text, if the tag at the end is the right one. -/
def decrypt? (key : Block 32) (nonce : Block 12) (bound boxed : Bytes) : Option Bytes :=
  if boxed.length < 16 then none
  else
    let cipherText := boxed.take (boxed.length - 16)
    if boxed.drop (boxed.length - 16) = (tag key nonce bound cipherText).bytes then
      some (ChaCha20.apply key nonce cipherText)
    else none

end Strongbox.Crypto.Aead
