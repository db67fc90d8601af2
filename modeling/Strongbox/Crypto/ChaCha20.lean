/-
  Strongbox.Crypto.ChaCha20 — the ChaCha20 key stream.

  A key, a nonce and a block counter give a block of 64 key stream bytes. Data is enciphered
  by exclusive or with the key stream from counter 1 on; block 0 is left for the one-time
  authentication key. Enciphering twice gives the data back, since the key stream does not
  depend on the data.
-/

import Strongbox.Bytes

namespace Strongbox.Crypto.ChaCha20

structure State where
  x0 : UInt32
  x1 : UInt32
  x2 : UInt32
  x3 : UInt32
  x4 : UInt32
  x5 : UInt32
  x6 : UInt32
  x7 : UInt32
  x8 : UInt32
  x9 : UInt32
  x10 : UInt32
  x11 : UInt32
  x12 : UInt32
  x13 : UInt32
  x14 : UInt32
  x15 : UInt32

def rotate (x : UInt32) (n : UInt32) : UInt32 := (x <<< n) ||| (x >>> (32 - n))

/-- Four words mixed by additions, exclusive ors and rotations. -/
def quarter (a b c d : UInt32) : UInt32 × UInt32 × UInt32 × UInt32 :=
  let a := a + b
  let d := rotate (d ^^^ a) 16
  let c := c + d
  let b := rotate (b ^^^ c) 12
  let a := a + b
  let d := rotate (d ^^^ a) 8
  let c := c + d
  let b := rotate (b ^^^ c) 7
  (a, b, c, d)

/-- A round on the columns and one on the diagonals. -/
def doubleRound (s : State) : State :=
  let (x0, x4, x8, x12) := quarter s.x0 s.x4 s.x8 s.x12
  let (x1, x5, x9, x13) := quarter s.x1 s.x5 s.x9 s.x13
  let (x2, x6, x10, x14) := quarter s.x2 s.x6 s.x10 s.x14
  let (x3, x7, x11, x15) := quarter s.x3 s.x7 s.x11 s.x15
  let (x0, x5, x10, x15) := quarter x0 x5 x10 x15
  let (x1, x6, x11, x12) := quarter x1 x6 x11 x12
  let (x2, x7, x8, x13) := quarter x2 x7 x8 x13
  let (x3, x4, x9, x14) := quarter x3 x4 x9 x14
  ⟨x0, x1, x2, x3, x4, x5, x6, x7, x8, x9, x10, x11, x12, x13, x14, x15⟩

def mix : Nat → State → State
  | 0, s => s
  | n + 1, s => mix n (doubleRound s)

/-- Four bytes as one word, lowest first; missing bytes count as zero. -/
def word (bytes : Bytes) (offset : Nat) : UInt32 :=
  (bytes.getD offset 0).toUInt32 ||| (bytes.getD (offset + 1) 0).toUInt32 <<< 8 |||
    (bytes.getD (offset + 2) 0).toUInt32 <<< 16 ||| (bytes.getD (offset + 3) 0).toUInt32 <<< 24

/-- Constants, key, counter and nonce. -/
def start (key : Block 32) (nonce : Block 12) (counter : UInt32) : State :=
  ⟨0x61707865, 0x3320646e, 0x79622d32, 0x6b206574,
    word key.bytes 0, word key.bytes 4, word key.bytes 8, word key.bytes 12,
    word key.bytes 16, word key.bytes 20, word key.bytes 24, word key.bytes 28,
    counter, word nonce.bytes 0, word nonce.bytes 4, word nonce.bytes 8⟩

def bytesOfWord (w : UInt32) : Bytes :=
  [w.toUInt8, (w >>> 8).toUInt8, (w >>> 16).toUInt8, (w >>> 24).toUInt8]

/-- The key stream bytes of one block: the mixed state added to the one it started from. -/
def block (key : Block 32) (nonce : Block 12) (counter : UInt32) : Block 64 :=
  let s := start key nonce counter
  let t := mix 10 s
  ⟨[s.x0 + t.x0, s.x1 + t.x1, s.x2 + t.x2, s.x3 + t.x3, s.x4 + t.x4, s.x5 + t.x5, s.x6 + t.x6,
    s.x7 + t.x7, s.x8 + t.x8, s.x9 + t.x9, s.x10 + t.x10, s.x11 + t.x11, s.x12 + t.x12,
    s.x13 + t.x13, s.x14 + t.x14, s.x15 + t.x15].flatMap bytesOfWord, by simp [bytesOfWord]⟩

-- The vector published for the block function.
example : (block (.tabulate 32 UInt8.ofNat) ⟨[0, 0, 0, 9, 0, 0, 0, 0x4a, 0, 0, 0, 0], rfl⟩ 1).bytes =
    Bytes.bigEndian 32 0x10f1e7e4d13b5915500fdd1fa32071c4c7d1f4c733c068030422aa9ac3d46c4e ++
    Bytes.bigEndian 32 0xd2826446079faa0914c2d705d98b02a2b5129cd1de164eb9cbd083e8a2503c4e := by decide +kernel

/-- At least `length` bytes of key stream, from counter 1 on. -/
def keyStream (key : Block 32) (nonce : Block 12) (length : Nat) : Bytes :=
  (List.range ((length + 63) / 64)).flatMap fun i => (block key nonce (UInt32.ofNat (i + 1))).bytes

/-- Data enciphered, or deciphered, with the key stream. -/
def apply (key : Block 32) (nonce : Block 12) (data : Bytes) : Bytes :=
  Bytes.xor data (keyStream key nonce data.length)

theorem length_keyStream (key : Block 32) (nonce : Block 12) (length : Nat) :
    (keyStream key nonce length).length = 64 * ((length + 63) / 64) := by
  have hblocks (count : Nat) : ((List.range count).map fun i => (block key nonce (UInt32.ofNat (i + 1))).bytes.length) =
      List.replicate count 64 := by
    simp only [Block.length_eq, List.map_const', List.length_range]
  rw [keyStream, List.length_flatMap, hblocks, List.sum_replicate_nat, Nat.mul_comm]

end Strongbox.Crypto.ChaCha20
