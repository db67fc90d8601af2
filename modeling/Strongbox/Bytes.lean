/-
  Strongbox.Bytes — byte strings, texts as bytes, and blocks of a fixed length.

  A byte string is a list, so that everything said about it goes by the list. Text becomes
  bytes by UTF-8 and bytes become text only when they are valid UTF-8:
  - `text?_utf8`: the bytes of a text read back as that text.
  - `utf8_of_text?`: what reads as a text is exactly the bytes of that text.
-/

namespace Strongbox

abbrev Bytes := List UInt8

namespace Bytes

/-- The UTF-8 form of a text. -/
def utf8 (text : String) : Bytes := text.toByteArray.data.toList

/-- The text with this UTF-8 form, if the bytes are valid UTF-8. -/
def text? (bytes : Bytes) : Option String := String.fromUTF8? ⟨bytes.toArray⟩

theorem text?_utf8 (text : String) : text? (utf8 text) = some text := by
  have h : (⟨(utf8 text).toArray⟩ : ByteArray) = text.toByteArray := by simp [utf8]
  simp only [text?, String.fromUTF8?, h]
  rw [dif_pos text.isValidUTF8]
  rfl

theorem utf8_of_text? {bytes : Bytes} {text : String} (h : text? bytes = some text) :
    bytes = utf8 text := by
  simp only [text?, String.fromUTF8?] at h
  split at h
  · cases h
    rfl
  · cases h

theorem utf8_injective {a b : String} (h : utf8 a = utf8 b) : a = b := by
  have := text?_utf8 a
  rw [h, text?_utf8] at this
  exact (Option.some.inj this).symm

/-- Byte by byte exclusive or, as long as the shorter operand. -/
def xor (a b : Bytes) : Bytes := List.zipWith (· ^^^ ·) a b

/-- The `count` lowest bytes of a number, lowest first. -/
def littleEndian : Nat → Nat → Bytes
  | 0, _ => []
  | count + 1, n => UInt8.ofNat n :: littleEndian count (n / 256)

/-- The `count` lowest bytes of a number, highest first. -/
def bigEndian (count n : Nat) : Bytes := (littleEndian count n).reverse

/-- The number whose bytes, lowest first, are given. -/
def ofLittleEndian : Bytes → Nat
  | [] => 0
  | b :: rest => b.toNat + 256 * ofLittleEndian rest

theorem length_littleEndian (count n : Nat) : (littleEndian count n).length = count := by
  induction count generalizing n with
  | zero => rfl
  | succ count ih => simp [littleEndian, ih]

/-- Cuts off pieces of `size` bytes, at most `fuel` of them; the last may be shorter. -/
def cut (size : Nat) : Nat → Bytes → List Bytes
  | 0, _ => []
  | _ + 1, [] => []
  | fuel + 1, b :: rest => (b :: rest).take size :: cut size fuel ((b :: rest).drop size)

/-- The bytes in pieces of `size`; the last may be shorter. -/
def chunks (size : Nat) (bytes : Bytes) : List Bytes := cut size bytes.length bytes

/-- As many zero bytes as bring `length` to a multiple of `size`. -/
def padding (size length : Nat) : Bytes := List.replicate ((size - length % size) % size) 0

end Bytes

/-- A byte string of exactly `n` bytes. -/
structure Block (n : Nat) where
  bytes : Bytes
  length_eq : bytes.length = n
  deriving DecidableEq

namespace Block

variable {n : Nat}

/-- A block of these bytes, if there are exactly `n`. -/
def ofBytes? (n : Nat) (bytes : Bytes) : Option (Block n) :=
  if h : bytes.length = n then some ⟨bytes, h⟩ else none

/-- The block whose byte number `i` is `byte i`. -/
def tabulate (n : Nat) (byte : Nat → UInt8) : Block n :=
  ⟨(List.range n).map byte, by simp⟩

theorem ofBytes?_bytes (b : Block n) : ofBytes? n b.bytes = some b := by
  simp [ofBytes?, b.length_eq]

end Block

end Strongbox
