/-
  Strongbox.Text.Lossy — bytes shown as text whether they are UTF-8 or not.

  Where no character can be read, the longest run of bytes that could begin one is shown as the
  replacement character, or a single byte if none could. The bytes of a text show as that text.
-/

import Strongbox.Bytes

namespace Strongbox.Text

/-- How many bytes may follow one that begins a character of several, and the bounds of the
    first of them. -/
def followers (lead : UInt8) : Nat × UInt8 × UInt8 :=
  if 0xc2 ≤ lead ∧ lead ≤ 0xdf then (1, 0x80, 0xbf)
  else if lead = 0xe0 then (2, 0xa0, 0xbf)
  else if lead = 0xed then (2, 0x80, 0x9f)
  else if 0xe1 ≤ lead ∧ lead ≤ 0xef then (2, 0x80, 0xbf)
  else if lead = 0xf0 then (3, 0x90, 0xbf)
  else if 0xf1 ≤ lead ∧ lead ≤ 0xf3 then (3, 0x80, 0xbf)
  else if lead = 0xf4 then (3, 0x80, 0x8f)
  else (0, 1, 0)

/-- How many bytes at the front belong to one character, complete or not. -/
def characterLength : Bytes → Nat
  | [] => 0
  | lead :: rest =>
    let (count, low, high) := followers lead
    match rest with
    | second :: rest =>
      if low ≤ second ∧ second ≤ high then
        2 + ((rest.take (count - 1)).takeWhile fun b => 0x80 ≤ b && b ≤ 0xbf).length
      else 1
    | [] => 1

/-- At most `fuel` characters. -/
def lossyPieces : Nat → Bytes → List String
  | 0, _ => []
  | _, [] => []
  | fuel + 1, bytes =>
    let length := characterLength bytes
    ((Bytes.text? (bytes.take length)).getD "\ufffd") :: lossyPieces fuel (bytes.drop length)

def lossy (bytes : Bytes) : String :=
  match Bytes.text? bytes with
  | some text => text
  | none => String.join (lossyPieces bytes.length bytes)

theorem lossy_utf8 (text : String) : lossy (Bytes.utf8 text) = text := by
  simp [lossy, Bytes.text?_utf8]

end Strongbox.Text
