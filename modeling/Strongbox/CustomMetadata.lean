/-
  Strongbox.CustomMetadata — the free entries of a record and the rules they obey.

  At most 64 entries; keys of 1 to 128 and values of 1 to 512 bytes; printable characters
  only. With too many entries nothing else is looked at; otherwise every violation of every
  entry is listed, entries in the order of their keys, in an entry first the two lengths and
  then the characters of key and value.
-/

import Strongbox.Text.Decimal
import Strongbox.Text.Pieces
import Strongbox.Text.Quoted
import Std.Data.ExtTreeMap

namespace Strongbox

/-- Texts by key; keys are ordered by code point, which is the order of their UTF-8 bytes. -/
abbrev CustomMetadata := Std.ExtTreeMap String String

namespace CustomMetadata

def maxEntries : Nat := 64

def maxKeyLength : Nat := 128

def maxValueLength : Nat := 512

/-! ## Printable characters -/

def isControl (c : Char) : Bool := c.toNat < 0x20 || (0x7f ≤ c.toNat && c.toNat < 0xa0)

/-- The general category Cf. -/
def formatRanges : List (Nat × Nat) := [
  (0xad, 0xad), (0x600, 0x605), (0x61c, 0x61c), (0x6dd, 0x6dd), (0x70f, 0x70f), (0x890, 0x891),
  (0x8e2, 0x8e2), (0x180e, 0x180e), (0x200b, 0x200f), (0x202a, 0x202e), (0x2060, 0x2064),
  (0x2066, 0x206f), (0xfeff, 0xfeff), (0xfff9, 0xfffb), (0x110bd, 0x110bd), (0x110cd, 0x110cd),
  (0x13430, 0x1343f), (0x1bca0, 0x1bca3), (0x1d173, 0x1d17a), (0xe0001, 0xe0001),
  (0xe0020, 0xe007f)]

def privateRanges : List (Nat × Nat) := [(0xe000, 0xf8ff), (0xf0000, 0xffffd), (0x100000, 0x10fffd)]

/-- U+FDD0 to U+FDEF, and the last two code points of every plane. -/
def isNoncharacter (c : Char) : Bool :=
  (0xfdd0 ≤ c.toNat && c.toNat ≤ 0xfdef) || c.toNat % 0x10000 ≥ 0xfffe

def isPrintableChar (c : Char) : Bool :=
  c = ' ' || !(isControl c || Text.isBlank c || Text.inRanges c.toNat formatRanges ||
    Text.inRanges c.toNat privateRanges || isNoncharacter c)

def isPrintable (text : String) : Bool := text.toList.all isPrintableChar

/-! ## Violations -/

inductive Violation where
  | tooManyEntries (count : Nat)
  | keyLength (key : String)
  | valueLength (key : String) (length : Nat)
  | keyUnprintable (key : String)
  | valueUnprintable (key : String)
  deriving DecidableEq, Repr

def entryViolations (key value : String) : List Violation :=
  (if 0 < key.utf8ByteSize ∧ key.utf8ByteSize ≤ maxKeyLength then [] else [.keyLength key]) ++
  (if 0 < value.utf8ByteSize ∧ value.utf8ByteSize ≤ maxValueLength then []
    else [.valueLength key value.utf8ByteSize]) ++
  (if isPrintable key then [] else [.keyUnprintable key]) ++
  (if isPrintable value then [] else [.valueUnprintable key])

/-- All violations, in order; empty if the entries are admitted. -/
def violations (entries : CustomMetadata) : List Violation :=
  if maxEntries < entries.size then [.tooManyEntries entries.size]
  else entries.toList.flatMap fun (key, value) => entryViolations key value

open Text (quoted)
open Text.Decimal (text)

def Violation.message (v : Violation) : String :=
  "custom_metadata validation failed: " ++
  match v with
  | .tooManyEntries count =>
    "payload must contain at most " ++ text maxEntries ++ " keys, provided " ++ text count
  | .keyLength key =>
    "length of key " ++ quoted key ++ " is " ++ text key.utf8ByteSize ++
      " but must be 0 < len(key) <= " ++ text maxKeyLength
  | .valueLength key length =>
    "length of value for key " ++ quoted key ++ " is " ++ text length ++
      " but must be 0 < len(value) <= " ++ text maxValueLength
  | .keyUnprintable key => "key " ++ quoted key ++ " (" ++ key ++ ") contains unprintable characters"
  | .valueUnprintable key => "value for key " ++ quoted key ++ " contains unprintable characters"

/-- The count of the violations and a line for each. -/
def report (vs : List Violation) : String :=
  text vs.length ++ (if vs.length = 1 then " error" else " errors") ++ " occurred:" ++
    String.join (vs.map fun v => "\n\t* " ++ v.message)

end CustomMetadata

end Strongbox
