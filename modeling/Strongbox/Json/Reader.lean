/-
  Strongbox.Json.Reader — JSON values read from bytes.

  A text is one value between white space. Reading keeps member names and their order, also
  repeated ones. The recursion is bounded by twice the length of the text: every bracket or
  separator that is passed costs a byte.
-/

import Strongbox.Json.Value

namespace Strongbox.Json

def isSpace (b : UInt8) : Bool := b = 32 || b = 10 || b = 13 || b = 9

def skipSpace (s : Bytes) : Bytes := s.dropWhile isSpace

mutual

/-- A value, and what follows it. -/
def readValue? : Nat → Bytes → Option (Json × Bytes)
  | 0, _ => none
  | fuel + 1, s =>
    match skipSpace s with
    | 110 :: 117 :: 108 :: 108 :: rest => some (.null, rest)
    | 116 :: 114 :: 117 :: 101 :: rest => some (.bool true, rest)
    | 102 :: 97 :: 108 :: 115 :: 101 :: rest => some (.bool false, rest)
    | 34 :: rest => (scanString? rest).map fun (found, rest) => (.string found, rest)
    | 91 :: rest =>
      match skipSpace rest with
      | 93 :: rest => some (.array [], rest)
      | rest => (readItems? fuel rest).map fun (items, rest) => (.array items, rest)
    | 123 :: rest =>
      match skipSpace rest with
      | 125 :: rest => some (.object [], rest)
      | rest => (readMembers? fuel rest).map fun (members, rest) => (.object members, rest)
    | s => (scanNumber? s).map fun (found, rest) => (.number found, rest)

/-- Items up to the closing bracket, at least one. -/
def readItems? : Nat → Bytes → Option (List Json × Bytes)
  | 0, _ => none
  | fuel + 1, s =>
    match readValue? fuel s with
    | none => none
    | some (item, s) =>
      match skipSpace s with
      | 44 :: rest => (readItems? fuel rest).map fun (items, rest) => (item :: items, rest)
      | 93 :: rest => some ([item], rest)
      | _ => none

/-- Members up to the closing brace, at least one. -/
def readMembers? : Nat → Bytes → Option (List (Bytes × Json) × Bytes)
  | 0, _ => none
  | fuel + 1, s =>
    match skipSpace s with
    | 34 :: rest =>
      match scanString? rest with
      | none => none
      | some (name, s) =>
        match skipSpace s with
        | 58 :: rest =>
          match readValue? fuel rest with
          | none => none
          | some (value, s) =>
            match skipSpace s with
            | 44 :: rest =>
              (readMembers? fuel rest).map fun (members, rest) => ((name, value) :: members, rest)
            | 125 :: rest => some ([(name, value)], rest)
            | _ => none
        | _ => none
    | _ => none

end

/-- The value that the whole of a text is. -/
def ofBytes? (s : Bytes) : Option Json :=
  match readValue? (2 * s.length + 2) s with
  | some (value, rest) => if skipSpace rest = [] then some value else none
  | none => none

end Strongbox.Json
