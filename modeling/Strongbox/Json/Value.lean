/-
  Strongbox.Json.Value — JSON values, and how they are written.

  A value keeps its strings and numbers as they are spelled, so reading loses nothing and a
  value that is passed over need not make sense. Two layouts are written: compact, without
  any space, and indented by two spaces.
-/

import Strongbox.Json.Token

namespace Strongbox

inductive Json where
  | null
  | bool (value : Bool)
  | number (spelled : Bytes)
  | string (spelled : Bytes)
  | array (items : List Json)
  | object (members : List (Bytes × Json))

namespace Json

def ofText (text : String) : Json := .string (spellText text)

def ofNat (n : Nat) : Json := .number (spellNat n)

/-- An object with these members in this order. -/
def ofMembers (members : List (String × Json)) : Json :=
  .object (members.map fun (name, value) => (spellText name, value))

/-! ## Writing -/

def nullBytes : Bytes := [110, 117, 108, 108]

def trueBytes : Bytes := [116, 114, 117, 101]

def falseBytes : Bytes := [102, 97, 108, 115, 101]

def inQuotes (spelled : Bytes) : Bytes := quote :: spelled ++ [quote]

mutual

/-- The value without any space. -/
def compact : Json → Bytes
  | .null => nullBytes
  | .bool true => trueBytes
  | .bool false => falseBytes
  | .number spelled => spelled
  | .string spelled => inQuotes spelled
  | .array items => 91 :: compactItems items ++ [93]
  | .object members => 123 :: compactMembers members ++ [125]

def compactItems : List Json → Bytes
  | [] => []
  | [last] => compact last
  | first :: second :: rest => compact first ++ 44 :: compactItems (second :: rest)

def compactMembers : List (Bytes × Json) → Bytes
  | [] => []
  | [(name, value)] => inQuotes name ++ 58 :: compact value
  | (name, value) :: second :: rest =>
    inQuotes name ++ 58 :: compact value ++ 44 :: compactMembers (second :: rest)

end

/-- A line break and the indentation of a level. -/
def newLine (level : Nat) : Bytes := 10 :: List.replicate (2 * level) 32

mutual

/-- The value over several lines; `level` is how deep it stands. -/
def indented (level : Nat) : Json → Bytes
  | .null => nullBytes
  | .bool true => trueBytes
  | .bool false => falseBytes
  | .number spelled => spelled
  | .string spelled => inQuotes spelled
  | .array [] => [91, 93]
  | .array (first :: rest) =>
    91 :: newLine (level + 1) ++ indentedItems (level + 1) (first :: rest) ++ newLine level ++ [93]
  | .object [] => [123, 125]
  | .object (first :: rest) =>
    123 :: newLine (level + 1) ++ indentedMembers (level + 1) (first :: rest) ++ newLine level ++ [125]

def indentedItems (level : Nat) : List Json → Bytes
  | [] => []
  | [last] => indented level last
  | first :: second :: rest =>
    indented level first ++ 44 :: newLine level ++ indentedItems level (second :: rest)

def indentedMembers (level : Nat) : List (Bytes × Json) → Bytes
  | [] => []
  | [(name, value)] => inQuotes name ++ 58 :: 32 :: indented level value
  | (name, value) :: second :: rest =>
    inQuotes name ++ 58 :: 32 :: indented level value ++ 44 :: newLine level ++
      indentedMembers level (second :: rest)

end

end Json

end Strongbox
