/-
  Strongbox.Json.Fields — typed readings of JSON values.

  A structure is written as an object, or as an array of its fields in their order, of which
  the last may be missing. In an object no field may be repeated; members that are no fields
  are passed over, but every name must be a text.
-/

import Strongbox.Json.Value

namespace Strongbox.Json

def text? : Json → Option String
  | .string spelled => readText? spelled
  | _ => none

def bool? : Json → Option Bool
  | .bool value => some value
  | _ => none

def nat? : Json → Option Nat
  | .number spelled => readNat? spelled
  | _ => none

def word32? (value : Json) : Option UInt32 := value.nat?.bind Text.Decimal.word32?

def word64? (value : Json) : Option UInt64 := value.nat?.bind Text.Decimal.word64?

/-- Null is read as none. -/
def option? {α : Type} (read? : Json → Option α) : Json → Option (Option α)
  | .null => some none
  | value => (read? value).map some

/-- The members of an object with their names as texts. -/
def members? : Json → Option (List (String × Json))
  | .object members => members.mapM fun (name, value) => (readText? name).map (·, value)
  | _ => none

/-- The members of an object with their names as they are spelled. -/
def spelledMembers? : Json → Option (List (Bytes × Json))
  | .object members => some members
  | _ => none

/-- The value of a name that stands at most once: outer none if it is repeated. -/
def uniqueField? (members : List (String × Json)) (name : String) : Option (Option Json) :=
  match members.filter fun member => member.1 = name with
  | [] => some none
  | [(_, value)] => some (some value)
  | _ => none

/-- The values of a structure's fields, in the order of their names; none where one is missing. -/
def fields? (names : List String) : Json → Option (List (Option Json))
  | .array items =>
    if items.length ≤ names.length then
      some (items.map some ++ List.replicate (names.length - items.length) none)
    else none
  | value => value.members?.bind fun members => names.mapM (uniqueField? members)

/-- A field that must be present. -/
def required? {α : Type} (read? : Json → Option α) : Option Json → Option α
  | some value => read? value
  | none => none

/-- A field that has a default. -/
def withDefault? {α : Type} (default : α) (read? : Json → Option α) : Option Json → Option α
  | some value => read? value
  | none => some default

end Strongbox.Json
