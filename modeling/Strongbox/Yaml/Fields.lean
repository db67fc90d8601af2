/-
  Strongbox.Yaml.Fields — typed values out of nodes.

  A mapping with known fields may have others, which are passed over; a known one stands at most
  once. Numbers and truth values are plain scalars, or literal blocks with the tag of the type;
  in quotes they would be texts.
-/

import Strongbox.Text.Decimal
import Strongbox.Yaml.Node

namespace Strongbox.Yaml

/-- A tag of the core types. -/
def coreTag (name : String) : Bytes := Bytes.utf8 ("tag:yaml.org,2002:" ++ name)

namespace Scalar

/-- Whether the text may be read as a value of the type with this name. -/
def mayBe (type : String) (s : Scalar) : Bool :=
  s.style = .plain || (s.style = .literal && s.tag = some (coreTag type))

/-- Digits of a base from 2 to 16. -/
def digits? (base : Nat) (digits : List Char) : Option Nat :=
  if digits = [] then none
  else digits.foldlM (fun n c => ((hexDigit? c).filter (· < base)).map (base * n + ·)) 0

/-- A natural number after an optional plus sign: with `0x`, `0o` or `0b` in front in base 16, 8
    or 2, else decimal without leading zeros. -/
def natural? (text : List Char) : Option Nat :=
  let unsigned := match text with
    | '+' :: rest => rest
    | _ => text
  match unsigned with
  | '0' :: 'x' :: rest => digits? 16 rest
  | '0' :: 'o' :: rest => digits? 8 rest
  | '0' :: 'b' :: rest => digits? 2 rest
  | _ => Text.Decimal.canonical? unsigned

def nat? (s : Scalar) : Option Nat := if s.mayBe "int" then natural? s.text.toList else none

def bool? (s : Scalar) : Option Bool :=
  if !s.mayBe "bool" then none
  else if ["true", "True", "TRUE"].contains s.text then some true
  else if ["false", "False", "FALSE"].contains s.text then some false
  else none

def isNullText (text : String) : Bool := ["null", "Null", "NULL", "~"].contains text

/-- A value or none. A plain scalar is none if it is a spelling of null, also with the tag of
    null, or if it is empty without a tag. -/
def option? {α : Type} (value? : Scalar → Option α) (s : Scalar) : Option (Option α) :=
  if s.style ≠ .plain then (value? s).map some
  else
    match s.tag with
    | none => if s.text = "" || isNullText s.text then some none else (value? s).map some
    | some tag =>
      if tag = coreTag "null" then if isNullText s.text then some none else none
      else (value? s).map some

end Scalar

namespace Document

/-- The entries of the root with the texts of their keys; all keys must be texts. A root that is
    an empty plain scalar has none. -/
def entries? (d : Document) : Option (List (String × Node)) :=
  match d.root with
  | .mapping entries =>
    entries.mapM fun (key, value) => (d.anchors.scalar? key).map fun s => (s.text, value)
  | .scalar s => if s.style = .plain ∧ s.text = "" then some [] else none
  | _ => none

/-- The value of a field among these entries, `default` if it has none. -/
def field? {α : Type} (d : Document) (entries : List (String × Node)) (name : String) (default : α)
    (value? : Scalar → Option α) : Option α :=
  match entries.filter (·.1 = name) with
  | [] => some default
  | [(_, value)] => (d.anchors.scalar? value).bind value?
  | _ => none

end Document

end Strongbox.Yaml
