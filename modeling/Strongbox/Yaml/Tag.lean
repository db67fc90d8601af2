/-
  Strongbox.Yaml.Tag — tags, anchors and directives.

  A tag is a handle and a suffix: `!<uri>` has no handle, `!!name` and `!x!name` have the handle
  in front of the name, and `!name` has the handle `!`. A directive stands on a line of its own:
  the version of the language, or what a handle stands for.
-/

import Strongbox.Yaml.Cursor
import Strongbox.Yaml.Token
import Strongbox.Text.Decimal

namespace Strongbox.Yaml

/-! ## Names of resources -/

def isUriMark (c : Char) : Bool := ";/?:@&=+$.!~*'()".toList.contains c

/-- How many bytes follow this one in the UTF-8 form of a character it begins. -/
def continuation? (lead : Nat) : Option Nat :=
  if lead < 0x80 then some 0
  else if lead < 0xc0 then none
  else if lead < 0xe0 then some 1
  else if lead < 0xf0 then some 2
  else if lead < 0xf8 then some 3
  else none

/-- How many bytes are due after this one if `due` were before it. -/
def stillDue? (due byte : Nat) : Option Nat :=
  match due with
  | 0 => continuation? byte
  | due + 1 => if 0x80 ≤ byte ∧ byte < 0xc0 then some due else none

/-- The characters of a resource name as bytes, with percent escapes resolved. Commas and
    brackets count only if `bracketed`. -/
def uri? (bracketed : Bool) : (due : Nat) → List Char → Option (Bytes × List Char)
  | due, '%' :: high :: low :: rest => do
    let byte := 16 * (← hexDigit? high) + (← hexDigit? low)
    let due ← stillDue? due byte
    let (bytes, rest) ← uri? bracketed due rest
    return (UInt8.ofNat byte :: bytes, rest)
  | 0, c :: rest =>
    if c = '%' then none
    else if isNameChar c || isUriMark c || (bracketed && (c = ',' || c = '[' || c = ']')) then
      (uri? bracketed 0 rest).map fun (bytes, rest) => (UInt8.ofNat c.toNat :: bytes, rest)
    else some ([], c :: rest)
  | 0, [] => some ([], [])
  | _ + 1, _ => none

/-- A resource name of at least one character. -/
def someUri? (bracketed : Bool) (text : List Char) : Option (Bytes × List Char) :=
  (uri? bracketed 0 text).filter fun (_, rest) => rest.length < text.length

/-! ## Tags -/

/-- A name after an exclamation mark, and whether another mark follows it. -/
def tagName (text : List Char) : List Char × Bool × List Char :=
  let name := text.takeWhile isNameChar
  match text.dropWhile isNameChar with
  | '!' :: rest => (name, true, rest)
  | rest => (name, false, rest)

/-- The handle and the suffix of a tag, from behind its first exclamation mark. -/
def tagParts? : List Char → Option ((String × Bytes) × List Char)
  | '<' :: rest => do
    let (suffix, rest) ← someUri? true rest
    match rest with
    | '>' :: rest => return (("", suffix), rest)
    | _ => none
  | text => do
    let (name, isHandle, rest) := tagName text
    if isHandle then
      let (suffix, rest) ← someUri? false rest
      return ((String.ofList ('!' :: name ++ ['!']), suffix), rest)
    else
      let (more, rest) ← uri? false 0 rest
      let suffix := Bytes.utf8 (String.ofList name) ++ more
      return (if suffix = [] then ("", Bytes.utf8 "!") else ("!", suffix), rest)

/-- A tag and where it ends, from its first exclamation mark. A gap must follow it, or a comma
    in a flow collection. -/
def tag? (inFlow : Bool) (c : Cursor) : Option (Token × Cursor) := do
  let ((handle, suffix), rest) ← tagParts? c.advance.rest
  if endsWord rest.head? || (inFlow && rest.head? = some ',') then
    return (.tag handle suffix, c.upTo rest)
  else none

/-! ## Anchors and aliases -/

/-- The name after the mark of an anchor or alias, and where it ends. -/
def anchorName? (c : Cursor) : Option (String × Cursor) :=
  let (name, c) := c.advance.span isNameChar
  let ends := endsWord (c.at? 0) || (c.at? 0).any fun char => "?:,]\x7d%@\x60".toList.contains char
  if name ≠ [] ∧ ends then some (String.ofList name, c) else none

/-! ## Directives -/

/-- A number of at most nine digits. -/
def shortNumber? (c : Cursor) : Option (Nat × Cursor) :=
  let (digits, c) := c.span Text.Decimal.isDigit
  if digits.length ≤ 9 then (Text.Decimal.natural? digits).map fun n => (n, c) else none

def versionDirective? (c : Cursor) : Option (Token × Cursor) := do
  let (major, c) ← shortNumber? (c.skipWhile isBlank)
  if c.at? 0 = some '.' then
    let (minor, c) ← shortNumber? c.advance
    return (.version major minor, c)
  else none

def tagDirective? (c : Cursor) : Option (Token × Cursor) := do
  let c := c.skipWhile isBlank
  if c.at? 0 ≠ some '!' then none
  let (name, closed, rest) := tagName c.advance.rest
  if !closed && name ≠ [] then none
  let handle := '!' :: name ++ (if closed then ['!'] else [])
  let c := c.upTo rest
  if (c.at? 0).any isBlank then
    let c := c.skipWhile isBlank
    let (expansion, rest) ← someUri? true c.rest
    if endsWord rest.head? then return (.tagHandle (String.ofList handle) expansion, c.upTo rest)
    else none
  else none

/-- A directive and the place after its line, from the percent sign. -/
def directive? (c : Cursor) : Option (Token × Cursor) := do
  let (name, c) := c.advance.span isNameChar
  if !endsWord (c.at? 0) then none
  let (token, c) ←
    if name = "YAML".toList then versionDirective? c
    else if name = "TAG".toList then tagDirective? c
    else none
  return (token, ← c.endLine?)

end Strongbox.Yaml
