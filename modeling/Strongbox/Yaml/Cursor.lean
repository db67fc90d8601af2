/-
  Strongbox.Yaml.Cursor — a place in a text: what follows it, its line and its column.
-/

import Strongbox.Yaml.Character

namespace Strongbox.Yaml

structure Cursor where
  rest : List Char
  line : Nat := 0
  column : Nat := 0

namespace Cursor

/-- One character on. -/
def advance (c : Cursor) : Cursor :=
  match c.rest with
  | [] => c
  | char :: rest => if isBreak char then ⟨rest, c.line + 1, 0⟩ else ⟨rest, c.line, c.column + 1⟩

def skip : Nat → Cursor → Cursor
  | 0, c => c
  | n + 1, c => skip n c.advance

/-- The characters up to the first that fails, and the place of that one. -/
def span (holds : Char → Bool) (c : Cursor) : List Char × Cursor :=
  let found := c.rest.takeWhile holds
  (found, c.skip found.length)

def skipWhile (holds : Char → Bool) (c : Cursor) : Cursor := (c.span holds).2

/-- The place where `rest`, an end of the text, begins. -/
def upTo (rest : List Char) (c : Cursor) : Cursor := c.skip (c.rest.length - rest.length)

/-- The character `i` places on. -/
def at? (i : Nat) (c : Cursor) : Option Char := c.rest[i]?

/-- Whether the line begins here with three times `char` as a word of its own. -/
def atMark (char : Char) (c : Cursor) : Bool :=
  c.column = 0 && c.rest.take 3 = [char, char, char] && endsWord (c.at? 3)

/-- Whether a document begins or ends here. -/
def atDocumentMark (c : Cursor) : Bool := c.atMark '-' || c.atMark '.'

/-- Passes blanks and a comment, which must be all that is left of the line. -/
def endLine? (c : Cursor) : Option Cursor :=
  let c := c.skipWhile isBlank
  let c := if c.at? 0 = some '#' then c.skipWhile (!isBreak ·) else c
  match c.at? 0 with
  | none => some c
  | some char => if isBreak char then some c.advance else none

end Cursor

end Strongbox.Yaml
