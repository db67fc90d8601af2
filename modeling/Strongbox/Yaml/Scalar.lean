/-
  Strongbox.Yaml.Scalar — scalars: plain, in quotes, and in blocks.

  A plain or quoted scalar may go over several lines. The blanks around a break are dropped; a
  single break reads as a space, and of several all but the first stand. A literal block keeps
  its lines, a folded one joins lines that do not begin with a blank.
-/

import Strongbox.Yaml.Cursor
import Strongbox.Text.Decimal
import Strongbox.Yaml.Token

namespace Strongbox.Yaml

/-! ## Over several lines -/

/-- What breaks between two words read as. -/
def foldBreaks : List Char → List Char
  | ['\n'] => [' ']
  | '\n' :: more => more
  | breaks => breaks

/-- What blanks and breaks between two words read as. -/
def foldGap (gap : List Char) : List Char :=
  let breaks := gap.filter isBreak
  if breaks = [] then gap else foldBreaks breaks

/-! ## Plain -/

def isFlowMark (c : Char) : Bool := c = ',' || c = '[' || c = ']' || c = '\x7b' || c = '\x7d'

/-- The rest of a word of a plain scalar. A colon ends it only before a gap, and within a flow
    collection it may not stand before a mark of the collection. -/
def plainWord? (inFlow : Bool) : List Char → Option (List Char × List Char)
  | [] => some ([], [])
  | c :: rest =>
    if isGap c then some ([], c :: rest)
    else if c = ':' ∧ inFlow ∧ rest.head?.any (fun d => isFlowMark d || d = '?') then none
    else if c = ':' ∧ endsWord rest.head? then some ([], c :: rest)
    else if inFlow ∧ isFlowMark c then some ([], c :: rest)
    else (plainWord? inFlow rest).map fun (word, rest) => (c :: word, rest)

/-- Whether a tab stands left of the column `floor` after a break; `column` is the column if a
    break came before. -/
def tabBelow (floor : Nat) : (column : Option Nat) → List Char → Bool
  | _, [] => false
  | column, c :: rest =>
    if isBreak c then tabBelow floor (some 0) rest
    else (c = '\t' && column.any (· < floor)) || tabBelow floor (column.map (· + 1)) rest

/-- The words of a plain scalar from here on, at most `fuel` of them, and whether a break was
    passed after the last one. In a block the scalar ends before a word left of `floor`. -/
def plainWords? (inFlow : Bool) (floor : Nat) :
    Nat → Cursor → Option (List Char × Cursor × Bool)
  | 0, c => some ([], c, false)
  | fuel + 1, c => do
    let (word, rest) ← plainWord? inFlow c.rest
    let c := c.upTo rest
    let (gap, next) := c.span isGap
    if gap = [] then return (word, c, false)
    if tabBelow floor none gap then none
    let brokeLine := gap.any isBreak
    if (!inFlow && next.column < floor) || next.atDocumentMark || next.at? 0 = some '#' then
      return (word, next, brokeLine)
    let (more, last, brokeLast) ← plainWords? inFlow floor fuel next
    if more = [] then return (word, next, brokeLine)
    return (word ++ foldGap gap ++ more, last, brokeLast)

/-- A plain scalar, where it ends, and whether a break was passed after it. -/
def plain? (inFlow : Bool) (floor : Nat) (c : Cursor) : Option (String × Cursor × Bool) :=
  (plainWords? inFlow floor c.rest.length c).map fun (text, c, brokeLine) =>
    (String.ofList text, c, brokeLine)

/-! ## In quotes -/

/-- What the letter after a backslash stands for. -/
def escapeValue? (letter : Char) : Option Char :=
  match letter with
  | '0' => some '\x00'
  | 'a' => some '\x07'
  | 'b' => some '\x08'
  | 't' => some '\t'
  | '\t' => some '\t'
  | 'n' => some '\n'
  | 'v' => some '\x0b'
  | 'f' => some '\x0c'
  | 'r' => some '\r'
  | 'e' => some '\x1b'
  | ' ' => some ' '
  | '"' => some '"'
  | '/' => some '/'
  | '\\' => some '\\'
  | 'N' => some '\u0085'
  | '_' => some '\u00a0'
  | 'L' => some '\u2028'
  | 'P' => some '\u2029'
  | _ => none

/-- How many hexadecimal digits follow the letter after a backslash. -/
def escapeDigits? (letter : Char) : Option Nat :=
  match letter with
  | 'x' => some 2
  | 'u' => some 4
  | 'U' => some 8
  | _ => none

/-- The character with this code point, if there is one. -/
def ofCode? (code : Nat) : Option Char := if code.isValidChar then some (Char.ofNat code) else none

/-- The character that an escape stands for, and how many characters follow the backslash. -/
def escape? (letter : Char) (rest : List Char) : Option (Char × Nat) :=
  match escapeDigits? letter with
  | none => (escapeValue? letter).map fun c => (c, 1)
  | some count =>
    if rest.length < count then none
    else ((hexValue? (rest.take count)).bind ofCode?).map fun c => (c, 1 + count)

/-- The text up to the closing quote and the place after it, from a place between the quotes. -/
def quotedFrom? (quote : Char) : Nat → Cursor → Option (List Char × Cursor)
  | 0, _ => none
  | fuel + 1, c =>
    if c.atDocumentMark then none
    else
      match c.rest with
      | [] => none
      | char :: rest =>
        if isGap char then
          let (gap, c) := c.span isGap
          (quotedFrom? quote fuel c).map fun (text, c) => (foldGap gap ++ text, c)
        else if char = quote then
          if quote = '\'' ∧ rest.head? = some '\'' then
            (quotedFrom? quote fuel (c.skip 2)).map fun (text, c) => (quote :: text, c)
          else some ([], c.advance)
        else if quote = '"' ∧ char = '\\' then
          match rest with
          | [] => none
          | letter :: rest =>
            if isBreak letter then
              let (gap, c) := (c.skip 2).span isGap
              (quotedFrom? quote fuel c).map fun (text, c) => (gap.filter isBreak ++ text, c)
            else
              match escape? letter rest with
              | none => none
              | some (char, length) =>
                (quotedFrom? quote fuel (c.skip (1 + length))).map fun (text, c) =>
                  (char :: text, c)
        else (quotedFrom? quote fuel c.advance).map fun (text, c) => (char :: text, c)

/-- A scalar in quotes and where it ends, from its opening quote. -/
def quoted? (quote : Char) (c : Cursor) : Option (String × Cursor) :=
  (quotedFrom? quote c.rest.length c.advance).map fun (text, c) => (String.ofList text, c)

/-! ## In blocks -/

/-- What is kept of the breaks at the end of a block. -/
inductive Chomp where
  | strip
  /-- The first break only. -/
  | clip
  | keep
  deriving DecidableEq

/-- The sign and the digit that may follow the mark of a block, in either order. -/
structure BlockHeader where
  chomp : Chomp := .clip
  indentation : Option Nat := none

def chomp? : Option Char → Option Chomp
  | some '+' => some .keep
  | some '-' => some .strip
  | _ => none

/-- The header and how many characters it has. An indentation of zero is refused. -/
def blockHeader? (c : Cursor) : Option (BlockHeader × Nat) :=
  let digit? (i : Nat) := (c.at? i).filter Text.Decimal.isDigit
  let header (chomp : Chomp) (digit : Char) (length : Nat) : Option (BlockHeader × Nat) :=
    if digit = '0' then none else some (⟨chomp, some (digit.toNat - 48)⟩, length)
  match chomp? (c.at? 0), digit? 0 with
  | some chomp, _ =>
    match digit? 1 with
    | some digit => header chomp digit 2
    | none => some (⟨chomp, none⟩, 1)
  | none, some digit =>
    match chomp? (c.at? 1) with
    | some chomp => header chomp digit 2
    | none => header .clip digit 1
  | none, none => some ({}, 0)

/-- Passes empty lines and the indentation of the line after them: their breaks, the widest
    indentation seen, and that place. Without an indentation given, all leading spaces belong
    to it. No tab may stand in it. -/
def emptyLines? (indentation : Option Nat) :
    Nat → (widest : Nat) → Cursor → Option (List Char × Nat × Cursor)
  | 0, widest, c => some ([], widest, c)
  | fuel + 1, widest, c =>
    let spaces := (c.rest.takeWhile (· = ' ')).length
    let c := c.skip (indentation.elim spaces fun n => min spaces (n - c.column))
    let widest := max widest c.column
    match c.at? 0 with
    | none => some ([], widest, c)
    | some char =>
      if char = '\t' ∧ indentation.all (c.column < ·) then none
      else if isBreak char then
        (emptyLines? indentation fuel widest c.advance).map fun (breaks, widest, c) =>
          (char :: breaks, widest, c)
      else some ([], widest, c)

/-- What stands between two lines of a block: the break at the end of the first, the empty
    lines, and whether the second or the first begins with a blank. -/
def betweenLines (style : Style) (lineEnd empty : List Char) (blank : Bool) : List Char :=
  if style = .folded ∧ lineEnd = ['\n'] ∧ !blank then if empty = [] then [' '] else empty
  else lineEnd ++ empty

/-- The lines of a block from here on, after a line that ended with `lineEnd` and empty lines,
    and the place after them. -/
def blockLines? (style : Style) (chomp : Chomp) (indentation : Nat) :
    Nat → (lineEnd empty : List Char) → (blank : Bool) → Cursor → Option (List Char × Cursor)
  | 0, _, _, _, _ => none
  | fuel + 1, lineEnd, empty, blank, c =>
    if c.column = indentation ∧ c.rest ≠ [] then do
      let startsBlank := (c.at? 0).any isBlank
      let (line, c) := c.span (!isBreak ·)
      let ended := (c.at? 0).toList
      let c := c.advance
      let (breaks, _, c) ← emptyLines? (some indentation) (c.rest.length + 1) 0 c
      let (more, c) ← blockLines? style chomp indentation fuel ended breaks startsBlank c
      return (betweenLines style lineEnd empty (blank || startsBlank) ++ line ++ more, c)
    else
      match chomp with
      | .strip => some ([], c)
      | .clip => some (lineEnd, c)
      | .keep => some (lineEnd ++ empty, c)

/-- A block scalar and where it ends, from its mark; `floor` is the least column of its lines
    unless the header says otherwise. -/
def block? (style : Style) (floor : Nat) (c : Cursor) : Option (String × Cursor) := do
  let c := c.advance
  let (header, length) ← blockHeader? c
  let c ← (c.skip length).endLine?
  let given := header.indentation.map (floor - 1 + ·)
  let (breaks, widest, c) ← emptyLines? given (c.rest.length + 1) 0 c
  let indentation := given.getD (max widest (max floor 1))
  let (text, c) ← blockLines? style header.chomp indentation (c.rest.length + 1) [] breaks false c
  return (String.ofList text, c)

end Strongbox.Yaml
