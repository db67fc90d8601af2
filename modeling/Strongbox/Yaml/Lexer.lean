/-
  Strongbox.Yaml.Lexer — a text as its tokens.

  The columns of the open block collections are kept; a token left of one closes it. A token
  that could be a key is remembered as a candidate, one for each open flow collection and one
  outside: if a colon follows on its line, a key token is put in front of it, and a block
  mapping begins there if it stands right of the innermost collection. A candidate at the very
  column of a block mapping must become a key.
-/

import Strongbox.Yaml.Scalar
import Strongbox.Yaml.Tag

namespace Strongbox.Yaml

/-- A token that may turn out to be a key. -/
structure Candidate where
  /-- How many tokens are in front of it. -/
  position : Nat
  line : Nat
  column : Nat
  required : Bool

/-- Whether the colon of a candidate may stand at a place: on the same line and not more than
    1024 characters on. -/
def Candidate.reaches (k : Candidate) (c : Cursor) : Bool :=
  k.line = c.line && c.column ≤ k.column + 1024

structure Lexer where
  cursor : Cursor
  tokens : Array Token := #[]
  /-- The columns of the open block collections, innermost first. -/
  columns : List Nat := []
  /-- Whether a key may begin at the next token. -/
  keyAllowed : Bool := true
  candidate : Option Candidate := none
  /-- The candidates around the open flow collections, innermost first. -/
  outer : List (Option Candidate) := []

namespace Lexer

def inFlow (s : Lexer) : Bool := !s.outer.isEmpty

/-- The least column of what belongs to the innermost block collection. -/
def floor (s : Lexer) : Nat :=
  match s.columns with
  | [] => 0
  | column :: _ => column + 1

def emit (t : Token) (s : Lexer) : Lexer := { s with tokens := s.tokens.push t }

/-- Adds a token that is `length` characters long. -/
def mark (t : Token) (length : Nat) (s : Lexer) : Lexer :=
  { s.emit t with cursor := s.cursor.skip length }

/-! ## Layout -/

/-- Puts tokens in front of those from `position` on. -/
def insertAt (position : Nat) (ts : List Token) (s : Lexer) : Lexer :=
  { s with tokens := s.tokens.take position ++ ts.toArray ++ s.tokens.drop position }

/-- Closes the block collections for which `closes` holds of the column. -/
def close (closes : Nat → Bool) (s : Lexer) : Lexer :=
  if s.inFlow then s
  else
    let closed := s.columns.takeWhile closes
    { s with
      columns := s.columns.dropWhile closes
      tokens := s.tokens ++ (closed.map fun _ => Token.blockEnd).toArray }

/-- Opens a block collection at a column if it is right of the innermost one. -/
def openBlock (t : Token) (column position : Nat) (s : Lexer) : Lexer :=
  if !s.inFlow && s.floor ≤ column then
    { s.insertAt position [t] with columns := column :: s.columns }
  else s

/-- Gives up the candidate, unless it must become a key. -/
def dropCandidate? (s : Lexer) : Option Lexer :=
  if s.candidate.any (·.required) then none else some { s with candidate := none }

/-- Makes the next token the candidate if a key may begin there. -/
def markCandidate? (s : Lexer) : Option Lexer :=
  if s.keyAllowed then
    s.dropCandidate?.map fun s =>
      { s with
        candidate := some {
          position := s.tokens.size, line := s.cursor.line, column := s.cursor.column
          required := !s.inFlow && s.columns.head? = some s.cursor.column } }
  else some s

/-- Passes blanks, comments and breaks. In a block, tabs count as blanks only where no key may
    begin, and a key may begin after a break. -/
def skipGap : Nat → Lexer → Lexer
  | 0, s => s
  | fuel + 1, s =>
    let c := s.cursor
    let c := if c.column = 0 ∧ c.at? 0 = some byteOrderMark then c.advance else c
    let c := c.skipWhile fun char => char = ' ' || (char = '\t' && (s.inFlow || !s.keyAllowed))
    let c := if c.at? 0 = some '#' then c.skipWhile (!isBreak ·) else c
    if (c.at? 0).any isBreak then
      skipGap fuel { s with cursor := c.advance, keyAllowed := s.keyAllowed || !s.inFlow }
    else { s with cursor := c }

/-! ## Tokens -/

/-- Directives and marks of documents close everything. -/
def betweenDocuments? (s : Lexer) : Option Lexer :=
  (s.close fun _ => true).dropCandidate?.map fun s => { s with keyAllowed := false }

def openFlow? (t : Token) (s : Lexer) : Option Lexer := do
  let s ← s.markCandidate?
  return { s.mark t 1 with candidate := none, outer := s.candidate :: s.outer, keyAllowed := true }

def closeFlow? (t : Token) (s : Lexer) : Option Lexer := do
  let s := { (← s.dropCandidate?).mark t 1 with keyAllowed := false }
  match s.outer with
  | [] => return s
  | candidate :: outer => return { s with candidate, outer }

def flowEntry? (s : Lexer) : Option Lexer :=
  s.dropCandidate?.map fun s => { s.mark .flowEntry 1 with keyAllowed := true }

/-- The mark of an entry or of a key; in a block it needs a place where a key may begin. -/
def blockMark? (collection t : Token) (s : Lexer) : Option Lexer :=
  if !s.inFlow && !s.keyAllowed then none
  else (s.openBlock collection s.cursor.column s.tokens.size).dropCandidate?.map (·.mark t 1)

def blockEntry? (s : Lexer) : Option Lexer :=
  (s.blockMark? .blockSequence .blockEntry).map fun s => { s with keyAllowed := true }

def key? (s : Lexer) : Option Lexer :=
  (s.blockMark? .blockMapping .key).map fun s => { s with keyAllowed := !s.inFlow }

/-- A colon that belongs to no candidate. -/
def loneValue? (s : Lexer) : Option Lexer :=
  if !s.inFlow && !s.keyAllowed then none
  else
    let s := s.openBlock .blockMapping s.cursor.column s.tokens.size
    some { s.mark .value 1 with keyAllowed := !s.inFlow }

def value? (s : Lexer) : Option Lexer :=
  match s.candidate with
  | none => s.loneValue?
  | some k =>
    if k.reaches s.cursor then
      let s := (s.insertAt k.position [.key]).openBlock .blockMapping k.column k.position
      some { s.mark .value 1 with candidate := none, keyAllowed := false }
    else if k.required then none
    else { s with candidate := none }.loneValue?

/-- A token that may be a key and after which none may begin. -/
def atom? (read : Cursor → Option (Token × Cursor)) (s : Lexer) : Option Lexer := do
  let s ← s.markCandidate?
  let (t, cursor) ← read s.cursor
  return { s.emit t with cursor, keyAllowed := false }

def plainScalar? (s : Lexer) : Option Lexer := do
  let s ← s.markCandidate?
  let (text, cursor, brokeLine) ← plain? s.inFlow s.floor s.cursor
  return { s.emit (.scalar .plain text) with cursor, keyAllowed := brokeLine }

def blockScalar? (style : Style) (s : Lexer) : Option Lexer := do
  let s ← s.dropCandidate?
  let (text, cursor) ← block? style s.floor s.cursor
  return { s.emit (.scalar style text) with cursor, keyAllowed := true }

def quotedScalar? (quote : Char) : Lexer → Option Lexer :=
  atom? fun c => (quoted? quote c).map fun (text, c) => (.scalar .quoted text, c)

/-- Whether a plain scalar may begin with `char`, of which `next` is the follower. -/
def startsPlain (inFlow : Bool) (char : Char) (next : Option Char) : Bool :=
  if char = '-' then !next.any isBlank
  else if char = '?' || char = ':' then !inFlow && !endsWord next
  else !isGap char && !isFlowMark char && !("#&*!|>'\"%@\x60".toList.contains char)

/-- Reads the token at a place that is no gap. -/
def token? (char : Char) (s : Lexer) : Option Lexer :=
  let c := s.cursor
  let next := c.at? 1
  if c.column = 0 ∧ char = '%' then do
    let s ← s.betweenDocuments?
    let (t, cursor) ← directive? s.cursor
    return { s.emit t with cursor }
  else if c.atMark '-' then s.betweenDocuments?.map (·.mark .documentStart 3)
  else if c.atMark '.' then s.betweenDocuments?.map (·.mark .documentEnd 3)
  else if char = '[' then s.openFlow? .flowSequence
  else if char = '\x7b' then s.openFlow? .flowMapping
  else if char = ']' then s.closeFlow? .flowSequenceEnd
  else if char = '\x7d' then s.closeFlow? .flowMappingEnd
  else if char = ',' then s.flowEntry?
  else if char = '-' ∧ endsWord next then s.blockEntry?
  else if char = '?' ∧ (s.inFlow || endsWord next) then s.key?
  else if char = ':' ∧ (s.inFlow || endsWord next) then s.value?
  else if char = '*' then s.atom? fun c => (anchorName? c).map fun (name, c) => (.alias name, c)
  else if char = '&' then s.atom? fun c => (anchorName? c).map fun (name, c) => (.anchor name, c)
  else if char = '!' then s.atom? (tag? s.inFlow)
  else if char = '|' ∧ !s.inFlow then s.blockScalar? .literal
  else if char = '>' ∧ !s.inFlow then s.blockScalar? .folded
  else if char = '\'' ∨ char = '"' then s.quotedScalar? char
  else if startsPlain s.inFlow char next then s.plainScalar?
  else none

/-- Reads the tokens that are left, at most `fuel` of them. -/
def finish? : Nat → Lexer → Option (List Token)
  | 0, _ => none
  | fuel + 1, s =>
    let s := s.skipGap (s.cursor.rest.length + 1)
    match s.cursor.at? 0 with
    | none => (s.close fun _ => true).dropCandidate?.map (·.tokens.toList)
    | some char => ((s.close (s.cursor.column < ·)).token? char).bind (finish? fuel)

end Lexer

/-- The tokens of a text. One mark may stand in front of it. -/
def tokens? (text : String) : Option (List Token) :=
  if text.toList.all isAllowed then
    let rest := match uniformBreaks text.toList with
      | c :: rest => if c = byteOrderMark then rest else c :: rest
      | [] => []
    Lexer.finish? (rest.length + 1) { cursor := { rest } }
  else none

end Strongbox.Yaml
