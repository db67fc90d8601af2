/-
  Strongbox.Yaml.Character — which characters a YAML text may hold, and their classes.

  Line breaks are LF, CR, CR LF, NEL and the two Unicode separators. All but the separators are
  read as LF, so breaks are made uniform first and each is one character from then on.
-/

namespace Strongbox.Yaml

/-- Controls, surrogates and noncharacters may not stand in a text. -/
def isAllowed (c : Char) : Bool :=
  let n := c.toNat
  n = 9 || n = 10 || n = 13 || (0x20 ≤ n && n ≤ 0x7e) || n = 0x85 || (0xa0 ≤ n && n ≤ 0xd7ff) ||
    (0xe000 ≤ n && n ≤ 0xfffd) || 0x10000 ≤ n

/-- The mark that may stand in front of a text or a line. -/
def byteOrderMark : Char := '\ufeff'

/-- The text with every break but the two separators as LF. -/
def uniformBreaks : List Char → List Char
  | [] => []
  | '\r' :: '\n' :: rest => '\n' :: uniformBreaks rest
  | c :: rest => (if c = '\r' ∨ c = '\u0085' then '\n' else c) :: uniformBreaks rest

def isBreak (c : Char) : Bool := c = '\n' || c = '\u2028' || c = '\u2029'

def isBlank (c : Char) : Bool := c = ' ' || c = '\t'

/-- Blanks and breaks. -/
def isGap (c : Char) : Bool := isBlank c || isBreak c

/-- Whether a word ends before this character, or at the end of the text. -/
def endsWord : Option Char → Bool
  | none => true
  | some c => isGap c

/-- The characters of names: ASCII letters, digits, hyphen and underscore. -/
def isNameChar (c : Char) : Bool := c.isAlphanum || c = '-' || c = '_'

def hexDigit? (c : Char) : Option Nat :=
  if '0' ≤ c ∧ c ≤ '9' then some (c.toNat - 48)
  else if 'a' ≤ c ∧ c ≤ 'f' then some (c.toNat - 87)
  else if 'A' ≤ c ∧ c ≤ 'F' then some (c.toNat - 55)
  else none

/-- The number that hexadecimal digits spell. -/
def hexValue? (digits : List Char) : Option Nat :=
  digits.foldlM (fun n c => (hexDigit? c).map (16 * n + ·)) 0

end Strongbox.Yaml
