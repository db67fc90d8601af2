/-
  Strongbox.Text.Quoted — texts in quotes with every invisible character spelled out.

  Quoted text stands in messages: a double quote, a backslash and the common controls are
  escaped with a backslash; any other character that is not graphic, or that extends the one
  before it, is written as its code point in braces.
-/

import Strongbox.Text.Graphic

namespace Strongbox.Text

/-- The code point in lower-case hexadecimal, in braces. -/
def codePoint (c : Char) : List Char := ['\\', 'u', '\x7b'] ++ Nat.toDigits 16 c.toNat ++ ['\x7d']

/-- A character between two quotes `quote`. -/
def escaped (quote c : Char) : List Char :=
  if c = '\x00' then ['\\', '0']
  else if c = '\t' then ['\\', 't']
  else if c = '\r' then ['\\', 'r']
  else if c = '\n' then ['\\', 'n']
  else if c = '\\' ∨ c = quote then ['\\', c]
  else if isExtending c || !isGraphic c then codePoint c
  else [c]

/-- A text in double quotes. -/
def quoted (text : String) : String :=
  String.ofList ('"' :: text.toList.flatMap (escaped '"') ++ ['"'])

/-- A character in single quotes. -/
def quotedChar (c : Char) : String := String.ofList ('\'' :: escaped '\'' c ++ ['\''])

end Strongbox.Text
