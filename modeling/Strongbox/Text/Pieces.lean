/-
  Strongbox.Text.Pieces — texts cut at a separator, joined again, and trimmed.

  A text has one piece more than separators, and the pieces hold none; joining the pieces with
  the separator gives the text back. Trimming removes blank characters (the Unicode property
  White_Space) from both ends.
-/

namespace Strongbox.Text

/-- The pieces between the separators; at least one, possibly empty. -/
def cutAt (separator : Char) : List Char → List (List Char)
  | [] => [[]]
  | c :: rest =>
    if c = separator then [] :: cutAt separator rest
    else
      match cutAt separator rest with
      | [] => [[c]]
      | first :: others => (c :: first) :: others

def pieces (separator : Char) (text : String) : List String :=
  (cutAt separator text.toList).map String.ofList

/-- The pieces with the separator between them. -/
def join (separator : String) : List String → String
  | [] => ""
  | [last] => last
  | first :: second :: rest => first ++ separator ++ join separator (second :: rest)

/-- What follows `head` in a text that starts with it. -/
def after? : (head text : List Char) → Option (List Char)
  | [], text => some text
  | _ :: _, [] => none
  | h :: head, c :: text => if h = c then after? head text else none

/-- The Unicode property White_Space. -/
def isBlank (c : Char) : Bool :=
  let n := c.toNat
  (9 ≤ n && n ≤ 13) || n = 0x20 || n = 0x85 || n = 0xa0 || n = 0x1680 || (0x2000 ≤ n && n ≤ 0x200a) ||
    n = 0x2028 || n = 0x2029 || n = 0x202f || n = 0x205f || n = 0x3000

def trimStart (text : List Char) : List Char := text.dropWhile isBlank

/-- The text without blank characters at either end. -/
def trim (text : String) : String :=
  String.ofList (trimStart (trimStart text.toList).reverse).reverse

end Strongbox.Text
