/-
  Strongbox.KeyPath — which texts name a key.

  A path names a key if none of its segments, cut at slashes, is empty, `.` or `..`.
-/

import Strongbox.Text.Pieces
import Strongbox.Text.Quoted

namespace Strongbox.KeyPath

def segments (path : String) : List String := Text.pieces '/' path

def isName (segment : String) : Bool := segment ≠ "" && segment ≠ "." && segment ≠ ".."

inductive Fault where
  | missing
  | malformed (path : String)
  deriving DecidableEq, Repr

/-- Why a path names no key, if it does not. -/
def fault? (path : String) : Option Fault :=
  if path = "" then some .missing
  else if (segments path).all isName then none
  else some (.malformed path)

def Fault.message : Fault → String
  | .missing => "missing path"
  | .malformed path =>
    "invalid path " ++ Text.quoted path ++ ": segments must not be empty, '.' or '..'"

end Strongbox.KeyPath
