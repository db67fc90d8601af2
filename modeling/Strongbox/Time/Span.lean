/-
  Strongbox.Time.Span — spans of whole seconds as text, such as `1h30m0s`.
-/

import Strongbox.Text.Decimal

namespace Strongbox.Time

open Strongbox.Text

/-- Hours, minutes and seconds; leading zero parts are left out, seconds always stand. -/
def spanText (seconds : Nat) : String :=
  let hours := seconds / 3600
  let minutes := seconds / 60 % 60
  let rest := Decimal.text (seconds % 60) ++ "s"
  if 0 < hours then Decimal.text hours ++ "h" ++ Decimal.text minutes ++ "m" ++ rest
  else if 0 < minutes then Decimal.text minutes ++ "m" ++ rest
  else rest

end Strongbox.Time
