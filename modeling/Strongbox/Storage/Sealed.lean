/-
  Strongbox.Storage.Sealed — storage whose values are sealed and whose names may be hidden.

  All keys are placed below a fixed text. What fails to open is reported as such, never as
  absent: `get` answers none only if nothing is stored.
-/

import Strongbox.KeyRing.Basic
import Strongbox.Storage.Memory

namespace Strongbox

structure Sealed where
  ring : KeyRing
  /-- What every stored key begins with. -/
  below : String := ""
  /-- Whether names are hidden as well. -/
  hidesNames : Bool := false

namespace Sealed

/-- The key under which the value of a key is stored. -/
def physicalKey (s : Sealed) (key : String) : String :=
  s.below ++ (if s.hidesNames then s.ring.hidePath key else key)

def get (s : Sealed) (key : String) : Access (Option Bytes) := do
  match ← Access.get (s.physicalKey key) with
  | none => return none
  | some sealed => return some (← Access.ofExcept (s.ring.openSealed (s.physicalKey key) sealed))

def put (s : Sealed) (key : String) (value : Bytes) : Access Unit := do
  let nonce ← Access.random 12
  Access.put (s.physicalKey key) (s.ring.sealWith nonce (s.physicalKey key) value)

def delete (s : Sealed) (key : String) : Access Unit := Access.delete (s.physicalKey key)

/-- The name of a child, with its slash if it is a directory. -/
def revealChild (s : Sealed) (child : String) : Except StorageError String :=
  match child.toList.reverse with
  | '/' :: rest => (s.ring.revealName (String.ofList rest.reverse)).map (· ++ "/")
  | _ => s.ring.revealName child

/-- A listing always addresses a directory. -/
def directory (path : String) : String :=
  if path = "" ∨ path.toList.getLast? = some '/' then path else path ++ "/"

def list (s : Sealed) (path : String) : Access (List String) := do
  let children ← Access.list (s.physicalKey (directory path))
  if s.hidesNames then
    return sortedNames (← Access.ofExcept (children.mapM s.revealChild))
  else return children

end Sealed

end Strongbox
