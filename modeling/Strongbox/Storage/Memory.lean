/-
  Strongbox.Storage.Memory — storage held as a map, and the world that pure runs happen in.

  A get answers what the last put left, a list the names right below a directory: what stands
  up to the next slash, with the slash if there is one, in ascending order and each once.
-/

import Strongbox.Storage.Access
import Strongbox.Text.Pieces
import Std.Data.ExtTreeMap
import Std.Data.ExtTreeSet

namespace Strongbox

/-- Bytes by key. -/
abbrev Memory := Std.ExtTreeMap String Bytes

/-- The texts in ascending order, each once. -/
def sortedNames (names : List String) : List String := (Std.ExtTreeSet.ofList names).toList

/-- What names a key right below a directory: its first segment there. -/
def childName? (directory key : String) : Option String :=
  (Text.after? directory.toList key.toList).bind fun relative =>
    let name := relative.takeWhile (· ≠ '/')
    if relative.dropWhile (· ≠ '/') ≠ [] then some (String.ofList (name ++ ['/']))
    else if name ≠ [] then some (String.ofList name)
    else none

/-- The names right below a directory. -/
def childNames (directory : String) (keys : List String) : List String :=
  sortedNames (keys.filterMap (childName? directory))

namespace Memory

def perform : (c : Call) → StateM Memory (Except StorageError c.Reply)
  | .get key => fun store => (.ok store[key]?, store)
  | .put key value => fun store => (.ok (), store.insert key value)
  | .delete key => fun store => (.ok (), store.erase key)
  | .list directory => fun store => (.ok (childNames directory store.keys), store)

end Memory

/-- A source of random bytes: which byte comes when, and how many have been used. -/
structure Entropy where
  byte : Nat → UInt8
  used : Nat := 0

def Entropy.draw (n : Nat) : StateM Entropy (Block n) := fun e =>
  (Block.tabulate n fun i => e.byte (e.used + i), { e with used := e.used + n })

/-- Storage together with a source of random bytes. -/
structure World (σ : Type) where
  store : σ
  entropy : Entropy

namespace World

variable {σ α : Type}

/-- A step that concerns the storage alone. -/
def onStore (step : StateM σ α) : StateM (World σ) α := fun w =>
  let (a, store) := step w.store
  (a, { w with store })

def draw (n : Nat) : StateM (World σ) (Block n) := fun w =>
  let (block, entropy) := Entropy.draw n w.entropy
  (block, { w with entropy })

end World

/-- The backend of a pure storage. -/
def Backend.ofStore {σ : Type} (perform : (c : Call) → StateM σ (Except StorageError c.Reply)) :
    Backend (StateM (World σ)) where
  perform c := World.onStore (perform c)
  random := World.draw

def Backend.memory : Backend (StateM (World Memory)) := .ofStore Memory.perform

end Strongbox
