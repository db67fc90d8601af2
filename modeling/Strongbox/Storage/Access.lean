/-
  Strongbox.Storage.Access — what an operation asks of storage, as a program.

  Storage is a flat map from text keys to bytes with four calls; `list` treats `/` as a
  separator. An operation is a program that issues calls and draws random bytes one after the
  other, each choice depending on the replies so far. A failed call ends the program with that
  failure. A backend performs single calls; running a program over a backend says what the
  operation does to the storage behind it, and the same program runs over every backend.
-/

import Strongbox.Bytes
import Strongbox.Storage.Error

namespace Strongbox

inductive Call where
  | get (key : String)
  | put (key : String) (value : Bytes)
  | delete (key : String)
  /-- The names right below a directory; names of directories end with `/`. -/
  | list (directory : String)
  deriving DecidableEq

namespace Call

abbrev Reply : Call → Type
  | .get _ => Option Bytes
  | .put _ _ => Unit
  | .delete _ => Unit
  | .list _ => List String

def isWrite : Call → Bool
  | .put _ _ => true
  | .delete _ => true
  | _ => false

end Call

/-- A program over storage. -/
inductive Access (α : Type) : Type where
  | done (result : Except Error α)
  /-- Goes on with `n` random bytes. -/
  | draw (n : Nat) (next : Block n → Access α)
  /-- Goes on with the reply to a call. -/
  | call (c : Call) (next : c.Reply → Access α)

namespace Access

variable {α β : Type}

def bind : Access α → (α → Access β) → Access β
  | .done (.ok a), f => f a
  | .done (.error e), _ => .done (.error e)
  | .draw n next, f => .draw n fun b => (next b).bind f
  | .call c next, f => .call c fun reply => (next reply).bind f

instance : Monad Access where
  pure a := .done (.ok a)
  bind := bind

def fail (e : Error) : Access α := .done (.error e)

def ofExcept (r : Except StorageError α) : Access α := .done (r.mapError .storage)

def get (key : String) : Access (Option Bytes) := .call (.get key) fun reply => .done (.ok reply)

def put (key : String) (value : Bytes) : Access Unit :=
  .call (.put key value) fun reply => .done (.ok reply)

def delete (key : String) : Access Unit := .call (.delete key) fun reply => .done (.ok reply)

def list (directory : String) : Access (List String) :=
  .call (.list directory) fun reply => .done (.ok reply)

def random (n : Nat) : Access (Block n) := .draw n fun b => .done (.ok b)

/-- One program after the other, for each element of a list. -/
def forEach (f : α → Access Unit) : List α → Access Unit
  | [] => .done (.ok ())
  | a :: rest => (f a).bind fun _ => forEach f rest

end Access

/-- What performs single calls and supplies random bytes. -/
structure Backend (m : Type → Type) where
  perform : (c : Call) → m (Except StorageError c.Reply)
  random : (n : Nat) → m (Block n)

namespace Access

/-- Runs a program over a backend. -/
def run {m : Type → Type} [Monad m] {α : Type} (b : Backend m) : Access α → m (Except Error α)
  | .done result => pure result
  | .draw n next => do (next (← b.random n)).run b
  | .call c next => do
    match ← b.perform c with
    | .ok reply => (next reply).run b
    | .error e => pure (.error (.storage e))

end Access

namespace Backend

variable {m : Type → Type} [Monad m]

/-- Refuses every write before it reaches the storage. -/
def readOnly (b : Backend m) : Backend m where
  perform c := if c.isWrite then pure (.error .readOnly) else b.perform c
  random := b.random

/-- Lets calls fail without effect: `strikes` says of each call whether and how it fails. -/
def faulty {φ : Type} (strikes : Call → StateM φ (Option StorageError)) (b : Backend m) :
    Backend (StateT φ m) where
  perform c := do
    match strikes c (← get) with
    | (some e, plan) => do set plan; pure (.error e)
    | (none, plan) => do set plan; b.perform c
  random n := b.random n

end Backend

end Strongbox
