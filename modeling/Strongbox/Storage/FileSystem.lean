/-
  Strongbox.Storage.FileSystem — paths, and what a file system offers.

  A path is its parts between slashes, from the root or from the working directory. The
  operations are those that storage in a directory needs; each says how it was refused. Any of
  them can also fail: for want of permission or of space, because a device is broken, or because
  somebody else was there in between. A failed operation has done nothing, but a write that fails
  may have emptied its file and got part of the way.
-/

import Strongbox.Bytes
import Strongbox.Storage.Error
import Strongbox.Text.Pieces

namespace Strongbox

structure FilePath where
  absolute : Bool
  parts : List String
  deriving DecidableEq, Repr

namespace FilePath

def ofText (text : String) : FilePath :=
  match text.toList with
  | [] => ⟨false, []⟩
  | '/' :: rest => ⟨true, Text.pieces '/' (String.ofList rest)⟩
  | _ => ⟨false, Text.pieces '/' text⟩

def text (p : FilePath) : String := (if p.absolute then "/" else "") ++ Text.join "/" p.parts

/-- The path that leads nowhere, not even to the working directory. -/
def isEmpty (p : FilePath) : Bool := !p.absolute && p.parts.all (· = "")

/-- The parts without the empty ones at the end. -/
def trimmedParts (p : FilePath) : List String := (p.parts.reverse.dropWhile (· = "")).reverse

/-- The path without its last part; trailing slashes and dots do not count as parts. -/
def parent (p : FilePath) : FilePath :=
  ⟨p.absolute, ((p.parts.reverse.dropWhile fun s => s = "" || s = ".").drop 1).reverse⟩

/-- A path below this one. -/
def append (p : FilePath) (parts : List String) : FilePath := ⟨p.absolute, p.trimmedParts ++ parts⟩

end FilePath

structure FileSystem (m : Type → Type) where
  /-- Whether there is something at a path. -/
  present : FilePath → m Bool
  isDirectory : FilePath → m Bool
  makeDirectory : FilePath → m (Except OsError Unit)
  read : FilePath → m (Except OsError Bytes)
  /-- Replaces the content of a file, creating it if need be. -/
  write : FilePath → Bytes → m (Except OsError Unit)
  /-- Leaves a file, or a directory, to its owner alone. -/
  protect : (directory : Bool) → FilePath → m (Except OsError Unit)
  /-- Moves a file over another. -/
  rename : FilePath → FilePath → m (Except OsError Unit)
  removeFile : FilePath → m (Except OsError Unit)
  /-- Removes a directory if it is empty. -/
  removeDirectory : FilePath → m (Except OsError Unit)
  /-- The names in a directory, and which of them are directories. -/
  entries : FilePath → m (Except OsError (List (String × Bool)))

namespace FileSystem

/-- The same file system for programs that may do more. -/
def within {m n : Type → Type} (lift : {α : Type} → m α → n α) (fs : FileSystem m) :
    FileSystem n where
  present p := lift (fs.present p)
  isDirectory p := lift (fs.isDirectory p)
  makeDirectory p := lift (fs.makeDirectory p)
  read p := lift (fs.read p)
  write p content := lift (fs.write p content)
  protect directory p := lift (fs.protect directory p)
  rename source target := lift (fs.rename source target)
  removeFile p := lift (fs.removeFile p)
  removeDirectory p := lift (fs.removeDirectory p)
  entries p := lift (fs.entries p)

variable {m : Type → Type} [Monad m]

/-! ## Failures -/

/-- How an operation fails. -/
structure Strike where
  error : OsError
  /-- How much of its content a write got into its file; none if it did not come to that. -/
  written : Option Nat := none

section Faulty

variable {φ : Type} (strikes : StateM φ (Option Strike))

/-- Goes on unless it is struck. -/
def struck {α : Type} (failed : Strike → α) (go : m α) : StateT φ m α := do
  match strikes (← get) with
  | (some strike, plan) => do set plan; return failed strike
  | (none, plan) => do set plan; go

/-- Lets operations fail: `strikes` says of each in turn whether and how it does. What cannot be
    seen counts as not being there. -/
def faulty (fs : FileSystem m) : FileSystem (StateT φ m) where
  present p := struck strikes (fun _ => false) (fs.present p)
  isDirectory p := struck strikes (fun _ => false) (fs.isDirectory p)
  makeDirectory p := struck strikes (fun strike => .error strike.error) (fs.makeDirectory p)
  read p := struck strikes (fun strike => .error strike.error) (fs.read p)
  write p content := do
    match strikes (← get) with
    | (none, plan) => do set plan; fs.write p content
    | (some ⟨e, none⟩, plan) => do set plan; return .error e
    | (some ⟨e, some n⟩, plan) => do
      set plan
      return (← fs.write p (content.take n)) >>= fun _ => .error e
  protect directory p := struck strikes (fun strike => .error strike.error) (fs.protect directory p)
  rename source target := struck strikes (fun strike => .error strike.error) (fs.rename source target)
  removeFile p := struck strikes (fun strike => .error strike.error) (fs.removeFile p)
  removeDirectory p := struck strikes (fun strike => .error strike.error) (fs.removeDirectory p)
  entries p := struck strikes (fun strike => .error strike.error) (fs.entries p)

end Faulty

/-! ## Directories on the way -/

/-- Makes a directory and those above it that are missing, at most `depth` levels. What was made
    before a failure stays. -/
def makeDirectories (fs : FileSystem m) : Nat → FilePath → m (Except OsError Unit)
  | 0, _ => pure (.error (.other "failed to create whole tree"))
  | depth + 1, p => do
    if p.isEmpty then return .ok ()
    match ← fs.makeDirectory p with
    | .ok () => return .ok ()
    | .error .notFound =>
      match ← fs.makeDirectories depth p.parent with
      | .error e => return .error e
      | .ok () =>
        match ← fs.makeDirectory p with
        | .ok () => return .ok ()
        | .error e => if ← fs.isDirectory p then return .ok () else return .error e
    | .error e => if ← fs.isDirectory p then return .ok () else return .error e

/-- Makes a directory and all those above it that are missing. -/
def ensureDirectory (fs : FileSystem m) (p : FilePath) : m (Except OsError Unit) :=
  fs.makeDirectories (p.parts.length + 2) p

end FileSystem

end Strongbox
