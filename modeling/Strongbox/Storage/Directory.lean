/-
  Strongbox.Storage.Directory — storage as files below a directory.

  The segments of a key but the last are directories; the value is in a file named for the last
  segment with `_` in front, so that a key and keys below it can exist side by side. A value is
  written to a file beside it which is then moved over it; if something on the way is missing this
  is tried again, since a delete can have removed a directory in between. After a delete the
  directories that became empty are removed, so that a listing shows a directory only if a key is
  below it. Directories and files that are made here are for their owner alone.
-/

import Strongbox.KeyPath
import Strongbox.Storage.Access
import Strongbox.Storage.FileSystem
import Strongbox.Storage.Memory

namespace Strongbox.Directory

/-- Why a key names no file, if it does not. -/
def keyFault? (key : String) : Option KeyFault :=
  if key = "" then some .empty
  else if key.toList.getLast? = some '/' then some .trailingSeparator
  else if (KeyPath.segments key).all KeyPath.isName then none
  else some .badSegment

def valueName (name : String) : String := "_" ++ name

/-- The file that a value is first written to. -/
def temporaryName (name : String) : String := "." ++ valueName name ++ ".tmp"

/-- The directories of a key and its last segment. -/
def place (key : String) : List String × String :=
  let segments := KeyPath.segments key
  (segments.dropLast, segments.getLast?.getD "")

variable {m : Type → Type} [Monad m] (fs : FileSystem m) (root : FilePath)

def get (key : String) : m (Except OsError (Option Bytes)) := do
  let (above, name) := place key
  match ← fs.read (root.append (above ++ [valueName name])) with
  | .ok value => return .ok (some value)
  | .error .notFound => return .ok none
  | .error e => return .error e

/-- Makes a directory and those above it that are missing, and leaves it to its owner. -/
def makePrivate (directory : FilePath) : m (Except OsError Unit) := do
  match ← fs.ensureDirectory directory with
  | .error e => return .error e
  | .ok () => fs.protect true directory

/-- Makes the directory that a file is to be in. -/
def makeWay (directory : FilePath) : m (Except OsError Unit) := do
  if ← fs.present directory then fs.ensureDirectory directory else makePrivate fs directory

/-- Writes a value to a file beside its own, and moves that over it. -/
def writeAtomic (key : String) (value : Bytes) : m (Except OsError Unit) := do
  let (above, name) := place key
  let temporary := root.append (above ++ [temporaryName name])
  match ← makeWay fs (root.append above) with
  | .error e => return .error e
  | .ok () =>
    match ← fs.write temporary value with
    | .error e => return .error e
    | .ok () =>
      match ← fs.protect false temporary with
      | .error e => return .error e
      | .ok () => fs.rename temporary (root.append (above ++ [valueName name]))

/-- Tries once, and again as long as something was missing, but at most so often. -/
def retried (attempt : m (Except OsError Unit)) : Nat → m (Except OsError Unit)
  | 0 => attempt
  | again + 1 => do
    match ← attempt with
    | .error .notFound => retried attempt again
    | result => return result

/-- How often a value is tried to be written in all. -/
def writeAttempts : Nat := 3

def put (key : String) (value : Bytes) : m (Except OsError Unit) :=
  retried (writeAtomic fs root key value) (writeAttempts - 1)

/-- Removes the directory with these segments, innermost first, and those above it, as long as
    they are empty. -/
def prune : List String → m Unit
  | [] => pure ()
  | segment :: above => do
    match ← fs.removeDirectory (root.append (segment :: above).reverse) with
    | .ok () => prune above
    | .error _ => pure ()

def delete (key : String) : m (Except OsError Unit) := do
  let (above, name) := place key
  match ← fs.removeFile (root.append (above ++ [valueName name])) with
  | .error .notFound => return .ok ()
  | .error e => return .error e
  | .ok () => do
    prune fs root above.reverse
    return .ok ()

/-- The name that an entry of a directory is listed under. -/
def listedName? : String × Bool → Option String
  | (name, true) => some (name ++ "/")
  | (name, false) =>
    match name.toList with
    | '_' :: rest => some (String.ofList rest)
    | _ => none

def list (segments : List String) : m (Except OsError (List String)) := do
  match ← fs.entries (root.append segments) with
  | .ok entries => return .ok (sortedNames (entries.filterMap listedName?))
  | .error .notFound => return .ok []
  | .error e => return .error e

/-- Goes on only with a key that names a file. -/
def checked {α : Type} (key : String) (go : m (Except OsError α)) : m (Except StorageError α) :=
  match keyFault? key with
  | some fault => pure (.error (.invalidKey key fault))
  | none => do return (← go).mapError .io

/-- The text without the slashes at its end. -/
def withoutTrailing (directory : String) : String :=
  String.ofList (directory.toList.reverse.dropWhile (· = '/')).reverse

def perform : (c : Call) → m (Except StorageError c.Reply)
  | .get key => checked key (get fs root key)
  | .put key value => checked key (put fs root key value)
  | .delete key => checked key (delete fs root key)
  | .list "" => do return (← list fs root []).mapError .io
  | .list directory =>
    let path := withoutTrailing directory
    checked path (list fs root (KeyPath.segments path))

/-- Makes the root if nothing is there. -/
def ensureRoot : m (Except OsError Unit) := do
  if ← fs.present root then return .ok () else makePrivate fs root

end Strongbox.Directory
