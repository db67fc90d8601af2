/-
  Strongbox.Storage.FileTree — a file system as a value.

  Directories and files by their path from the root, which is always there. A path is walked
  part by part: everything passed must be a directory, `..` leads to the directory above, and
  no name may have more than 255 bytes nor a path more than 4095. There are no links in a tree,
  everything in it may be read and changed, and there is room for all that is written.
-/

import Strongbox.Storage.FileSystem
import Strongbox.Storage.Memory
import Std.Data.ExtTreeMap

namespace Strongbox

inductive Node where
  | directory
  | file (content : Bytes)
  deriving DecidableEq

/-- What is at each path below the root. -/
abbrev FileTree := Std.ExtTreeMap (List String) Node

namespace FileTree

def maxNameLength : Nat := 255

def maxPathLength : Nat := 4095

def node? (t : FileTree) : List String → Option Node
  | [] => some .directory
  | path => t[path]?

/-- Where the parts lead, starting at a path; the last one need not exist. -/
def walk (t : FileTree) (start : List String) : List String → Except OsError (List String)
  | [] => .ok start
  | part :: rest =>
    match t.node? start with
    | none => .error .notFound
    | some (.file _) => .error .notDirectory
    | some .directory =>
      if part = "" ∨ part = "." then t.walk start rest
      else if part = ".." then t.walk start.dropLast rest
      else if maxNameLength < part.utf8ByteSize then .error .nameTooLong
      else t.walk (start ++ [part]) rest

/-- Where a path leads, from the root or from the working directory `here`. -/
def locate (here : List String) (t : FileTree) (p : FilePath) : Except OsError (List String) :=
  if p.text.toList.contains '\x00' then .error .nulByte
  else if p.isEmpty then .error .notFound
  else if maxPathLength < p.text.utf8ByteSize then .error .nameTooLong
  else t.walk (if p.absolute then [] else here) p.parts

/-- The names in a directory, and which of them are directories. -/
def children (t : FileTree) (path : List String) : List (String × Bool) :=
  t.toList.filterMap fun (below, node) =>
    match below.getLast? with
    | some name => if below.dropLast = path then some (name, node = .directory) else none
    | none => none

def read (t : FileTree) (path : List String) : Except OsError Bytes :=
  match t.node? path with
  | some (.file content) => .ok content
  | some .directory => .error .isDirectory
  | none => .error .notFound

def makeDirectory (t : FileTree) (path : List String) : Except OsError FileTree :=
  match t.node? path with
  | some _ => .error .alreadyExists
  | none => .ok (t.insert path .directory)

def write (t : FileTree) (path : List String) (content : Bytes) : Except OsError FileTree :=
  match t.node? path with
  | some .directory => .error .isDirectory
  | _ => .ok (t.insert path (.file content))

def rename (t : FileTree) (source target : List String) : Except OsError FileTree :=
  match t.node? source, t.node? target with
  | none, _ => .error .notFound
  | some .directory, _ => .error .isDirectory
  | some (.file _), some .directory => .error .isDirectory
  | some (.file content), _ => .ok ((t.erase source).insert target (.file content))

def removeFile (t : FileTree) (path : List String) : Except OsError FileTree :=
  match t.node? path with
  | some (.file _) => .ok (t.erase path)
  | some .directory => .error .isDirectory
  | none => .error .notFound

def removeDirectory (t : FileTree) (path : List String) : Except OsError FileTree :=
  match t.node? path with
  | some .directory =>
    if path = [] ∨ t.children path ≠ [] then .error .notEmpty else .ok (t.erase path)
  | some (.file _) => .error .notDirectory
  | none => .error .notFound

def entries (t : FileTree) (path : List String) : Except OsError (List (String × Bool)) :=
  match t.node? path with
  | some .directory => .ok (t.children path)
  | some (.file _) => .error .notDirectory
  | none => .error .notFound

def found (t : FileTree) (path : List String) : Except OsError Unit :=
  if (t.node? path).isSome then .ok () else .error .notFound

/-- A change that leaves the tree as it was if it is refused. -/
def change (f : FileTree → Except OsError FileTree) : StateM FileTree (Except OsError Unit) :=
  fun t =>
    match f t with
    | .ok t => (.ok (), t)
    | .error e => (.error e, t)

/-- Where a directory is made: slashes at the end are passed over, but count for the length. -/
def makingPath (p : FilePath) : FilePath :=
  if p.text.utf8ByteSize ≤ maxPathLength then { p with parts := p.trimmedParts } else p

/-- The tree as a file system, seen from the working directory `here`. -/
def fileSystem (here : List String) : FileSystem (StateM FileTree) where
  present p t := (((t.locate here p).toOption.bind t.node?).isSome, t)
  isDirectory p t := ((t.locate here p).toOption.bind t.node? = some .directory, t)
  makeDirectory p := change fun t => do t.makeDirectory (← t.locate here (makingPath p))
  read p t := (t.locate here p >>= t.read, t)
  write p content := change fun t => do t.write (← t.locate here p) content
  protect _ p t := (t.locate here p >>= t.found, t)
  rename source target := change fun t => do t.rename (← t.locate here source) (← t.locate here target)
  removeFile p := change fun t => do t.removeFile (← t.locate here p)
  removeDirectory p := change fun t => do t.removeDirectory (← t.locate here p)
  entries p t := (t.locate here p >>= t.entries, t)

end FileTree

end Strongbox
