/-
  Strongbox.Storage.Disk — a file system with links, as a value.

  Directories, files and symbolic links by their path from the root, which is always there. A path
  is walked part by part as in a tree, but a link on the way is followed: the walk goes on with the
  parts that the link names, from the root or from the directory that the link is in. A link at the
  end of a way is followed by what is done to the thing it leads to, and is itself the thing where
  something is made, moved or removed. At most forty links are followed on one way. Each file has one
  name.
-/

import Strongbox.Storage.FileTree

namespace Strongbox

namespace Disk

inductive Entry where
  | directory
  | file (content : Bytes)
  | link (target : FilePath)
  deriving DecidableEq

end Disk

/-- What is at each path below the root. -/
abbrev Disk := Std.ExtTreeMap (List String) Disk.Entry

namespace Disk

def maxLinks : Nat := 40

def tooManyLinks : OsError := .other "Too many levels of symbolic links (os error 40)"

def node? (d : Disk) : List String → Option Entry
  | [] => some .directory
  | path => d[path]?

/-! ## Ways -/

/-- How far a walk gets without following a link. -/
inductive Stretch where
  | arrived (path : List String)
  /-- There is a link in a directory, and parts behind it. -/
  | diverted (directory : List String) (target : FilePath) (rest : List String)

/-- Walks to the end of the parts, or to a link that is to be followed. One at the end is to be
    followed if `follow` says so. -/
def stretch (d : Disk) (follow : Bool) (start : List String) : List String → Except OsError Stretch
  | [] => .ok (.arrived start)
  | part :: rest =>
    match d.node? start with
    | none => .error .notFound
    | some (.file _) | some (.link _) => .error .notDirectory
    | some .directory =>
      if part = "" ∨ part = "." then d.stretch follow start rest
      else if part = ".." then d.stretch follow start.dropLast rest
      else if FileTree.maxNameLength < part.utf8ByteSize then .error .nameTooLong
      else
        match d.node? (start ++ [part]) with
        | some (.link target) =>
          if follow ∨ rest ≠ [] then .ok (.diverted start target rest) else .ok (.arrived (start ++ [part]))
        | _ => d.stretch follow (start ++ [part]) rest

/-- Where the parts lead, starting at a path, if at most so many links are followed. -/
def walk (d : Disk) (follow : Bool) (links : Nat) (start parts : List String) : Except OsError (List String) :=
  match d.stretch follow start parts with
  | .error e => .error e
  | .ok (.arrived path) => .ok path
  | .ok (.diverted directory target rest) =>
    match links with
    | 0 => .error tooManyLinks
    | links + 1 => d.walk follow links (if target.absolute then [] else directory) (target.parts ++ rest)

/-- Where a path leads, from the root or from the working directory `here`. -/
def locate (here : List String) (follow : Bool) (d : Disk) (p : FilePath) : Except OsError (List String) :=
  if p.text.toList.contains '\x00' then .error .nulByte
  else if p.isEmpty then .error .notFound
  else if FileTree.maxPathLength < p.text.utf8ByteSize then .error .nameTooLong
  else d.walk follow maxLinks (if p.absolute then [] else here) p.parts

/-! ## Operations -/

/-- The names in a directory, and which of them are directories. -/
def children (d : Disk) (path : List String) : List (String × Bool) :=
  d.toList.filterMap fun (below, entry) =>
    match below.getLast? with
    | some name => if below.dropLast = path then some (name, entry = .directory) else none
    | none => none

def read (d : Disk) (path : List String) : Except OsError Bytes :=
  match d.node? path with
  | some (.file content) => .ok content
  | some .directory => .error .isDirectory
  | _ => .error .notFound

def makeDirectory (d : Disk) (path : List String) : Except OsError Disk :=
  match d.node? path with
  | some _ => .error .alreadyExists
  | none => .ok (d.insert path .directory)

def write (d : Disk) (path : List String) (content : Bytes) : Except OsError Disk :=
  match d.node? path with
  | some .directory => .error .isDirectory
  | _ => .ok (d.insert path (.file content))

def found (d : Disk) (path : List String) : Except OsError Unit :=
  if (d.node? path).isSome then .ok () else .error .notFound

def rename (d : Disk) (source target : List String) : Except OsError Disk :=
  match d.node? source with
  | none => .error .notFound
  | some .directory => .error .isDirectory
  | some entry =>
    if d.node? target = some .directory then .error .isDirectory
    else .ok ((d.erase source).insert target entry)

def removeFile (d : Disk) (path : List String) : Except OsError Disk :=
  match d.node? path with
  | none => .error .notFound
  | some .directory => .error .isDirectory
  | some _ => .ok (d.erase path)

def removeDirectory (d : Disk) (path : List String) : Except OsError Disk :=
  match d.node? path with
  | none => .error .notFound
  | some .directory =>
    if path = [] ∨ d.children path ≠ [] then .error .notEmpty else .ok (d.erase path)
  | some _ => .error .notDirectory

def entries (d : Disk) (path : List String) : Except OsError (List (String × Bool)) :=
  match d.node? path with
  | none => .error .notFound
  | some .directory => .ok (d.children path)
  | some _ => .error .notDirectory

/-- A change that leaves the disk as it was if it is refused. -/
def change (f : Disk → Except OsError Disk) : StateM Disk (Except OsError Unit) :=
  fun d =>
    match f d with
    | .ok d => (.ok (), d)
    | .error e => (.error e, d)

/-- The disk as a file system, seen from the working directory `here`. -/
def fileSystem (here : List String) : FileSystem (StateM Disk) where
  present p d := (((d.locate here true p).toOption.bind d.node?).isSome, d)
  isDirectory p d := ((d.locate here true p).toOption.bind d.node? = some .directory, d)
  makeDirectory p := change fun d => do d.makeDirectory (← d.locate here false (FileTree.makingPath p))
  read p d := (d.locate here true p >>= d.read, d)
  write p content := change fun d => do d.write (← d.locate here true p) content
  protect _ p d := (d.locate here true p >>= d.found, d)
  rename source target := change fun d => do d.rename (← d.locate here false source) (← d.locate here false target)
  removeFile p := change fun d => do d.removeFile (← d.locate here false p)
  removeDirectory p := change fun d => do d.removeDirectory (← d.locate here false p)
  entries p d := (d.locate here true p >>= d.entries, d)

end Disk

end Strongbox
