/-
  Strongbox.Yaml.Node — the value that a YAML text describes.

  A node is a scalar, a sequence, a mapping, or an alias of a node with an anchor. Anchors are
  numbered by how many names were in use before; an alias means the number its name had there,
  and of two nodes with one number the later counts. Reading goes by fuel, of which every token
  and every level takes at most four.
-/

import Strongbox.Yaml.Lexer

namespace Strongbox.Yaml

structure Scalar where
  tag : Option Bytes := none
  style : Style := .plain
  text : String := ""
  deriving DecidableEq, Repr

inductive Node where
  | scalar (s : Scalar)
  | sequence (items : List Node)
  | mapping (entries : List (Node × Node))
  | alias (number : Nat)

/-- What stands where a node is left out. -/
def Node.absent : Node := .scalar {}

/-- The numbers of anchors, and the scalars that bear them, latest first; a collection counts
    as none. -/
structure Anchors where
  numbers : List (String × Nat) := []
  scalars : List (Nat × Option Scalar) := []

namespace Anchors

def add (name : String) (s : Option Scalar) (a : Anchors) : Anchors :=
  let number := a.numbers.length
  { numbers := (name, number) :: a.numbers.filter (·.1 ≠ name)
    scalars := (number, s) :: a.scalars }

/-- The scalar that a node is or is an alias of. -/
def scalar? (a : Anchors) : Node → Option Scalar
  | .scalar s => some s
  | .alias number => (a.scalars.lookup number).join
  | _ => none

end Anchors

/-! ## Reading -/

structure Reading where
  tokens : List Token
  /-- What the handles of tags stand for. -/
  handles : List (String × Bytes) := []
  anchors : Anchors := {}

abbrev Reader := StateT Reading Option

namespace Reader

def peek : Reader (Option Token) := do return (← get).tokens.head?

def drop : Reader Unit := modify fun s => { s with tokens := s.tokens.tail }

/-- Takes the next token if it is the given one. -/
def takes (t : Token) : Reader Bool := do
  if (← peek) = some t then
    drop
    return true
  else return false

def expect (t : Token) : Reader Unit := do
  if !(← takes t) then failure

def anchorName? : Reader (Option String) := do
  match ← peek with
  | some (.anchor name) => do
    drop
    return some name
  | _ => return none

def tagOf (handle : String) (suffix : Bytes) : Reader Bytes := do
  if handle = "" then return suffix
  match (← get).handles.lookup handle with
  | some expansion => return expansion ++ suffix
  | none => failure

def tag? : Reader (Option Bytes) := do
  match ← peek with
  | some (.tag handle suffix) => do
    drop
    return some (← tagOf handle suffix)
  | _ => return none

/-- An anchor and a tag, in either order. -/
def properties : Reader (Option String × Option Bytes) := do
  match ← anchorName? with
  | some name => return (some name, ← tag?)
  | none => do
    let tag ← tag?
    return (← anchorName?, tag)

/-- Notes the anchor of a node. -/
def bear (name : Option String) (s : Option Scalar) : Reader Unit :=
  match name with
  | none => pure ()
  | some name => modify fun r => { r with anchors := r.anchors.add name s }

mutual

/-- A node. Block collections begin only where `block` says so, and a sequence may stand at the
    column of its key where `atKey` does. -/
def node : Nat → (block atKey : Bool) → Reader Node
  | 0, _, _ => failure
  | fuel + 1, block, atKey => do
    match ← peek with
    | some (.alias name) => do
      drop
      match (← get).anchors.numbers.lookup name with
      | some number => return .alias number
      | none => failure
    | _ => do
      let (name, tag) ← properties
      match ← peek with
      | some (.scalar style text) => do
        drop
        bear name (some { tag, style, text })
        return .scalar { tag, style, text }
      | some .blockEntry =>
        if atKey then do
          bear name none
          return .sequence (← entriesAtKey fuel)
        else absent name tag
      | some .flowSequence => do
        drop
        bear name none
        return .sequence (← flowItems fuel true)
      | some .flowMapping => do
        drop
        bear name none
        return .mapping (← flowEntries fuel true)
      | some .blockSequence =>
        if block then do
          drop
          bear name none
          return .sequence (← blockItems fuel)
        else absent name tag
      | some .blockMapping =>
        if block then do
          drop
          bear name none
          return .mapping (← blockEntries fuel)
        else absent name tag
      | _ => absent name tag
where
  /-- Properties alone make an empty scalar. -/
  absent (name : Option String) (tag : Option Bytes) : Reader Node := do
    if name.isNone && tag.isNone then failure
    bear name (some { tag })
    return .scalar { tag }

/-- A node, which is left out before one of these tokens. -/
def nodeUnless : Nat → (ends : List Token) → (block atKey : Bool) → Reader Node
  | 0, _, _, _ => failure
  | fuel + 1, ends, block, atKey => do
    if (← peek).any ends.contains then return .absent
    else node fuel block atKey

/-- The rest of a block sequence. -/
def blockItems : Nat → Reader (List Node)
  | 0 => failure
  | fuel + 1 => do
    if ← takes .blockEntry then
      let item ← nodeUnless fuel [.blockEntry, .blockEnd] true false
      return item :: (← blockItems fuel)
    else
      expect .blockEnd
      return []

/-- The rest of a block sequence at the column of its key, which ends with the first token that
    is no entry. -/
def entriesAtKey : Nat → Reader (List Node)
  | 0 => failure
  | fuel + 1 => do
    if ← takes .blockEntry then
      let item ← nodeUnless fuel [.blockEntry, .key, .value, .blockEnd] true false
      return item :: (← entriesAtKey fuel)
    else return []

/-- The rest of a block mapping. -/
def blockEntries : Nat → Reader (List (Node × Node))
  | 0 => failure
  | fuel + 1 => do
    if ← takes .key then
      let key ← nodeUnless fuel [.key, .value, .blockEnd] true true
      let value ←
        if ← takes .value then nodeUnless fuel [.key, .value, .blockEnd] true true
        else pure .absent
      return (key, value) :: (← blockEntries fuel)
    else
      expect .blockEnd
      return []

/-- The rest of a flow sequence. An entry with a key is a mapping of its own; a key that is left
    out takes the place of the token after it. -/
def flowItems : Nat → (first : Bool) → Reader (List Node)
  | 0, _ => failure
  | fuel + 1, first => do
    if ← takes .flowSequenceEnd then return []
    if !first then expect .flowEntry
    if ← takes .flowSequenceEnd then return []
    let item ←
      if ← takes .key then
        let key ←
          if (← peek).any [Token.value, .flowEntry, .flowSequenceEnd].contains then do
            drop
            pure Node.absent
          else node fuel false false
        let value ←
          if ← takes .value then nodeUnless fuel [.flowEntry, .flowSequenceEnd] false false
          else pure .absent
        pure (.mapping [(key, value)])
      else node fuel false false
    return item :: (← flowItems fuel false)

/-- The rest of a flow mapping. An entry without a key token has no value. -/
def flowEntries : Nat → (first : Bool) → Reader (List (Node × Node))
  | 0, _ => failure
  | fuel + 1, first => do
    if ← takes .flowMappingEnd then return []
    if !first then expect .flowEntry
    if ← takes .flowMappingEnd then return []
    let entry ←
      if ← takes .key then
        let key ← nodeUnless fuel [.value, .flowEntry, .flowMappingEnd] false false
        let value ←
          if ← takes .value then nodeUnless fuel [.flowEntry, .flowMappingEnd] false false
          else pure .absent
        pure (key, value)
      else pure (← node fuel false false, Node.absent)
    return entry :: (← flowEntries fuel false)

end

/-! ## Documents -/

/-- What handles stand for unless a directive says otherwise. -/
def usualHandles : List (String × Bytes) :=
  [("!", Bytes.utf8 "!"), ("!!", Bytes.utf8 "tag:yaml.org,2002:")]

/-- Takes the directives in front of a document: one version, 1.1 or 1.2, and no handle twice. -/
def directives : Nat → (versioned : Bool) → Reader Unit
  | 0, _ => pure ()
  | fuel + 1, versioned => do
    match ← peek with
    | some (.version major minor) => do
      if versioned || major ≠ 1 || (minor ≠ 1 && minor ≠ 2) then failure
      drop
      directives fuel true
    | some (.tagHandle handle expansion) => do
      if ((← get).handles.lookup handle).isSome then failure
      modify fun s => { s with tokens := s.tokens.tail, handles := s.handles ++ [(handle, expansion)] }
      directives fuel versioned
    | _ => pure ()

def startsExplicitly : Option Token → Bool
  | some (.version ..) => true
  | some (.tagHandle ..) => true
  | some .documentStart => true
  | _ => false

/-- The only document of a text. Its root is left out if nothing comes before the next mark or
    the end. -/
def document (fuel : Nat) : Reader Node := do
  let explicit := startsExplicitly (← peek)
  if explicit then
    directives fuel false
    expect .documentStart
  modify fun s => { s with handles := s.handles ++ usualHandles }
  let next ← peek
  let root ←
    if explicit && (next.all (· = .documentEnd) || startsExplicitly next) then pure .absent
    else node fuel true false
  modify fun s => { s with tokens := s.tokens.dropWhile (· = .documentEnd) }
  if (← peek).isSome then failure
  return root

end Reader

/-- A text as a node, with the scalars that aliases in it stand for. -/
structure Document where
  root : Node
  anchors : Anchors

/-- Reads a text of at most one document; a text without any has an absent root. -/
def Document.ofText? (text : String) : Option Document := do
  let tokens ← tokens? text
  if tokens = [] then return { root := .absent, anchors := {} }
  let (root, s) ← (Reader.document (4 * tokens.length + 4)).run { tokens }
  return { root, anchors := s.anchors }

end Strongbox.Yaml
