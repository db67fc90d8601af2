/-
  Strongbox.Policy.Source — where the policy of a fresh store comes from.

  Built-in defaults, then a configuration file if one is named, then the environment, each over
  the one before. A variable that is set must make sense; only one that is no text at all counts
  as not set. Of a file that cannot be parsed it is said that it cannot, but not where.
-/

import Strongbox.Policy
import Strongbox.Storage.FileSystem
import Strongbox.Yaml.Fields

namespace Strongbox

/-- The values of the environment's variables. -/
abbrev Environment := String → Option Bytes

/-- The value of a variable, if it is a text. -/
def Environment.text? (env : Environment) (name : String) : Option String :=
  (env name).bind Bytes.text?

namespace Policy

inductive SourceError where
  | fileNotFound (file : String)
  | unreadable (error : OsError)
  | notParsed (file : String)
  | maxVersions (given : String)
  | casRequired (given : String)
  | deleteVersionAfter (given : String)
  deriving DecidableEq, Repr

def maxVersionsVariable : String := "VKV_MAX_VERSIONS"

def casRequiredVariable : String := "VKV_CAS_REQUIRED"

def deleteVersionAfterVariable : String := "VKV_DELETE_VERSION_AFTER"

def SourceError.message : SourceError → String
  | .fileNotFound file => "Configuration file not found: " ++ file
  | .unreadable error => "IO error: " ++ error.message
  | .notParsed file => "Invalid configuration: Failed to parse " ++ file
  | .maxVersions given =>
    "Invalid configuration: " ++ maxVersionsVariable ++ " must be a non-negative integer, got " ++
      Text.quoted given
  | .casRequired given =>
    "Invalid configuration: " ++ casRequiredVariable ++ " must be a boolean, got " ++
      Text.quoted given
  | .deleteVersionAfter given =>
    "Invalid configuration: " ++ deleteVersionAfterVariable ++
      " must be a non-negative number of seconds, got " ++ Text.quoted given

/-! ## The file -/

/-- Reads a policy; a missing field has its default. -/
def ofYaml? (text : String) : Option Policy := do
  let document ← Yaml.Document.ofText? text
  let entries ← document.entries?
  let defaults : Policy := {}
  let maxVersions ← document.field? entries "max_versions" defaults.maxVersions fun s =>
    s.nat?.bind Text.Decimal.word32?
  let casRequired ← document.field? entries "cas_required" defaults.casRequired Yaml.Scalar.bool?
  let deleteVersionAfter ←
    document.field? entries "delete_version_after" defaults.deleteVersionAfter
      (Yaml.Scalar.option? fun s => s.nat?.bind Text.Decimal.word64?)
  return { maxVersions, casRequired, deleteVersionAfter }

/-- What the content of a file, or a failure to read it, makes of the policy. -/
def ofContent (file : String) : Except OsError Bytes → Except SourceError Policy
  | .error .notFound => .error (.fileNotFound file)
  | .error e => .error (.unreadable e)
  | .ok content =>
    match Bytes.text? content with
    | none => .error (.unreadable .notUtf8)
    | some text =>
      match ofYaml? text with
      | none => .error (.notParsed file)
      | some policy => .ok policy

/-! ## The environment -/

/-- A number of versions, with blanks around it. -/
def maxVersions? (given : String) : Option UInt32 :=
  (Text.Decimal.unsigned? (Text.trim given).toList).bind Text.Decimal.word32?

def casRequired? (given : String) : Option Bool :=
  let word := (Text.trim given).map Char.toLower
  if ["1", "true", "yes"].contains word then some true
  else if ["0", "false", "no"].contains word then some false
  else none

/-- A number of seconds, with blanks around it. -/
def seconds? (given : String) : Option UInt64 :=
  (Text.Decimal.unsigned? (Text.trim given).toList).bind Text.Decimal.word64?

/-- The value that a variable holds, or `otherwise` if it is not set. -/
def fromVariable {α : Type} (env : Environment) (name : String) (value? : String → Option α)
    (refusal : String → SourceError) (otherwise : α) : Except SourceError α :=
  match env.text? name with
  | none => .ok otherwise
  | some given =>
    match value? given with
    | some value => .ok value
    | none => .error (refusal given)

/-- The policy with the values of the variables in place of its own. -/
def overriddenBy (env : Environment) (p : Policy) : Except SourceError Policy := do
  let maxVersions ← fromVariable env maxVersionsVariable maxVersions? .maxVersions p.maxVersions
  let casRequired ← fromVariable env casRequiredVariable casRequired? .casRequired p.casRequired
  let deleteVersionAfter ← fromVariable env deleteVersionAfterVariable
    (fun given => (seconds? given).map some) .deleteVersionAfter p.deleteVersionAfter
  return { maxVersions, casRequired, deleteVersionAfter }

/-! ## All together -/

/-- Reads the configuration file, if there is one, and the environment. -/
def load {m : Type → Type} [Monad m] (fs : FileSystem m) (env : Environment)
    (file : Option String) : m (Except SourceError Policy) :=
  match file with
  | none => pure (overriddenBy env {})
  | some file => do return ofContent file (← fs.read (FilePath.ofText file)) >>= overriddenBy env

end Policy

end Strongbox
