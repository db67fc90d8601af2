/-
  Strongbox.Cli.Task — what the command line can ask for.

  Every command is a request to the store; only a write may take its data from a file. Some
  switches may stand at every level: where the store is, whether it may be written, and the
  configuration file. Of those the innermost counts, then the environment.
-/

import Strongbox.Cli.Arguments
import Strongbox.Policy.Source
import Strongbox.Text.Lossy
import Strongbox.Vault.Request

namespace Strongbox.Cli

inductive Task where
  | request (r : Request)
  /-- Writes the content of a file as a new version. -/
  | putFile (path file : String) (cas : Option UInt64)

/-- What holds for every command. -/
structure Settings where
  dataDirectory : Option String := none
  readOnly : Bool := false
  policyFile : Option String := none
  deriving DecidableEq, Repr

structure Invocation where
  settings : Settings
  task : Task

/-! ## Values -/

/-- A number of 32 bits; minus zero counts as zero. -/
def word32? (text : String) : Option UInt32 :=
  match Text.Decimal.signed? text.toList with
  | some (.ofNat n) => Text.Decimal.word32? n
  | _ => none

def word64? (text : String) : Option UInt64 :=
  (Text.Decimal.unsigned? text.toList).bind Text.Decimal.word64?

def int64? (text : String) : Option Int64 :=
  (Text.Decimal.signed? text.toList).bind fun n =>
    if Int64.minValue.toInt ≤ n ∧ n ≤ Int64.maxValue.toInt then some (Int64.ofInt n) else none

def bool? (text : String) : Option Bool :=
  if text = "true" then some true else if text = "false" then some false else none

/-- What stands before and after the first equals sign. -/
def pair? (text : String) : Option (String × String) :=
  match text.toList.dropWhile (· ≠ '=') with
  | _ :: value => some (String.ofList (text.toList.takeWhile (· ≠ '=')), String.ofList value)
  | [] => none

/-- Numbers between commas. -/
def numbers? (text : String) : Option (List UInt64) := (Text.pieces ',' text).mapM word64?

/-! ## Switches -/

def Switch.of {α : Type} (name : String) (value? : String → Option α) (negative : Bool := false) :
    Switch where
  name := name
  kind := .value (fun text => (value? text).isSome) negative

/-- The name of a file or directory, which is not empty. -/
def Switch.ofPath (name : String) (letter : Option Char := none) : Switch where
  name := name
  letter := letter
  kind := .value (· ≠ "") false

def versionsSwitch : Switch where
  name := "versions"
  kind := .values fun text => (numbers? text).isSome

def customSwitch : Switch where
  name := "custom"
  kind := .values fun text => (pair? text).isSome

/-- The switches that change settings of a key or of the policy. -/
def settingSwitches : List Switch := [
  .of "max-versions" word32?,
  .of "cas-required" bool?,
  .of "delete-version-after" int64? true]

def dataDirectorySwitch : Switch := .ofPath "data-dir"

def policyFileSwitch : Switch := .ofPath "config" (some 'c')

/-- The switches of every level. -/
def commonSwitches : List Switch := [
  { name := "verbose", letter := some 'v', kind := .counter },
  { name := "quiet", letter := some 'q', kind := .flag },
  dataDirectorySwitch,
  { name := "read-only", kind := .flag },
  policyFileSwitch,
  { name := "help", letter := some 'h', kind := .help }]

def versionSwitch : Switch := { name := "version", letter := some 'V', kind := .version }

/-! ## Commands -/

/-- A command: its own switches, how many operands it takes at most, and what it asks for, if
    what was given makes sense together. -/
structure Command where
  switches : List Switch := []
  operands : Nat := 1
  /-- Whether the version can be asked for; not where that switch has another meaning. -/
  showsVersion : Bool := true
  task? : Given → Option Task

def Command.level (c : Command) : Level where
  switches := c.switches ++ commonSwitches ++ if c.showsVersion then [versionSwitch] else []
  operands := c.operands

/-- The only operand. -/
def path? (g : Given) : Option String :=
  match g.operands with
  | [path] => some path
  | _ => none

/-- A command with a path for its only operand. -/
def Command.ofPath (request : String → Request) : Command where
  task? g := (path? g).map fun path => .request (request path)

def versionsOf (g : Given) : List UInt64 := (g.all "versions").flatMap fun text => (numbers? text).getD []

/-- A command on versions of a key, which must be named if `required`. -/
def Command.onVersions (required : Bool) (request : String → List UInt64 → Request) : Command where
  switches := [versionsSwitch]
  task? g :=
    if required && !g.has "versions" then none
    else (path? g).map fun path => .request (request path (versionsOf g))

/-- The custom metadata to be set: none if not mentioned, empty if it is to be cleared. -/
def customOf (g : Given) : Option CustomMetadata :=
  if g.has "clear-custom" then some (CustomMetadata.ofPairs [])
  else if g.has "custom" then some (CustomMetadata.ofPairs ((g.all "custom").filterMap pair?))
  else none

def metadataPut : Command where
  switches := settingSwitches ++ [customSwitch, { name := "clear-custom", kind := .flag }]
  task? g :=
    if g.has "clear-custom" && g.has "custom" then none
    else (path? g).map fun path => .request (.writeMetadata path {
      maxVersions := (g.value? "max-versions").bind word32?
      casRequired := (g.value? "cas-required").bind bool?
      deleteVersionAfter := (g.value? "delete-version-after").bind int64?
      customMetadata := customOf g })

/-- Takes the data as an operand or from a file, and not both. -/
def dataPut : Command where
  switches := [.ofPath "file" (some 'f'), .of "cas" word64?]
  operands := 2
  task? g :=
    let cas := (g.value? "cas").bind word64?
    match g.operands, g.value? "file" with
    | [path, value], none => some (.request (.writeData path (Bytes.utf8 value) cas))
    | [path], some file => some (.putFile path file cas)
    | _, _ => none

def dataGet : Command where
  switches := [.of "version" word64?]
  showsVersion := false
  task? g := (path? g).map fun path => .request (.readData path ((g.value? "version").bind word64?))

def policySet : Command where
  switches := settingSwitches
  operands := 0
  task? g := some (.request (.writePolicy {
    maxVersions := (g.value? "max-versions").bind word32?
    casRequired := (g.value? "cas-required").bind bool?
    deleteVersionAfter := (g.value? "delete-version-after").bind int64? }))

def groups : List (String × List (String × Command)) := [
  ("metadata", [
    ("get", .ofPath .readMetadata),
    ("put", metadataPut),
    ("list", { task? := fun g => some (.request (.listMetadata ((path? g).getD ""))) }),
    ("delete", .ofPath .deleteMetadata),
    ("exists", .ofPath .metadataExists)]),
  ("kv", [
    ("put", dataPut),
    ("get", dataGet),
    ("delete", .onVersions false .deleteVersions),
    ("undelete", .onVersions true .undeleteVersions),
    ("destroy", .onVersions true .destroyVersions)]),
  ("config", [
    ("get", { operands := 0, task? := fun _ => some (.request .readPolicy) }),
    ("set", policySet)])]

/-! ## Reading -/

def helpName : String := "help"

/-- A level at which only a subcommand can be given. -/
def Level.ofNames (names : List String) : Level where
  switches := commonSwitches ++ [versionSwitch]
  commands := helpName :: names

/-- Help on a subcommand, if there is one of that name. -/
def helpOn {α : Type} (names : List String) : List String → Except Stop α
  | [] => .error .help
  | [name] => if name = helpName ∨ name ∈ names then .error .help else .error .usage
  | _ => .error .usage

/-- Help on a command, by its group and name. -/
def helpOnGroup {α : Type} : List String → Except Stop α
  | group :: name :: rest =>
    match groups.lookup group with
    | some commands => helpOn (commands.map (·.1)) (name :: rest)
    | none => .error .usage
  | names => helpOn (groups.map (·.1)) names

/-- The value of a common switch: of the innermost level that has it, else of the variable. An
    empty variable is refused at every level without the switch. -/
def commonValue (env : Environment) (levels : List Given) (s : Switch) (variableName : String) :
    Except Stop (Option String) :=
  let values := levels.filterMap (·.value? s.name)
  match env variableName with
  | none => .ok values.head?
  | some value =>
    if value = [] ∧ values.length < levels.length then .error .usage
    else .ok (values.head?.or (some (Text.lossy value)))

def settingsOf (env : Environment) (levels : List Given) : Except Stop Settings := do
  return {
    dataDirectory := ← commonValue env levels dataDirectorySwitch "VKV_DATA_DIR"
    readOnly := levels.any (·.has "read-only")
    policyFile := ← commonValue env levels policyFileSwitch "VKV_CONFIG" }

/-- Reads the arguments. Switches that stand last before a subcommand are judged after it. -/
def invocation (env : Environment) (args : List String) : Except Stop Invocation := do
  let (outer, group) ← (Level.ofNames (groups.map (·.1))).scan args {}
  match group with
  | none => .error .usage
  | some (group, args) =>
    match groups.lookup group with
    | none => helpOnGroup args
    | some commands => do
      let (middle, command) ← (Level.ofNames (commands.map (·.1))).scan args {}
      match command with
      | none => .error .usage
      | some (name, args) =>
        match commands.lookup name with
        | none => helpOn (commands.map (·.1)) args
        | some command => do
          let (inner, _) ← command.level.scan args {}
          let inner := (← inner.settle).given
          let levels := [inner, (← middle.settle).given, (← outer.settle).given]
          let settings ← settingsOf env levels
          match command.task? inner with
          | some task => return { settings, task }
          | none => .error .usage

end Strongbox.Cli
