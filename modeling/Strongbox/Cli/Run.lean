/-
  Strongbox.Cli.Run — carries out what the command line asks for.

  The data directory, the master key and the policy come from the switches and the environment;
  then the directory is opened as storage and the request is put to a fresh store over it. The
  first of these that fails is reported. Nothing is logged, whatever the switches for that say.
-/

import Strongbox.Cli.Report
import Strongbox.Cli.Task
import Strongbox.Storage.Directory
import Strongbox.Storage.FileTree
import Strongbox.Vault.Store

namespace Strongbox.Cli

/-- What the program runs on. -/
structure Host (m : Type → Type) where
  environment : Environment
  files : FileSystem m
  now : m Time.Instant
  random : (n : Nat) → m (Block n)

/-- A host whose files are a tree and whose clock stands still, seen from the directory `here`. -/
def Host.ofTree (environment : Environment) (here : List String) (now : Time.Instant) :
    Host (StateM (World FileTree)) where
  environment := environment
  files := (FileTree.fileSystem here).within World.onStore
  now := pure now
  random := World.draw

/-! ## From the environment -/

/-- A path below another, as text. -/
def joined (directory name : String) : String :=
  if directory.toList.getLast? = some '/' then directory ++ name else directory ++ "/" ++ name

/-- Where the store is if nothing else is said: below the directory for data of the user. -/
def usualDirectory? (env : Environment) : Option String :=
  let text? (name : String) := (env name).map Text.lossy
  match (text? "XDG_DATA_HOME").filter (·.startsWith "/") with
  | some data => some (joined data "vkv")
  | none =>
    ((text? "HOME").filter (· ≠ "")).map fun home => joined (joined home ".local/share") "vkv"

def dataDirectory (env : Environment) (s : Settings) : Except (List String) String :=
  match s.dataDirectory.or (usualDirectory? env) with
  | some directory => .ok directory
  | none => .error ["Could not determine a data directory; pass --data-dir"]

/-- The key in digits counts before the passphrase. -/
def masterKey (env : Environment) : Except (List String) MasterKey :=
  let named (name : String) (key : Except MasterKey.Fault MasterKey) :=
    key.mapError fun fault => ["Invalid " ++ name, fault.message]
  match env.text? "VKV_MASTER_KEY", env.text? "VKV_PASSPHRASE" with
  | some text, _ => named "VKV_MASTER_KEY" (MasterKey.ofHex text)
  | none, some text => named "VKV_PASSPHRASE" (MasterKey.ofPassphrase text)
  | none, none =>
    .error ["No key material: set VKV_MASTER_KEY (64 hex characters) or VKV_PASSPHRASE"]

/-! ## Running -/

variable {m : Type → Type} [Monad m]

/-- The directory as storage. -/
def Host.backend (h : Host m) (directory : String) (readOnly : Bool) : Backend m :=
  let backend : Backend m :=
    { perform := Directory.perform h.files (FilePath.ofText directory), random := h.random }
  if readOnly then backend.readOnly else backend

/-- The request that a task comes to; a file to be written is read first. -/
def Host.request (h : Host m) : Task → m (Except (List String) Request)
  | .request r => return .ok r
  | .putFile path file cas => do
    match ← h.files.read (FilePath.ofText file) with
    | .ok data => return .ok (.writeData path data cas)
    | .error e => return .error ["Failed to read file: " ++ Text.quoted file, e.message]

/-- Carries out a task over an opened store. -/
def Host.perform (h : Host m) (b : Backend m) (s : Store) (t : Task) : m Report := do
  match ← h.request t with
  | .error chain => return .failed chain
  | .ok request =>
    let (reply, _) ← s.handle b (← h.now) request
    match reply with
    | .ok reply => return .ofReply request reply
    | .error e => return .failed (Report.errorChain e)

/-- Opens the store and carries out the task. -/
def Host.carryOut (h : Host m) (i : Invocation) : m Report := do
  match dataDirectory h.environment i.settings, masterKey h.environment with
  | .error chain, _ => return .failed chain
  | _, .error chain => return .failed chain
  | .ok directory, .ok master =>
    match ← Policy.load h.files h.environment i.settings.policyFile with
    | .error e => return .failed ("Failed to load backend configuration" :: Report.policyChain e)
    | .ok defaults =>
      match ← Directory.ensureRoot h.files (FilePath.ofText directory) with
      | .error e => return .failed (("Failed to open storage at " ++ directory) :: Report.ioChain e)
      | .ok () => h.perform (h.backend directory i.settings.readOnly) { master, defaults } i.task

/-- Runs the program with arguments. -/
def run (h : Host m) (args : List String) : m (Except Stop Report) := do
  match invocation h.environment args with
  | .error stop => return .error stop
  | .ok i => return .ok (← h.carryOut i)

end Strongbox.Cli
