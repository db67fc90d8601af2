/-
  Strongbox.Main — the command line on the real system.

  Files, clock, random bytes and variables come from the operating system; all that is decided
  is decided by `Cli.run`. Help and usage are one short text.
-/

import Strongbox.Cli.Run

namespace Strongbox.Cli

/-! ## Files -/

/-- The number that comes with a failure. -/
def rawErrorNumber : IO.Error → Nat
  | .alreadyExists _ n _ | .otherError n _ | .resourceBusy n _ | .resourceVanished n _
  | .unsupportedOperation n _ | .hardwareFault n _ | .unsatisfiedConstraints n _
  | .illegalOperation n _ | .protocolError n _ | .timeExpired n _ | .interrupted _ n _
  | .noFileOrDirectory _ n _ | .invalidArgument _ n _ | .permissionDenied _ n _
  | .resourceExhausted _ n _ | .inappropriateType _ n _ | .noSuchThing _ n _ => n.toNat
  | .unexpectedEof | .userError _ => 0

/-- The number that the operating system gives for a failure; some calls pass it on negated. -/
def errorNumber (e : IO.Error) : Nat :=
  let n := rawErrorNumber e
  if n < UInt32.size / 2 then n else UInt32.size - n

def osError (e : IO.Error) : OsError :=
  match errorNumber e with
  | 2 => .notFound
  | 17 => .alreadyExists
  | 20 => .notDirectory
  | 21 => .isDirectory
  | 36 => .nameTooLong
  | 39 => .notEmpty
  | _ => .other e.toString

def attempt {α : Type} (action : IO α) : IO (Except OsError α) := do
  try
    return .ok (← action)
  catch e => return .error (osError e)

/-- What only its owner may read and write, and enter if it is a directory. -/
def ownerOnly (directory : Bool) : IO.FileRight :=
  { user := { read := true, write := true, execution := directory } }

def entriesOf (p : FilePath) : IO (List (String × Bool)) := do
  let found ← ((← IO.currentDir) / p.text).readDir
  found.toList.mapM fun entry => do return (entry.fileName, ← entry.path.isDir)

/-- The files of the operating system. -/
def systemFiles : FileSystem IO where
  present p := do ((← IO.currentDir) / p.text).pathExists
  isDirectory p := do ((← IO.currentDir) / p.text).isDir
  makeDirectory p := attempt (IO.FS.createDir p.text)
  read p := attempt do return (← IO.FS.readBinFile p.text).data.toList
  write p content := attempt (IO.FS.writeBinFile p.text ⟨content.toArray⟩)
  protect directory p := attempt (IO.setAccessRights p.text (ownerOnly directory))
  rename source target := attempt (IO.FS.rename source.text target.text)
  removeFile p := attempt (IO.FS.removeFile p.text)
  removeDirectory p := attempt (IO.FS.removeDir p.text)
  entries p := attempt (entriesOf p)

/-! ## Clock, random bytes, variables -/

/-- The time now, which is that of a file just made. -/
def systemTime : IO Time.Instant := do
  let (_, path) ← IO.FS.createTempFile
  let modified := (← path.metadata).modified
  IO.FS.removeFile path
  match Time.Instant.of? modified.sec modified.nsec.toNat with
  | some now => return now
  | none => throw (IO.userError "The clock shows no valid time")

def systemRandom (n : Nat) : IO (Block n) := do
  let bytes ← IO.getRandomBytes (USize.ofNat n)
  match Block.ofBytes? n bytes.data.toList with
  | some block => return block
  | none => throw (IO.userError "Too few random bytes")

/-- The variables that are looked at. -/
def variableNames : List String := [
  "VKV_DATA_DIR", "VKV_CONFIG", "VKV_MASTER_KEY", "VKV_PASSPHRASE", "XDG_DATA_HOME", "HOME",
  Policy.maxVersionsVariable, Policy.casRequiredVariable, Policy.deleteVersionAfterVariable]

def systemHost : IO (Host IO) := do
  let values ← variableNames.mapM fun name => do return (name, ← IO.getEnv name)
  return {
    environment := fun name => (values.lookup name).join.map Bytes.utf8
    files := systemFiles
    now := systemTime
    random := systemRandom }

/-! ## Texts -/

def usageText : String :=
  let lines := groups.flatMap fun (group, commands) =>
    commands.map fun (name, _) => "  vkv " ++ group ++ " " ++ name
  "Usage: vkv [OPTIONS] <COMMAND>\n\nCommands:\n" ++ Text.join "\n" lines ++
    "\n\nOptions:\n" ++
    Text.join "\n" ((commonSwitches ++ [versionSwitch]).map fun s => "  --" ++ s.name) ++ "\n"

/-- A failure with its causes, which are numbered if there are several. -/
def failureText : List String → String
  | [] => ""
  | [only] => "Error: " ++ only ++ "\n"
  | [first, cause] => "Error: " ++ first ++ "\n\nCaused by:\n    " ++ cause ++ "\n"
  | first :: causes =>
    let numbered := causes.zipIdx.map fun (cause, i) =>
      "    " ++ Text.Decimal.text i ++ ": " ++ cause ++ "\n"
    "Error: " ++ first ++ "\n\nCaused by:\n" ++ String.join numbered

end Strongbox.Cli

open Strongbox.Cli in
def main (args : List String) : IO UInt32 := do
  match ← run (← systemHost) args with
  | .error .usage => do
    IO.eprint usageText
    return 2
  | .error .help => do
    IO.print usageText
    return 0
  | .error .version => do
    IO.println "vkv 0.1.0"
    return 0
  | .ok report => do
    (← IO.getStdout).write ⟨report.output.toArray⟩
    IO.eprint (report.remarks ++ failureText report.failure)
    return if report.failure = [] then 0 else if report.brokenOff then 101 else 1
