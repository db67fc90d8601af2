/-
  Strongbox.Cli.Report — what a command prints.

  Values go to standard output as indented JSON, remarks to standard error. A failure is a chain
  of texts, each the cause of the one before; a failure of the operating system is told twice,
  with and without what it concerns. A command that was broken off leaves only the reason.
-/

import Strongbox.Policy.Source
import Strongbox.Vault.Request

namespace Strongbox.Cli

structure Report where
  /-- Standard output. -/
  output : Bytes := []
  /-- Standard error. -/
  remarks : String := ""
  /-- Empty on success. -/
  failure : List String := []
  /-- Whether the program did not come to its end. -/
  brokenOff : Bool := false
  deriving DecidableEq

namespace Report

def value (v : Json) : Report := { output := v.indented 0 ++ [10] }

def done (text : String) : Report := { remarks := "✓ " ++ text ++ "\n" }

def failed (chain : List String) : Report := { failure := chain }

def warningLine (w : Warning) : String := "⚠ " ++ w.message ++ "\n"

/-- The report on an outcome, with its warnings in front; a rejection is a failure. -/
def ofOutcome {α : Type} (accepted : α → Report) : Outcome α → Report
  | .accepted value warnings =>
    let report := accepted value
    { report with remarks := String.join (warnings.map warningLine) ++ report.remarks }
  | .rejected reason => .failed [reason.message]
  | .overflowed => { failure := ["attempt to add with overflow"], brokenOff := true }

def ofReply : (r : Request) → r.Reply → Report
  | .writeMetadata path _ => ofOutcome fun _ => .done ("Wrote metadata for " ++ path)
  | .readMetadata path => fun
    | some view => .value view.toJson
    | none => .failed ["No metadata found for " ++ path]
  | .listMetadata _ => fun names =>
    .value (Json.ofMembers [("keys", .array (names.map Json.ofText))])
  | .metadataExists path => fun found =>
    .value (Json.ofMembers [("exists", .bool found), ("path", Json.ofText path)])
  | .deleteMetadata path => fun _ => .done ("Erased " ++ path)
  | .writeData .. => ofOutcome fun written => .value written.toJson
  | .readData path _ => fun
    | some secret => .value secret.toJson
    | none => .failed ["No secret found at " ++ path]
  | .deleteVersions path _ => ofOutcome fun _ => .done ("Deleted versions of " ++ path)
  | .undeleteVersions path _ => ofOutcome fun _ => .done ("Undeleted versions of " ++ path)
  | .destroyVersions path _ => ofOutcome fun _ => .done ("Destroyed versions of " ++ path)
  | .readPolicy => fun policy => .value policy.toJson
  | .writePolicy _ => ofOutcome fun _ => .done "Updated backend configuration"

/-! ## Failures -/

def ioChain (e : OsError) : List String := ["IO error: " ++ e.message, e.message]

def errorChain : Error → List String
  | .storage (.io e) => ioChain e
  | e => [e.message]

def policyChain : Policy.SourceError → List String
  | .unreadable e => ioChain e
  | e => [e.message]

end Report

end Strongbox.Cli
