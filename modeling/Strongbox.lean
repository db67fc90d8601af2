import Strongbox.Base64
import Strongbox.Bytes
import Strongbox.Cli.Arguments
import Strongbox.Cli.Report
import Strongbox.Cli.Run
import Strongbox.Cli.Task
import Strongbox.Crypto.Aead
import Strongbox.Crypto.ChaCha20
import Strongbox.Crypto.Hmac
import Strongbox.Crypto.Poly1305
import Strongbox.Crypto.Sha256
import Strongbox.CustomMetadata
import Strongbox.Hex
import Strongbox.Json.Fields
import Strongbox.Json.Reader
import Strongbox.Json.Token
import Strongbox.Json.Value
import Strongbox.KeyPath
import Strongbox.KeyRing.Basic
import Strongbox.KeyRing.MasterKey
import Strongbox.KeyRing.Setup
import Strongbox.Main
import Strongbox.Policy
import Strongbox.Policy.Source
import Strongbox.Proofs.Base64
import Strongbox.Proofs.Bytes
import Strongbox.Proofs.Cli.Arguments
import Strongbox.Proofs.Cli.Faithful
import Strongbox.Proofs.Cli.Rendering
import Strongbox.Proofs.Cli.Running
import Strongbox.Proofs.Hex
import Strongbox.Proofs.Json.Fields
import Strongbox.Proofs.Json.Reader
import Strongbox.Proofs.Json.Token
import Strongbox.Proofs.KeyRing
import Strongbox.Proofs.KeyRing.FirstUse
import Strongbox.Proofs.KeyRing.MasterKey
import Strongbox.Proofs.KeyRing.Names
import Strongbox.Proofs.KeyRing.Opening
import Strongbox.Proofs.KeyRing.Setup
import Strongbox.Proofs.Policy.Source
import Strongbox.Proofs.Record.Admission
import Strongbox.Proofs.Record.Advance
import Strongbox.Proofs.Record.Amendments
import Strongbox.Proofs.Record.Changes
import Strongbox.Proofs.Record.Codec
import Strongbox.Proofs.Record.Expiry
import Strongbox.Proofs.Record.LiveRange
import Strongbox.Proofs.Record.Settings
import Strongbox.Proofs.Record.VersionLists
import Strongbox.Proofs.Record.View
import Strongbox.Proofs.Record.Violations
import Strongbox.Proofs.Storage.Access
import Strongbox.Proofs.Storage.Attempts
import Strongbox.Proofs.Storage.Children
import Strongbox.Proofs.Storage.Coexistence
import Strongbox.Proofs.Storage.Containment
import Strongbox.Proofs.Storage.Contents
import Strongbox.Proofs.Storage.Directory
import Strongbox.Proofs.Storage.Disk
import Strongbox.Proofs.Storage.Effects
import Strongbox.Proofs.Storage.FileTree
import Strongbox.Proofs.Storage.Files
import Strongbox.Proofs.Storage.ReadOnly
import Strongbox.Proofs.Storage.Recording
import Strongbox.Proofs.Storage.Root
import Strongbox.Proofs.Storage.Runs
import Strongbox.Proofs.Storage.Sealed
import Strongbox.Proofs.Storage.Tidiness
import Strongbox.Proofs.Storage.Untouched
import Strongbox.Proofs.Storage.Within
import Strongbox.Proofs.Text.Decimal
import Strongbox.Proofs.Text.Pieces
import Strongbox.Proofs.Text.Quoted
import Strongbox.Proofs.Time.Calendar
import Strongbox.Proofs.Time.Instant
import Strongbox.Proofs.Time.Rfc3339
import Strongbox.Proofs.Time.Span
import Strongbox.Proofs.Vault.Account
import Strongbox.Proofs.Vault.Address
import Strongbox.Proofs.Vault.Answers
import Strongbox.Proofs.Vault.Backends
import Strongbox.Proofs.Vault.Calls
import Strongbox.Proofs.Vault.CheckAndSet
import Strongbox.Proofs.Vault.Erase
import Strongbox.Proofs.Vault.Expiry
import Strongbox.Proofs.Vault.FailedWrite
import Strongbox.Proofs.Vault.FileNames
import Strongbox.Proofs.Vault.Filing
import Strongbox.Proofs.Vault.Fresh
import Strongbox.Proofs.Vault.History
import Strongbox.Proofs.Vault.Independence
import Strongbox.Proofs.Vault.Keys
import Strongbox.Proofs.Vault.LastSupplied
import Strongbox.Proofs.Vault.Ledger
import Strongbox.Proofs.Vault.Legible
import Strongbox.Proofs.Vault.Lifecycle
import Strongbox.Proofs.Vault.Listing
import Strongbox.Proofs.Vault.LiveRange
import Strongbox.Proofs.Vault.Moves
import Strongbox.Proofs.Vault.Numbering
import Strongbox.Proofs.Vault.Payloads
import Strongbox.Proofs.Vault.Persistence
import Strongbox.Proofs.Vault.Plan
import Strongbox.Proofs.Vault.Policies
import Strongbox.Proofs.Vault.ReadIntegrity
import Strongbox.Proofs.Vault.ReadOnly
import Strongbox.Proofs.Vault.Reading
import Strongbox.Proofs.Vault.Redated
import Strongbox.Proofs.Vault.Rejections
import Strongbox.Proofs.Vault.Restarts
import Strongbox.Proofs.Vault.Retention
import Strongbox.Proofs.Vault.Retry
import Strongbox.Proofs.Vault.Rewrites
import Strongbox.Proofs.Vault.Session
import Strongbox.Proofs.Vault.Succeeding
import Strongbox.Proofs.Vault.Succession
import Strongbox.Proofs.Vault.Undoing
import Strongbox.Proofs.Vault.VersionLists
import Strongbox.Proofs.Vault.Views
import Strongbox.Proofs.Vault.WrongKey
import Strongbox.Record.Basic
import Strongbox.Record.Codec
import Strongbox.Record.View
import Strongbox.Storage.Access
import Strongbox.Storage.Directory
import Strongbox.Storage.Disk
import Strongbox.Storage.Error
import Strongbox.Storage.FileSystem
import Strongbox.Storage.FileTree
import Strongbox.Storage.Memory
import Strongbox.Storage.Sealed
import Strongbox.Text.Decimal
import Strongbox.Text.Graphic
import Strongbox.Text.Lossy
import Strongbox.Text.Pieces
import Strongbox.Text.Quoted
import Strongbox.Time.Calendar
import Strongbox.Time.Instant
import Strongbox.Time.Rfc3339
import Strongbox.Time.Span
import Strongbox.Vault.Basic
import Strongbox.Vault.Lock
import Strongbox.Vault.Operations
import Strongbox.Vault.Request
import Strongbox.Vault.Store
import Strongbox.Yaml.Character
import Strongbox.Yaml.Cursor
import Strongbox.Yaml.Fields
import Strongbox.Yaml.Lexer
import Strongbox.Yaml.Node
import Strongbox.Yaml.Scalar
import Strongbox.Yaml.Tag
import Strongbox.Yaml.Token
