/-
  Strongbox.Storage.Error — how a storage call and an operation on records can fail.

  A failed decryption is never absence: it names the stored key it happened at and why. What a parser
  says of a record or a policy that it cannot decode is left out.
-/

import Strongbox.Text.Decimal
import Strongbox.Text.Quoted

namespace Strongbox

open Text.Decimal (text)

/-- A refusal by the operating system, or by what stands before it. -/
inductive OsError where
  | notFound
  | alreadyExists
  | notDirectory
  | isDirectory
  | nameTooLong
  | notEmpty
  /-- A path holds a zero byte. -/
  | nulByte
  /-- A file that should be text is no UTF-8. -/
  | notUtf8
  | other (message : String)
  deriving DecidableEq, Repr

def OsError.message : OsError → String
  | .notFound => "No such file or directory (os error 2)"
  | .alreadyExists => "File exists (os error 17)"
  | .notDirectory => "Not a directory (os error 20)"
  | .isDirectory => "Is a directory (os error 21)"
  | .nameTooLong => "File name too long (os error 36)"
  | .notEmpty => "Directory not empty (os error 39)"
  | .nulByte => "file name contained an unexpected NUL byte"
  | .notUtf8 => "stream did not contain valid UTF-8"
  | .other message => message

/-- Why sealed bytes or a hidden name could not be read. -/
inductive SealFault where
  | tooShort
  | unknownVersion (version : UInt8)
  | notAuthentic
  | saltSize (length : Nat)
  | otherMasterKey
  | unexpectedCheck
  | nameEncoding
  | nameTooShort
  | nameNotUtf8
  deriving DecidableEq, Repr

def SealFault.message : SealFault → String
  | .tooShort => "ciphertext too short"
  | .unknownVersion version =>
    "unsupported blob version 0x" ++
      String.ofList (Nat.toDigits 16 (version.toNat / 16) ++ Nat.toDigits 16 (version.toNat % 16))
  | .notAuthentic => "authentication failed: aead::Error"
  | .saltSize length => "salt has wrong size: expected 32, got " ++ text length
  | .otherMasterKey => "master key does not match the key this backend was initialized with"
  | .unexpectedCheck => "unexpected key check contents"
  | .nameEncoding => "invalid name encoding"
  | .nameTooShort => "encrypted name too short"
  | .nameNotUtf8 => "decrypted name is not valid UTF-8"

/-- Why a key names no file. -/
inductive KeyFault where
  | empty
  | trailingSeparator
  | badSegment
  deriving DecidableEq, Repr

def KeyFault.message : KeyFault → String
  | .empty => "key is empty"
  | .trailingSeparator => "key ends with a separator"
  | .badSegment => "key must be a relative path without '.', '..' or empty segments"

inductive StorageError where
  /-- The storage failed for a reason of its own. -/
  | backend (message : String)
  | readOnly
  /-- What is stored under a key, or a hidden name, cannot be read with the present keys. -/
  | decryption (key : String) (fault : SealFault)
  | invalidKey (key : String) (fault : KeyFault)
  | io (error : OsError)
  deriving DecidableEq, Repr

def StorageError.message : StorageError → String
  | .backend message => "storage failure: " ++ message
  | .readOnly => "cannot write to readonly storage"
  | .decryption key fault => "failed to decrypt " ++ key ++ ": " ++ fault.message
  | .invalidKey key fault => "invalid storage key " ++ Text.quoted key ++ ": " ++ fault.message
  | .io error => "IO error: " ++ error.message

/-- Why what opened under its key is still not what belongs there. -/
inductive CorruptFault where
  | undecodableRecord
  | undecodablePolicy
  | otherKey (key : String)
  deriving DecidableEq, Repr

def CorruptFault.message : CorruptFault → String
  | .undecodableRecord => "failed to decode metadata"
  | .undecodablePolicy => "failed to decode configuration"
  | .otherKey key => "record belongs to " ++ Text.quoted key

inductive Error where
  | storage (error : StorageError)
  | corrupt (key : String) (fault : CorruptFault)
  deriving DecidableEq, Repr

def Error.message : Error → String
  | .storage error => error.message
  | .corrupt key fault => "corrupt record for " ++ key ++ ": " ++ fault.message

end Strongbox
