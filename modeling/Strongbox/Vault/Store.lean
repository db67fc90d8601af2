/-
  Strongbox.Vault.Store — an open store, which answers requests one after the other.

  The key ring is derived when it is first needed and kept from then on. A setup that failed is
  not kept, so a storage that could not be written then works once it can. One request is under way at
  a time, so there are no locks for changes of one key to wait at; nor is there a log.
-/

import Strongbox.Vault.Operations

namespace Strongbox

open Time (Instant)

structure Store where
  master : MasterKey
  /-- The policy as long as none is stored. -/
  defaults : Policy := {}
  /-- The key ring, once it has been derived. -/
  ring : Option KeyRing := none

namespace Store

variable {m : Type → Type} [Monad m]

/-- The key ring, set up if it is not at hand. -/
def openRing (s : Store) : Access KeyRing :=
  match s.ring with
  | some ring => return ring
  | none => KeyRing.setUp s.master

/-- Answers a request at a point in time. -/
def handle (b : Backend m) (now : Instant) (r : Request) (s : Store) :
    m (Except Error r.Reply × Store) :=
  match r.immediate? with
  | some reply => pure (.ok reply, s)
  | none => do
    match ← s.openRing.run b with
    | .error e => pure (r.settle (.error e), s)
    | .ok ring => do
      let reply ← ((Vault.mk ring s.defaults).perform now r).run b
      pure (r.settle reply, { s with ring := some ring })

end Store

end Strongbox
