import Cawala.Model.ControlHandlers

/-! # The life of a peer registry

What changes a registry: a row is inserted, a registry is decoded in its place, or the engine
rebuilds it with one ledger key replaced. -/

namespace Cawala

open Library

variable [Crypto]

namespace PeerRegistry

/-- `Serialize`: the rows, in the order of their ids. -/
def serialize (r : PeerRegistry) : List PeerKeys := r.rows

/-- `Deserialize`: every row enters through `insert`. -/
def deserialize (rows : List PeerKeys) : Except LedgerError PeerRegistry :=
  rows.foldlM insert new

end PeerRegistry

inductive RegistryCall where
  | insert (keys : PeerKeys)
  | deserialize (rows : List PeerKeys)
  | replacePeerLedger (node : NodeId) (ledger : Option LedgerPubKey)

/-- Why such a call fails. -/
inductive RegistryFailure where
  | ledger (e : LedgerError)
  | reject (code : RejectCode)
deriving DecidableEq

namespace RegistryCall

def built (r : PeerRegistry) : RegistryCall → Except RegistryFailure PeerRegistry
  | .insert keys => (r.insert keys).mapError .ledger
  | .deserialize rows => (PeerRegistry.deserialize rows).mapError .ledger
  | .replacePeerLedger node ledger =>
      (ControlNode.replacePeerLedger r node ledger).mapError .reject

def perform (call : RegistryCall) : Transaction PeerRegistry RegistryFailure PUnit := do
  let r ← get
  let next ← Transaction.ofExcept (call.built r)
  set next

end RegistryCall

def PeerRegistry.after (r : PeerRegistry) (calls : List RegistryCall) : PeerRegistry :=
  calls.foldl (fun r call => (call.perform.exec r).2) r

end Cawala
