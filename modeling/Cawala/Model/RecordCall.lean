import Cawala.Model.Record

/-! # Calls of the record store

The mutators of the store as data, and the runs of calls that a store can see. -/

namespace Cawala

open Library

/-- A call of a mutator of the record store. -/
inductive RecordCall where
  | attachChild (childId : NodeId) (kind : ChildKind) (slot : Option UInt8) (dateJoined : UInt64)
  | detachChild (childId : NodeId)
  | moveChildSlot (childId : NodeId) (slot : UInt8)
  | setChildEthAddress (childId : NodeId) (address : EthAddress)
  | setParentGeneration (generation : UInt64)
  | setParent (parentId : NodeId) (slot : UInt8)
  | unsetParent
  | rebaseToRoot
  | setAddress (address : OctAddr)
  | unsetAddress
  | applyRebase (address : OctAddr) (slot : UInt8) (generation : UInt64)
deriving DecidableEq

namespace RecordCall

/-- Run a call on the record in memory. -/
def perform : RecordCall → RecordOp PUnit
  | .attachChild childId kind slot dateJoined =>
      RecordStore.attachChild childId kind slot dateJoined
  | .detachChild childId => RecordStore.detachChild childId
  | .moveChildSlot childId slot => (fun _ => ⟨⟩) <$> RecordStore.moveChildSlot childId slot
  | .setChildEthAddress childId address => RecordStore.setChildEthAddress childId address
  | .setParentGeneration generation => RecordStore.setParentGeneration generation
  | .setParent parentId slot => RecordStore.setParent parentId slot
  | .unsetParent => RecordStore.unsetParent
  | .rebaseToRoot => RecordStore.rebaseToRoot
  | .setAddress address => RecordStore.setAddress address
  | .unsetAddress => RecordStore.unsetAddress
  | .applyRebase address slot generation => RecordStore.applyRebase address slot generation

/-- The record after a call that returns `Ok`. -/
def performOk (r : NodeRecord) (call : RecordCall) : Option NodeRecord :=
  match Transaction.exec call.perform r with
  | (.ok _, r) => some r
  | (.error _, _) => none

/-- The record after calls that all return `Ok`. -/
def run (r : NodeRecord) (calls : List RecordCall) : Option NodeRecord := calls.foldlM performOk r

/-- The record in memory after calls of which some may fail. -/
def runAll (r : NodeRecord) (calls : List RecordCall) : NodeRecord :=
  calls.foldl (fun r call => (Transaction.exec call.perform r).2) r

end RecordCall

end Cawala
