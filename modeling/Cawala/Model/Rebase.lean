import Cawala.Model.ControlEngine

/-! # Healing pulls and exits

Two ways a node changes its address without a request: it asks its parent for the parent's
snapshot and adopts the address it finds there, and a local process takes it out of the tree. -/

namespace Cawala

open Library

variable [Crypto]

/-- `RecordStore::save`, with the text of its error. -/
def storeRecord (io : Io) : Transaction NodeHost ControlError PUnit := do
  let h ← get
  Transaction.ofExcept (match h.node.record.validate with
    | .ok _ => .ok ⟨⟩
    | .error e => .error (ControlError.codec e.message))
  saveRecord io (.codec RecordError.writeFailed.message)

variable [ControlPostcard]

/-- Queue the rebase notices of all children; no failure surfaces. -/
def announceAddress (address : OctAddr) (now : UInt64) : Transaction NodeHost ControlError PUnit :=
  Transaction.catchWith (propagateRebase address now) fun _ => pure ⟨⟩

/-- The local half of an exit: become an independent root and tell the children. -/
def applyExit (io : Io) (now : UInt64) : Transaction NodeHost ControlError PUnit := do
  Transaction.mapError (fun e => ControlError.codec e.message) (onRecord RecordStore.rebaseToRoot)
  storeRecord io
  let h ← get
  Transaction.forSome h.node.record.address fun address => announceAddress address now

/-- `control exit`, once the parent has been told. -/
def exitCommand (io : Io) (now : UInt64) : Transaction NodeHost ControlError PUnit := do
  let h ← get
  Transaction.refuseIf h.node.record.parent.isNone
    (.codec "this node has no parent to exit from (it is already a root at address 0)")
  applyExit io now

/-- The slot and the address that a parent's snapshot gives a node. The reply is not
authenticated, so it must be consistent with the node's own entry in it. -/
def NodeSnapshot.placement (snapshot : NodeSnapshot) (nodeId parentId : NodeId) :
    Except ControlError (UInt8 × OctAddr) :=
  if snapshot.nodeId ≠ parentId then
    .error (.codec s!"pull snapshot names '{snapshot.nodeId}', expected parent '{parentId}'")
  else
    match snapshot.address with
    | none => .error (.codec "pull snapshot carries no address")
    | some parentAddress =>
        match snapshot.children.find? fun child => child.childId == nodeId with
        | none => .error (.codec "pull snapshot does not list this node")
        | some child =>
            match childAddress parentAddress child.slot with
            | none => .error (.codec s!"pull snapshot lists slot {child.slot} out of range")
            | some expected =>
                match child.address with
                | none => .error (.codec "pull snapshot lists this node without an address")
                | some address =>
                    if address ≠ expected then
                      .error (.codec (s!"pull snapshot derives {address.display} for this node, "
                        ++ s!"expected {expected.display}"))
                    else .ok (child.slot, address)

/-- Apply the parent's reply to a healing pull. The generation mark stays, so that a parent whose
epoch went back can still heal this node. The record is not reloaded first. -/
def applyPullSnapshot (io : Io) (snapshot : NodeSnapshot) (now : UInt64) :
    Transaction NodeHost ControlError Bool := do
  let h ← get
  match h.node.record.parent with
  | none => throw (.codec "cannot apply a pull without a parent link")
  | some parent => do
      let (slot, address) ← Transaction.ofExcept (snapshot.placement h.node.nodeId parent.parentId)
      if h.node.record.address = some address then pure false
      else do
        Transaction.mapError (fun e => ControlError.codec e.message)
          (onRecord (RecordStore.applyRebase address slot h.node.record.parentGeneration))
        storeRecord io
        announceAddress address now
        pure true

/-! ## Runs with pulls and exits -/

inductive NodeEvent where
  /-- A step of the control engine or of a process beside it. -/
  | control (event : ControlEvent)
  /-- A healing pull is answered with a snapshot. -/
  | pull (io : Io) (snapshot : NodeSnapshot) (now : UInt64)
  /-- Another process takes the node out of the tree. -/
  | exit (opens : OpenIo) (io : Io) (now : UInt64)

namespace ControlHost

variable [EthPrimitives] [ZeroKey] [Postcard]

/-- One step; the frames that a pull queues are taken for delivery. -/
def nodeStep (c : ControlHost) : NodeEvent → Option ControlHost
  | .control e => c.step e
  | .pull io snapshot now =>
      let h := (Transaction.exec (applyPullSnapshot io snapshot now) c.host).2
      some { c with host := { h with node := { h.node with outbound := [] } } }
  | .exit opens io now => some (c.elsewhere opens now (exitCommand io now))

end ControlHost

end Cawala
