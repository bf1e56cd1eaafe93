import Cawala.Library.Fifo
import Cawala.Library.Transaction
import Cawala.Model.Account
import Cawala.Model.Address

/-! # The node record

The links a node stores about itself: its asserted address, its parent and its children,
and the operations of the store that holds them. -/

namespace Cawala

open Library

/-- A link to a node's parent. -/
structure ParentLink where
  parentId : NodeId
  slot : UInt8
  /-- High-water mark of the rebase generation applied from this parent. -/
  generation : UInt64 := 0
deriving DecidableEq

/-- The twenty bytes of an Ethereum address. -/
abbrev EthAddress := Vector UInt8 20

/-- A link to one of a node's children. -/
structure ChildEntry where
  childId : NodeId
  kind : ChildKind
  slot : UInt8
  dateJoined : UInt64 := 0
  ethAddress : Option EthAddress
deriving DecidableEq

/-- A node's persisted record. -/
structure NodeRecord where
  nodeId : NodeId
  address : Option OctAddr
  parent : Option ParentLink
  children : List ChildEntry
  /-- The node's own monotonic subtree routing epoch. -/
  addressEpoch : UInt64 := 0
deriving DecidableEq

/-- Maximum number of children a node may have. -/
def maxChildren : ℕ := maxSlot.toNat + 1

/-- Errors raised by record validation and by the operations of the store. -/
inductive RecordError where
  | selfReference (id : NodeId)
  | slotOutOfRange (slot : UInt8)
  | slotTaken (slot : UInt8)
  | addressWithoutParent (address : String)
  | addressSlotMismatch (addressSlot : Option UInt8) (parentSlot : UInt8)
  | capExceeded
  | duplicateChild (id : NodeId)
  | childNotFound (id : NodeId)
  | idMismatch (found expected : NodeId)
  | readFailed
  | writeFailed
deriving DecidableEq, Repr

def saturatingAdd (a b : UInt64) : UInt64 :=
  if a.toNat + b.toNat < 2 ^ 64 then a + b else UInt64.ofNat (2 ^ 64 - 1)

namespace NodeRecord

def new (nodeId : NodeId) : NodeRecord where
  nodeId
  address := none
  parent := none
  children := []

def checkParent (r : NodeRecord) : Except RecordError Unit :=
  match r.parent with
  | none => .ok ()
  | some parent =>
      if parent.parentId = r.nodeId then .error (.selfReference r.nodeId)
      else if parent.slot > maxSlot then .error (.slotOutOfRange parent.slot)
      else .ok ()

def checkAddress (r : NodeRecord) : Except RecordError Unit :=
  match r.address with
  | none => .ok ()
  | some address =>
      match r.parent with
      | some parent =>
          if address.depth < 2 ∨ address.slot ≠ some parent.slot then
            .error (.addressSlotMismatch address.slot parent.slot)
          else .ok ()
      | none =>
          if !address.isRoot then .error (.addressWithoutParent address.display) else .ok ()

def checkChild (r : NodeRecord) (slots : List UInt8) (child : ChildEntry) :
    Except RecordError (List UInt8) :=
  if child.childId = r.nodeId then .error (.selfReference child.childId)
  else if child.slot > maxSlot then .error (.slotOutOfRange child.slot)
  else if child.slot ∈ slots then .error (.slotTaken child.slot)
  else .ok (slots ++ [child.slot])

def validate (r : NodeRecord) : Except RecordError Unit := do
  r.checkParent
  r.checkAddress
  if r.children.length > maxChildren then .error .capExceeded
  else do
    let _ ← r.children.foldlM r.checkChild []
    pure ()

/-- The rebase generation applied from the current parent. -/
def parentGeneration (r : NodeRecord) : UInt64 := (r.parent.map (·.generation)).getD 0

/-- The first link that names a child. -/
def childEntry (r : NodeRecord) (childId : NodeId) : Option ChildEntry :=
  r.children.find? fun child => child.childId == childId

def lists (r : NodeRecord) (childId : NodeId) : Bool :=
  r.children.any fun child => child.childId == childId

def slotTaken (r : NodeRecord) (slot : UInt8) : Bool :=
  r.children.any fun child => child.slot == slot

/-- The registered Ethereum anchor of a direct child. -/
def childEthAddress (r : NodeRecord) (childId : NodeId) : Option EthAddress :=
  (r.childEntry childId).bind (·.ethAddress)

end NodeRecord

def allSlots : List UInt8 := (List.range maxChildren).map UInt8.ofNat

def lowestFreeSlot (r : NodeRecord) : Option UInt8 := allSlots.find? fun slot => !r.slotTaken slot

/-! ## The record store

A mutation works on the record in memory; a failed one may leave it changed, as the setters
of the parent link and the address do. -/

abbrev RecordOp (α : Type) : Type := Transaction NodeRecord RecordError α

namespace RecordStore

def revalidate : RecordOp PUnit := do
  let r ← get
  Transaction.ofExcept r.validate

/-- Set the asserted address; the epoch advances exactly when the value changes. -/
def setAddressValue (address : Option OctAddr) : RecordOp PUnit :=
  modify fun r =>
    if r.address ≠ address then
      { r with address, addressEpoch := saturatingAdd r.addressEpoch 1 }
    else r

/-- Advance the generation mark of the current parent link. -/
def setParentGeneration (generation : UInt64) : RecordOp PUnit :=
  modify fun r => { r with
    parent := r.parent.map fun parent =>
      { parent with generation := max parent.generation generation } }

/-- Apply a parent-driven rebase in one validated mutation. -/
def applyRebase (address : OctAddr) (slot : UInt8) (generation : UInt64) : RecordOp PUnit :=
  Transaction.onCopy do
    setAddressValue (some address)
    modify fun r => { r with parent := r.parent.map fun parent => { parent with slot } }
    setParentGeneration generation
    revalidate

/-- The slot of a new child link. -/
def chooseSlot (r : NodeRecord) : Option UInt8 → Except RecordError UInt8
  | some slot =>
      if slot > maxSlot then .error (.slotOutOfRange slot)
      else if r.slotTaken slot then .error (.slotTaken slot)
      else .ok slot
  | none =>
      match lowestFreeSlot r with
      | some slot => .ok slot
      | none => .error .capExceeded

def attachChild (childId : NodeId) (kind : ChildKind) (slot : Option UInt8)
    (dateJoined : UInt64) : RecordOp PUnit := do
  let r ← get
  Transaction.refuseIf (childId = r.nodeId) (.selfReference childId)
  Transaction.refuseIf (r.lists childId) (.duplicateChild childId)
  let slot ← Transaction.ofExcept (chooseSlot r slot)
  Transaction.refuseIf (r.children.length ≥ maxChildren) .capExceeded
  modify fun r => { r with
    children := r.children ++ [{ childId, kind, slot, dateJoined, ethAddress := none }] }
  revalidate

def detachChild (childId : NodeId) : RecordOp PUnit := do
  let r ← get
  Transaction.refuseIf (!r.lists childId) (.childNotFound childId)
  modify fun r => { r with children := r.children.eraseP fun child => child.childId == childId }
  revalidate

/-- Set a direct child's Ethereum anchor. -/
def setChildEthAddress (childId : NodeId) (address : EthAddress) : RecordOp PUnit := do
  let r ← get
  Transaction.refuseIf (!r.lists childId) (.childNotFound childId)
  modify fun r => { r with
    children := Fifo.replaceFirst (fun child => child.childId == childId)
      (fun child => { child with ethAddress := some address }) r.children }

/-- Move a direct child to another slot; its kind, date and anchor stay. The previous slot is
returned when the slot changes. -/
def moveChildSlot (childId : NodeId) (slot : UInt8) : RecordOp (Option UInt8) := do
  let r ← get
  match r.childEntry childId with
  | none => throw (.childNotFound childId)
  | some child =>
      if child.slot = slot then pure none
      else Transaction.onCopy do
        detachChild childId
        attachChild childId child.kind (some slot) child.dateJoined
        Transaction.forSome child.ethAddress (setChildEthAddress childId)
        modify fun r => { r with addressEpoch := saturatingAdd r.addressEpoch 1 }
        revalidate
        pure (some child.slot)

def setParent (parentId : NodeId) (slot : UInt8) : RecordOp PUnit := do
  let r ← get
  Transaction.refuseIf (parentId = r.nodeId) (.selfReference parentId)
  Transaction.refuseIf (slot > maxSlot) (.slotOutOfRange slot)
  modify fun r => { r with parent := some { parentId, slot } }
  revalidate

/-- Clear the parent link, and with it an address other than the root. -/
def unsetParent : RecordOp PUnit := do
  modify fun r => { r with parent := none }
  let r ← get
  Transaction.when (r.address.any fun address => !address.isRoot) (setAddressValue none)
  revalidate

def rebaseToRoot : RecordOp PUnit := do
  modify fun r => { r with parent := none }
  setAddressValue (some OctAddr.root)
  revalidate

/-- Assert the node's address. -/
def setAddress (address : OctAddr) : RecordOp PUnit := do
  setAddressValue (some address)
  revalidate

def unsetAddress : RecordOp PUnit := do
  setAddressValue none
  revalidate

end RecordStore

end Cawala
