import Cawala.Library.Transaction
import Cawala.Model.Topology

/-! # Edits of a topology

The five calls that change a topology in place. An index into the node map that misses and
an `unwrap` of nothing end a call in a way of their own. -/

namespace Cawala

open Library Library.Transaction
open Std (ExtTreeMap ExtTreeSet)

/-- How a call ends that does not succeed. -/
inductive TopologyFailure where
  | err (e : TopologyError)
  | panicked
deriving DecidableEq, Repr

namespace Topology

/-- A call on a topology that is changed in place. -/
abbrev Edit (α : Type) : Type := Transaction Topology TopologyFailure α

def newRoot (nodeId : NodeId) : Topology where
  nodes := (∅ : ExtTreeMap NodeId NodeRecord).insert nodeId
    { nodeId, kind := .node, parent := none, slot := none, children := ∅ }
  root := nodeId

def index (id : NodeId) : Edit NodeRecord := do
  let t ← get
  match t.node id with
  | some record => pure record
  | none => throw .panicked

/-- Assignments to the fields of `self.nodes.get_mut(id).unwrap()`. -/
def update (id : NodeId) (f : NodeRecord → NodeRecord) : Edit PUnit := do
  let record ← index id
  modify fun t => { t with nodes := t.nodes.insert id (f record) }

def unwrap {α : Type} (value : Option α) : Edit α :=
  match value with
  | some a => pure a
  | none => throw .panicked

/-! ## Slots -/

def selfSlot (t : Topology) (parentId childId : NodeId) : Option UInt8 :=
  match t.node childId with
  | some child => if child.parent = some parentId then child.slot else none
  | none => none

def slots : List UInt8 := (List.range (maxSlot.toNat + 1)).map UInt8.ofNat

/-- Resolve an explicit or auto-assigned slot without changing anything. A child's own slot
counts as free for it. -/
def resolveSlot (parentId childId : NodeId) (slot : Option UInt8) : Edit UInt8 := do
  let t ← get
  let parent ← index parentId
  match slot with
  | some s =>
      if s > maxSlot then throw (.err (.slotOutOfRange s))
      else if parent.children.contains s then
        if t.selfSlot parentId childId = some s then pure s
        else throw (.err (.slotTaken parentId s))
      else if parent.children.size ≥ 8 then throw (.err (.capExceeded parentId))
      else pure s
  | none =>
      match slots.find? (fun s => !parent.children.contains s
          || t.selfSlot parentId childId == some s) with
      | some s => pure s
      | none => throw (.err (.capExceeded parentId))

/-! ## The walks up from the new parent -/

/-- The walk of `attach`: the child must not be met. `fuel` is the number of steps the
counter of the source still allows. -/
def checkDescendant (t : Topology) (parentId childId : NodeId) :
    ℕ → NodeId → Except TopologyFailure PUnit
  | fuel, cur =>
      if cur = childId then
        .error (.err (.cycle
          s!"cannot attach '{childId}' under its descendant '{parentId}'"))
      else match t.node cur with
      | none => .error .panicked
      | some record =>
          match record.parent with
          | none => .ok ⟨⟩
          | some p =>
              match fuel with
              | 0 => .error (.err (.cycle parentId))
              | fuel + 1 => checkDescendant t parentId childId fuel p

/-- The walk of `move_child`: the old parent must be met, and the child must not be met
before it. -/
def checkRegion (t : Topology) (childId newParentId oldParentId : NodeId) :
    ℕ → NodeId → Except TopologyFailure PUnit
  | fuel, cur =>
      if cur = childId then
        .error (.err (.cycle s!"cannot move '{childId}' into its own subtree"))
      else if cur = oldParentId then .ok ⟨⟩
      else match t.node cur with
      | none => .error .panicked
      | some record =>
          match record.parent with
          | none => .error (.err (.crossRegionMove childId newParentId))
          | some p =>
              match fuel with
              | 0 => .error (.err (.cycle newParentId))
              | fuel + 1 => checkRegion t childId newParentId oldParentId fuel p

/-! ## The calls -/

def addNode (nodeId : NodeId) (kind : ChildKind) : Edit PUnit := do
  let t ← get
  refuseIf (t.node nodeId).isSome (.err (.duplicateNode nodeId))
  set { t with
    nodes := t.nodes.insert nodeId
      { nodeId, kind, parent := none, slot := none, children := ∅ } }

def attach (parentId childId : NodeId) (slot : Option UInt8) : Edit PUnit := do
  let t ← get
  refuseIf (t.node parentId).isNone (.err (.nodeNotFound parentId))
  refuseIf (t.node childId).isNone (.err (.nodeNotFound childId))
  refuseIf (parentId = childId) (.err (.cycle s!"cannot attach '{childId}' to itself"))
  refuseIf (childId = t.root) (.err .cannotAttachRoot)
  let child ← index childId
  refuseIf child.parent.isSome (.err (.alreadyAttached childId))
  let parent ← index parentId
  refuseIf (parent.kind ≠ .node) (.err (.userCannotHaveChildren parentId))
  Transaction.ofExcept (t.checkDescendant parentId childId t.nodeCount parentId)
  let s ← resolveSlot parentId childId slot
  update childId fun r => { r with parent := some parentId }
  update childId fun r => { r with slot := some s }
  update parentId fun r => { r with children := r.children.insert s }

/-- Detach a node from its parent; its subtree stays below it. -/
def detach (childId : NodeId) : Edit PUnit := do
  let t ← get
  refuseIf (t.node childId).isNone (.err (.nodeNotFound childId))
  refuseIf (childId = t.root) (.err .cannotDetachRoot)
  let child ← index childId
  match child.parent, child.slot with
  | some parentId, some s => do
      update parentId fun r => { r with children := r.children.erase s }
      update childId fun r => { r with parent := none, slot := none }
  | _, _ => throw (.err (.notAttached childId))

/-- Re-parent an attached node, downward only. -/
def moveChild (childId newParentId : NodeId) (slot : Option UInt8) : Edit PUnit := do
  let t ← get
  refuseIf (t.node childId).isNone (.err (.nodeNotFound childId))
  refuseIf (t.node newParentId).isNone (.err (.nodeNotFound newParentId))
  let child ← index childId
  match child.parent with
  | none => throw (.err (.notAttached childId))
  | some oldParentId => do
      let newParent ← index newParentId
      refuseIf (newParent.kind ≠ .node) (.err (.userCannotHaveChildren newParentId))
      Transaction.ofExcept (t.checkRegion childId newParentId oldParentId t.nodeCount newParentId)
      let s ← resolveSlot newParentId childId slot
      let oldSlot ← unwrap child.slot
      when (¬ (newParentId = oldParentId ∧ s = oldSlot)) do
        update oldParentId fun r => { r with children := r.children.erase oldSlot }
        update childId fun r => { r with parent := some newParentId }
        update childId fun r => { r with slot := some s }
        update newParentId fun r => { r with children := r.children.insert s }

def removeNode (nodeId : NodeId) : Edit PUnit := do
  let t ← get
  refuseIf (t.node nodeId).isNone (.err (.nodeNotFound nodeId))
  refuseIf (nodeId = t.root) (.err .cannotRemoveRoot)
  let record ← index nodeId
  refuseIf (¬ record.children.isEmpty) (.err (.notLeaf nodeId))
  forSome record.parent fun parentId => do
    let s ← unwrap record.slot
    update parentId fun r => { r with children := r.children.erase s }
  modify fun t => { t with nodes := t.nodes.erase nodeId }

/-! ## Runs of calls -/

inductive EditCall where
  | addNode (nodeId : NodeId) (kind : ChildKind)
  | attach (parentId childId : NodeId) (slot : Option UInt8)
  | detach (childId : NodeId)
  | moveChild (childId newParentId : NodeId) (slot : Option UInt8)
  | removeNode (nodeId : NodeId)
deriving DecidableEq, Repr

def EditCall.perform : EditCall → Edit PUnit
  | .addNode nodeId kind => Topology.addNode nodeId kind
  | .attach parentId childId slot => Topology.attach parentId childId slot
  | .detach childId => Topology.detach childId
  | .moveChild childId newParentId slot => Topology.moveChild childId newParentId slot
  | .removeNode nodeId => Topology.removeNode nodeId

/-- The topology after a list of calls, refused ones among them. -/
def edited (t : Topology) (calls : List EditCall) : Topology :=
  calls.foldl (fun t call => (exec call.perform t).2) t

end Topology

end Cawala
