import Cawala.Model.Account
import Cawala.Model.Address

/-! # The topology

Nodes keyed by id, each with its parent link and its occupied child slots. The hash map
of the source is a tree map here: its iteration order is observable only through which
of several errors is reported first, and on a validated topology every search has at
most one answer. -/

namespace Cawala

open Std (ExtTreeMap ExtTreeSet)

namespace Topology

structure NodeRecord where
  nodeId : NodeId
  kind : ChildKind
  parent : Option NodeId
  slot : Option UInt8
  children : ExtTreeSet UInt8

/-- A child edge: its slot, its kind and its id. -/
structure Child where
  slot : UInt8
  kind : ChildKind
  childId : NodeId
deriving DecidableEq, Repr

end Topology

/-- The whole topology: nodes keyed by id, plus the root's id. -/
structure Topology where
  nodes : ExtTreeMap NodeId Topology.NodeRecord
  root : NodeId

/-- Errors raised by topology operations. -/
inductive TopologyError where
  | nodeNotFound (id : String)
  | duplicateNode (id : NodeId)
  | userCannotHaveChildren (id : NodeId)
  | slotTaken (parent : String) (slot : UInt8)
  | slotOutOfRange (slot : UInt8)
  | capExceeded (id : NodeId)
  | cycle (detail : String)
  | notAttached (id : NodeId)
  | alreadyAttached (id : NodeId)
  | notLeaf (id : NodeId)
  | cannotDetachRoot
  | cannotRemoveRoot
  | cannotAttachRoot
  | crossRegionMove (node newParent : NodeId)
deriving DecidableEq, Repr

/-- How a parent chain terminates when walking upward. -/
inductive ChainTop where
  | root
  | unattached
deriving DecidableEq, Repr

namespace Topology

variable (t : Topology)

/-- The stored record for a node, if present. -/
def node (id : NodeId) : Option NodeRecord := t.nodes[id]?

/-- Number of nodes, the root included. -/
def nodeCount : ℕ := t.nodes.size

def nodeIds : List NodeId := t.nodes.keys

/-- The id of the node's parent, if it is attached. -/
def parentOf (id : NodeId) : Except TopologyError (Option NodeId) :=
  match t.node id with
  | some record => .ok record.parent
  | none => .error (.nodeNotFound id)

def childAt (parent : NodeId) (slot : UInt8) : Option NodeId :=
  t.nodes.toList.findSome? fun (id, record) =>
    if record.parent = some parent ∧ record.slot = some slot then some id else none

def childrenOf (id : NodeId) : Except TopologyError (List Child) :=
  match t.node id with
  | none => .error (.nodeNotFound id)
  | some record =>
      record.children.toList.mapM fun slot =>
        match t.childAt id slot with
        | none => .error (.nodeNotFound s!"child of '{id}' at slot {slot}")
        | some childId =>
            match t.node childId with
            | none => .error (.nodeNotFound childId)
            | some child => .ok { slot, kind := child.kind, childId }

/-- The loop of `walk_chain`: `seen` holds the visited ids, `slotsRev` the slot digits
deepest first. A visited id ends the walk, so `node_count + 1` rounds always suffice. -/
def walkLoop (start : NodeId) : ℕ → List NodeId → NodeId → List UInt8 →
    Except TopologyError (ChainTop × List UInt8)
  | 0, _, _, _ => .error (.cycle start)
  | fuel + 1, seen, cur, slotsRev =>
      if cur ∈ seen then .error (.cycle start)
      else match t.node cur with
        | none => .error (.nodeNotFound start)
        | some record =>
            match record.parent with
            | none =>
                .ok (if cur = t.root then .root else .unattached, slotsRev)
            | some parent =>
                match record.slot with
                | none => .error (.notAttached start)
                | some slot =>
                    if slot > maxSlot then .error (.slotOutOfRange slot)
                    else walkLoop start fuel (cur :: seen) parent (slotsRev ++ [slot])

/-- Walk parent links up to the top of the chain. -/
def walkChain (id : NodeId) : Except TopologyError (ChainTop × List UInt8) :=
  t.walkLoop id (t.nodeCount + 1) [] id []

/-- The digits of the address a chain to the root spells. -/
def chainDigits (slotsRev : List UInt8) : List UInt8 := 0 :: slotsRev.reverse

/-- Derive the octal address of a node by walking up to the root. The `expect` of the
source is the unreachable last case. -/
def addressOf (id : NodeId) : Except TopologyError OctAddr := do
  let (top, slotsRev) ← t.walkChain id
  match top with
  | .unattached => .error (.notAttached id)
  | .root =>
      match OctAddr.fromDigits (chainDigits slotsRev) with
      | some addr => .ok addr
      | none => .error (.notAttached id)

/-! ## Validation -/

/-- The per-node structural checks of `validate`, with the slots claimed so far. -/
def checkNode (claims : List (NodeId × UInt8)) (id : NodeId) (record : NodeRecord) :
    Except TopologyError (List (NodeId × UInt8)) :=
  if record.kind = .user ∧ record.children.toList ≠ [] then
    .error (.userCannotHaveChildren id)
  else if record.children.size > 8 then .error (.capExceeded id)
  else match record.children.toList.find? (fun s => decide (s > maxSlot)) with
  | some s => .error (.slotOutOfRange s)
  | none =>
    match record.parent with
    | none => if record.slot.isSome then .error (.notAttached id) else .ok claims
    | some parentId =>
        match t.node parentId with
        | none => .error (.nodeNotFound parentId)
        | some parent =>
            if parent.kind ≠ .node then .error (.userCannotHaveChildren parentId)
            else if parentId = id then .error (.cycle id)
            else match record.slot with
              | none => .error (.notAttached id)
              | some s =>
                  if s > maxSlot then .error (.slotOutOfRange s)
                  else if !parent.children.contains s then .error (.notAttached id)
                  else if (parentId, s) ∈ claims then .error (.slotTaken parentId s)
                  else .ok ((parentId, s) :: claims)

/-- The address checks of `validate`: no cycle, and no address used twice. -/
def checkAddress (seen : List OctAddr) (id : NodeId) : Except TopologyError (List OctAddr) := do
  let (top, slotsRev) ← t.walkChain id
  match top with
  | .unattached => pure seen
  | .root =>
      match OctAddr.fromDigits (chainDigits slotsRev) with
      | none => .error (.notAttached id)
      | some addr =>
          if addr ∈ seen then .error (.slotTaken addr.display (addr.slot.getD 0))
          else pure (addr :: seen)

/-- Full invariant walk. -/
def validate : Except TopologyError Unit :=
  match t.node t.root with
  | none => .error (.nodeNotFound t.root)
  | some root =>
      if root.parent.isSome || root.slot.isSome then .error (.cycle t.root)
      else do
        let _ ← t.nodes.toList.foldlM (fun claims (id, record) => t.checkNode claims id record) []
        let _ ← t.nodeIds.foldlM t.checkAddress []
        pure ()

end Topology

end Cawala
