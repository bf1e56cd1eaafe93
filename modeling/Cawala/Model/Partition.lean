import Cawala.Library.UnionFind
import Cawala.Model.Netting
import Cawala.Model.Record

/-! # The audit partition

The node records of a possibly divided network, merged into one topology for each of its
independent parts. A node's own parent link decides where it belongs; a row in which another node
lists it otherwise is stale. -/

namespace Cawala

open Library
open Std (ExtTreeMap ExtTreeSet)

/-- A node of the network as the records are merged. -/
structure NodeBuilder where
  kind : ChildKind
  parent : Option (NodeId × UInt8)
  children : ExtTreeSet UInt8

abbrev Builders : Type := ExtTreeMap NodeId NodeBuilder

abbrev ChildLinks : Type := ExtTreeMap NodeId (NodeId × UInt8)

/-- Why records form no partition. -/
inductive PartitionError where
  | kindConflict (id : NodeId)
  | parentSlotOutOfRange (id : NodeId) (slot : UInt8)
  | childSlotOutOfRange (id : NodeId) (slot : UInt8)
  | conflictingLinks (child : NodeId)
  | missingParent (child parent : NodeId)
  | roots (count : ℕ) (members : List NodeId)
  | primaryNotFound (root : NodeId)
  | invalid (root : NodeId) (error : TopologyError)
  /-- No records: the primary component is swapped to the front of an empty list, which
  panics. -/
  | noComponents
deriving DecidableEq

variable [Crypto]

/-- The components of a network, the primary one first, and the stale rows found. -/
structure TopologyPartition where
  components : List NetComponent
  findings : List Finding

/-! ## Merging the records -/

/-- Enter a node, unless it is there; its kind must be the same. -/
def ensureNode (nodes : Builders) (id : NodeId) (kind : ChildKind) :
    Except PartitionError Builders :=
  match nodes[id]? with
  | some builder => if builder.kind ≠ kind then .error (.kindConflict id) else .ok nodes
  | none => .ok (nodes.insert id { kind, parent := none, children := ∅ })

/-- What the passes over the records gather. -/
structure Gathered where
  nodes : Builders
  links : ChildLinks
  findings : List Finding

/-- First pass, one record: the node, and its own parent link. -/
def gatherRecord (g : Gathered) (rec : NodeRecord) : Except PartitionError Gathered := do
  let nodes ← ensureNode g.nodes rec.nodeId .node
  match rec.parent with
  | none => pure { g with nodes }
  | some parent =>
      if parent.slot > maxSlot then .error (.parentSlotOutOfRange rec.nodeId parent.slot)
      else pure { g with nodes, links := g.links.insert rec.nodeId (parent.parentId, parent.slot) }

/-- Second pass, one row of a record's children. A child that has a record decides itself; for
another one this row is the only link. -/
def gatherRow (hasRecord : List NodeId) (g : Gathered) (row : NodeId × ChildEntry) :
    Except PartitionError Gathered := do
  let child := row.2
  if child.slot > maxSlot then .error (.childSlotOutOfRange child.childId child.slot)
  else do
    let nodes ← ensureNode g.nodes child.childId child.kind
    if child.childId ∈ hasRecord then
      if g.links[child.childId]? = some (row.1, child.slot) then pure { g with nodes }
      else pure { g with nodes, findings := g.findings ++ [.staleChildLink row.1 child.childId] }
    else match g.links[child.childId]? with
    | some existing =>
        if existing ≠ (row.1, child.slot) then .error (.conflictingLinks child.childId)
        else pure { g with nodes }
    | none => pure { g with nodes, links := g.links.insert child.childId (row.1, child.slot) }

def NodeRecord.rows (rec : NodeRecord) : List (NodeId × ChildEntry) :=
  rec.children.map fun child => (rec.nodeId, child)

def gather (records : List NodeRecord) : Except PartitionError Gathered := do
  let g ← records.foldlM gatherRecord { nodes := ∅, links := ∅, findings := [] }
  (records.flatMap NodeRecord.rows).foldlM (gatherRow (records.map (·.nodeId))) g

/-- Every parent that a link names must be a node. -/
def checkParents (g : Gathered) : Except PartitionError Unit :=
  g.links.toList.forM fun (child, parent, _) =>
    if parent ∈ g.nodes then .ok () else .error (.missingParent child parent)

/-- Enter one link in the child and in the parent. Both are there. -/
def applyLink (nodes : Builders) (link : NodeId × NodeId × UInt8) :
    Except PartitionError Builders :=
  match nodes[link.1]? with
  | none => .error (.missingParent link.1 link.2.1)
  | some builder =>
      if builder.parent.any fun existing => existing ≠ link.2 then
        .error (.conflictingLinks link.1)
      else
        let nodes := nodes.insert link.1 { builder with parent := some link.2 }
        match nodes[link.2.1]? with
        | none => .error (.missingParent link.1 link.2.1)
        | some parent =>
            .ok (nodes.insert link.2.1 { parent with children := parent.children.insert link.2.2 })

/-! ## Components -/

/-- The sets that the links connect, over the positions of the ids. -/
def connectLinks (ids : List NodeId) (links : ChildLinks) : UnionFind :=
  .connect ids.length (links.toList.map fun link => (ids.idxOf link.1, ids.idxOf link.2.1))

def groupId (s : UnionFind × ExtTreeMap ℕ (List NodeId)) (entry : NodeId × ℕ) :
    UnionFind × ExtTreeMap ℕ (List NodeId) :=
  let (root, sets) := s.1.find entry.2
  (sets, s.2.insert root (s.2.getD root [] ++ [entry.1]))

def groupIds (ids : List NodeId) (links : ChildLinks) : List (List NodeId) :=
  (ids.zipIdx.foldl groupId (connectLinks ids links, ∅)).2.toList.map (·.2)

/-- A component must have exactly one node without a parent. -/
def componentOf (nodes : Builders) (members : List NodeId) :
    Except PartitionError (NodeId × List NodeId) :=
  let members := members.insertionSort (· ≤ ·)
  match members.filter fun id => (nodes[id]?).all fun builder => builder.parent.isNone with
  | [root] => .ok (root, members)
  | roots => .error (.roots roots.length members)

/-- The order of components: the largest first, then by root. -/
def ComponentLe (a b : NodeId × List NodeId) : Prop :=
  b.2.length < a.2.length ∨ a.2.length = b.2.length ∧ a.1 ≤ b.1

instance : DecidableRel ComponentLe := fun a b =>
  inferInstanceAs (Decidable (b.2.length < a.2.length ∨ a.2.length = b.2.length ∧ a.1 ≤ b.1))

/-- The position of the primary component: the first one, unless a member designates another. -/
def primaryPosition (ids : List NodeId) (components : List (NodeId × List NodeId)) :
    Option NodeId → Except PartitionError ℕ
  | none => .ok 0
  | some root =>
      if root ∉ ids then .error (.primaryNotFound root)
      else .ok (components.findIdx fun component => decide (root ∈ component.2))

/-- Exchange the first element with the one at a position. -/
def swapFirst {α : Type} (l : List α) (i : ℕ) : Except PartitionError (List α) :=
  match l[0]?, l[i]? with
  | some first, some other => .ok ((l.set 0 other).set i first)
  | _, _ => .error .noComponents

def componentTopology (nodes : Builders) (component : NodeId × List NodeId) : Topology where
  nodes := component.2.foldl (fun m id =>
    match nodes[id]? with
    | none => m
    | some builder => m.insert id {
        nodeId := id
        kind := builder.kind
        parent := builder.parent.map (·.1)
        slot := builder.parent.map (·.2)
        children := builder.children }) ∅
  root := component.1

/-- The parent that the first stale row for a root names. -/
def severedParent (findings : List Finding) (root : NodeId) : Option NodeId :=
  findings.findSome? fun
    | .staleChildLink parent child => if child = root then some parent else none
    | _ => none

/-- Build and validate one component; only an island's root can have been severed. -/
def buildComponent (nodes : Builders) (findings : List Finding)
    (entry : (NodeId × List NodeId) × ℕ) : Except PartitionError NetComponent :=
  let topology := componentTopology nodes entry.1
  match topology.validate with
  | .error e => .error (.invalid entry.1.1 e)
  | .ok () => .ok {
      topology
      strandedParent := if entry.2 > 0 then severedParent findings entry.1.1 else none }

/-- Build a partition from node records. The hash map of the nodes yields its ids in an order of
its own. -/
def buildTopologyPartition (order : Builders → List NodeId) (records : List NodeRecord)
    (primaryRoot : Option NodeId) : Except PartitionError TopologyPartition := do
  let g ← gather records
  checkParents g
  let nodes ← g.links.toList.foldlM applyLink g.nodes
  let ids := order nodes
  let components ← (groupIds ids g.links).mapM (componentOf nodes)
  let components := components.insertionSort ComponentLe
  let primary ← primaryPosition ids components primaryRoot
  let components ← swapFirst components primary
  let components ← components.zipIdx.mapM (buildComponent nodes g.findings)
  pure { components, findings := g.findings }

end Cawala
