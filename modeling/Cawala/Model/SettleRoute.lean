import Cawala.Model.Record
import Cawala.Model.Settlement

/-! # The route a node derives

What a node computes of a cascade from its own record and the two user addresses. -/

namespace Cawala

variable [Crypto]

inductive OrderReject where
  | unauthorized
  | badRequest
  | expired
  | insufficientBalance
  | accountNotOpened
  | notAChild
  | internal
deriving DecidableEq, Repr

/-- Why a settlement cascade was rejected. -/
inductive SettleReject where
  | payerRejected
  | intermediateRejected (at_ : NodeId) (reason : OrderReject)
  | routeTooDeep
  | malformed
deriving DecidableEq, Repr

/-- A locally derived hop: the role and the accounts for this signer. -/
structure DerivedHop where
  role : HopRole
  first : AccountRef
  second : AccountRef
deriving DecidableEq, Repr

/-- The addresses from `cur` up to but excluding `lca`. The depth falls with every round,
so `cur.depth` of them reach the root, where `parent` ends the climb. -/
def climbBelow (lca : OctAddr) : ℕ → OctAddr → Option (List OctAddr)
  | 0, _ => none
  | fuel + 1, cur =>
      if cur = lca then some []
      else do
        let parent ← cur.parent
        let rest ← climbBelow lca fuel parent
        some (cur :: rest)

/-- The ordered signer addresses of a cascade. The ascending loop of the source stops at
the lca and lists it, the descending one stops before it. -/
def routeSigners (src dst : OctAddr) : Option (List OctAddr) :=
  if src.depth < 2 ∨ dst.depth < 2 then none
  else do
    let srcLeaf ← src.parent
    let dstLeaf ← dst.parent
    if srcLeaf = dstLeaf then none
    else
      let lca := srcLeaf.lca dstLeaf
      if lca = srcLeaf ∨ lca = dstLeaf then none
      else do
        let ascend ← climbBelow lca srcLeaf.depth srcLeaf
        let descend ← climbBelow lca dstLeaf.depth dstLeaf
        some (ascend ++ lca :: descend.reverse)

/-- The record child one level below `this` toward `target`. -/
def childToward (record : NodeRecord) (this target : OctAddr) : Except SettleReject NodeId :=
  match target.digits[this.depth]? with
  | none => .error .malformed
  | some slot =>
      match record.children.find? (fun child => child.slot == slot) with
      | none => .error .malformed
      | some child => .ok child.childId

/-- Derive this signer's hop from the route and the node record. -/
def deriveHop (record : NodeRecord) (this src dst : OctAddr) : Except SettleReject DerivedHop :=
  match classifyHop src dst this with
  | none => .error .routeTooDeep
  | some .direct => .error .malformed
  | some .ascend => do
      let child ← childToward record this src
      pure { role := .ascend, first := .parent, second := .child child }
  | some .lca => do
      let first ← childToward record this src
      let second ← childToward record this dst
      pure { role := .lca, first := .child first, second := .child second }
  | some .descend => do
      let child ← childToward record this dst
      pure { role := .descend, first := .parent, second := .child child }

end Cawala
