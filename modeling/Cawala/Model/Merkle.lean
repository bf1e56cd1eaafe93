import Cawala.Model.Auth

/-! # Merkle trees over entries and account state

RFC 6962 trees built from already leaf-hashed values. A `usize` is a natural number of
the target's width: `k << 1` drops the top bit, which matters only for the sizes an
untrusted proof may claim. A slice never holds that many hashes. -/

namespace Cawala

/-- The targets the crate is built for: the node, and the browser client. -/
inductive Target where
  | native64
  | wasm32
deriving DecidableEq, Repr

def Target.usizeBits : Target → ℕ
  | .native64 => 64
  | .wasm32 => 32

/-- The loop of `largest_power_of_two_less_than`; `none` when the rounds run out. -/
def powerLoop (bits : ℕ) : ℕ → ℕ → ℕ → Option ℕ
  | 0, _, _ => none
  | fuel + 1, n, k =>
      if k * 2 % 2 ^ bits < n then powerLoop bits fuel n (k * 2 % 2 ^ bits) else some k

/-- Largest power of two strictly less than `n`. After as many doublings as `usize` has
bits, `k` is zero for good, so `none` stands for a loop that never ends. -/
def largestPowerOfTwoLessThan (target : Target) (n : ℕ) : Option ℕ :=
  powerLoop target.usizeBits (target.usizeBits + 1) n 1

/-- The split point for a slice length, where the loop always returns. -/
def slicePower (n : ℕ) : ℕ := (largestPowerOfTwoLessThan .native64 n).getD 1

def proofLenLoop (target : Target) : ℕ → ℕ → ℕ → ℕ → ℕ → Option ℕ
  | 0, _, _, _, _ => none
  | fuel + 1, lo, hi, idx, depth =>
      if hi - lo > 1 then
        match largestPowerOfTwoLessThan target (hi - lo) with
        | none => none
        | some k =>
            if idx < k then proofLenLoop target fuel lo (lo + k) idx (depth + 1)
            else proofLenLoop target fuel (lo + k) hi (idx - k) (depth + 1)
      else some depth

/-- The canonical audit-path length. A tree that can be split at all has fewer levels than
`usize` has bits, so the rounds suffice whenever the loop returns. -/
def proofLen (target : Target) (index treeSize : ℕ) : Option ℕ :=
  proofLenLoop target (target.usizeBits + 1) 0 treeSize index 0

variable [Crypto]

/-- The recursion of `root`; every half is shorter, so the length bounds the depth. -/
def rootAux : ℕ → List Hash → Hash
  | _, [] => emptyTreeRoot
  | _, [leaf] => leaf
  | 0, _ => emptyTreeRoot
  | fuel + 1, leaves =>
      let k := slicePower leaves.length
      nodeHash (rootAux fuel (leaves.take k)) (rootAux fuel (leaves.drop k))

/-- The Merkle tree hash of an already leaf-hashed list. -/
def root (leaves : List Hash) : Hash := rootAux leaves.length leaves

/-- The elements of a list from `lo` up to `hi`. -/
def slice (leaves : List Hash) (lo hi : ℕ) : List Hash := (leaves.drop lo).take (hi - lo)

/-- The loop of `inclusion_proof`, which records siblings root first. -/
def proofLoop (leaves : List Hash) : ℕ → ℕ → ℕ → ℕ → List Hash → List Hash
  | 0, _, _, _, proof => proof
  | fuel + 1, lo, hi, idx, proof =>
      if hi - lo > 1 then
        let k := slicePower (hi - lo)
        if idx < k then
          proofLoop leaves fuel lo (lo + k) idx (proof ++ [root (slice leaves (lo + k) hi)])
        else
          proofLoop leaves fuel (lo + k) hi (idx - k) (proof ++ [root (slice leaves lo (lo + k))])
      else proof

/-- The audit path for an index, ordered from the leaf toward the root. -/
def inclusionProof (leaves : List Hash) (index : ℕ) : Except LedgerError (List Hash) :=
  if index ≥ leaves.length then .error .indexOutOfRange
  else .ok (proofLoop leaves leaves.length 0 leaves.length index []).reverse

/-- Right-shift both until the low bit of `fn` is set or `fn` is zero. -/
def shiftLoop : ℕ → ℕ → ℕ → ℕ × ℕ
  | 0, fn, sn => (fn, sn)
  | fuel + 1, fn, sn =>
      if fn % 2 = 0 ∧ fn ≠ 0 then shiftLoop fuel (fn / 2) (sn / 2) else (fn, sn)

/-- The walk of `verify_inclusion` along the audit path. -/
def walkPath (root : Hash) : List Hash → Hash → ℕ → ℕ → Bool
  | [], node, _, sn => sn == 0 && node == root
  | sibling :: rest, node, fn, sn =>
      if sn = 0 then false
      else if fn % 2 = 1 ∨ fn = sn then
        let shifted := if fn % 2 = 0 then shiftLoop fn fn sn else (fn, sn)
        walkPath root rest (nodeHash sibling node) (shifted.1 / 2) (shifted.2 / 2)
      else walkPath root rest (nodeHash node sibling) (fn / 2) (sn / 2)

/-- Verify an inclusion proof; `none` when the verifier does not return. -/
def verifyInclusion (target : Target) (leaf : Hash) (index treeSize : ℕ) (proof : List Hash)
    (root : Hash) : Option Bool :=
  if treeSize = 0 ∨ index ≥ treeSize then some false
  else match proofLen target index treeSize with
    | none => none
    | some len =>
        if proof.length ≠ len then some false
        else some (walkPath root proof leaf index (treeSize - 1))

/-! ## Entry and state trees -/

/-- The state leaves of a node, in account order. -/
def stateLeaves (balances : Balances) : List Hash :=
  balances.accounts.map fun (account, balance) => stateLeafHash account balance

/-- The Merkle root over a node's current account state. -/
def stateRoot (balances : Balances) : Hash := root (stateLeaves balances)

/-- The audit path for one account in a state tree, with its position. -/
def stateInclusionProof (balances : Balances) (account : AccountRef) :
    Except LedgerError (ℕ × List Hash) :=
  match balances.accounts.findIdx? (fun candidate => candidate.1 = account) with
  | none => .error .indexOutOfRange
  | some index => do
      let proof ← inclusionProof (stateLeaves balances) index
      pure (index, proof)

def verifyStateInclusion (target : Target) (account : AccountRef) (balance : ℤ)
    (index treeSize : ℕ) (proof : List Hash) (root : Hash) : Option Bool :=
  verifyInclusion target (stateLeafHash account balance) index treeSize proof root

variable [Postcard]

def entryLeaves (entries : List SignedEntry) : Except LedgerError (List Hash) :=
  entries.mapM fun signed => do
    let hash ← entryHash signed.entry
    pure (leafHash hash)

/-- The Merkle root over a ledger prefix. -/
def entryRoot (entries : List SignedEntry) : Except LedgerError Hash := do
  let leaves ← entryLeaves entries
  pure (root leaves)

end Cawala
