import Cawala.Library.Rounds
import Cawala.Model.Merkle

/-! # The proof verifier, round by round

The loops of the proof verifier with every operation on `usize` checked, for any number of
rounds. A left shift is not checked: the bits it moves out are lost. -/

namespace Cawala

open Library Library.Rounds

/-- `largest_power_of_two_less_than`. -/
def powerRun (target : Target) : ℕ → ℕ → ℕ → Rounds ℕ
  | 0, _, _ => .running
  | rounds + 1, n, k =>
      if k * 2 % 2 ^ target.usizeBits < n then
        powerRun target rounds n (k * 2 % 2 ^ target.usizeBits)
      else pure k

/-- The loop of `proof_len`; each of its rounds may take as many rounds of the inner loop. -/
def proofLenFrom (target : Target) (inner : ℕ) : ℕ → ℕ → ℕ → ℕ → ℕ → Rounds ℕ
  | 0, _, _, _, _ => .running
  | rounds + 1, lo, hi, idx, depth => do
      let width ← checkedSub hi lo
      if width > 1 then do
        let k ← powerRun target inner width 1
        if idx < k then do
          let hi ← checkedAdd target.usizeBits lo k
          let depth ← checkedAdd target.usizeBits depth 1
          proofLenFrom target inner rounds lo hi idx depth
        else do
          let lo ← checkedAdd target.usizeBits lo k
          let idx ← checkedSub idx k
          let depth ← checkedAdd target.usizeBits depth 1
          proofLenFrom target inner rounds lo hi idx depth
      else pure depth

def proofLenRun (target : Target) (index treeSize rounds : ℕ) : Rounds ℕ :=
  proofLenFrom target rounds rounds 0 treeSize index 0

/-- The shifts of `verify_inclusion`. -/
def shiftRun : ℕ → ℕ → ℕ → Rounds (ℕ × ℕ)
  | 0, _, _ => .running
  | rounds + 1, fn, sn =>
      if fn % 2 = 0 ∧ fn ≠ 0 then shiftRun rounds (fn / 2) (sn / 2) else pure (fn, sn)

variable [Crypto]

/-- The walk of `verify_inclusion` along the audit path. -/
def walkRun (rounds : ℕ) (root : Hash) : List Hash → Hash → ℕ → ℕ → Rounds Bool
  | [], node, _, sn => pure (sn == 0 && node == root)
  | sibling :: rest, node, fn, sn =>
      if sn = 0 then pure false
      else if fn % 2 = 1 ∨ fn = sn then do
        let shifted ← if fn % 2 = 0 then shiftRun rounds fn sn else pure (fn, sn)
        walkRun rounds root rest (nodeHash sibling node) (shifted.1 / 2) (shifted.2 / 2)
      else walkRun rounds root rest (nodeHash node sibling) (fn / 2) (sn / 2)

def verifyInclusionRun (target : Target) (leaf : Hash) (index treeSize : ℕ) (proof : List Hash)
    (root : Hash) (rounds : ℕ) : Rounds Bool :=
  if treeSize = 0 ∨ index ≥ treeSize then pure false
  else do
    let len ← proofLenRun target index treeSize rounds
    if proof.length ≠ len then pure false
    else do
      let sn ← checkedSub treeSize 1
      walkRun rounds root proof leaf index sn

end Cawala
