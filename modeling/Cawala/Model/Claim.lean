import Cawala.Model.Commit

/-! # Stranded-claim evidence bundles

What a reviewer checks of the evidence that a stranded node presents. -/

namespace Cawala

/-- Wire format version of the claim and of its bundle. -/
def strandedClaimVersion : UInt8 := 1

/-- Clock-skew tolerance for a claim's `issued_at`, in seconds. -/
def strandedClaimClockSkewSecs : ℕ := 300

/-- A node's dated statement that it is stranded. -/
structure StrandedClaim where
  version : UInt8
  node : NodeId
  detachedFrom : Option NodeId
  issuedAt : UInt64
deriving DecidableEq, Repr

/-- Why a claim or its bundle is refused. -/
inductive ClaimError where
  | unsupportedVersion (version : UInt8)
  | childOperatorMismatch
  | claimNodeMismatch
  | invalidClaimSignature
  | invalidCommitmentSignature
  | brokenChain
  | missingParentProof
  | invalidParentProof
  | negativeParentBalance (balance : ℤ)
  | claimIssuedInFuture (issuedAt now : UInt64)
deriving DecidableEq, Repr

variable [Crypto]

/-- The codecs of other crates that claims rest on. -/
class ClaimPrimitives where
  /-- `postcard::to_allocvec` of a claim. -/
  toAllocvec : StrandedClaim → Bytes
  /-- `OperatorPubKey::from_bytes`. -/
  operatorFromBytes : List UInt8 → Option OperatorPubKey

/-- A claim signed by the operator of the stranded node. -/
structure SignedStrandedClaim where
  claim : StrandedClaim
  signature : Signature
deriving DecidableEq

/-- An inclusion proof for one account of a state tree. -/
structure StateProof where
  index : ℕ
  treeSize : ℕ
  proof : List Hash
deriving DecidableEq

/-- A self-attested evidence bundle for a stranded node's parent asset. -/
structure StrandedClaimBundle where
  version : UInt8
  child : NodeId
  childOperator : OperatorPubKey
  childLedger : LedgerPubKey
  claim : SignedStrandedClaim
  commitment : SignedCommitment
  /-- An `i128`. -/
  parentBalance : ℤ
  parentProof : Option StateProof
  chain : List SignedCommitment

/-- What a verified bundle reports. -/
structure VerifiedClaim where
  child : NodeId
  childOperator : OperatorPubKey
  detachedFrom : Option NodeId
  issuedAt : UInt64
  parentBalance : ℤ
  commitmentHeight : UInt64
deriving DecidableEq

/-! ## Operator keys in node ids -/

/-- One hex digit to its value, of either case. -/
def hexNibble (byte : UInt8) : Option UInt8 :=
  if 48 ≤ byte ∧ byte ≤ 57 then some (byte - 48)
  else if 97 ≤ byte ∧ byte ≤ 102 then some (byte - 97 + 10)
  else if 65 ≤ byte ∧ byte ≤ 70 then some (byte - 65 + 10)
  else none

/-- The bytes that pairs of hex digits spell. -/
def decodeHexPairs : List UInt8 → Option (List UInt8)
  | hi :: lo :: rest => do
      let hi ← hexNibble hi
      let lo ← hexNibble lo
      let bytes ← decodeHexPairs rest
      some ((hi <<< 4 ||| lo) :: bytes)
  | _ => some []

def decodeHex32 (raw : String) : Option (List UInt8) :=
  let raw := raw.toByteArray.data.toList
  if raw.length ≠ 64 then none else decodeHexPairs raw

variable [ClaimPrimitives]

def parseOperatorHex (raw : String) : Option OperatorPubKey := do
  let bytes ← decodeHex32 raw
  ClaimPrimitives.operatorFromBytes bytes

def operatorNamedBy (node : NodeId) : Except ClaimError OperatorPubKey :=
  match parseOperatorHex node with
  | some operator => .ok operator
  | none => .error .childOperatorMismatch

/-! ## The signed claim -/

namespace SignedStrandedClaim

def signingHash (s : SignedStrandedClaim) : Hash :=
  derive "cawala-control/stranded-claim/v1" [ClaimPrimitives.toAllocvec s.claim]

/-- Verify the claim under the operator key; its version is checked first. -/
def verify (s : SignedStrandedClaim) (nodeOperator : OperatorPubKey) : Except ClaimError Unit :=
  if s.claim.version ≠ strandedClaimVersion then .error (.unsupportedVersion s.claim.version)
  else if Crypto.verify nodeOperator [.digest s.signingHash] s.signature then .ok ()
  else .error .invalidClaimSignature

end SignedStrandedClaim

/-! ## The ancestor chain -/

section

omit [ClaimPrimitives]

/-- A ledger error of chain verification on the error surface of claims. -/
def chainError : LedgerError → ClaimError
  | .ledgerMismatch | .invalidSignature => .invalidCommitmentSignature
  | _ => .brokenChain

def checkElements (ledger : LedgerPubKey) : List SignedCommitment → Except ClaimError Unit
  | [] => .ok ()
  | element :: rest => do
      (element.verify ledger).mapError chainError
      if element.commitment.height ≠ element.commitment.entryCount then .error .brokenChain
      else checkElements ledger rest

/-- A commitment rises above its predecessor and names its hash. -/
def checkLink (prev current : SignedCommitment) : Except ClaimError Unit :=
  if current.commitment.height ≤ prev.commitment.height
      ∨ current.commitment.prevCommitmentHash ≠ commitmentHash prev.commitment then
    .error .brokenChain
  else .ok ()

/-- The walk over the ancestors behind the first, up to the last one. -/
def walkLinks (prev : SignedCommitment) :
    List SignedCommitment → Except ClaimError SignedCommitment
  | [] => .ok prev
  | current :: rest => do
      checkLink prev current
      walkLinks current rest

/-- Verify an optional ancestor chain and its link to the head. -/
def verifyChainContinuity (chain : List SignedCommitment) (head : SignedCommitment)
    (ledger : LedgerPubKey) : Except ClaimError Unit :=
  match chain with
  | [] => .ok ()
  | first :: rest => do
      checkElements ledger (first :: rest)
      if first.commitment.prevCommitmentHash = Crypto.zero then
        (verifyChain (first :: rest ++ [head]) ledger).mapError chainError
      else do
        -- unlike the ancestors, the head is not checked to be consistent here
        let prev ← walkLinks first rest
        checkLink prev head

end

/-! ## The bundle -/

namespace StrandedClaimBundle

/-- The checks of `verify_bundle` ahead of the balance proof. -/
def checkBundle (b : StrandedClaimBundle) (now : UInt64) : Except ClaimError Unit := do
  if b.version ≠ strandedClaimVersion then .error (.unsupportedVersion b.version)
  else do
    let named ← operatorNamedBy b.child
    if named ≠ b.childOperator then .error .childOperatorMismatch
    else do
      b.claim.verify b.childOperator
      if b.claim.claim.node ≠ b.child then .error .claimNodeMismatch
      else if b.claim.claim.issuedAt.toNat
          > min (now.toNat + strandedClaimClockSkewSecs) (2 ^ 64 - 1) then
        .error (.claimIssuedInFuture b.claim.claim.issuedAt now)
      else do
        (b.commitment.verify b.childLedger).mapError fun _ => .invalidCommitmentSignature
        verifyChainContinuity b.chain b.commitment b.childLedger
        if b.parentBalance < 0 then .error (.negativeParentBalance b.parentBalance)
        else .ok ()

omit [ClaimPrimitives] in
def report (b : StrandedClaimBundle) : VerifiedClaim where
  child := b.child
  childOperator := b.childOperator
  detachedFrom := b.claim.claim.detachedFrom
  issuedAt := b.claim.claim.issuedAt
  parentBalance := b.parentBalance
  commitmentHeight := b.commitment.commitment.height

/-- Verify the bundle's internal consistency; `none` when the proof verifier does not
return. A proof that is present is checked at every balance. -/
def verifyBundle (target : Target) (b : StrandedClaimBundle) (now : UInt64) :
    Option (Except ClaimError VerifiedClaim) :=
  match b.checkBundle now with
  | .error e => some (.error e)
  | .ok () =>
      match b.parentProof with
      | none =>
          if b.parentBalance ≠ 0 then some (.error .missingParentProof) else some (.ok b.report)
      | some proof =>
          match verifyStateInclusion target .parent b.parentBalance proof.index proof.treeSize
              proof.proof b.commitment.commitment.stateRoot with
          | none => none
          | some true => some (.ok b.report)
          | some false => some (.error .invalidParentProof)

end StrandedClaimBundle

end Cawala
