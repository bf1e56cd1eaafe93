import Cawala.Library.Transaction
import Cawala.Model.Crypto

/-! # Accounts, postings and balances

The no-equity model of a single node: one universal `Parent` asset account and one
liability account per child. A `BTreeMap` is an extensional tree map, so iteration is
in key order; `i128` arithmetic is on integers with its bounds made explicit. -/

namespace Cawala

open Std (ExtTreeMap)
open Library

abbrev Amount : Type := UInt64

/-- `SignedAmount`, an `i64`. -/
abbrev SignedAmount : Type := Int64

/-- A network node identifier, an opaque string. -/
abbrev NodeId : Type := String

/-- Which account of the local node a posting touches. -/
inductive AccountRef where
  | parent
  | child (id : NodeId)
deriving Repr

namespace AccountRef

/-- The sort key of the derived order: `Parent` first, then children by id. -/
def sortKey : AccountRef → WithBot NodeId
  | .parent => ⊥
  | .child id => id

theorem sortKey_injective : Function.Injective sortKey := by
  intro a b h
  cases a <;> cases b <;> simp_all [sortKey]

instance : LinearOrder AccountRef := LinearOrder.lift' sortKey sortKey_injective

instance transOrd : Std.TransOrd AccountRef := inferInstance

end AccountRef

/-- One signed balance movement against an account. -/
structure Posting where
  account : AccountRef
  delta : SignedAmount
deriving DecidableEq, Repr

/-- What a record or an account stands for: another network node, or a user. -/
inductive ChildKind where
  | node
  | user
deriving DecidableEq, Repr

variable [Crypto]

/-- The failure modes of the ledger crate. -/
inductive LedgerError where
  | overflow
  | conservationViolation
  | insufficientBalance
  | encode (detail : String)
  | invalidSignature
  | invalidKey
  | invalidEntryShape
  | missingAuthorization
  | unsupported
  | invalidHeight (expected found : UInt64)
  | ledgerMismatch
  | seqOutOfOrder (expected found : UInt64)
  | prevHashMismatch (expected found : Hash)
  | accountExists
  | duplicatePeer
  | unauthorized
  | orderMismatch
  | orderExpired
  | indexOutOfRange
  | missingEntry (index : ℕ)
  | duplicateKey
  | accountNotOpened (account : AccountRef)
  | stateRootMismatch
  | invalidProof
  | unsupportedEndpoint
  | missingLedger (node : NodeId)
  | invalidPeerKeys
deriving DecidableEq

def LedgerError.message : LedgerError → String
  | .overflow => "arithmetic overflow"
  | .conservationViolation => "value conservation violated"
  | .insufficientBalance => "insufficient balance"
  | .encode detail => "entry encoding failed: " ++ detail
  | .invalidSignature => "invalid signature"
  | .invalidKey => "invalid key"
  | .invalidEntryShape => "invalid entry shape"
  | .missingAuthorization => "missing operator authorization"
  | .unsupported => "unsupported entry"
  | .invalidHeight expected found =>
      "invalid height: expected " ++ toString expected ++ ", found " ++ toString found
  | .ledgerMismatch => "entry ledger id does not match this ledger"
  | .seqOutOfOrder expected found =>
      "entry sequence out of order: expected " ++ toString expected ++ ", found "
        ++ toString found
  | .prevHashMismatch expected found =>
      "previous hash mismatch: expected " ++ Crypto.toHex expected ++ ", found "
        ++ Crypto.toHex found
  | .accountExists => "account already exists"
  | .duplicatePeer => "duplicate peer"
  | .unauthorized => "unauthorized operator"
  | .orderMismatch => "order does not match authorization"
  | .orderExpired => "order expired"
  | .indexOutOfRange => "index out of range"
  | .missingEntry index => "log entry missing at index " ++ toString index
  | .duplicateKey => "duplicate key"
  | .accountNotOpened _ => "account not opened"
  | .stateRootMismatch => "state root mismatch"
  | .invalidProof => "invalid inclusion proof"
  | .unsupportedEndpoint => "unsupported settlement endpoint"
  | .missingLedger _ => "missing ledger or signing key for node"
  | .invalidPeerKeys => "invalid peer keys for role"

/-! ## `i128` arithmetic -/

def i128Min : ℤ := -2 ^ 127

def i128Max : ℤ := 2 ^ 127 - 1

/-- The value lies in the range of `i128`. -/
def fitsI128 (x : ℤ) : Bool := decide (i128Min ≤ x ∧ x ≤ i128Max)

/-- `i128::checked_add`, with the error every caller maps a miss to. -/
def checkedAddI128 (a b : ℤ) : Except LedgerError ℤ :=
  if fitsI128 (a + b) then .ok (a + b) else .error .overflow

/-- Plain `i128` arithmetic: two's complement wrap-around. -/
def wrapI128 (x : ℤ) : ℤ := x.bmod (2 ^ 128)

def saturatingAddI128 (a b : ℤ) : ℤ := max i128Min (min i128Max (a + b))

def saturatingAbsI128 (a : ℤ) : ℤ := min i128Max |a|

def saturatingNegI128 (a : ℤ) : ℤ := max i128Min (min i128Max (-a))

/-! ## Aggregated deltas -/

/-- Per-account deltas of one posting set. -/
abbrev Deltas : Type := ExtTreeMap AccountRef ℤ

/-- Aggregate posting deltas per account with checked arithmetic. -/
def aggregateDeltas (postings : List Posting) : Except LedgerError Deltas :=
  postings.foldlM (fun deltas posting => do
    let slot ← checkedAddI128 (deltas.getD posting.account 0) posting.delta.toInt
    pure (deltas.insert posting.account slot)) ∅

/-- Sum aggregated deltas by account class: parent, then children. -/
def classSums (deltas : Deltas) : Except LedgerError (ℤ × ℤ) :=
  deltas.toList.foldlM (fun (parent, child) (account, delta) =>
    match account with
    | .parent => do pure (← checkedAddI128 parent delta, child)
    | .child _ => do pure (parent, ← checkedAddI128 child delta)) (0, 0)

/-- Check the balanced rule `parent - child = 0`. -/
def postingsConserve (parent child : ℤ) : Except LedgerError Unit :=
  if fitsI128 (parent - child) then
    if parent - child = 0 then .ok () else .error .conservationViolation
  else .error .overflow

/-- The per-entry posting rule, a pure function of the entry body. -/
inductive PostingRule where
  | balanced
  | boundary
  | boundaryParent
deriving DecidableEq, Repr

/-- Enforce the shared per-entry posting rule against aggregated deltas. -/
def checkPostingRule (deltas : Deltas) : PostingRule → Except LedgerError Unit
  | .balanced => do
      let (parent, child) ← classSums deltas
      postingsConserve parent child
  | .boundary =>
      if deltas.size ≠ 1 then .error .invalidEntryShape
      else match deltas.toList.head? with
        | some (.child _, delta) => if delta ≠ 0 then .ok () else .error .invalidEntryShape
        | _ => .error .invalidEntryShape
  | .boundaryParent =>
      if deltas.size ≠ 1 then .error .invalidEntryShape
      else match deltas.toList.head? with
        | some (.parent, delta) => if delta ≠ 0 then .ok () else .error .invalidEntryShape
        | _ => .error .invalidEntryShape

/-- Apply an aggregated signed delta to an unsigned balance. -/
def applyDelta (current : Amount) (delta : ℤ) : Except LedgerError Amount :=
  let value := wrapI128 (current.toNat + delta)
  if value < 0 then .error .insufficientBalance
  else if value > 2 ^ 64 - 1 then .error .overflow
  else .ok (UInt64.ofNat value.toNat)

/-! ## Balances -/

/-- The balances of a single node. The source stores the parent balance as an
`Option` that both constructors set to `Some` and nothing ever clears. -/
structure Balances where
  parent : Amount
  children : ExtTreeMap NodeId Amount

namespace Balances

/-- Empty balances: a zeroed parent account and no children. -/
def newNonRoot : Balances where
  parent := 0
  children := ∅

def parentBalance (b : Balances) : Amount := b.parent

/-- The liability balance held for a child, zero when absent. -/
def childBalance (b : Balances) (child : NodeId) : Amount :=
  b.children.getD child 0

/-- The derived equity: parent minus the sum of all children. -/
def equity (b : Balances) : ℤ :=
  let child : ℤ := b.children.toList.foldl (fun acc entry => acc + entry.2.toNat) 0
  b.parent.toNat - child

/-- Materialize a zeroed liability account for a child. -/
def openAccount (b : Balances) (child : NodeId) : Except LedgerError Balances :=
  if b.children.contains child then .error .accountExists
  else .ok { b with children := b.children.insert child 0 }

def balance (b : Balances) : AccountRef → ℤ
  | .parent => b.parent.toNat
  | .child id => (b.childBalance id).toNat

/-- Every account and its balance: the parent, then the children in id order. -/
def accounts (b : Balances) : List (AccountRef × ℤ) :=
  (.parent, (b.parent.toNat : ℤ)) ::
    b.children.toList.map (fun entry => (.child entry.1, (entry.2.toNat : ℤ)))

def applyAccountDelta (next : Balances) : AccountRef × ℤ → Except LedgerError Balances
  | (.parent, delta) => do
      pure { next with parent := ← applyDelta next.parent delta }
  | (.child id, delta) =>
      match next.children[id]? with
      | none => .error (.accountNotOpened (.child id))
      | some current => do
          let updated ← applyDelta current delta
          pure { next with children := next.children.insert id updated }

/-- Apply aggregated deltas to a copy, committing only on full success. -/
def applyDeltas (b : Balances) (deltas : Deltas) : Except LedgerError Balances :=
  deltas.toList.foldlM applyAccountDelta b

/-- `apply`, `apply_boundary` and `apply_parent_boundary` differ in the rule only. -/
def applyWith (b : Balances) (rule : PostingRule) (postings : List Posting) :
    Except LedgerError Balances := do
  let deltas ← aggregateDeltas postings
  checkPostingRule deltas rule
  b.applyDeltas deltas

/-- Apply a balanced posting set (`Transfer`, `OpenAccount`). -/
def apply (b : Balances) (postings : List Posting) : Except LedgerError Balances :=
  b.applyWith .balanced postings

/-- Apply a boundary posting set (`Issue`, `Burn`). -/
def applyBoundary (b : Balances) (postings : List Posting) : Except LedgerError Balances :=
  b.applyWith .boundary postings

/-- Apply a boundary parent posting set (`EdgeClose`). -/
def applyParentBoundary (b : Balances) (postings : List Posting) :
    Except LedgerError Balances :=
  b.applyWith .boundaryParent postings

/-! ### In place

The same operations on balances that are changed in place, as the source has them. -/

/-- `apply_deltas`: the balances are replaced by the copy once it is complete. -/
def commitDeltas (deltas : Deltas) : Transaction Balances LedgerError PUnit := do
  let current ← get
  let next ← Transaction.ofExcept (current.applyDeltas deltas)
  set next

/-- The common body of `apply`, `apply_boundary` and `apply_parent_boundary`. -/
def commitWith (rule : PostingRule) (postings : List Posting) :
    Transaction Balances LedgerError PUnit := do
  let deltas ← Transaction.ofExcept (aggregateDeltas postings)
  let _ ← Transaction.ofExcept (checkPostingRule deltas rule)
  commitDeltas deltas

end Balances

end Cawala
