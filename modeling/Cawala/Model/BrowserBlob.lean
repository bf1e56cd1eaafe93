import Cawala.Model.BrowserClient
import Cawala.Model.Concrete

/-! # The stored ledger state of a browser

The versioned blob in which a browser keeps its ledger state, and a browser that is reloaded
from the blob it exported. -/

namespace Cawala

section

variable [Crypto]

def ledgerStateVersion : UInt8 := 5

structure StoredLedgerState where
  version : UInt8
  state : LedgerStateV1
deriving DecidableEq

/-- The postcard serializer, as far as it is applied to stored ledger states. -/
class StatePostcard where
  /-- `postcard::to_allocvec`. -/
  toAllocvec : StoredLedgerState → List UInt8
  /-- `postcard::take_from_bytes`; the error is the text of the codec's own error. -/
  takeFromBytes : List UInt8 → Except String (StoredLedgerState × List UInt8)

def StatePostcard.Decodes [StatePostcard] (stored : StoredLedgerState) : Prop :=
  takeFromBytes (toAllocvec stored) = .ok (stored, [])

namespace LedgerStateV1

variable [StatePostcard]

def stored (s : LedgerStateV1) : StoredLedgerState where
  version := ledgerStateVersion
  state := s

def toBytes (s : LedgerStateV1) : List UInt8 := StatePostcard.toAllocvec s.stored

/-- Decode postcard bytes, rejecting an unsupported version, trailing bytes, or a list that
exceeds its bound. -/
def fromBytes (bytes : List UInt8) : Except String LedgerStateV1 :=
  match StatePostcard.takeFromBytes bytes with
  | .error err => .error s!"invalid ledger state: {err}"
  | .ok ({ version, state }, rest) =>
      if rest ≠ [] then .error s!"{rest.length} trailing byte(s) after ledger state"
      else if version ≠ ledgerStateVersion then
        .error s!"unsupported ledger state version {version} (expected {ledgerStateVersion})"
      else if state.pending.length > maxPendingOrders then
        .error s!"ledger state has {state.pending.length} pending orders (max {maxPendingOrders})"
      else if state.activity.length > maxActivityEntries then
        .error
          s!"ledger state has {state.activity.length} activity entries (max {maxActivityEntries})"
      else if state.settlements.length > maxSettlementRecords then
        .error
          (s!"ledger state has {state.settlements.length} settlement records "
            ++ s!"(max {maxSettlementRecords})")
      else if state.pinnedLeafKeys.length > maxPinnedLeafKeys then
        .error
          (s!"ledger state has {state.pinnedLeafKeys.length} pinned leaf keys "
            ++ s!"(max {maxPinnedLeafKeys})")
      else if state.leafKeyChanges.length > maxLeafKeyChanges then
        .error
          (s!"ledger state has {state.leafKeyChanges.length} leaf key changes "
            ++ s!"(max {maxLeafKeyChanges})")
      else .ok state

/-- Restore the state of a fresh client from a blob; a blob that is refused leaves it fresh. -/
def restore (bytes : List UInt8) : LedgerStateV1 :=
  match fromBytes bytes with
  | .error _ => .new
  | .ok state => state

end LedgerStateV1

/-- What happens to the ledger state of a browser: a call, or a reload from its own blob. -/
inductive BrowserStep where
  | call (c : ClientCall)
  | reload

variable [Postcard] [StatePostcard]

/-- The state a step leaves; `none` when its call does not return. -/
def BrowserStep.perform (target : Target) (s : LedgerStateV1) : BrowserStep → Option LedgerStateV1
  | .call c =>
      match c.perform target s with
      | none => none
      | some (_, after) => some after
  | .reload => some (.restore s.toBytes)

/-- The states of a browser along its steps, the first one included. -/
def browserStates (target : Target) :
    LedgerStateV1 → List BrowserStep → Option (List LedgerStateV1)
  | s, [] => some [s]
  | s, step :: steps =>
      match step.perform target s with
      | none => none
      | some after => (browserStates target after steps).map (s :: ·)

end

/-! ## A concrete layout -/

namespace Concrete

def keyBytes (key : ℕ) : List UInt8 :=
  (List.range 32).map fun index => UInt8.ofNat (key / 256 ^ index)

def keyOfBytes (bytes : List UInt8) : ℕ :=
  bytes.foldr (fun byte key => byte.toNat + 256 * key) 0

/-- The postcard layout of a state whose balance and lists are empty. -/
def emptyStateBytes (stored : StoredLedgerState) : List UInt8 :=
  let pin : List UInt8 := match stored.state.pinnedLedger with
    | none => [0]
    | some key => 1 :: keyBytes key
  let trust : UInt8 := match stored.state.pinnedLedgerTrust with
    | .unconfirmed => 0
    | .confirmed => 1
  stored.version :: (pin ++ [trust, 0, 0, 0, 0, 0, 0])

def readEmptyState (version : UInt8) (pin : Option ℕ) :
    List UInt8 → Except String (StoredLedgerState × List UInt8)
  | trust :: 0 :: 0 :: 0 :: 0 :: 0 :: 0 :: rest =>
      .ok ({ version
             state :=
               { LedgerStateV1.new with
                 pinnedLedger := pin
                 pinnedLedgerTrust := if trust = 0 then .unconfirmed else .confirmed } }, rest)
  | _ => .error "Hit the end of buffer, expected more data"

/-- The serializer of such states. -/
scoped instance statePostcard : StatePostcard where
  toAllocvec := emptyStateBytes
  takeFromBytes
    | version :: 0 :: rest => readEmptyState version none rest
    | version :: 1 :: rest =>
        readEmptyState version (some (keyOfBytes (rest.take 32))) (rest.drop 32)
    | _ => .error "Hit the end of buffer, expected more data"

end Concrete

end Cawala
