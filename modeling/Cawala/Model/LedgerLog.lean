import Cawala.Library.Transaction
import Cawala.Model.Ledger

/-! # The ledger over a log backend

`LedgerLog` is the interface of a log, and `append` runs over any of them, statement by
statement: what a failing backend has done so far stays done. -/

namespace Cawala

open Library

variable [Crypto]

/-- An append-only, hash-chained sequence of signed entries. -/
class LedgerLog (L : Type) where
  append : SignedEntry → Transaction L LedgerError PUnit
  len : L → ℕ
  get : L → ℕ → Except LedgerError (Option SignedEntry)
  headHash : L → Hash

structure LedgerOver (L : Type) where
  ledgerId : LedgerId
  ledgerPubkey : LedgerPubKey
  balances : Balances
  log : L
  height : UInt64

namespace LedgerOver

variable {L : Type}

/-- A ledger with no entries accepted yet; the log is adopted as it is. -/
def newWithLog (ledgerPubkey : LedgerPubKey) (log : L) : LedgerOver L where
  ledgerId := ledgerPubkey
  ledgerPubkey
  balances := .newNonRoot
  log
  height := 0

variable [Postcard] [LedgerLog L]

/-- The checks of `append` that precede conservation. -/
def checkHeader (l : LedgerOver L) (signed : SignedEntry) : Except LedgerError Unit :=
  let entry := signed.entry
  if entry.ledgerId ≠ l.ledgerId then .error .ledgerMismatch
  else match entry.body with
  | .rotateLedgerKey .. => .error .unsupported
  | _ => do
    let bytes ← entry.canonicalBytes
    if !Crypto.verify l.ledgerPubkey bytes signed.signature then .error .invalidSignature
    else if entry.seq ≠ UInt64.ofNat (LedgerLog.len l.log) then
      .error (.seqOutOfOrder (UInt64.ofNat (LedgerLog.len l.log)) entry.seq)
    else if entry.height ≠ entry.seq then
      .error (.invalidHeight entry.seq entry.height)
    else if entry.prevHash ≠ LedgerLog.headHash l.log then
      .error (.prevHashMismatch (LedgerLog.headHash l.log) entry.prevHash)
    else .ok ()

/-- Validate and append a signed entry, in place. -/
def append (signed : SignedEntry) : Transaction (LedgerOver L) LedgerError PUnit := do
  let l ← get
  let _ ← Transaction.ofExcept (l.checkHeader signed)
  let _ ← Transaction.ofExcept signed.entry.checkConservation
  let nextBalances ← Transaction.ofExcept (l.balances.applyEntry signed.entry)
  Transaction.zoom (·.log) (fun log l => { l with log }) (LedgerLog.append signed)
  modify fun l => { l with balances := nextBalances, height := signed.entry.height }

/-- The ledger after append attempts, accepted and rejected in any mix. -/
def run (l : LedgerOver L) (attempts : List SignedEntry) : LedgerOver L :=
  attempts.foldl (fun l signed => ((append signed).exec l).2) l

end LedgerOver

/-! ## The in-memory log -/

variable [Postcard]

/-- `MemLog` hashes the entry before it pushes it. -/
instance : LedgerLog MemLog where
  append entry := do
    let head ← Transaction.ofExcept (entryHash entry.entry)
    modify fun log => { log with entries := log.entries ++ [entry] }
    modify fun log => { log with head }
  len log := log.entries.length
  get log index := .ok log.entries[index]?
  headHash log := log.head

/-- A fresh ledger over an in-memory log. -/
def LedgerOver.new (ledgerPubkey : LedgerPubKey) : LedgerOver MemLog :=
  .newWithLog ledgerPubkey .new

end Cawala
