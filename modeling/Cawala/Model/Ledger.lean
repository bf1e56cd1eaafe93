import Cawala.Model.Entry

/-! # The append-only ledger

`MemLog` and the `Ledger` state machine over it. -/

namespace Cawala

variable [Crypto]

/-- An in-memory log that caches the rolling head hash. -/
structure MemLog where
  entries : List SignedEntry
  head : Hash

def MemLog.new : MemLog where
  entries := []
  head := Crypto.zero

/-- A single node's ledger: its identity, balances and append-only log. -/
structure Ledger where
  ledgerId : LedgerId
  ledgerPubkey : LedgerPubKey
  balances : Balances
  log : MemLog
  height : UInt64

namespace Ledger

/-- A fresh ledger. Rootness is not a ledger property, so the two constructors of the
source coincide. -/
def new (ledgerPubkey : LedgerPubKey) : Ledger where
  ledgerId := ledgerPubkey
  ledgerPubkey
  balances := .newNonRoot
  log := .new
  height := 0

def len (l : Ledger) : ℕ := l.log.entries.length

def get? (l : Ledger) (index : ℕ) : Option SignedEntry := l.log.entries[index]?

/-- Hash of the last accepted entry. -/
def headHash (l : Ledger) : Hash := l.log.head

end Ledger

/-- Opening an account materializes its zero balance ahead of the postings. -/
def Balances.openDeclared (b : Balances) : EntryBody → Except LedgerError Balances
  | .openAccount child _ => b.openAccount child
  | _ => .ok b

/-- The balances after an entry's body and postings take effect. -/
def Balances.applyEntry (b : Balances) (e : Entry) : Except LedgerError Balances := do
  let next ← b.openDeclared e.body
  match e.body.postingRule with
  | .balanced => next.apply e.postings
  | .boundary => next.applyBoundary e.postings
  | .boundaryParent => next.applyParentBoundary e.postings

variable [Postcard]

/-- Append an already-validated entry, updating the cached head hash. -/
def MemLog.append (log : MemLog) (entry : SignedEntry) : Except LedgerError MemLog := do
  let head ← entryHash entry.entry
  pure { entries := log.entries ++ [entry], head }

namespace Ledger

/-- The checks of `append` that precede conservation: ledger id, supported body,
signature, dense sequence, height, and the link to the current head. -/
def checkHeader (l : Ledger) (signed : SignedEntry) : Except LedgerError Unit :=
  let entry := signed.entry
  if entry.ledgerId ≠ l.ledgerId then .error .ledgerMismatch
  else match entry.body with
  | .rotateLedgerKey .. => .error .unsupported
  | _ => do
    let bytes ← entry.canonicalBytes
    if !Crypto.verify l.ledgerPubkey bytes signed.signature then .error .invalidSignature
    else if entry.seq ≠ UInt64.ofNat l.len then
      .error (.seqOutOfOrder (UInt64.ofNat l.len) entry.seq)
    else if entry.height ≠ entry.seq then
      .error (.invalidHeight entry.seq entry.height)
    else if entry.prevHash ≠ l.headHash then
      .error (.prevHashMismatch l.headHash entry.prevHash)
    else .ok ()

/-- Validate and append a signed entry. On any failure nothing changes: the caller
keeps the ledger it passed in. -/
def append (l : Ledger) (signed : SignedEntry) : Except LedgerError Ledger := do
  l.checkHeader signed
  signed.entry.checkConservation
  let nextBalances ← l.balances.applyEntry signed.entry
  let log ← l.log.append signed
  pure { l with balances := nextBalances, log, height := signed.entry.height }

/-- The ledger after an append attempt: a rejected entry leaves it unchanged. -/
def appendOrKeep (l : Ledger) (signed : SignedEntry) : Ledger :=
  match l.append signed with
  | .ok next => next
  | .error _ => l

/-- A run of append attempts, accepted and rejected in any mix. -/
def run (l : Ledger) (attempts : List SignedEntry) : Ledger :=
  attempts.foldl appendOrKeep l

end Ledger

end Cawala
