import Cawala.Library.Framing
import Cawala.Model.Commit
import Cawala.Model.LedgerService
import Cawala.Model.LedgerStore

/-! # The commitment log of a node

The chain of commitments in `commitments.log`, byte by byte. A frame that is cut short is an
error here: a commit is a synced act, so that a partial frame can only mean corruption. -/

namespace Cawala

open Library Library.Framing

variable [Crypto]

/-- The postcard codec of signed commitments, as bytes of a file. -/
class CommitmentCodec where
  toAllocvec : SignedCommitment → Except String (List UInt8)
  fromBytes : List UInt8 → Except String SignedCommitment

/-- Postcard decodes what it encodes. -/
def CommitmentCodec.RoundTrip [CommitmentCodec] : Prop :=
  ∀ s bytes, toAllocvec s = .ok bytes → fromBytes bytes = .ok s

/-- Maximum number of commitments retained. -/
def maxCommitments : ℕ := 4096

/-- Why the commitment log does not open, or refuses a commitment. -/
inductive CommitmentLogError where
  | truncatedPrefix (offset : ℕ)
  | frameTooLong (len : ℕ)
  | truncatedBody (offset : ℕ)
  | invalidFrame (offset : ℕ)
  | tooMany (len : ℕ)
  | invalidChain (e : LedgerError)
  | full
  | unverifiable (e : LedgerError)
  | inconsistentHeight (height entryCount : UInt64)
  | brokenLink (prev expected : Hash)
  | heightNotGreater (height previous : UInt64)
  | encode (detail : String)
  | frameLength (len : ℕ)
deriving DecidableEq

/-- The open log: the bytes on disk, the key and the validated chain. -/
structure CommitmentLog where
  file : List UInt8
  ledgerPubkey : LedgerPubKey
  chain : List SignedCommitment

/-- The hash a commitment names as its predecessor's; `ZERO` anchors the chain. -/
def linkHash : Option Commitment → Hash
  | some c => commitmentHash c
  | none => Crypto.zero

namespace CommitmentLog

def isEmpty (log : CommitmentLog) : Bool := log.chain.isEmpty

def height (log : CommitmentLog) : UInt64 :=
  (log.chain.getLast?.map (·.commitment.height)).getD 0

def lastHash (log : CommitmentLog) : Hash := linkHash (log.chain.getLast?.map (·.commitment))

variable [CommitmentCodec]

/-- Parse every frame, with the chain read so far and its length in bytes. -/
def parseFrames (offset : ℕ) (chain : List SignedCommitment) (data : List UInt8) :
    Except CommitmentLogError (List SignedCommitment) :=
  if data = [] then .ok chain
  else match _h : Framing.next maxEntryFrameSize data with
  | .torn =>
      .error (if data.length < 4 then .truncatedPrefix offset else .truncatedBody (offset + 4))
  | .tooLong len => .error (.frameTooLong len)
  | .frame body rest =>
      match CommitmentCodec.fromBytes body with
      | .error _ => .error (.invalidFrame (offset + 4))
      | .ok signed => parseFrames (offset + 4 + body.length) (chain ++ [signed]) rest
termination_by data.length
decreasing_by exact length_rest_lt _h

/-- Open the log, validating every persisted frame. -/
def open_ (file : List UInt8) (ledgerPubkey : LedgerPubKey) :
    Except CommitmentLogError CommitmentLog := do
  let chain ← parseFrames 0 [] file
  if chain.length > maxCommitments then .error (.tooMany chain.length)
  else match verifyChain chain ledgerPubkey with
  | .error e => .error (.invalidChain e)
  | .ok () => pure { file, ledgerPubkey, chain }

def checkNext (log : CommitmentLog) (signed : SignedCommitment) :
    Except CommitmentLogError Unit :=
  let commitment := signed.commitment
  if log.chain.length ≥ maxCommitments then .error .full
  else match signed.verify log.ledgerPubkey with
  | .error e => .error (.unverifiable e)
  | .ok () =>
      if commitment.height ≠ commitment.entryCount then
        .error (.inconsistentHeight commitment.height commitment.entryCount)
      else if commitment.prevCommitmentHash ≠ log.lastHash then
        .error (.brokenLink commitment.prevCommitmentHash log.lastHash)
      else match log.chain.getLast? with
      | none => .ok ()
      | some last =>
          if commitment.height ≤ last.commitment.height then
            .error (.heightNotGreater commitment.height last.commitment.height)
          else .ok ()

def append (signed : SignedCommitment) : Transaction CommitmentLog CommitmentLogError PUnit := do
  let log ← get
  let _ ← Transaction.ofExcept (log.checkNext signed)
  let frame ← Transaction.ofExcept (match CommitmentCodec.toAllocvec signed with
    | .ok frame => .ok frame
    | .error detail => .error (.encode detail))
  Transaction.refuseIf (maxEntryFrameSize < frame.length) (.frameLength frame.length)
  modify fun log => { log with file := log.file ++ le32 frame.length }
  modify fun log => { log with file := log.file ++ frame }
  modify fun log => { log with chain := log.chain ++ [signed] }

end CommitmentLog

/-! ## Commits of the ledger service -/

/-- Why a commit fails. -/
inductive CommitError where
  | service (e : ServiceError)
  | log (e : CommitmentLogError)
  | ledger (e : LedgerError)
  | notAdvanced (height : UInt64)
deriving DecidableEq

/-- A process at its data directory, the commitment log included. -/
structure CommitDesk where
  desk : Desk
  commitments : List UInt8

variable [Postcard] [CommitmentCodec]

/-- Append one chained commitment at the current ledger head. The caller gets its height and its
hash; here it is returned whole. -/
def commit (env : TxEnv) : Transaction CommitDesk CommitError SignedCommitment := do
  Transaction.zoom (·.desk) (fun desk c => { c with desk })
    (Transaction.mapError .service (beginTransaction env))
  let c ← get
  let service := c.desk.service
  let log ← Transaction.ofExcept
    ((CommitmentLog.open_ c.commitments (Crypto.pubKey service.key)).mapError .log)
  let commitment ← Transaction.ofExcept
    ((buildCommitment service.ledger log.lastHash env.clock).mapError .ledger)
  Transaction.refuseIf (log.isEmpty = false ∧ commitment.height ≤ log.height)
    (.notAdvanced log.height)
  let signed ← Transaction.ofExcept
    ((SignedCommitment.sign commitment service.key).mapError .ledger)
  let (result, after) := (CommitmentLog.append signed).exec log
  modify fun c => { c with commitments := after.file }
  let _ ← Transaction.ofExcept (result.mapError .log)
  pure signed

end Cawala
