import Cawala.Library.Framing
import Cawala.Model.LedgerLog

/-! # The ledger on disk

The frame log of a data directory, byte by byte: opening scans it, drops a torn tail and
replays the rest through `Ledger::append`. -/

namespace Cawala

open Library Library.Framing

variable [Crypto]

/-- The postcard codec of signed entries, as bytes of a file. -/
class FrameCodec where
  toAllocvec : SignedEntry → Except String (List UInt8)
  fromBytes : List UInt8 → Except String SignedEntry

/-- Postcard decodes what it encodes. -/
def FrameCodec.RoundTrip [FrameCodec] : Prop :=
  ∀ s bytes, toAllocvec s = .ok bytes → fromBytes bytes = .ok s

/-- Maximum accepted encoded frame size in bytes. -/
def maxEntryFrameSize : ℕ := 16 * 1024 * 1024

def ledgerFormatVersion : ℕ := 3

/-- Metadata persisted alongside the frame log. -/
structure LedgerMeta where
  formatVersion : ℕ
  nodeId : NodeId
  ledgerId : LedgerPubKey
deriving DecidableEq

/-- Why a ledger does not open. -/
inductive StoreError where
  | unsupportedVersion (version : ℕ)
  | nodeIdMismatch
  | ledgerKeyMismatch
  | frameTooLong (len : ℕ)
  | invalidFrame (offset : ℕ)
  | seqOutOfOrder (expected found : UInt64)
  | prevHashMismatch (expected found : Hash)
  | notHashed (seq : UInt64)
  | missingEntry (index : ℕ)
  | ledger (e : LedgerError)
deriving DecidableEq

/-- The validated prefix of a frame log, plus the byte length of that prefix. `heads[i]` is
the head after `i` entries. -/
structure ParsedFrames where
  entries : List SignedEntry
  heads : List Hash
  completeLen : ℕ

/-- The log of an open ledger: the file, the cached entries and heads, and how many entries
the ledger sees. -/
structure FileLog where
  disk : List UInt8
  entries : List SignedEntry
  heads : List Hash
  cursor : ℕ

variable [Postcard] [FrameCodec]

/-! ## Opening -/

/-- Validate one decoded entry: the next dense `seq`, and a `prev_hash` that matches the
running head. -/
def ParsedFrames.push (parsed : ParsedFrames) (entry : SignedEntry) (size : ℕ) :
    Except StoreError ParsedFrames :=
  let expectedSeq := UInt64.ofNat parsed.entries.length
  let expectedPrev := parsed.heads.getLastD Crypto.zero
  if entry.entry.seq ≠ expectedSeq then .error (.seqOutOfOrder expectedSeq entry.entry.seq)
  else if entry.entry.prevHash ≠ expectedPrev then
    .error (.prevHashMismatch expectedPrev entry.entry.prevHash)
  else match entryHash entry.entry with
  | .error _ => .error (.notHashed expectedSeq)
  | .ok head =>
      .ok { entries := parsed.entries ++ [entry], heads := parsed.heads ++ [head]
            completeLen := parsed.completeLen + size }

/-- Parse and validate the complete frames in `data`. A frame that runs past the end of the
file is a torn append and ends the scan; everything else that is wrong is an error. -/
def parseFrames (parsed : ParsedFrames) (data : List UInt8) : Except StoreError ParsedFrames :=
  if data = [] then .ok parsed
  else match _h : Framing.next maxEntryFrameSize data with
  | .torn => .ok parsed
  | .tooLong len => .error (.frameTooLong len)
  | .frame body rest =>
      match FrameCodec.fromBytes body with
      | .error _ => .error (.invalidFrame (parsed.completeLen + 4))
      | .ok entry =>
          match parsed.push entry (4 + body.length) with
          | .error e => .error e
          | .ok parsed => parseFrames parsed rest
termination_by data.length
decreasing_by exact length_rest_lt _h

/-- Open a frame log, cutting off a torn tail. -/
def FileLog.openWith (disk : List UInt8) (replay : Bool) : Except StoreError FileLog := do
  let parsed ← parseFrames { entries := [], heads := [Crypto.zero], completeLen := 0 } disk
  pure
    { disk := if parsed.completeLen < disk.length then disk.take parsed.completeLen else disk
      entries := parsed.entries
      heads := parsed.heads
      cursor := if replay then 0 else parsed.entries.length }

/-! ## The log -/

/-- Advance over a persisted entry: nothing is written. -/
def FileLog.replayEntry (entry : SignedEntry) : Transaction FileLog LedgerError PUnit := do
  let log ← get
  Transaction.refuseIf (entry.entry.seq.toNat ≠ log.cursor)
    (.seqOutOfOrder (UInt64.ofNat log.cursor) entry.entry.seq)
  let actual ← Transaction.ofExcept (entryHash entry.entry)
  Transaction.refuseIf (actual ≠ log.heads.getD (log.cursor + 1) Crypto.zero)
    (.encode s!"replayed entry {entry.entry.seq} does not match the persisted log")
  set { log with cursor := log.cursor + 1 }

def FileLog.writeEntry (entry : SignedEntry) : Transaction FileLog LedgerError PUnit := do
  let log ← get
  Transaction.refuseIf (entry.entry.seq.toNat ≠ log.entries.length)
    (.seqOutOfOrder (UInt64.ofNat log.entries.length) entry.entry.seq)
  let frame ← Transaction.ofExcept (match FrameCodec.toAllocvec entry with
    | .ok frame => .ok frame
    | .error detail => .error (.encode detail))
  Transaction.refuseIf (maxEntryFrameSize < frame.length)
    (.encode s!"frame length {frame.length} exceeds max {maxEntryFrameSize}")
  modify fun log => { log with disk := log.disk ++ le32 frame.length }
  modify fun log => { log with disk := log.disk ++ frame }
  let head ← Transaction.ofExcept (entryHash entry.entry)
  modify fun log =>
    { log with
      entries := log.entries ++ [entry], heads := log.heads ++ [head]
      cursor := log.entries.length + 1 }

instance : LedgerLog FileLog where
  append entry := do
    let log ← get
    if log.cursor < log.entries.length then FileLog.replayEntry entry
    else FileLog.writeEntry entry
  len log := log.cursor
  get log index := .ok log.entries[index]?
  headHash log := log.heads.getD log.cursor Crypto.zero

/-! ## A device that fails -/

/-- What the device does during one append: how many bytes it still takes (`none`: all of them),
whether the flush and the sync after them succeed, and the text of its error. -/
structure Device where
  room : Option ℕ
  synced : Bool
  failure : String

/-- The device after it took `n` bytes. -/
def Device.after (device : Device) (n : ℕ) : Device :=
  { device with room := device.room.map (· - n) }

/-- The device takes `n` more bytes. -/
def Device.takes (device : Device) (n : ℕ) : Bool := device.room.all (n ≤ ·)

def Device.ioErr (device : Device) : LedgerError :=
  .encode s!"ledger log i/o error: {device.failure}"

def FileLog.writeAll (bytes : List UInt8) (device : Device) :
    Transaction FileLog LedgerError Device := do
  let written := if device.takes bytes.length then bytes else bytes.take (device.room.getD 0)
  modify fun log => { log with disk := log.disk ++ written }
  Transaction.refuseIf (device.takes bytes.length = false) device.ioErr
  pure (device.after bytes.length)

/-- Write the frame of a new entry to the device. What was written before an error stays. -/
def FileLog.writeEntryOn (device : Device) (entry : SignedEntry) :
    Transaction FileLog LedgerError PUnit := do
  let log ← get
  Transaction.refuseIf (entry.entry.seq.toNat ≠ log.entries.length)
    (.seqOutOfOrder (UInt64.ofNat log.entries.length) entry.entry.seq)
  let frame ← Transaction.ofExcept (match FrameCodec.toAllocvec entry with
    | .ok frame => .ok frame
    | .error detail => .error (.encode detail))
  Transaction.refuseIf (maxEntryFrameSize < frame.length)
    (.encode s!"frame length {frame.length} exceeds max {maxEntryFrameSize}")
  let device ← FileLog.writeAll (le32 frame.length) device
  let device ← FileLog.writeAll frame device
  Transaction.refuseIf (device.synced = false) device.ioErr
  let head ← Transaction.ofExcept (entryHash entry.entry)
  modify fun log =>
    { log with
      entries := log.entries ++ [entry], heads := log.heads ++ [head]
      cursor := log.entries.length + 1 }

/-- Append on a device: a persisted entry is replayed, a new one written. -/
def FileLog.appendOn (device : Device) (entry : SignedEntry) :
    Transaction FileLog LedgerError PUnit := do
  let log ← get
  if log.cursor < log.entries.length then FileLog.replayEntry entry
  else FileLog.writeEntryOn device entry

/-! ## The ledger -/

def loadOrCreateMeta (persisted : Option LedgerMeta) (nodeId : NodeId)
    (ledgerId : LedgerPubKey) : Except StoreError LedgerMeta :=
  match persisted with
  | some found =>
      if found.formatVersion ≠ ledgerFormatVersion then
        .error (.unsupportedVersion found.formatVersion)
      else .ok found
  | none => .ok { formatVersion := ledgerFormatVersion, nodeId, ledgerId }

/-- One step of the replay of `open_ledger`. -/
def replayIndex (l : LedgerOver FileLog) (index : ℕ) :
    Except StoreError (LedgerOver FileLog) :=
  match LedgerLog.get l.log index with
  | .error e => .error (.ledger e)
  | .ok none => .error (.missingEntry index)
  | .ok (some entry) =>
      match (LedgerOver.append entry).exec l with
      | (.ok _, next) => .ok next
      | (.error e, _) => .error (.ledger e)

/-- Open the on-disk ledger, re-deriving balances from the signed history. -/
def openStore (persisted : Option LedgerMeta) (disk : List UInt8) (nodeId : NodeId)
    (key : LedgerSecretKey) : Except StoreError (LedgerMeta × LedgerOver FileLog) := do
  let found ← loadOrCreateMeta persisted nodeId (Crypto.pubKey key)
  if found.nodeId ≠ nodeId then .error .nodeIdMismatch
  else if found.ledgerId ≠ Crypto.pubKey key then .error .ledgerKeyMismatch
  else do
    let log ← FileLog.openWith disk true
    let ledger ← (List.range log.entries.length).foldlM replayIndex
      (.newWithLog (Crypto.pubKey key) log)
    pure (found, ledger)

end Cawala
