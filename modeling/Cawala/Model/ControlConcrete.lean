import Cawala.Model.Concrete
import Cawala.Model.ControlEngine

/-! # A concrete choice of control primitives

The postcard layout of the signing preimage of control requests, and Ethereum signatures that
name the digest and the key. -/

namespace Cawala.Concrete

/-! ## The postcard layout of requests -/

def option {α : Type} (f : α → Bytes) : Option α → Bytes
  | none => varint 0
  | some a => varint 1 ++ f a

def octAddr (a : OctAddr) : Bytes := string a.display

def joinRequest (r : JoinRequest) : Bytes :=
  string r.node ++ kind r.kind ++ [.key r.operator] ++ option (fun k => [.key k]) r.ledger
    ++ option (fun s => [.byte s]) r.desiredSlot ++ option string r.locationHint
    ++ varint r.nonce.toNat ++ varint r.expiry.toNat

def joinApproval (a : JoinApproval) : Bytes :=
  string a.child ++ [.key a.childOperator] ++ option (fun k => [.key k]) a.childLedger
    ++ kind a.kind ++ [.byte a.slot] ++ octAddr a.address ++ varint a.dateJoined.toNat
    ++ varint a.nonce.toNat ++ [.key a.parentLedger]

def createChild (c : CreateChild) : Bytes :=
  string c.child ++ [.key c.operator] ++ option (fun k => [.key k]) c.ledger ++ kind c.kind
    ++ option (fun s => [.byte s]) c.slot ++ varint c.dateJoined.toNat

def adminValueRequest (r : AdminValueRequest) : Bytes :=
  r.requestId.toList.map .byte ++ string r.account ++ varint r.amount.toNat ++ string r.reason

def registerEthAddress (r : RegisterEthAddress) : Bytes :=
  r.address.toList.map .byte ++ varint 65 ++ r.proof.signature.toList.map .byte
    ++ option (fun a => a.toList.map .byte) r.proof.oldAddress

def controlRequest : ControlRequest → Bytes
  | .join r => varint 0 ++ joinRequest r
  | .joinApproved a => varint 1 ++ joinApproval a
  | .joinRejected r => varint 2 ++ string r.child ++ string r.reason ++ varint r.nonce.toNat
  | .createChild c => varint 3 ++ createChild c
  | .detachChild child => varint 4 ++ string child
  | .moveChild m =>
      varint 5 ++ string m.child ++ string m.newParent ++ option (fun s => [.byte s]) m.slot
  | .setAddress a => varint 6 ++ option octAddr a
  | .query => varint 7
  | .adminQuery => varint 8
  | .adminApproveJoin a => varint 9 ++ string a.child ++ option (fun s => [.byte s]) a.slot
  | .adminRejectJoin r => varint 10 ++ string r.child ++ option string r.reason
  | .adminRedeliverJoin child => varint 11 ++ string child
  | .exit e => varint 12 ++ string e.node ++ varint e.subtreeNodes.toNat
  | .detachNotice node => varint 13 ++ string node
  | .rebase n =>
      varint 14 ++ string n.node ++ octAddr n.parentAddress ++ octAddr n.address
        ++ varint n.generation.toNat
  | .rebasePull node => varint 15 ++ string node
  | .adminLedgerQuery => varint 16
  | .adminDetachChild child => varint 17 ++ string child
  | .adminMoveChild m => varint 18 ++ string m.child ++ option (fun s => [.byte s]) m.slot
  | .adminIssue r => varint 19 ++ adminValueRequest r
  | .adminBurn r => varint 20 ++ adminValueRequest r
  | .adminDesignate child => varint 21 ++ string child
  | .adminRevoke child => varint 22 ++ string child
  | .capabilities version => varint 23 ++ varint version.toNat
  | .registerEthAddress r => varint 24 ++ registerEthAddress r

scoped instance controlPostcard : ControlPostcard where
  preimage version origin controller nonce expiry request :=
    [.byte version] ++ string origin ++ [.key controller] ++ varint nonce.toNat
      ++ varint expiry.toNat ++ controlRequest request

scoped instance zeroKey : ZeroKey where
  isZero key := Nat.beq key 0

/-! ## Ethereum signatures -/

/-- The low bytes of a number, the lowest first. -/
def lowBytes : ℕ → ℕ → List UInt8
  | 0, _ => []
  | k + 1, n => UInt8.ofNat n :: lowBytes k (n / 256)

theorem length_lowBytes (k n : ℕ) : (lowBytes k n).length = k := by
  induction k generalizing n with
  | zero => rfl
  | succ k ih => rw [lowBytes, List.length_cons, ih]

/-- A digest of 32 bytes that tells short texts apart. -/
def keccak (bytes : List UInt8) : Vector UInt8 32 :=
  ⟨(lowBytes 32 (bytes.foldl (fun n b => (n * 257 + b.toNat + 1) % (2 ^ 256 - 189)) 1)).toArray,
    length_lowBytes 32 _⟩

def ethPublicKey (key : UInt8) : Vector UInt8 65 :=
  ⟨(4 :: key :: List.replicate 63 0).toArray, rfl⟩

/-- The signature of a key on a digest: the digest, and the key as the last byte of `s`. -/
def ethSign (key : UInt8) (digest : Vector UInt8 32) : Vector UInt8 65 :=
  ⟨(digest.toList ++ (List.replicate 31 0 ++ [key, 0])).toArray, by simp⟩

scoped instance ethPrimitives : EthPrimitives where
  keccak256 := keccak
  wellFormed _ := true
  recoverFromPrehash digest rs _ :=
    if rs.toList.take 32 = digest.toList then some (ethPublicKey rs[63]) else none

/-! ## A small node

The node `n` at the root, with operator key 1 and ledger key 9, on a disk that never fails. -/

def reads : ReloadIo where
  recordReads := true
  peersReads := true
  adminReads := true
  pruneSaves := true

def opens : OpenIo where
  recordReads := true
  peersReads := true
  pendingReads := true
  adminReads := true
  seenReads := true

def io : Io where
  routedReload := reads
  reload := reads
  seenSaves := true
  recordSaves := true
  peersSaves := true
  pendingSaves := true
  outboundSaves := true
  adminSaves := true
  ledgerKey := some (9 : ℕ)

def row (node : NodeId) (role : PeerRole) (operator : ℕ) : PeerKeys where
  nodeId := node
  operator
  ledger := if role = .node then some (operator + 10 : ℕ) else none
  role

def registry (rows : List PeerKeys) : PeerRegistry where
  peers := rows.foldl (fun peers keys => peers.insert keys.nodeId keys) ∅

def directory (children : List ChildEntry) (rows : List PeerKeys) (admins : List NodeId) :
    DataDir where
  record := some { nodeId := "n", address := some OctAddr.root, parent := none, children }
  peers := some (registry rows)
  pending := []
  outbound := none
  adminState := some { admins, updatedAt := 0, updatedBy := "local" }
  seen := none

def desk : Desk where
  frames := []
  service :=
    { nodeId := "n", ledger := Ledger.new (9 : ℕ), key := (9 : ℕ), isRoot := true
      consumed := ∅, valueIndex := ∅ }

def frame (origin : NodeId) (key : ℕ) (nonce : UInt64) (request : ControlRequest) :
    SignedControl := .authorize origin key nonce 200 request

def started (disk : DataDir) : Option ControlHost :=
  (ControlNode.open_ opens disk "n" (1 : ℕ) true 100).map fun node =>
    { host := { node, disk, entropy := fun _ => 7 }, desk, waiting := [] }

-- only proofs evaluate the run: inlined, it has no compiled copy at these primitives
@[inline]
def ran (disk : DataDir) (events : List ControlEvent) : Option ControlHost :=
  (started disk).bind fun c => c.run events

end Cawala.Concrete
