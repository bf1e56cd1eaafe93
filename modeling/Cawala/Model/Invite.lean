import Cawala.Library.Urlencoded
import Cawala.Model.Address
import Cawala.Model.Claim

/-! # Connection invites

The `cawala://join` URI that names a parent node and pins its operator key: how it is written
and how it is read. -/

namespace Cawala

open Library

def inviteScheme : String := "cawala"

def inviteHost : String := "join"

/-- Maximum accepted length, in bytes, of a label. -/
def maxLabelLen : ℕ := 64

/-- Relay-URL schemes accepted in a relay hint. -/
def relaySchemes : List String := ["http", "https", "ws", "wss"]

/-- Errors raised while parsing or validating an invite. -/
inductive InviteError where
  | notAnInvite
  | missing (name : String)
  | badOperatorKey
  | badSlot (raw : String)
  | badExpiry (raw : String)
  | badRelay (raw : String)
  | badIp (raw : String)
  | duplicate (name : String)
  | labelTooLong (len max : ℕ)
  | malformed (err : String)
deriving DecidableEq, Repr

/-- The types of other crates that invites hold. -/
class InvitePrimitives [Crypto] where
  Url : Type
  SocketAddr : Type
  [urlDecEq : DecidableEq Url]
  [addrDecEq : DecidableEq SocketAddr]
  /-- `Url::parse`; the error is the text of the crate's own error. -/
  parseUrl : String → Except String Url
  asStr : Url → String
  scheme : Url → String
  hostStr : Url → Option String
  query : Url → Option String
  /-- `str::parse` at the type of socket addresses. -/
  parseAddr : String → Option SocketAddr
  addrText : SocketAddr → String
  /-- `OperatorPubKey::to_bytes`. -/
  operatorBytes : OperatorPubKey → List UInt8

attribute [reducible, instance] InvitePrimitives.urlDecEq InvitePrimitives.addrDecEq

/-! ## Text -/

/-- Uppercase hex digits, indexed by nibble value. -/
def hexUpper : List Char := "0123456789ABCDEF".toList

/-- Lowercase hex digits, indexed by nibble value. -/
def hexLower : List Char := "0123456789abcdef".toList

def hexPair (digits : List Char) (byte : UInt8) : List Char :=
  [digits.getD (byte >>> 4).toNat '0', digits.getD (byte &&& 0x0f).toNat '0']

/-- The unreserved bytes, which stay literal. -/
def isUnreserved (byte : UInt8) : Bool :=
  (65 ≤ byte && byte ≤ 90) || (97 ≤ byte && byte ≤ 122) || (48 ≤ byte && byte ≤ 57)
    || byte == 45 || byte == 46 || byte == 95 || byte == 126

def percentEncodeByte (byte : UInt8) : List Char :=
  if isUnreserved byte then [Char.ofNat byte.toNat] else '%' :: hexPair hexUpper byte

/-- Percent-encode a query component. -/
def percentEncode (value : String) : String :=
  String.ofList ((TextFile.utf8 value.toList).flatMap percentEncodeByte)

def toHex (bytes : List UInt8) : String := String.ofList (bytes.flatMap (hexPair hexLower))

/-- The text behind an optional `+`. -/
def stripPlus : List Char → List Char
  | '+' :: digits => digits
  | digits => digits

/-- `str::parse` at an unsigned integer type below `limit`: an optional `+` and digits. -/
def parseUnsigned (limit : ℕ) (raw : String) : Option ℕ :=
  let digits := stripPlus raw.toList
  if digits ≠ [] ∧ digits.all Char.isDigit = true ∧ Nat.ofDigitChars 10 digits 0 < limit then
    some (Nat.ofDigitChars 10 digits 0)
  else none

variable [Crypto] [InvitePrimitives]

open InvitePrimitives

/-! ## Invites -/

/-- A portable instruction to join a specific parent node. -/
structure Invite where
  parent : NodeId
  operator : OperatorPubKey
  slot : Option UInt8
  expiry : Option UInt64
  label : Option String
  relay : Option Url
  ip : Option SocketAddr
deriving DecidableEq

namespace Invite

def optionalParam (name : String) : Option String → String
  | none => ""
  | some value => "&" ++ name ++ "=" ++ value

/-- Encode as a `cawala://join?...` URI. -/
def encode (i : Invite) : String :=
  inviteScheme ++ "://" ++ inviteHost ++ "?parent=" ++ percentEncode i.parent
    ++ "&op=" ++ toHex (operatorBytes i.operator)
    ++ optionalParam "slot" (i.slot.map fun slot => slot.toNat.repr)
    ++ optionalParam "exp" (i.expiry.map fun expiry => expiry.toNat.repr)
    ++ optionalParam "label" (i.label.map percentEncode)
    ++ optionalParam "relay" (i.relay.map fun relay => percentEncode (asStr relay))
    ++ optionalParam "ip" (i.ip.map fun ip => percentEncode (addrText ip))

/-- A relay hint must have a host and an accepted scheme. -/
def validateRelayUrl (url : Url) : Except InviteError Unit :=
  if hostStr url = none then .error (.badRelay (asStr url))
  else if scheme url ∉ relaySchemes then .error (.badRelay (asStr url))
  else .ok ()

def parseRelay (raw : String) : Except InviteError Url :=
  match parseUrl raw with
  | .error _ => .error (.badRelay raw)
  | .ok url => do
      validateRelayUrl url
      .ok url

/-- Parse a direct address hint. -/
def parseIp (raw : String) : Except InviteError SocketAddr :=
  match parseAddr raw with
  | none => .error (.badIp raw)
  | some addr => .ok addr

/-- The parameters that are read. -/
inductive Param where
  | parent
  | op
  | slot
  | exp
  | label
  | relay
  | ip
deriving DecidableEq, Repr

def Param.ofName : String → Option Param
  | "parent" => some .parent
  | "op" => some .op
  | "slot" => some .slot
  | "exp" => some .exp
  | "label" => some .label
  | "relay" => some .relay
  | "ip" => some .ip
  | _ => none

abbrev Params : Type := Param → Option String

/-- Keep the value of a name; an unknown name is ignored. -/
def Params.set (params : Params) (name value : String) : Params :=
  match Param.ofName name with
  | none => params
  | some param => Function.update params param (some value)

/-- Read the pairs of a query one after another; `seen` are the names of the ones before. -/
def readParams (seen : List String) (params : Params) :
    List (String × String) → Except InviteError Params
  | [] => .ok params
  | (name, value) :: pairs =>
      if name ∈ seen then .error (.duplicate name)
      else readParams (seen ++ [name]) (params.set name value) pairs

/-- The decoded pairs of a URL's query. -/
def queryPairs (url : Url) : List (String × String) :=
  (Urlencoded.pairs (TextFile.utf8 ((query url).getD "").toList)).map
    (Prod.map String.ofList String.ofList)

/-- Read the parent, which is required and not empty. -/
def readParent : Option String → Except InviteError NodeId
  | none => .error (.missing "parent")
  | some parent => if parent = "" then .error (.missing "parent") else .ok parent

/-- Read the text of the operator key, which is required. -/
def readOp : Option String → Except InviteError String
  | none => .error (.missing "op")
  | some op => .ok op

def readSlot (raw : String) : Except InviteError UInt8 :=
  match parseUnsigned UInt8.size raw with
  | none => .error (.badSlot raw)
  | some slot =>
      if UInt8.ofNat slot > maxSlot then .error (.badSlot raw) else .ok (UInt8.ofNat slot)

def readExpiry (raw : String) : Except InviteError UInt64 :=
  match parseUnsigned UInt64.size raw with
  | none => .error (.badExpiry raw)
  | some expiry => .ok (UInt64.ofNat expiry)

def readOptional {α : Type} (read : String → Except InviteError α) :
    Option String → Except InviteError (Option α)
  | none => .ok none
  | some raw => some <$> read raw

variable [ClaimPrimitives]

def readOperator (op : String) : Except InviteError OperatorPubKey :=
  match parseOperatorHex op with
  | none => .error .badOperatorKey
  | some operator => .ok operator

def fromParams (params : Params) : Except InviteError Invite := do
  let parent ← readParent (params .parent)
  let op ← readOp (params .op)
  let operator ← readOperator op
  let slot ← readOptional readSlot (params .slot)
  let expiry ← readOptional readExpiry (params .exp)
  let relay ← readOptional parseRelay (params .relay)
  let ip ← readOptional parseIp (params .ip)
  .ok { parent, operator, slot, expiry, label := params .label, relay, ip }

/-- Parse a `cawala://join?...` URI. -/
def parse (input : String) : Except InviteError Invite :=
  match parseUrl input with
  | .error err => .error (.malformed err)
  | .ok url =>
      if scheme url ≠ inviteScheme ∨ hostStr url ≠ some inviteHost then .error .notAnInvite
      else do
        let params ← readParams [] (fun _ => none) (queryPairs url)
        fromParams params

omit [ClaimPrimitives]

omit [InvitePrimitives] [Crypto] in
def validateSlot : Option UInt8 → Except InviteError Unit
  | none => .ok ()
  | some slot => if slot > maxSlot then .error (.badSlot slot.toNat.repr) else .ok ()

omit [InvitePrimitives] [Crypto] in
def validateLabel : Option String → Except InviteError Unit
  | none => .ok ()
  | some label =>
      if label.utf8ByteSize > maxLabelLen then
        .error (.labelTooLong label.utf8ByteSize maxLabelLen)
      else .ok ()

/-- Check the invite's bounded and range-constrained fields. -/
def validate (i : Invite) : Except InviteError Unit := do
  validateSlot i.slot
  validateLabel i.label
  if i.parent = "" then .error (.missing "parent")
  else match i.relay with
    | none => .ok ()
    | some relay => validateRelayUrl relay

end Invite

end Cawala
