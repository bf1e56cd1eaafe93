import Cawala.Library.TextFile
import Cawala.Model.Auth

/-! # The order journal

A leaf appends the orders it accepts to a file of lines, one JSON object each, and finds the
orders it has already by reading the whole file. -/

namespace Cawala

open Library

variable [Crypto]

/-- The JSON codec of payment orders. -/
class OrderJson where
  toString : PaymentOrder → Except String (List Char)
  fromStr : List Char → Option PaymentOrder

namespace OrderJournal

variable [OrderJson]

/-- The hashes of every parseable order in the journal. A file that is no text has none. -/
def readHashes (file : List UInt8) : List Hash :=
  match TextFile.readUtf8 file with
  | none => []
  | some data => ((TextFile.lines data).filterMap OrderJson.fromStr).map PaymentOrder.hash

/-- Every parseable order of the journal, in file order. -/
def loadAll (file : List UInt8) : List PaymentOrder :=
  match TextFile.readUtf8 file with
  | none => []
  | some data => (TextFile.lines data).filterMap fun line =>
      if TextFile.isBlank line then none else OrderJson.fromStr line

/-- The bytes that `append` writes: none if an order with the same hash is present. -/
def written (file : List UInt8) (order : PaymentOrder) : Except String (List UInt8) :=
  if order.hash ∈ readHashes file then .ok []
  else match OrderJson.toString order with
  | .error _ => .error "failed to encode payment order as JSON"
  | .ok line => .ok (TextFile.utf8 (line ++ ['\n']))

def append (file : List UInt8) (order : PaymentOrder) : Except String (List UInt8) :=
  (written file order).map (file ++ ·)

end OrderJournal

end Cawala
