import Mathlib

/-! # Replay defence

The bounded set of recently seen messages, and the sidecar that carries it across restarts.
The key of an origin is a parameter: the guards build it from the names they hold. -/

namespace Cawala

/-- A sixteen-byte message id. -/
abbrev MsgId := Vector UInt8 16

/-- Bounds of a `SeenSet`. -/
structure SeenConfig where
  maxPerOrigin : ℕ
  maxOrigins : ℕ
deriving DecidableEq, Repr

/-- Whether the bounds say to track nothing. -/
def SeenConfig.isZero (c : SeenConfig) : Bool := c.maxOrigins == 0 || c.maxPerOrigin == 0

/-- The result of observing a message id. -/
inductive Seen where
  | fresh
  | duplicate
deriving DecidableEq, Repr

variable {κ : Type} [DecidableEq κ]

/-! ## The set in memory -/

/-- The ids remembered for one origin: as a set, in the order of insertion, and with the
counter value of the last touch. -/
structure OriginWindow (κ : Type) where
  origin : κ
  set : Finset MsgId
  order : List MsgId
  lastTouch : UInt64

/-- Add a fresh id and drop the oldest one beyond the bound. -/
def OriginWindow.record (w : OriginWindow κ) (maxPerOrigin : ℕ) (id : MsgId) : OriginWindow κ :=
  let order := w.order ++ [id]
  if order.length > maxPerOrigin then
    match order with
    | old :: rest => { w with set := (insert id w.set).erase old, order := rest }
    | [] => { w with set := insert id w.set, order }
  else { w with set := insert id w.set, order }

/-- Bounded replay-detection set, with one window for each tracked origin. -/
structure SeenSet (κ : Type) where
  config : SeenConfig
  origins : List (OriginWindow κ)
  /-- Counts observations, and wraps. -/
  tick : UInt64

namespace SeenSet

def new (config : SeenConfig) : SeenSet κ where
  config
  origins := []
  tick := 0

def window (s : SeenSet κ) (origin : κ) : Option (OriginWindow κ) :=
  s.origins.find? fun w => w.origin = origin

def put (s : SeenSet κ) (w : OriginWindow κ) : SeenSet κ :=
  { s with origins := s.origins.map fun w' => if w'.origin = w.origin then w else w' }

/-- The windows left once room is made for a new origin: at the bound, the least recently
touched one goes. -/
def makeRoom (s : SeenSet κ) : List (OriginWindow κ) :=
  if s.origins.length ≥ s.config.maxOrigins then
    match s.origins.argmin (·.lastTouch.toNat) with
    | some lru => s.origins.filter fun w => w.origin ≠ lru.origin
    | none => s.origins
  else s.origins

def observe (s : SeenSet κ) (origin : κ) (id : MsgId) : Seen × SeenSet κ :=
  if s.config.isZero then (.fresh, s)
  else
    let now := s.tick + 1
    match s.window origin with
    | some w =>
        let touched := { w with lastTouch := now }
        if id ∈ w.set then (.duplicate, { s with tick := now }.put touched)
        else (.fresh, { s with tick := now }.put (touched.record s.config.maxPerOrigin id))
    | none =>
        (.fresh, { s with
          tick := now
          origins := s.makeRoom ++ [{ origin, set := {id}, order := [id], lastTouch := now }] })

/-- Forget a message of an origin; a window left empty is dropped. -/
def unobserve (s : SeenSet κ) (origin : κ) (id : MsgId) : SeenSet κ :=
  match s.window origin with
  | none => s
  | some w =>
      let w := if id ∈ w.set then
          { w with set := w.set.erase id, order := w.order.filter (· ≠ id) }
        else w
      if w.set = ∅ then { s with origins := s.origins.filter fun w' => w'.origin ≠ origin }
      else s.put w

/-- Whether a message of an origin is remembered. -/
def holds (s : SeenSet κ) (origin : κ) (id : MsgId) : Prop :=
  ∃ w ∈ s.origins, w.origin = origin ∧ id ∈ w.set

end SeenSet

/-! ## The persisted sidecar -/

/-- One persisted replay mark. -/
structure SeenEntry (κ : Type) where
  origin : κ
  msgId : MsgId
  expiry : UInt64

/-- Keep, newest first, the marks of the first `max` origins met. -/
def capOrigins (max : ℕ) : List κ → List (SeenEntry κ) → List (SeenEntry κ)
  | _, [] => []
  | kept, entry :: rest =>
      if entry.origin ∈ kept then entry :: capOrigins max kept rest
      else if kept.length < max then entry :: capOrigins max (entry.origin :: kept) rest
      else capOrigins max kept rest

/-- Keep, newest first, at most `max` marks of each origin. -/
def capPerOrigin (max : ℕ) : List κ → List (SeenEntry κ) → List (SeenEntry κ)
  | _, [] => []
  | counted, entry :: rest =>
      if counted.count entry.origin ≥ max then capPerOrigin max counted rest
      else entry :: capPerOrigin max (entry.origin :: counted) rest

/-- Apply the bounds to marks in insertion order. -/
def enforceCaps (config : SeenConfig) (entries : List (SeenEntry κ)) : List (SeenEntry κ) :=
  if config.isZero then []
  else
    (capPerOrigin config.maxPerOrigin [] (capOrigins config.maxOrigins [] entries.reverse)).reverse

/-- A `SeenSet` with the marks that persist. -/
structure SeenStore (κ : Type) where
  set : SeenSet κ
  config : SeenConfig
  entries : List (SeenEntry κ)

namespace SeenStore

def empty (config : SeenConfig) : SeenStore κ where
  set := .new config
  config
  entries := []

/-- Observe a message; a fresh one leaves a mark in the sidecar. -/
def observe (s : SeenStore κ) (origin : κ) (id : MsgId) (expiry : UInt64) : Seen × SeenStore κ :=
  match s.set.observe origin id with
  | (.fresh, set) =>
      (.fresh, { s with
        set
        entries := enforceCaps s.config (s.entries ++ [{ origin, msgId := id, expiry }]) })
  | (.duplicate, set) => (.duplicate, { s with set })

/-- The marks that are still valid, within the bounds. -/
def retained (config : SeenConfig) (now : UInt64) (entries : List (SeenEntry κ)) :
    List (SeenEntry κ) :=
  enforceCaps config (entries.filter fun entry => now ≤ entry.expiry)

/-- Rebuild the store from a document; without a readable one it starts empty. -/
def open_ (config : SeenConfig) (now : UInt64) (document : Option (List (SeenEntry κ))) :
    SeenStore κ :=
  match document with
  | none => empty config
  | some entries =>
      (retained config now entries).foldl
        (fun store entry => (store.observe entry.origin entry.msgId entry.expiry).2) (empty config)

def document (s : SeenStore κ) (now : UInt64) : List (SeenEntry κ) :=
  retained s.config now s.entries

end SeenStore

end Cawala
