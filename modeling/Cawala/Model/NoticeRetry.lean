import Cawala.Model.Rebase

/-! # Retries of topology notices

The frames that a node takes for delivery, the queue that failed notices are put back into, and
the sweep that dials them again. -/

namespace Cawala

open Library

variable [Crypto]

def maxPendingRebase : ℕ := 32

/-- Whether a notice with this delivery status is kept for a later retry: a child that refused a
rebase will refuse it again, and decisions are reported in the reply. -/
def shouldRequeueNotice (kind : OutboundKind) (status : DeliveryStatus) : Bool :=
  match kind, status with
  | _, .delivered => false
  | .rebase, .rejected _ => false
  | .rebase, _ => true
  | .detachNotice, _ => true
  | .approved, _ | .rejected, _ => false

/-- The dialed frames that are to be put back. -/
def failedNotices (batch : List OutboundControl) (statuses : List DeliveryStatus) :
    List OutboundControl :=
  ((batch.zip statuses).filter fun dialed => shouldRequeueNotice dialed.1.kind dialed.2).map
    Prod.fst

/-- Put one notice back. A target that is no child is dropped, and an older notice of the same
kind is replaced. -/
def requeueOne (r : NodeRecord) (queue : List OutboundControl) (item : OutboundControl) :
    List OutboundControl :=
  if r.lists item.target then
    queue.filter (fun pending => !(pending.target == item.target && pending.kind == item.kind))
      ++ [item]
  else queue

/-- Put failed notices back for a later sweep, and evict the oldest beyond the bound. -/
def requeuePendingRebase (r : NodeRecord) (queue failed : List OutboundControl) :
    List OutboundControl :=
  let queue := failed.foldl (requeueOne r) queue
  queue.drop (queue.length - maxPendingRebase)

variable [ControlPostcard] [EthPrimitives] [ZeroKey] [Postcard]

/-- The frames that a step takes for delivery. -/
def NodeEvent.frames (c : ControlHost) : NodeEvent → List OutboundControl
  | .control (.direct io signed now) =>
      (Transaction.exec (receiveAtHandled io signed now) c.host).2.node.outbound
  | .control (.routed io remote routed now) =>
      (Transaction.exec (receiveRoutedAtHandled io remote routed now) c.host).2.node.outbound
  | .pull io snapshot now =>
      match Transaction.exec (applyPullSnapshot io snapshot now) c.host with
      | (.ok true, h) => h.node.outbound
      | _ => []
  | _ => []

/-- A step in which the process stops and starts again. -/
def NodeEvent.restarts : NodeEvent → Bool
  | .control (.restart _ _) => true
  | _ => false

/-- A running node with its notices: those that wait for a sweep, the batches that are dialed
after the step that queued them, and the batch that the sweep dials. -/
structure RetryHost where
  node : ControlHost
  pendingRebase : List OutboundControl
  deliveries : List (List OutboundControl)
  sweeping : Option (List OutboundControl)

/-- The steps of such a node. Frames are dialed while the engine is free for other steps. -/
inductive RetryEvent where
  | node (event : NodeEvent)
  /-- A batch has been dialed, each frame with its status. -/
  | delivered (index : ℕ) (statuses : List DeliveryStatus)
  /-- The sweep takes the queue. -/
  | sweep
  /-- The sweep has dialed what it took. -/
  | swept (statuses : List DeliveryStatus)

namespace RetryHost

def record (s : RetryHost) : NodeRecord := s.node.host.node.record

/-- The queue after the notices of a dialed batch that failed are put back. -/
def requeued (s : RetryHost) (batch : List OutboundControl) (statuses : List DeliveryStatus) :
    List OutboundControl :=
  let failed := failedNotices batch statuses
  if failed.isEmpty then s.pendingRebase else requeuePendingRebase s.record s.pendingRebase failed

/-- Take the queue, and keep the notices to present children for dialing. -/
def takeForSweep (s : RetryHost) : RetryHost :=
  if s.pendingRebase.isEmpty then s
  else
    { s with
      pendingRebase := []
      sweeping := some (s.pendingRebase.filter fun item => s.record.lists item.target) }

/-- One step. A restart forgets all notices; one sweep runs at a time. -/
def step (s : RetryHost) : RetryEvent → Option RetryHost
  | .node event =>
      (s.node.nodeStep event).map fun node =>
        if event.restarts then { node, pendingRebase := [], deliveries := [], sweeping := none }
        else { s with node, deliveries := s.deliveries ++ [event.frames s.node] }
  | .delivered index statuses =>
      match s.deliveries[index]? with
      | none => none
      | some batch =>
          if statuses.length = batch.length then
            some { s with
              pendingRebase := s.requeued batch statuses
              deliveries := s.deliveries.eraseIdx index }
          else none
  | .sweep => if s.sweeping.isSome then none else some s.takeForSweep
  | .swept statuses =>
      match s.sweeping with
      | none => none
      | some batch =>
          if statuses.length = batch.length then
            some { s with pendingRebase := s.requeued batch statuses, sweeping := none }
          else none

def run (s : RetryHost) (events : List RetryEvent) : Option RetryHost := events.foldlM step s

end RetryHost

end Cawala
