import Cawala.Model.ControlConcrete
import Cawala.Verification.RecordStore
import Cawala.Verification.Registry

/-! # Refused approvals

What a refused approval or a refused creation of a child leaves behind. A refusal by a check
leaves the record, the registry and the pending joins as they were; a refusal by a save leaves
the child admitted in memory. -/

namespace Cawala

open Library Transaction

theorem validate_toBool {r : NodeRecord} : r.validate.toBool = true ↔ r.Valid :=
  toBool_iff_eq_ok.trans NodeRecord.validate_eq_ok

namespace RecordStore

theorem pushChild_ne (r : NodeRecord) (child : NodeId) (kind : ChildKind) (slot : UInt8)
    (dateJoined : UInt64) : pushChild r child kind slot dateJoined ≠ r := by
  intro heq
  have hlength := congrArg (fun r => r.children.length) heq
  simp [pushChild] at hlength

/-- Dropping the child that was appended gives the record back. -/
theorem dropChild_pushChild {r : NodeRecord} {child : NodeId} (h : r.lists child = false)
    (kind : ChildKind) (slot : UInt8) (dateJoined : UInt64) :
    dropChild (pushChild r child kind slot dateJoined) child = r := by
  have hnot : ∀ entry ∈ r.children, ¬ (entry.childId == child) = true := by
    intro entry hentry hid
    rw [NodeRecord.lists, List.any_eq_false] at h
    exact h entry hentry hid
  have herase : (pushChild r child kind slot dateJoined).children.eraseP
      (fun entry => entry.childId == child) = r.children := by
    rw [pushChild, List.eraseP_append_right _ hnot, List.eraseP_cons_of_pos (by simp),
      List.append_nil]
  rw [dropChild, herase]
  rfl

theorem lists_pushChild (r : NodeRecord) (child : NodeId) (kind : ChildKind) (slot : UInt8)
    (dateJoined : UInt64) :
    (pushChild r child kind slot dateJoined).lists child = true := by
  simp [pushChild, NodeRecord.lists]

end RecordStore

section

variable [Crypto]

/-! ## Queued joins -/

/-- No second request of a node waits behind its first one. -/
def ControlStore.QueuedOnce (s : ControlStore) (node : NodeId) : Prop :=
  ((s.removePending node).pendingFor node).isNone = true

/-- Two hosts agree on the record, the registry and the pending joins, in memory and on disk. -/
structure SameJoins (h t : NodeHost) : Prop where
  record : t.node.record = h.node.record
  peers : t.node.peers = h.node.peers
  pending : t.node.pending.pending.Perm h.node.pending.pending
  savedRecord : t.disk.record = h.disk.record
  savedPeers : t.disk.peers = h.disk.peers
  savedPending : t.disk.pending = h.disk.pending

theorem SameJoins.refl (h : NodeHost) : SameJoins h h := ⟨rfl, rfl, .refl _, rfl, rfl, rfl⟩

/-- A refusal of a transaction that runs from `s` leaves the joins as they were in `h`. -/
def Restores {ε α : Type} (h s : NodeHost) (x : Transaction NodeHost ε α) : Prop :=
  ∀ e t, exec x s = (.error e, t) → SameJoins h t

/-- A refusal of the transaction leaves the joins as they were. -/
def Atomic {ε α : Type} (x : Transaction NodeHost ε α) (h : NodeHost) : Prop := Restores h h x

section

variable {ε α : Type} {x y : Transaction NodeHost ε α} {h s t : NodeHost}

theorem restores_of_error {e : ε} (hx : exec x s = (.error e, t)) :
    Restores h s x ↔ SameJoins h t := by
  constructor
  · exact fun hrestores => hrestores e t hx
  · intro hsame e' u hu
    rw [hx] at hu
    cases hu
    exact hsame

theorem restores_of_ok {a : α} (hx : exec x s = (.ok a, t)) : Restores h s x := by
  intro e u hu
  rw [hx] at hu
  cases hu

theorem restores_congr (hx : exec x s = exec y t) : Restores h s x ↔ Restores h t y := by
  rw [Restores, Restores, hx]

end

/-! ### Taking a request and putting it back -/

theorem pendingFor_spec {s : ControlStore} {node : NodeId} {request : JoinRequest}
    (h : s.pendingFor node = some request) : request ∈ s.pending ∧ request.node = node :=
  ⟨List.mem_of_find?_eq_some h, by simpa using List.find?_some h⟩

theorem perm_removePending {s : ControlStore} {node : NodeId} {request : JoinRequest}
    (h : s.pendingFor node = some request) :
    s.pending.Perm (request :: (s.removePending node).pending) := by
  obtain ⟨before, after, hpending, hbefore, hnode⟩ :
      ∃ before after, s.pending = before ++ request :: after
        ∧ (∀ r ∈ before, ¬ (r.node == node) = true) ∧ (request.node == node) = true := by
    obtain ⟨hnode, before, after, hpending, hbefore⟩ := List.find?_eq_some_iff_append.mp h
    exact ⟨before, after, hpending, fun r hr => by simpa using hbefore r hr, hnode⟩
  have herase : (before ++ request :: after).eraseP (fun r => r.node == node)
      = before ++ after := by
    rw [List.eraseP_append_right _ hbefore, List.eraseP_cons_of_pos (by exact hnode)]
  rw [ControlStore.removePending, hpending, herase]
  exact List.perm_middle

theorem not_perm_removePending {s : ControlStore} {node : NodeId} {request : JoinRequest}
    (h : s.pendingFor node = some request) : ¬ (s.removePending node).pending.Perm s.pending := by
  intro hperm
  have hlength := (hperm.trans (perm_removePending h)).length_eq
  simp at hlength

theorem perm_addPending_iff {s : ControlStore} {request : JoinRequest}
    (h : s.pendingFor request.node = some request) :
    ((s.removePending request.node).addPending request).pending.Perm s.pending
      ↔ s.QueuedOnce request.node := by
  unfold ControlStore.QueuedOnce ControlStore.addPending
  by_cases honce : ((s.removePending request.node).pendingFor request.node).isNone = true
  · rw [if_pos honce]
    exact iff_of_true ((List.perm_append_singleton _ _).trans (perm_removePending h).symm) honce
  · rw [if_neg honce]
    exact iff_of_false (not_perm_removePending h) honce

/-! ### Saves -/

section Saves

variable {ε : Type} {e : ε} {io : Io} {h : NodeHost}

def NodeHost.peersSaved (h : NodeHost) : NodeHost :=
  { h with disk := { h.disk with peers := some h.node.peers } }

theorem exec_saveRecord :
    exec (saveRecord io e) h =
      if h.node.record.validate.toBool = true ∧ io.recordSaves = true then
        (.ok ⟨⟩, h.recordSaved)
      else (.error e, h) := by
  rw [saveRecord, exec_get_bind, exec_refuseIf_bind]
  cases h.node.record.validate.toBool <;> cases io.recordSaves <;> rfl

theorem exec_savePeers :
    exec (savePeers io e) h =
      if io.peersSaves = true then (.ok ⟨⟩, h.peersSaved) else (.error e, h) := by
  rw [savePeers, exec_refuseIf_bind]
  cases io.peersSaves <;> rfl

/-- The two documents of the pending joins are written, or memory is as it was. -/
theorem exec_savePending (io : Io) (e : ε) (h : NodeHost) :
    (io.pendingSaves = true ∧ io.outboundSaves = true
      ∧ ∃ t, exec (savePending io e) h = (.ok ⟨⟩, t))
      ∨ ¬ (io.pendingSaves = true ∧ io.outboundSaves = true)
        ∧ ∃ t, exec (savePending io e) h = (.error e, t) ∧ t.node = h.node := by
  rw [savePending, exec_refuseIf_bind]
  cases io.pendingSaves with
  | false => exact .inr ⟨by simp, h, rfl, rfl⟩
  | true =>
      rw [if_neg (by decide), exec_bind, exec_modify]
      dsimp only
      rw [exec_refuseIf_bind]
      cases io.outboundSaves with
      | false => exact .inr ⟨by simp, _, rfl, rfl⟩
      | true => exact .inl ⟨rfl, rfl, _, rfl⟩

end Saves

/-! ## Approvals -/

/-- What an approval is about to do once its checks have passed. -/
structure ApprovalPlan where
  request : JoinRequest
  state : PeerState
  /-- The child is listed already. -/
  listed : Bool
  slot : UInt8
  address : OctAddr

/-- The checks that come before anything is changed. -/
def ControlNode.planApproval (n : ControlNode) (node : NodeId) (slot : Option UInt8) :
    Except ControlError ApprovalPlan :=
  match n.pending.pendingFor node with
  | none => .error (.codec s!"no pending join for '{node}'")
  | some request =>
      match n.record.address with
      | none => .error (.codec "this node has no asserted address")
      | some baseAddress =>
          if n.existingPeerState request.peerKeys = .conflict then
            .error (.codec
              s!"peer row for '{request.node}' conflicts with the approved operator/role")
          else
            let listed := (n.record.childEntry request.node).map (·.slot)
            match approveSlot n.record listed slot with
            | .error e => .error e
            | .ok slot =>
                match childAddress baseAddress slot with
                | none => .error (.slotOutOfRange slot)
                | some address =>
                    .ok
                      { request, state := n.existingPeerState request.peerKeys
                        listed := listed.isSome, slot, address }

/-- The documents that an approval writes can be written. -/
def Io.savesApproval (io : Io) : Prop :=
  io.recordSaves = true ∧ io.peersSaves = true ∧ io.pendingSaves = true ∧ io.outboundSaves = true

def ApprovalPlan.save (plan : ApprovalPlan) (io : Io) (now : UInt64) (parentLedger : LedgerPubKey) :
    Transaction NodeHost ControlError JoinApproval := do
  saveRecord io .persist
  savePeers io .persist
  savePending io .persist
  pure
    { child := plan.request.node, childOperator := plan.request.operator
      childLedger := plan.request.ledger, kind := plan.request.kind, slot := plan.slot
      address := plan.address, dateJoined := now, nonce := plan.request.nonce, parentLedger }

def ApprovalPlan.conclude (plan : ApprovalPlan) (io : Io) (now : UInt64)
    (parentLedger : LedgerPubKey) : Transaction NodeHost ControlError JoinApproval := do
  Transaction.when (plan.state ≠ .identical)
    (registerApproved plan.request plan.state plan.listed)
  plan.save io now parentLedger

def ApprovalPlan.carryOut (plan : ApprovalPlan) (io : Io) (node : NodeId) (now : UInt64)
    (parentLedger : LedgerPubKey) : Transaction NodeHost ControlError JoinApproval := do
  modify fun h => h.withPending (h.node.pending.removePending node)
  Transaction.when (!plan.listed) (attachApproved plan.request plan.slot now)
  plan.conclude io now parentLedger

/-- A refusal by a check changes nothing. -/
theorem exec_approvePending (io : Io) (node : NodeId) (slot : Option UInt8) (now : UInt64)
    (parentLedger : LedgerPubKey) (h : NodeHost) :
    exec (approvePending io node slot now parentLedger) h =
      match h.node.planApproval node slot with
      | .error e => (.error e, h)
      | .ok plan => exec (plan.carryOut io node now parentLedger) h := by
  rw [approvePending, exec_get_bind, ControlNode.planApproval]
  cases h.node.pending.pendingFor node with
  | none => rfl
  | some request =>
      dsimp only
      cases h.node.record.address with
      | none => rfl
      | some baseAddress =>
          dsimp only
          rw [exec_refuseIf_bind]
          by_cases hconflict : h.node.existingPeerState request.peerKeys = .conflict
          · rw [if_pos hconflict, if_pos hconflict]
          rw [if_neg hconflict, if_neg hconflict, exec_bind, exec_ofExcept]
          cases approveSlot h.node.record
              ((h.node.record.childEntry request.node).map (·.slot)) slot with
          | error e => rfl
          | ok slot =>
              dsimp only
              cases childAddress baseAddress slot with
              | none => rfl
              | some address =>
                  dsimp only
                  rw [ApprovalPlan.carryOut]
                  cases (h.node.record.childEntry request.node).map (·.slot) <;> rfl

/-! ### After the checks -/

section Steps

variable {io : Io} {h s : NodeHost} {plan : ApprovalPlan} {now : UInt64}
  {parentLedger : LedgerPubKey}

theorem ControlNode.planApproval_spec {n : ControlNode} {node : NodeId} {slot : Option UInt8}
    (h : n.planApproval node slot = .ok plan) :
    n.pending.pendingFor node = some plan.request ∧ plan.request.node = node
      ∧ plan.state = n.existingPeerState plan.request.peerKeys
      ∧ plan.listed = n.record.lists plan.request.node := by
  unfold ControlNode.planApproval at h
  cases hrequest : n.pending.pendingFor node with
  | none => simp [hrequest] at h
  | some request =>
      cases haddress : n.record.address with
      | none => simp [hrequest, haddress] at h
      | some baseAddress =>
          simp only [hrequest, haddress, ite_error_eq_ok] at h
          obtain ⟨-, h⟩ := h
          cases hslot : approveSlot n.record
              ((n.record.childEntry request.node).map (·.slot)) slot with
          | error e => simp [hslot] at h
          | ok slot =>
              cases hchild : childAddress baseAddress slot with
              | none => simp [hslot, hchild] at h
              | some address =>
                  simp only [hslot, hchild, Except.ok.injEq] at h
                  subst h
                  exact ⟨rfl, (pendingFor_spec hrequest).2, rfl,
                    by rw [NodeRecord.lists_eq_isSome, Option.isSome_map]⟩

/-- All four documents are written, or memory is as it was. -/
theorem exec_save (plan : ApprovalPlan) (io : Io) (s : NodeHost) (now : UInt64)
    (parentLedger : LedgerPubKey) :
    (s.node.record.Valid ∧ io.savesApproval
      ∧ ∃ a t, exec (plan.save io now parentLedger) s = (.ok a, t))
      ∨ ¬ (s.node.record.Valid ∧ io.savesApproval)
        ∧ ∃ e t, exec (plan.save io now parentLedger) s = (.error e, t) ∧ t.node = s.node := by
  rw [ApprovalPlan.save, exec_bind, exec_saveRecord, ← validate_toBool, Io.savesApproval]
  by_cases hrecord : s.node.record.validate.toBool = true ∧ io.recordSaves = true
  · rw [if_pos hrecord]
    dsimp only
    rw [exec_bind, exec_savePeers]
    by_cases hpeers : io.peersSaves = true
    · rw [if_pos hpeers]
      dsimp only
      rw [exec_bind]
      rcases exec_savePending io ControlError.persist
          s.recordSaved.peersSaved with
        ⟨hpending, houtbound, t, ht⟩ | ⟨hnot, t, ht, hnode⟩
      · rw [ht]
        exact .inl ⟨hrecord.1, ⟨hrecord.2, hpeers, hpending, houtbound⟩, _, t, rfl⟩
      · rw [ht]
        exact .inr ⟨fun hall => hnot ⟨hall.2.2.2.1, hall.2.2.2.2⟩, _, t, rfl, hnode⟩
    · rw [if_neg hpeers]
      exact .inr ⟨fun hall => hpeers hall.2.2.1, _, _, rfl, rfl⟩
  · rw [if_neg hrecord]
    exact .inr ⟨fun hall => hrecord ⟨hall.1, hall.2.1⟩, _, _, rfl, rfl⟩

theorem exec_reconcilePeerRow (peer : PeerKeys) (state : PeerState) (s : NodeHost) :
    exec (reconcilePeerRow peer state) s =
      match ControlNode.reconciledPeers s.node.peers peer state with
      | .error code => (.error code, s)
      | .ok peers => (.ok ⟨⟩, s.withPeers peers) := by
  rw [reconcilePeerRow, exec_get_bind, exec_bind, exec_ofExcept]
  cases ControlNode.reconciledPeers s.node.peers peer state <;> rfl

/-- An approval that has taken its request out and attached its child, with `r` as the record. It
has written nothing. -/
structure UnderApproval (plan : ApprovalPlan) (r : NodeRecord) (h s : NodeHost) : Prop where
  queued : h.node.pending.pendingFor plan.request.node = some plan.request
  record : s.node.record = r
  peers : s.node.peers = h.node.peers
  pending : s.node.pending = h.node.pending.removePending plan.request.node
  disk : s.disk = h.disk
  attached : if plan.listed = true then r = h.node.record
    else RecordStore.dropChild r plan.request.node = h.node.record
      ∧ r.lists plan.request.node = true

/-- A registration that fails takes the child and the request back. -/
theorem exec_registerApproved {r : NodeRecord} (hs : UnderApproval plan r h s) :
    match ControlNode.reconciledPeers s.node.peers plan.request.peerKeys plan.state with
    | .ok peers =>
        exec (registerApproved plan.request plan.state plan.listed) s = (.ok ⟨⟩, s.withPeers peers)
    | .error _ => ∃ e, exec (registerApproved plan.request plan.state plan.listed) s
        = (.error e, (s.withRecord h.node.record).withPending
            ((h.node.pending.removePending plan.request.node).addPending plan.request)) := by
  rw [registerApproved, exec_catchWith, exec_reconcilePeerRow]
  cases ControlNode.reconciledPeers s.node.peers plan.request.peerKeys plan.state with
  | ok peers => rfl
  | error code =>
      refine ⟨.codec s!"peer row update failed: {code.name}", ?_⟩
      dsimp only
      have hback : exec (Transaction.when (!plan.listed) (Transaction.catchWith
          (onRecord (RecordStore.detachChild plan.request.node)) fun _ => pure ⟨⟩)
            : Transaction NodeHost ControlError PUnit) s
          = (.ok ⟨⟩, s.withRecord h.node.record) := by
        have hattached := hs.attached
        cases hlisted : plan.listed with
        | true =>
            rw [hlisted, if_pos rfl] at hattached
            rw [exec_when, if_neg (by decide), ← hattached, ← hs.record]
            rfl
        | false =>
            rw [hlisted, if_neg Bool.false_ne_true] at hattached
            rw [exec_when, if_pos (by decide), exec_catchWith, onRecord, exec_zoom,
              RecordStore.exec_detachChild, hs.record, if_pos hattached.2,
              RecordStore.exec_revalidate, hattached.1]
            cases h.node.record.validate <;> rfl
      rw [exec_bind, hback]
      dsimp only
      rw [exec_bind, exec_modify]
      dsimp only
      rw [exec_throw]
      simp only [NodeHost.withRecord, NodeHost.withPending, hs.pending]

/-- A failed save finds the request gone. -/
theorem restores_save {r : NodeRecord}
    (hqueued : h.node.pending.pendingFor plan.request.node = some plan.request)
    (hrecord : s.node.record = r)
    (hpending : s.node.pending = h.node.pending.removePending plan.request.node) :
    Restores h s (plan.save io now parentLedger) ↔ r.Valid ∧ io.savesApproval := by
  subst hrecord
  rcases exec_save plan io s now parentLedger with
    ⟨hvalid, hsaves, a, t, ht⟩ | ⟨hnot, e, t, ht, hnode⟩
  · exact iff_of_true (restores_of_ok ht) ⟨hvalid, hsaves⟩
  · refine iff_of_false (fun hrestores => ?_) hnot
    have hperm := (hrestores e t ht).pending
    rw [hnode, hpending] at hperm
    exact not_perm_removePending hqueued hperm

/-- What the rest of an approval restores once the child is attached. -/
theorem restores_conclude {r : NodeRecord} (hs : UnderApproval plan r h s) :
    Restores h s (plan.conclude io now parentLedger) ↔
      match ControlNode.reconciledPeers h.node.peers plan.request.peerKeys plan.state with
      | .error _ => h.node.pending.QueuedOnce plan.request.node
      | .ok _ => r.Valid ∧ io.savesApproval := by
  by_cases hidentical : plan.state = .identical
  · have hskip : exec (plan.conclude io now parentLedger) s
        = exec (plan.save io now parentLedger) s := by
      rw [ApprovalPlan.conclude, exec_bind, exec_when, if_neg (not_not_intro hidentical)]
    rw [restores_congr hskip, restores_save hs.queued hs.record hs.pending, hidentical]
    rfl
  · have hregister := exec_registerApproved hs
    have hexec := exec_bind
      (registerApproved plan.request plan.state plan.listed)
      (fun _ => plan.save io now parentLedger) s
    have hstart : exec (plan.conclude io now parentLedger) s
        = exec (registerApproved plan.request plan.state plan.listed >>= fun _ =>
            plan.save io now parentLedger) s := by
      rw [ApprovalPlan.conclude, Transaction.when, if_pos hidentical]
    rw [← hs.peers]
    cases hpeers : ControlNode.reconciledPeers s.node.peers plan.request.peerKeys plan.state with
    | ok peers =>
        rw [hpeers] at hregister
        dsimp only at hregister
        rw [hregister] at hexec
        rw [restores_congr (hstart.trans hexec)]
        exact restores_save hs.queued hs.record hs.pending
    | error code =>
        rw [hpeers] at hregister
        obtain ⟨e, hregister⟩ := hregister
        rw [hregister] at hexec
        rw [restores_of_error (hstart.trans hexec)]
        constructor
        · exact fun hsame => (perm_addPending_iff hs.queued).mp hsame.pending
        · intro honce
          exact ⟨rfl, hs.peers, (perm_addPending_iff hs.queued).mpr honce,
            congrArg (·.record) hs.disk, congrArg (·.peers) hs.disk, congrArg (·.pending) hs.disk⟩

def ApprovalPlan.attached (plan : ApprovalPlan) (r : NodeRecord) (now : UInt64) :
    Except RecordError NodeRecord :=
  if plan.listed then .ok r
  else (RecordStore.admitChild r plan.request.node (some plan.slot)).map fun slot =>
    RecordStore.pushChild r plan.request.node plan.request.kind slot now

/-- When a refused approval leaves everything as it was: the child is refused, or the registry
refuses its row and the child, if it is new, was attached to a valid record; or else nothing
refuses, because the record is valid and all documents are written. -/
def ApprovalPlan.Kept (plan : ApprovalPlan) (io : Io) (now : UInt64) (h : NodeHost) : Prop :=
  match plan.attached h.node.record now with
  | .error _ => h.node.pending.QueuedOnce plan.request.node
  | .ok r =>
      match ControlNode.reconciledPeers h.node.peers plan.request.peerKeys plan.state with
      | .error _ =>
          (plan.listed = true ∨ r.Valid) ∧ h.node.pending.QueuedOnce plan.request.node
      | .ok _ => r.Valid ∧ io.savesApproval

/-- The attachment refuses with the request put back, or it leaves the child in the record, which
then passes its check or does not. -/
theorem exec_attachApproved (request : JoinRequest) (slot : UInt8) (now : UInt64) (s : NodeHost) :
    match RecordStore.admitChild s.node.record request.node (some slot) with
    | .error e => exec (attachApproved request slot now) s
        = (.error (.codec e.message), s.withPending (s.node.pending.addPending request))
    | .ok chosen =>
        let r := RecordStore.pushChild s.node.record request.node request.kind chosen now
        (r.Valid ∧ exec (attachApproved request slot now) s = (.ok ⟨⟩, s.withRecord r))
          ∨ ¬ r.Valid ∧ ∃ e t, exec (attachApproved request slot now) s = (.error e, t)
              ∧ t.node.record = r := by
  rw [attachApproved, exec_catchWith, onRecord, exec_zoom, RecordStore.exec_attachChild]
  cases RecordStore.admitChild s.node.record request.node (some slot) with
  | error e => rfl
  | ok chosen =>
      dsimp only
      rw [RecordStore.exec_revalidate, ← NodeRecord.validate_eq_ok]
      cases (RecordStore.pushChild s.node.record request.node request.kind chosen now).validate with
      | ok u => exact .inl ⟨rfl, rfl⟩
      | error e => exact .inr ⟨by simp, _, _, rfl, rfl⟩

theorem restores_carryOut
    (hqueued : h.node.pending.pendingFor plan.request.node = some plan.request)
    (hlisted : plan.listed = h.node.record.lists plan.request.node) :
    Atomic (plan.carryOut io plan.request.node now parentLedger) h ↔ plan.Kept io now h := by
  have hstart : exec (plan.carryOut io plan.request.node now parentLedger) h
      = exec (Transaction.when (!plan.listed) (attachApproved plan.request plan.slot now)
          >>= fun _ => plan.conclude io now parentLedger)
        (h.withPending (h.node.pending.removePending plan.request.node)) := by
    rw [ApprovalPlan.carryOut, exec_bind, exec_modify]
  cases hcase : plan.listed with
  | true =>
      rw [hcase] at hstart
      rw [exec_bind, exec_when, if_neg (by decide)] at hstart
      have hunder : UnderApproval plan h.node.record h
          (h.withPending (h.node.pending.removePending plan.request.node)) :=
        ⟨hqueued, rfl, rfl, rfl, rfl, by rw [if_pos hcase]⟩
      rw [Atomic, restores_congr hstart, restores_conclude hunder, ApprovalPlan.Kept,
        ApprovalPlan.attached, if_pos hcase]
      cases ControlNode.reconciledPeers h.node.peers plan.request.peerKeys plan.state with
      | ok peers => rfl
      | error code =>
          dsimp only
          exact (and_iff_right (Or.inl hcase)).symm
  | false =>
      rw [hcase] at hstart hlisted
      rw [exec_bind, exec_when, if_pos (by decide)] at hstart
      have hattach := exec_attachApproved plan.request plan.slot now
        (h.withPending (h.node.pending.removePending plan.request.node))
      change match RecordStore.admitChild h.node.record plan.request.node (some plan.slot) with
        | .error e => _
        | .ok chosen => _ at hattach
      rw [ApprovalPlan.Kept, ApprovalPlan.attached, hcase, if_neg Bool.false_ne_true]
      cases hadmission : RecordStore.admitChild h.node.record plan.request.node
        (some plan.slot) with
      | error e =>
          rw [hadmission] at hattach
          dsimp only at hattach
          rw [hattach] at hstart
          rw [Atomic, restores_of_error hstart]
          constructor
          · exact fun hsame => (perm_addPending_iff hqueued).mp hsame.pending
          · intro honce
            exact ⟨rfl, rfl, (perm_addPending_iff hqueued).mpr honce, rfl, rfl, rfl⟩
      | ok chosen =>
          rw [hadmission] at hattach
          rcases hattach with ⟨hvalid, hexec⟩ | ⟨hinvalid, e, t, hexec, hrecord⟩
          · rw [hexec] at hstart
            have hunder : UnderApproval plan
                (RecordStore.pushChild h.node.record plan.request.node plan.request.kind chosen
                  now) h
                ((h.withPending (h.node.pending.removePending plan.request.node)).withRecord
                  (RecordStore.pushChild h.node.record plan.request.node plan.request.kind chosen
                    now)) :=
              ⟨hqueued, rfl, rfl, rfl, rfl, by
                rw [hcase, if_neg Bool.false_ne_true]
                exact ⟨RecordStore.dropChild_pushChild hlisted.symm _ _ _,
                  RecordStore.lists_pushChild _ _ _ _ _⟩⟩
            refine (restores_congr hstart).trans ((restores_conclude hunder).trans ?_)
            change _ ↔ match ControlNode.reconciledPeers h.node.peers plan.request.peerKeys
                plan.state with
              | .error _ => _
              | .ok _ => _
            cases ControlNode.reconciledPeers h.node.peers plan.request.peerKeys plan.state with
            | ok peers => rfl
            | error code =>
                dsimp only
                exact (and_iff_right (Or.inr hvalid)).symm
          · rw [hexec] at hstart
            rw [Atomic, restores_of_error hstart]
            refine iff_of_false (fun hsame => ?_) ?_
            · exact RecordStore.pushChild_ne _ _ _ _ _ (hrecord.symm.trans hsame.record)
            · change ¬ match ControlNode.reconciledPeers h.node.peers plan.request.peerKeys
                  plan.state with
                | .error _ => _
                | .ok _ => _
              cases ControlNode.reconciledPeers h.node.peers plan.request.peerKeys plan.state with
              | ok peers => exact fun hkept => hinvalid hkept.1
              | error code => exact fun hkept => hinvalid (hkept.1.resolve_left (by simp))

end Steps

/-- When a refused approval leaves everything as it was, whatever refuses it. -/
def ApprovalKept (io : Io) (node : NodeId) (slot : Option UInt8) (now : UInt64) (h : NodeHost) :
    Prop :=
  match h.node.planApproval node slot with
  | .error _ => True
  | .ok plan => plan.Kept io now h

theorem atomic_approvePending (io : Io) (node : NodeId) (slot : Option UInt8) (now : UInt64)
    (parentLedger : LedgerPubKey) (h : NodeHost) :
    Atomic (approvePending io node slot now parentLedger) h ↔ ApprovalKept io node slot now h := by
  have hexec := exec_approvePending io node slot now parentLedger h
  unfold ApprovalKept
  cases hplan : h.node.planApproval node slot with
  | error e =>
      rw [hplan] at hexec
      exact iff_of_true ((restores_of_error hexec).mpr (.refl h)) trivial
  | ok plan =>
      rw [hplan] at hexec
      obtain ⟨hqueued, rfl, -, hlisted⟩ := ControlNode.planApproval_spec hplan
      exact (restores_congr hexec).trans (restores_carryOut hqueued hlisted)

/-! ## Creations -/

theorem reconciledPeers_ne {n : ControlNode} {peer : PeerKeys} {peers : PeerRegistry}
    (hstate : n.existingPeerState peer ≠ .identical)
    (h : ControlNode.reconciledPeers n.peers peer (n.existingPeerState peer) = .ok peers) :
    peers ≠ n.peers := by
  rintro rfl
  unfold ControlNode.existingPeerState at hstate h
  cases hget : n.peers.get peer.nodeId with
  | none =>
      simp only [hget, ControlNode.reconciledPeers] at h
      cases hinsert : n.peers.insert peer with
      | error e => simp [hinsert] at h
      | ok next =>
          simp only [hinsert, Except.ok.injEq] at h
          have hrows := (PeerRegistry.rows_insert hinsert).length_eq
          rw [h] at hrows
          simp at hrows
  | some existing =>
      simp only [hget] at hstate h
      by_cases hsame : existing = peer
      · exact hstate (if_pos hsame)
      rw [if_neg hsame] at h
      by_cases hkeys : existing.operator = peer.operator ∧ existing.role = peer.role
      · rw [if_pos hkeys] at h
        -- the rebuilt registry is one that insertions build, so its rows stand under their ids
        have hregistered := PeerRegistry.registered_of_built
          (PeerRegistry.deserialize_built (PeerRegistry.deserialize_of_replace h))
        have hrekeyed := PeerRegistry.get_replacePeerLedger hregistered h peer.nodeId
        have hid := hregistered.keyed peer.nodeId existing hget
        rw [hget, Option.map_some, Option.some.injEq, PeerRegistry.rekeyed, if_pos hid] at hrekeyed
        refine hsame ?_
        rw [hrekeyed]
        cases existing
        cases peer
        simp_all
      · rw [if_neg hkeys] at h
        cases h

def CreateChild.peerKeys (create : CreateChild) : PeerKeys where
  nodeId := create.child
  operator := create.operator
  ledger := create.ledger
  role := create.kind.peerRole

/-- The checks that refuse a creation before anything is changed. -/
def CreateChild.Refused (create : CreateChild) (authority : Authority) (n : ControlNode) : Prop :=
  (n.existingPeerState create.peerKeys = .ledgerChanged ∧ authority ≠ .selfOperator)
    ∨ n.existingPeerState create.peerKeys = .conflict

/-- When a refused creation leaves everything as it was: a check or the registry refuses it, or
nothing does, because the record with the child is valid and the documents are written. -/
def CreationKept (io : Io) (create : CreateChild) (authority : Authority) (h : NodeHost) : Prop :=
  create.Refused authority h.node ∨
    let peers := ControlNode.reconciledPeers h.node.peers create.peerKeys
      (h.node.existingPeerState create.peerKeys)
    if h.node.record.lists create.child then
      h.node.existingPeerState create.peerKeys = .identical ∨ peers.toBool = false
        ∨ io.peersSaves = true
    else
      match RecordStore.admitChild h.node.record create.child create.slot with
      | .error _ => True
      | .ok slot =>
          (RecordStore.pushChild h.node.record create.child create.kind slot
            create.dateJoined).Valid
            ∧ (peers.toBool = false ∨ io.recordSaves = true ∧ io.peersSaves = true)

def CreateChild.reconcileListed (create : CreateChild) (io : Io) (state : PeerState) :
    Engine ControlReply := do
  Transaction.when (state ≠ .identical) do
    reconcilePeerRow create.peerKeys state
    savePeers io .internal
  pure .accepted

def saveCreation (io : Io) : Engine ControlReply := do
  saveRecord io .internal
  savePeers io .internal
  pure .accepted

/-- The registration of a new child, and the saves; `r` is the record to go back to. -/
def CreateChild.registerNew (create : CreateChild) (io : Io) (state : PeerState)
    (r : NodeRecord) : Engine ControlReply := do
  Transaction.when (state ≠ .identical)
    (Transaction.catchWith (reconcilePeerRow create.peerKeys state) fun code => do
      modify (NodeHost.withRecord r)
      throw code)
  saveCreation io

def CreateChild.attachNew (create : CreateChild) (io : Io) (state : PeerState) (r : NodeRecord) :
    Engine ControlReply := do
  Transaction.mapError mapRecordError (onRecord
    (RecordStore.attachChild create.child create.kind create.slot create.dateJoined))
  create.registerNew io state r

section

variable {io : Io} {create : CreateChild} {authority : Authority} {h s : NodeHost}
  {state : PeerState}

theorem exec_handleCreateChild (io : Io) (hrefused : ¬ create.Refused authority h.node) :
    exec (handleCreateChild io create authority) h =
      if h.node.record.lists create.child then
        exec (create.reconcileListed io (h.node.existingPeerState create.peerKeys)) h
      else
        exec (create.attachNew io (h.node.existingPeerState create.peerKeys) h.node.record) h := by
  rw [handleCreateChild, exec_get_bind, exec_refuseIf_bind]
  refine (if_neg hrefused).trans ?_
  cases h.node.record.lists create.child <;> rfl

theorem restores_reconcileListed (hstate : state = h.node.existingPeerState create.peerKeys) :
    Restores h h (create.reconcileListed io state) ↔ state = .identical
      ∨ (ControlNode.reconciledPeers h.node.peers create.peerKeys state).toBool = false
      ∨ io.peersSaves = true := by
  have hexec : exec (create.reconcileListed io state) h = _ := exec_bind _ _ h
  by_cases hidentical : state = .identical
  · rw [exec_when, if_neg (not_not_intro hidentical)] at hexec
    exact iff_of_true (restores_of_ok hexec) (Or.inl hidentical)
  · rw [exec_when, if_pos hidentical, exec_bind, exec_reconcilePeerRow] at hexec
    rw [or_iff_right hidentical]
    cases hpeers : ControlNode.reconciledPeers h.node.peers create.peerKeys state with
    | error code =>
        rw [hpeers] at hexec
        exact iff_of_true ((restores_of_error hexec).mpr (.refl h)) (Or.inl rfl)
    | ok peers =>
        rw [hpeers] at hexec
        dsimp only at hexec
        rw [exec_savePeers] at hexec
        by_cases hsaves : io.peersSaves = true
        · rw [if_pos hsaves] at hexec
          exact iff_of_true (restores_of_ok hexec) (Or.inr hsaves)
        · rw [if_neg hsaves] at hexec
          rw [restores_of_error hexec]
          refine iff_of_false (fun hsame => ?_) (not_or_intro (by simp [Except.toBool]) hsaves)
          rw [hstate] at hpeers hidentical
          exact reconciledPeers_ne hidentical hpeers hsame.peers

/-- Both documents are written, or memory is as it was. -/
theorem exec_saveCreation (io : Io) (s : NodeHost) :
    (s.node.record.Valid ∧ io.recordSaves = true ∧ io.peersSaves = true
      ∧ ∃ t, exec (saveCreation io) s = (.ok .accepted, t))
      ∨ ¬ (s.node.record.Valid ∧ io.recordSaves = true ∧ io.peersSaves = true)
        ∧ ∃ e t, exec (saveCreation io) s = (.error e, t) ∧ t.node = s.node := by
  rw [saveCreation, exec_bind, exec_saveRecord, ← validate_toBool]
  by_cases hrecord : s.node.record.validate.toBool = true ∧ io.recordSaves = true
  · rw [if_pos hrecord]
    dsimp only
    rw [exec_bind, exec_savePeers]
    by_cases hpeers : io.peersSaves = true
    · rw [if_pos hpeers]
      exact .inl ⟨hrecord.1, hrecord.2, hpeers, _, rfl⟩
    · rw [if_neg hpeers]
      exact .inr ⟨fun hall => hpeers hall.2.2, _, _, rfl, rfl⟩
  · rw [if_neg hrecord]
    exact .inr ⟨fun hall => hrecord ⟨hall.1, hall.2.1⟩, _, _, rfl, rfl⟩

/-- A failed save finds the child in the record. -/
theorem restores_saveCreation (hrecord : s.node.record ≠ h.node.record)
    (hvalid : s.node.record.Valid) :
    Restores h s (saveCreation io) ↔ io.recordSaves = true ∧ io.peersSaves = true := by
  rcases exec_saveCreation io s with ⟨-, hsaves, hpeers, t, ht⟩ | ⟨hnot, e, t, ht, hnode⟩
  · exact iff_of_true (restores_of_ok ht) ⟨hsaves, hpeers⟩
  · refine iff_of_false (fun hrestores => ?_) fun hsaves => hnot ⟨hvalid, hsaves⟩
    have hsame := (hrestores e t ht).record
    rw [hnode] at hsame
    exact hrecord hsame

/-- The registry refuses the child, which is taken back, or the saves decide. -/
theorem restores_registerNew {r : NodeRecord} (hne : r ≠ h.node.record) (hvalid : r.Valid) :
    Restores h (h.withRecord r) (create.registerNew io state h.node.record) ↔
      (ControlNode.reconciledPeers h.node.peers create.peerKeys state).toBool = false
        ∨ io.recordSaves = true ∧ io.peersSaves = true := by
  have hexec : exec (create.registerNew io state h.node.record) (h.withRecord r) = _ :=
    exec_bind _ _ _
  by_cases hidentical : state = .identical
  · rw [exec_when, if_neg (not_not_intro hidentical)] at hexec
    rw [restores_congr hexec, restores_saveCreation hne hvalid, hidentical]
    exact (or_iff_right (by simp [ControlNode.reconciledPeers, Except.toBool])).symm
  · have hreconcile : exec (reconcilePeerRow create.peerKeys state) (h.withRecord r)
        = match ControlNode.reconciledPeers h.node.peers create.peerKeys state with
          | .error code => (.error code, h.withRecord r)
          | .ok peers => (.ok ⟨⟩, (h.withRecord r).withPeers peers) :=
      exec_reconcilePeerRow _ _ _
    rw [exec_when, if_pos hidentical, exec_catchWith, hreconcile] at hexec
    cases hpeers : ControlNode.reconciledPeers h.node.peers create.peerKeys state with
    | error code =>
        rw [hpeers] at hexec
        exact iff_of_true ((restores_of_error hexec).mpr (.refl h)) (Or.inl rfl)
    | ok peers =>
        rw [hpeers] at hexec
        rw [restores_congr hexec, restores_saveCreation hne hvalid]
        exact (or_iff_right (by simp [Except.toBool])).symm

theorem restores_attachNew :
    Restores h h (create.attachNew io state h.node.record) ↔
      match RecordStore.admitChild h.node.record create.child create.slot with
      | .error _ => True
      | .ok slot =>
          (RecordStore.pushChild h.node.record create.child create.kind slot
            create.dateJoined).Valid
            ∧ ((ControlNode.reconciledPeers h.node.peers create.peerKeys state).toBool = false
              ∨ io.recordSaves = true ∧ io.peersSaves = true) := by
  have hexec : exec (create.attachNew io state h.node.record) h = _ := exec_bind _ _ h
  rw [exec_mapError, onRecord, exec_zoom, RecordStore.exec_attachChild] at hexec
  cases hadmission : RecordStore.admitChild h.node.record create.child create.slot with
  | error e =>
      rw [hadmission] at hexec
      exact iff_of_true ((restores_of_error hexec).mpr (.refl h)) trivial
  | ok slot =>
      rw [hadmission] at hexec
      dsimp only at hexec
      rw [RecordStore.exec_revalidate] at hexec
      have hne := RecordStore.pushChild_ne h.node.record create.child create.kind slot
        create.dateJoined
      dsimp only
      rw [← NodeRecord.validate_eq_ok]
      cases hvalid : (RecordStore.pushChild h.node.record create.child create.kind slot
          create.dateJoined).validate with
      | error e =>
          rw [hvalid] at hexec
          rw [restores_of_error hexec]
          exact iff_of_false (fun hsame => hne hsame.record) (by simp)
      | ok u =>
          rw [hvalid] at hexec
          have hrecord := NodeRecord.validate_eq_ok.mp hvalid
          have htrue : (Except.ok u : Except RecordError Unit) = .ok () := rfl
          rw [and_iff_right htrue]
          exact (restores_congr hexec).trans (restores_registerNew hne hrecord)

theorem atomic_handleCreateChild (io : Io) (create : CreateChild) (authority : Authority)
    (h : NodeHost) :
    Atomic (handleCreateChild io create authority) h ↔ CreationKept io create authority h := by
  unfold CreationKept
  by_cases hrefused : create.Refused authority h.node
  · have hexec : exec (handleCreateChild io create authority) h = (.error .unauthorized, h) := by
      rw [handleCreateChild, exec_get_bind, exec_refuseIf_bind]
      exact if_pos hrefused
    exact iff_of_true ((restores_of_error hexec).mpr (.refl h)) (Or.inl hrefused)
  · have hexec := exec_handleCreateChild io hrefused
    rw [or_iff_right hrefused]
    by_cases hlists : h.node.record.lists create.child = true
    · rw [if_pos hlists] at hexec ⊢
      exact (restores_congr hexec).trans (restores_reconcileListed rfl)
    · rw [if_neg hlists] at hexec ⊢
      exact (restores_congr hexec).trans restores_attachNew

end

/-- A refused approval, and a refused creation, leave the record, the registry and the pending
joins as they were exactly when no save refuses it, once the request was taken out and the child
was attached to a valid record. -/
theorem admission_atomic_iff (io : Io) (h : NodeHost) :
    (∀ node slot now parentLedger,
      Atomic (approvePending io node slot now parentLedger) h ↔ ApprovalKept io node slot now h)
    ∧ ∀ create authority,
      Atomic (handleCreateChild io create authority) h ↔ CreationKept io create authority h :=
  ⟨fun node slot now parentLedger => atomic_approvePending io node slot now parentLedger h,
    fun create authority => atomic_handleCreateChild io create authority h⟩

end

section

open Concrete

def waitingJoin : DataDir :=
  { directory [] [] [] with
    pending :=
      [{ node := "c", kind := .node, operator := (2 : ℕ), ledger := some (12 : ℕ)
         desiredSlot := none, locationHint := none, nonce := 1, expiry := 200 }] }

def creationOfC : CreateChild where
  child := "c"
  operator := (2 : ℕ)
  ledger := some (12 : ℕ)
  kind := .node
  slot := none
  dateJoined := 150

/-- A disk on which the record cannot be written. -/
def recordUnsaved : Io := { io with recordSaves := false }

/-- A transaction that refuses and leaves an unlisted child in the record is not atomic. -/
theorem not_atomic_of_listed {ε α : Type} {x : Transaction NodeHost ε α} {h : NodeHost}
    {child : NodeId} (hbefore : h.node.record.lists child = false)
    (hafter : (exec x h).2.node.record.lists child = true) (herror : (exec x h).1.toBool = false) :
    ¬ Atomic x h := by
  intro hatomic
  cases hx : exec x h with
  | mk result t =>
      cases result with
      | ok a =>
          rw [hx] at herror
          cases herror
      | error e =>
          rw [hx] at hafter
          rw [(hatomic e t hx).record, hbefore] at hafter
          cases hafter

/-- When the record cannot be written, the approval and the creation of `c` are refused and `c` is
listed in memory. -/
theorem refused_admission_changes :
    ∃ h, (started waitingJoin).map (·.host) = some h
      ∧ ¬ Atomic (approvePending recordUnsaved "c" none 150 (9 : ℕ)) h
      ∧ ¬ Atomic (handleCreateChild recordUnsaved creationOfC .selfOperator) h := by
  have hrun : ((started waitingJoin).map (·.host)).any (fun h =>
      !h.node.record.lists "c"
        && ((exec (approvePending recordUnsaved "c" none 150 (9 : ℕ)) h).2.node.record.lists "c"
          && !(exec (approvePending recordUnsaved "c" none 150 (9 : ℕ)) h).1.toBool)
        && ((exec (handleCreateChild recordUnsaved creationOfC .selfOperator) h).2.node.record.lists
            "c"
          && !(exec (handleCreateChild recordUnsaved creationOfC .selfOperator) h).1.toBool))
      = true := by decide +kernel
  simp only [Option.any_eq_true, Bool.and_eq_true, Bool.not_eq_true'] at hrun
  obtain ⟨h, hstarted, ⟨hbefore, happroved, hrefused⟩, hcreated, hrefused'⟩ := hrun
  exact ⟨h, hstarted, not_atomic_of_listed hbefore happroved hrefused,
    not_atomic_of_listed hbefore hcreated hrefused'⟩

end

end Cawala
