import Cawala.Model.ControlEngine

/-! # What the handlers keep

The handlers change little of what the control engine rests on: the record in memory and on
disk, the designations, and the marks of the replay guard. A fact about these that the steps of
the ordinary handlers keep is kept by the handlers. The requests that detach a child, move its
anchor or change the designations stand apart. -/

namespace Cawala

open Library Transaction

/-! ## Operations on the links -/

namespace RecordStore

variable {cs : List ChildEntry}

theorem revalidate_keeps {I : NodeRecord → Prop} : Keeps I revalidate :=
  Keeps.get_bind fun _ _ => Keeps.ofExcept _

theorem setAddressValue_links (address : Option OctAddr) :
    Keeps (fun r => r.children = cs) (setAddressValue address) := by
  apply Keeps.modify
  intro r hr
  by_cases h : r.address ≠ address
  · rw [if_pos h]
    exact hr
  · rw [if_neg h]
    exact hr

theorem setAddress_links (address : OctAddr) :
    Keeps (fun r => r.children = cs) (setAddress address) :=
  (setAddressValue_links _).bind fun _ => revalidate_keeps

theorem unsetAddress_links : Keeps (fun r => r.children = cs) unsetAddress :=
  (setAddressValue_links _).bind fun _ => revalidate_keeps

theorem setParentGeneration_links (generation : UInt64) :
    Keeps (fun r => r.children = cs) (setParentGeneration generation) :=
  Keeps.modify fun _ hr => hr

theorem applyRebase_links (address : OctAddr) (slot : UInt8) (generation : UInt64) :
    Keeps (fun r => r.children = cs) (applyRebase address slot generation) := by
  apply Keeps.onCopy
  apply Keeps.bind (setAddressValue_links _)
  intro _
  refine Keeps.bind (Keeps.modify fun _ hr => ?_) fun _ => ?_
  · exact hr
  exact (setParentGeneration_links _).bind fun _ => revalidate_keeps

theorem setParent_links (parent : NodeId) (slot : UInt8) :
    Keeps (fun r => r.children = cs) (setParent parent slot) := by
  apply Keeps.get_bind
  intro _ _
  apply Keeps.bind (Keeps.refuseIf _ _)
  intro _
  apply Keeps.bind (Keeps.refuseIf _ _)
  intro _
  refine Keeps.bind (Keeps.modify fun _ hr => ?_) fun _ => revalidate_keeps
  exact hr

theorem unsetParent_links : Keeps (fun r => r.children = cs) unsetParent := by
  refine Keeps.bind (Keeps.modify fun _ hr => ?_) fun _ => ?_
  · exact hr
  apply Keeps.get_bind
  intro _ _
  exact (Keeps.when fun _ => setAddressValue_links _).bind fun _ => revalidate_keeps

theorem rebaseToRoot_links : Keeps (fun r => r.children = cs) rebaseToRoot := by
  refine Keeps.bind (Keeps.modify fun _ hr => ?_) fun _ => ?_
  · exact hr
  exact (setAddressValue_links _).bind fun _ => revalidate_keeps

end RecordStore

/-! ## Designation sets -/

namespace AdminState

theorem has_iff {s : AdminState} {id : NodeId} : s.has id = true ↔ id ∈ s.admins := by
  simp [has]

theorem has_of_add {s s' : AdminState} {id child : NodeId} (hadd : s.add child = some s')
    (hhas : s'.has id = true) : s.has id = true ∨ id = child := by
  simp only [add, Option.ite_none_left_eq_some, Option.some.injEq] at hadd
  obtain ⟨-, -, rfl⟩ := hadd
  simpa [has_iff] using hhas

theorem has_of_remove {s : AdminState} {id child : NodeId}
    (hhas : (s.remove child).has id = true) : s.has id = true := by
  rw [has_iff] at hhas ⊢
  exact (List.mem_filter.mp hhas).1

theorem has_of_prune {s : AdminState} {id : NodeId} {children : List NodeId}
    (hhas : (s.prune children).has id = true) : s.has id = true ∧ id ∈ children := by
  rw [has_iff, prune, List.mem_filter] at hhas
  rw [has_iff]
  exact ⟨hhas.1, by simpa using hhas.2⟩

@[simp] theorem has_markUpdated (s : AdminState) (now : UInt64) (by_ : String) (id : NodeId) :
    (s.markUpdated now by_).has id = s.has id := rfl

end AdminState

/-! ## The facts in question -/

variable [Crypto]

/-- What the engine decides by. -/
structure HostCore where
  record : NodeRecord
  storedRecord : Option NodeRecord
  admins : AdminState
  storedAdmins : Option AdminState
  seen : SeenStore SeenKey
  storedSeen : Option (List (SeenEntry SeenKey))
  nodeId : NodeId
  operator : OperatorSecretKey

/-- The part of a host that the engine decides by. -/
def NodeHost.core (h : NodeHost) : HostCore where
  record := h.node.record
  storedRecord := h.disk.record
  admins := h.node.adminState
  storedAdmins := h.disk.adminState
  seen := h.node.seen
  storedSeen := h.disk.seen
  nodeId := h.node.nodeId
  operator := h.node.operator

def NodeHost.recordSaved (h : NodeHost) : NodeHost :=
  { h with disk := { h.disk with record := some h.node.record } }

/-- A fact about the core alone. -/
structure CoreInvariant (I : NodeHost → Prop) : Prop where
  quiet : ∀ {h h' : NodeHost}, h'.core = h.core → I h → I h'

/-- A fact about the core that the steps of the ordinary handlers keep. -/
structure HandlerInvariant (I : NodeHost → Prop) : Prop extends CoreInvariant I where
  saved : ∀ {h : NodeHost}, I h → I h.recordSaved
  links : ∀ {h : NodeHost} {r : NodeRecord}, r.children = h.node.record.children → I h →
    I (h.withRecord r)
  restored : ∀ {h h' : NodeHost}, I h → I h' → I (h'.withRecord h.node.record)
  attached : ∀ child kind slot now,
    Keeps I (onRecord (RecordStore.attachChild child kind slot now))
  undone : ∀ {h : NodeHost} {child}, I h → h.node.record.childEntry child = none →
    Keeps I (onRecord (RecordStore.detachChild child))
  moved : ∀ child slot, Keeps I (onRecord (RecordStore.moveChildSlot child slot))

theorem onRecord_keeps {α : Type} {I : NodeHost → Prop} {x : RecordOp α}
    (hI : ∀ {h : NodeHost} {r : NodeRecord}, I h → I (h.withRecord r)) : Keeps I (onRecord x) :=
  Keeps.zoom (J := fun _ => True) (fun _ _ => trivial) (fun _ _ hs _ => hI hs)
    (Keeps.of_exec fun _ _ => trivial)

/-- What is about neither record is such a fact. -/
theorem HandlerInvariant.of_ignores {I : NodeHost → Prop}
    (hquiet : ∀ {h h' : NodeHost}, h'.core = h.core → I h → I h')
    (hsaved : ∀ {h : NodeHost}, I h → I h.recordSaved)
    (hrecord : ∀ {h : NodeHost} {r : NodeRecord}, I h → I (h.withRecord r)) :
    HandlerInvariant I where
  quiet := hquiet
  saved := hsaved
  links _ hI := hrecord hI
  restored _ hI := hrecord hI
  attached _ _ _ _ := onRecord_keeps hrecord
  undone _ _ := onRecord_keeps hrecord
  moved _ _ := onRecord_keeps hrecord

/-! ### The steps of a handler -/

/-- The children whose detach notices wait for delivery. -/
def NodeHost.detaches (h : NodeHost) : List NodeId :=
  (h.node.outbound.filter fun item => item.kind == .detachNotice).map (·.target)

/-- A fact about the core and the waiting detach notices. -/
structure QuietInvariant (I : NodeHost → Prop) : Prop where
  still : ∀ {h h' : NodeHost}, h'.core = h.core → h'.detaches = h.detaches → I h → I h'

/-- Such a fact, kept by the steps of the handlers that leave the parent link. -/
structure OrdinaryInvariant (I : NodeHost → Prop) : Prop extends QuietInvariant I where
  saved : ∀ {h : NodeHost}, I h → I h.recordSaved
  restored : ∀ {h h' : NodeHost}, I h → I h' → I (h'.withRecord h.node.record)
  attached : ∀ child kind slot now,
    Keeps I (onRecord (RecordStore.attachChild child kind slot now))
  undone : ∀ {h : NodeHost} {child}, I h → h.node.record.childEntry child = none →
    Keeps I (onRecord (RecordStore.detachChild child))
  moved : ∀ child slot, Keeps I (onRecord (RecordStore.moveChildSlot child slot))
  addressSet : ∀ address, Keeps I (onRecord (RecordStore.setAddress address))
  addressUnset : Keeps I (onRecord RecordStore.unsetAddress)
  generationSet : ∀ generation, Keeps I (onRecord (RecordStore.setParentGeneration generation))
  rebased : ∀ address slot generation,
    Keeps I (onRecord (RecordStore.applyRebase address slot generation))

/-- Such a fact, kept also by the handlers that replace or drop the parent link. -/
structure RelinkInvariant (I : NodeHost → Prop) : Prop extends OrdinaryInvariant I where
  parentSet : ∀ parent slot, Keeps I (onRecord (RecordStore.setParent parent slot))
  rooted : Keeps I (onRecord RecordStore.rebaseToRoot)
  unlinked : Keeps I (onRecord do
    RecordStore.unsetAddress
    RecordStore.unsetParent)

def Notifies [ControlPostcard] (I : NodeHost → Prop) : Prop :=
  ∀ child now, Keeps I (queueNotice child .detachNotice (.detachNotice child) now)

theorem CoreInvariant.toQuiet {I : NodeHost → Prop} (g : CoreInvariant I) : QuietInvariant I :=
  ⟨fun hcore _ => g.quiet hcore⟩

theorem HandlerInvariant.onLinks {I : NodeHost → Prop} (g : HandlerInvariant I) {α : Type}
    {x : RecordOp α} (hx : ∀ cs, Keeps (fun r => r.children = cs) x) : Keeps I (onRecord x) := by
  apply Keeps.of_exec
  intro h hs
  exact g.links ((hx h.node.record.children).exec rfl) hs

/-- A fact that the operations on the links keep is kept by each of them. -/
theorem HandlerInvariant.relink {I : NodeHost → Prop} (g : HandlerInvariant I) :
    RelinkInvariant I where
  toQuietInvariant := g.toCoreInvariant.toQuiet
  saved := g.saved
  restored := g.restored
  attached := g.attached
  undone := g.undone
  moved := g.moved
  addressSet address := g.onLinks fun _ => RecordStore.setAddress_links address
  addressUnset := g.onLinks fun _ => RecordStore.unsetAddress_links
  generationSet generation := g.onLinks fun _ => RecordStore.setParentGeneration_links generation
  rebased address slot generation :=
    g.onLinks fun _ => RecordStore.applyRebase_links address slot generation
  parentSet parent slot := g.onLinks fun _ => RecordStore.setParent_links parent slot
  rooted := g.onLinks fun _ => RecordStore.rebaseToRoot_links
  unlinked := g.onLinks fun _ =>
    RecordStore.unsetAddress_links.bind fun _ => RecordStore.unsetParent_links

theorem HandlerInvariant.ordinary {I : NodeHost → Prop} (g : HandlerInvariant I) :
    OrdinaryInvariant I := g.relink.toOrdinaryInvariant

namespace QuietInvariant

variable {I : NodeHost → Prop} {ε : Type}

theorem modify (g : QuietInvariant I) {f : NodeHost → NodeHost}
    (hf : ∀ h, (f h).core = h.core ∧ (f h).detaches = h.detaches) :
    Keeps I (modify f : Transaction NodeHost ε PUnit) :=
  Keeps.modify fun h hs => g.still (hf h).1 (hf h).2 hs

/-! ### Saves and notices -/

theorem savePeers (g : QuietInvariant I) (io : Io) (e : ε) : Keeps I (savePeers io e) := by
  apply Keeps.bind (Keeps.refuseIf _ _)
  intro _
  exact g.modify fun _ => ⟨rfl, rfl⟩

theorem savePending (g : QuietInvariant I) (io : Io) (e : ε) : Keeps I (savePending io e) := by
  apply Keeps.bind (Keeps.refuseIf _ _)
  intro _
  refine Keeps.bind (g.modify fun _ => ⟨rfl, rfl⟩) fun _ => ?_
  apply Keeps.bind (Keeps.refuseIf _ _)
  intro _
  exact g.modify fun _ => ⟨rfl, rfl⟩

theorem reconcilePeerRow (g : QuietInvariant I) (peer : PeerKeys) (state : PeerState) :
    Keeps I (reconcilePeerRow peer state) := by
  apply Keeps.get_bind
  intro _ _
  apply Keeps.bind (Keeps.ofExcept _)
  intro _
  exact g.modify fun _ => ⟨rfl, rfl⟩

theorem storeDecision (g : QuietInvariant I) (signed : SignedControl) :
    Keeps I (storeDecision signed) := by
  apply g.modify
  intro h
  cases decisionTarget signed with
  | none => exact ⟨rfl, rfl⟩
  | some child => exact ⟨rfl, rfl⟩

section Notices

variable [ControlPostcard]

omit [ControlPostcard] in
theorem push (g : QuietInvariant I) (child : NodeId) {kind : OutboundKind}
    (hkind : kind ≠ .detachNotice) (signed : SignedControl) :
    Keeps I (modifyThe NodeHost (NodeHost.pushOutbound { target := child, signed, kind })
      : Transaction NodeHost ε PUnit) := by
  apply g.modify
  intro h
  refine ⟨rfl, ?_⟩
  simp [NodeHost.detaches, NodeHost.pushOutbound, hkind]

/-- Signing a frame moves only the entropy. -/
theorem signDecision (g : QuietInvariant I) (request : ControlRequest) (now : UInt64) :
    Keeps I (signDecision request now : Transaction NodeHost ε SignedControl) := by
  intro h hs
  have hcore : ({ h with entropy := fun i => h.entropy (i + 1) } : NodeHost).core = h.core := rfl
  exact g.still hcore rfl hs

theorem queueNotice (g : QuietInvariant I) (child : NodeId) {kind : OutboundKind}
    (hkind : kind ≠ .detachNotice) (request : ControlRequest) (now : UInt64) :
    Keeps I (queueNotice child kind request now) := by
  apply Keeps.bind (g.signDecision request now)
  intro signed
  exact g.push child hkind signed

theorem deliverDecision (g : QuietInvariant I) (target : NodeId) (request : ControlRequest)
    {kind : OutboundKind} (hkind : kind ≠ .detachNotice) (now : UInt64) :
    Keeps I (deliverDecision target request kind now) := by
  apply Keeps.bind (g.signDecision request now)
  intro signed
  apply Keeps.bind (g.storeDecision signed)
  intro _
  exact g.push target hkind signed

theorem queueRebaseNotice (g : QuietInvariant I) (child : NodeId) (slot : UInt8)
    (parent : OctAddr) (now : UInt64) : Keeps I (queueRebaseNotice child slot parent now) := by
  apply Keeps.get_bind
  intro _ _
  split
  · exact g.queueNotice child (by decide) _ now
  · exact Keeps.pure _

theorem propagateRebase (g : QuietInvariant I) (parent : OctAddr) (now : UInt64) :
    Keeps I (propagateRebase parent now) := by
  apply Keeps.get_bind
  intro _ _
  exact Keeps.forM fun _ _ => g.queueRebaseNotice _ _ _ _

end Notices

end QuietInvariant

/-- A fact about the core alone is kept by every notice. -/
theorem CoreInvariant.notifies [ControlPostcard] {I : NodeHost → Prop} (g : CoreInvariant I) :
    Notifies I := by
  intro child now
  apply Keeps.bind (g.toQuiet.signDecision _ now)
  intro signed
  exact Keeps.modify fun h hs => g.quiet (h := h) rfl hs

namespace OrdinaryInvariant

variable {I : NodeHost → Prop} {ε : Type}

theorem restore (g : OrdinaryInvariant I) {h : NodeHost} (hs : I h) :
    Keeps I (modifyThe NodeHost (NodeHost.withRecord h.node.record)
      : Transaction NodeHost ε PUnit) :=
  Keeps.modify fun _ hs' => g.restored hs hs'

theorem saveRecord (g : OrdinaryInvariant I) (io : Io) (e : ε) : Keeps I (saveRecord io e) := by
  apply Keeps.get_bind
  intro _ _
  apply Keeps.bind (Keeps.refuseIf _ _)
  intro _
  exact Keeps.modify fun _ hs => g.saved hs

/-! ### Approvals -/

theorem attachApproved (g : OrdinaryInvariant I) (request : JoinRequest) (slot : UInt8)
    (now : UInt64) : Keeps I (attachApproved request slot now) := by
  apply Keeps.catchWith (g.attached _ _ _ _)
  intro _
  exact Keeps.bind (g.modify fun _ => ⟨rfl, rfl⟩) fun _ => Keeps.throw _

/-- The attachment of an applicant that was not listed may be taken back. -/
theorem registerApproved (g : OrdinaryInvariant I) {request : JoinRequest} {listed : Bool}
    {h : NodeHost} (hs : I h)
    (hfresh : listed = false → h.node.record.childEntry request.node = none)
    (state : PeerState) : Keeps I (registerApproved request state listed) := by
  apply Keeps.catchWith (g.reconcilePeerRow _ _)
  intro _
  refine Keeps.bind (Keeps.when fun hlisted => ?_) fun _ => ?_
  · apply Keeps.catchWith (g.undone hs (hfresh (by simpa using hlisted)))
    intro _
    exact Keeps.pure _
  · exact Keeps.bind (g.modify fun _ => ⟨rfl, rfl⟩) fun _ => Keeps.throw _

theorem approvePending (g : OrdinaryInvariant I) (io : Io) (node : NodeId) (slot : Option UInt8)
    (now : UInt64) (parentLedger : LedgerPubKey) :
    Keeps I (approvePending io node slot now parentLedger) := by
  apply Keeps.get_bind
  intro h hs
  split
  · exact Keeps.throw _
  · split
    · exact Keeps.throw _
    · apply Keeps.bind (Keeps.refuseIf _ _)
      intro _
      apply Keeps.bind (Keeps.ofExcept _)
      intro _
      split
      · exact Keeps.throw _
      · refine Keeps.bind (g.modify fun _ => ⟨rfl, rfl⟩) fun _ => ?_
        apply Keeps.bind (Keeps.when fun _ => g.attachApproved _ _ _)
        intro _
        apply Keeps.bind (Keeps.when fun _ => g.registerApproved hs (by simp) _)
        intro _
        apply Keeps.bind (g.saveRecord _ _)
        intro _
        apply Keeps.bind (g.savePeers _ _)
        intro _
        exact (g.savePending _ _).bind fun _ => Keeps.pure _

theorem rejectPending (g : OrdinaryInvariant I) (io : Io) (node : NodeId) (e : ε) :
    Keeps I (rejectPending io node e) :=
  Keeps.bind (g.modify fun _ => ⟨rfl, rfl⟩) fun _ => g.savePending _ _

theorem rememberParentPeer (g : OrdinaryInvariant I) (signed : SignedControl)
    (approval : JoinApproval) : Keeps I (rememberParentPeer signed approval) := by
  apply Keeps.get_bind
  intro _ _
  apply Keeps.bind (Keeps.ofExcept _)
  intro _
  exact g.modify fun _ => ⟨rfl, rfl⟩

/-! ### Ordinary requests -/

theorem handleJoinRejected [ControlPostcard] (g : OrdinaryInvariant I) (io : Io)
    (signed : SignedControl) (rejection : JoinRejection) :
    Keeps I (handleJoinRejected io signed rejection) := by
  apply Keeps.bind (Keeps.refuseIf _ _)
  intro _
  apply Keeps.bind (Keeps.refuseIf _ _)
  intro _
  apply Keeps.get_bind
  intro _ _
  split
  · exact Keeps.pure _
  · apply Keeps.bind (Keeps.refuseIf _ _)
    intro _
    apply Keeps.bind (Keeps.refuseIf _ _)
    intro _
    apply Keeps.bind (Keeps.refuseIf _ _)
    intro _
    refine Keeps.bind (g.modify fun _ => ⟨rfl, rfl⟩) fun _ => ?_
    exact (g.savePending _ _).bind fun _ => Keeps.pure _

variable [ControlPostcard]

theorem handleJoin (g : OrdinaryInvariant I) (io : Io) (signed : SignedControl)
    (join : JoinRequest) (now : UInt64) : Keeps I (handleJoin io signed join now) := by
  apply Keeps.bind (Keeps.refuseIf _ _)
  intro _
  apply Keeps.bind (Keeps.refuseIf _ _)
  intro _
  apply Keeps.bind (Keeps.refuseIf _ _)
  intro _
  apply Keeps.bind (Keeps.refuseIf _ _)
  intro _
  apply Keeps.get_bind
  intro _ _
  split
  · exact Keeps.pure _
  · apply Keeps.bind (Keeps.ofExcept _)
    intro _
    apply Keeps.bind (Keeps.refuseIf _ _)
    intro _
    refine Keeps.bind (g.modify fun _ => ⟨rfl, rfl⟩) fun _ => ?_
    exact (g.savePending _ _).bind fun _ => Keeps.pure _

omit [ControlPostcard] in
theorem handleCreateChild (g : OrdinaryInvariant I) (io : Io) (create : CreateChild)
    (authority : Authority) : Keeps I (handleCreateChild io create authority) := by
  apply Keeps.get_bind
  intro h hs
  apply Keeps.bind (Keeps.refuseIf _ _)
  intro _
  split
  · refine Keeps.bind (Keeps.when fun _ => ?_) fun _ => Keeps.pure _
    exact (g.reconcilePeerRow _ _).bind fun _ => g.savePeers _ _
  · apply Keeps.bind (g.attached _ _ _ _).mapError
    intro _
    refine Keeps.bind (Keeps.when fun _ => ?_) fun _ => ?_
    · apply Keeps.catchWith (g.reconcilePeerRow _ _)
      intro _
      exact (g.restore hs).bind fun _ => Keeps.throw _
    · apply Keeps.bind (g.saveRecord _ _)
      intro _
      exact (g.savePeers _ _).bind fun _ => Keeps.pure _

theorem applyMoveChild (g : OrdinaryInvariant I) (io : Io) (child : NodeId)
    (slot : Option UInt8) (now : UInt64) : Keeps I (applyMoveChild io child slot now) := by
  apply Keeps.get_bind
  intro h hs
  split
  · exact Keeps.throw _
  · apply Keeps.bind (Keeps.refuseIf _ _)
    intro _
    split
    · exact Keeps.throw _
    · refine Keeps.bind (Keeps.catchWith (g.moved _ _) fun _ => ?_) fun _ => ?_
      · exact (g.restore hs).bind fun _ => Keeps.throw _
      · split
        · exact Keeps.pure _
        · apply Keeps.bind (g.saveRecord _ _)
          intro _
          apply Keeps.get_bind
          intro _ _
          exact (Keeps.forSome fun _ _ => g.queueRebaseNotice _ _ _ _).bind fun _ => Keeps.pure _

theorem handleMoveChild (g : OrdinaryInvariant I) (io : Io) (move : MoveChild) (now : UInt64) :
    Keeps I (handleMoveChild io move now) := by
  apply Keeps.get_bind
  intro _ _
  apply Keeps.bind (Keeps.refuseIf _ _)
  intro _
  exact g.applyMoveChild _ _ _ _

omit [ControlPostcard] in
theorem handleSetAddress (g : OrdinaryInvariant I) (io : Io) (address : Option OctAddr)
    (authority : Authority) : Keeps I (handleSetAddress io address authority) := by
  apply Keeps.bind (Keeps.refuseIf _ _)
  intro _
  refine Keeps.bind (Keeps.mapError ?_) fun _ => ?_
  · cases address with
    | some address => exact g.addressSet address
    | none => exact g.addressUnset
  · exact (g.saveRecord _ _).bind fun _ => Keeps.pure _

theorem handleRebase (g : OrdinaryInvariant I) (io : Io) (signed : SignedControl)
    (notice : RebaseNotice) (now : UInt64) : Keeps I (handleRebase io signed notice now) := by
  apply Keeps.bind (Keeps.refuseIf _ _)
  intro _
  apply Keeps.get_bind
  intro _ _
  apply Keeps.bind (Keeps.refuseIf _ _)
  intro _
  split
  · exact Keeps.throw _
  · apply Keeps.bind (Keeps.refuseIf _ _)
    intro _
    apply Keeps.bind (Keeps.refuseIf _ _)
    intro _
    apply Keeps.bind (Keeps.refuseIf _ _)
    intro _
    dsimp only
    split
    · exact Keeps.pure _
    · split
      · refine Keeps.bind (Keeps.when fun _ => ?_) fun _ => Keeps.pure _
        apply Keeps.bind (g.generationSet _).mapError
        intro _
        exact g.saveRecord _ _
      · apply Keeps.bind (Keeps.refuseIf _ _)
        intro _
        split
        · exact Keeps.throw _
        · apply Keeps.bind (g.rebased _ _ _).mapError
          intro _
          apply Keeps.bind (g.saveRecord _ _)
          intro _
          exact (g.propagateRebase _ _).bind fun _ => Keeps.pure _

theorem handleRebasePull (signed : SignedControl) (node : NodeId) :
    Keeps I (handleRebasePull signed node) := by
  apply Keeps.bind (Keeps.refuseIf _ _)
  intro _
  apply Keeps.bind (Keeps.refuseIf _ _)
  intro _
  apply Keeps.get_bind
  intro _ _
  apply Keeps.bind (Keeps.refuseIf _ _)
  intro _
  exact (Keeps.refuseIf _ _).bind fun _ => Keeps.pure _

theorem handleAdminApproveJoin (g : OrdinaryInvariant I) (io : Io) (approve : AdminJoinApprove)
    (now : UInt64) : Keeps I (handleAdminApproveJoin io approve now) := by
  apply Keeps.bind (Keeps.refuseIf _ _)
  intro _
  apply Keeps.get_bind
  intro _ _
  apply Keeps.bind (Keeps.ofExcept _)
  intro _
  split
  · exact Keeps.throw _
  · apply Keeps.bind (g.approvePending _ _ _ _ _).mapError
    intro _
    exact (g.deliverDecision _ _ (by decide) _).bind fun _ => Keeps.pure _

theorem handleAdminRejectJoin (g : OrdinaryInvariant I) (io : Io) (reject : AdminJoinReject)
    (now : UInt64) : Keeps I (handleAdminRejectJoin io reject now) := by
  apply Keeps.bind (Keeps.refuseIf _ _)
  intro _
  apply Keeps.get_bind
  intro _ _
  split
  · exact Keeps.throw _
  · apply Keeps.bind (g.rejectPending _ _ _)
    intro _
    exact (g.deliverDecision _ _ (by decide) _).bind fun _ => Keeps.pure _

theorem handleAdminRedeliverJoin (g : OrdinaryInvariant I) (child : NodeId) (now : UInt64) :
    Keeps I (handleAdminRedeliverJoin child now) := by
  apply Keeps.bind (Keeps.refuseIf _ _)
  intro _
  apply Keeps.get_bind
  intro _ _
  split
  · exact Keeps.throw _
  · split
    · exact (g.deliverDecision _ _ (by decide) _).bind fun _ => Keeps.pure _
    · exact (g.deliverDecision _ _ (by decide) _).bind fun _ => Keeps.pure _
    · exact Keeps.throw _

theorem handleAdminMoveChild (g : OrdinaryInvariant I) (io : Io)
    (move : AdminMoveChild) (now : UInt64) : Keeps I (handleAdminMoveChild io move now) := by
  apply Keeps.bind (Keeps.ofExcept _)
  intro _
  exact g.applyMoveChild _ _ _ _

omit [ControlPostcard] in
theorem prepareAdminValue (direction : ValueDirection) (signed : SignedControl)
    (request : AdminValueRequest) : Keeps I (prepareAdminValue direction signed request) := by
  apply Keeps.bind (Keeps.refuseIf _ _)
  intro _
  apply Keeps.get_bind
  intro _ _
  split
  · exact Keeps.throw _
  · exact (Keeps.refuseIf _ _).bind fun _ => Keeps.pure _

end OrdinaryInvariant

/-! ### Requests that relink the node -/

namespace OrdinaryInvariant

variable {I : NodeHost → Prop} {ε : Type}

theorem applyApproval (g : OrdinaryInvariant I) (io : Io) {signed : SignedControl}
    (approval : JoinApproval)
    (hset : ∀ slot, Keeps I (onRecord (RecordStore.setParent signed.origin slot))) :
    Keeps I (applyApproval io signed approval) := by
  apply Keeps.get_bind
  intro h hs
  apply Keeps.catchWith
  · apply Keeps.bind g.addressUnset.mapError
    intro _
    apply Keeps.bind (hset _).mapError
    intro _
    apply Keeps.bind (g.addressSet _).mapError
    intro _
    apply Keeps.bind (g.rememberParentPeer _ _)
    intro _
    exact (g.saveRecord _ _).bind fun _ => g.savePeers _ _
  · intro _
    refine Keeps.bind (Keeps.modify fun h' hs' => ?_) fun _ => Keeps.throw _
    exact g.still (h := h'.withRecord h.node.record) rfl rfl (g.restored hs hs')

variable [ControlPostcard]

theorem handleJoinApproved [ZeroKey] (g : OrdinaryInvariant I) (io : Io)
    {signed : SignedControl} (approval : JoinApproval) (now : UInt64)
    (hset : ∀ slot, Keeps I (onRecord (RecordStore.setParent signed.origin slot))) :
    Keeps I (handleJoinApproved io signed approval now) := by
  apply Keeps.bind (Keeps.refuseIf _ _)
  intro _
  apply Keeps.get_bind
  intro _ _
  split
  · exact Keeps.throw _
  · apply Keeps.bind (Keeps.refuseIf _ _)
    intro _
    apply Keeps.bind (Keeps.refuseIf _ _)
    intro _
    apply Keeps.bind (Keeps.refuseIf _ _)
    intro _
    apply Keeps.bind (Keeps.refuseIf _ _)
    intro _
    apply Keeps.bind (g.applyApproval _ _ hset)
    intro _
    refine Keeps.bind (g.modify fun _ => ⟨rfl, rfl⟩) fun _ => ?_
    apply Keeps.bind (g.savePending _ _)
    intro _
    apply Keeps.get_bind
    intro _ _
    exact (Keeps.forSome fun _ _ => g.propagateRebase _ _).bind fun _ => Keeps.pure _

theorem handleDetachNotice (g : OrdinaryInvariant I) (io : Io)
    (signed : SignedControl) (node : NodeId) (now : UInt64)
    (hrooted : Keeps I (onRecord RecordStore.rebaseToRoot))
    (hunlinked : Keeps I (onRecord do
      RecordStore.unsetAddress
      RecordStore.unsetParent)) : Keeps I (handleDetachNotice io signed node now) := by
  apply Keeps.bind (Keeps.refuseIf _ _)
  intro _
  apply Keeps.get_bind
  intro h _
  apply Keeps.bind (Keeps.refuseIf _ _)
  intro _
  split
  · exact Keeps.pure _
  · apply Keeps.bind (Keeps.refuseIf _ _)
    intro _
    apply Keeps.bind (Keeps.refuseIf _ _)
    intro _
    refine Keeps.bind (Keeps.mapError ?_) fun _ => ?_
    · cases h.node.selfKind with
      | node => exact hrooted
      | user => exact hunlinked
    · apply Keeps.bind (g.saveRecord _ _)
      intro _
      apply Keeps.get_bind
      intro _ _
      refine Keeps.bind (Keeps.when fun _ => ?_) fun _ => Keeps.pure _
      exact Keeps.forSome fun _ _ => g.propagateRebase _ _

end OrdinaryInvariant

/-! ## Designations -/

/-- A designation set, persisted and taken into memory. -/
def NodeHost.designationsSaved (h : NodeHost) (state : AdminState) : NodeHost :=
  { h with
    node := { h.node with adminState := state }
    disk := { h.disk with adminState := some state } }

theorem saveAdminState_exec (io : Io) (state : AdminState) (h : NodeHost) :
    exec (saveAdminState io state RejectCode.internal) h
      = if io.adminSaves then (.ok ⟨⟩, h.designationsSaved state) else (.error .internal, h) := by
  rw [saveAdminState, exec_refuseIf_bind]
  cases io.adminSaves with
  | true => rfl
  | false => rfl

/-- A designation adds the child it names, when it is accepted, and nothing else. -/
theorem handleAdminDesignate_cases (io : Io) (child : NodeId) (now : UInt64)
    (route : Option (NodeId × NodeId)) (h : NodeHost) :
    (exec (handleAdminDesignate io child now route) h).2 = h
      ∨ ∃ state, exec (handleAdminDesignate io child now route) h
            = (.ok .accepted, h.designationsSaved state)
          ∧ ∀ id, state.has id = true → h.node.adminState.has id = true ∨ id = child := by
  rw [handleAdminDesignate, exec_refuseIf_bind]
  by_cases hvalid : (validateNodeId "child" child).toBool = false
  · rw [if_pos hvalid]
    exact .inl rfl
  rw [if_neg hvalid, exec_get_bind, exec_refuseIf_bind]
  by_cases hlisted : (!h.node.record.lists child) = true
  · rw [if_pos hlisted]
    exact .inl rfl
  rw [if_neg hlisted]
  by_cases hhas : h.node.adminState.has child = true
  · rw [if_pos hhas]
    exact .inl rfl
  rw [if_neg hhas]
  cases hadd : h.node.adminState.add child with
  | none => exact .inl rfl
  | some state =>
      dsimp only
      rw [exec_bind, saveAdminState_exec]
      by_cases hsaves : io.adminSaves = true
      · rw [if_pos hsaves]
        right
        refine ⟨_, rfl, fun id hid => ?_⟩
        exact AdminState.has_of_add hadd (by simpa using hid)
      · rw [if_neg hsaves]
        exact .inl rfl

/-- A revocation adds no designation. -/
theorem handleAdminRevoke_cases (io : Io) (child : NodeId) (now : UInt64)
    (route : Option (NodeId × NodeId)) (h : NodeHost) :
    (exec (handleAdminRevoke io child now route) h).2 = h
      ∨ ∃ state, (exec (handleAdminRevoke io child now route) h).2 = h.designationsSaved state
          ∧ ∀ id, state.has id = true → h.node.adminState.has id = true := by
  rw [handleAdminRevoke, exec_refuseIf_bind]
  by_cases hvalid : (validateNodeId "child" child).toBool = false
  · rw [if_pos hvalid]
    exact .inl rfl
  rw [if_neg hvalid, exec_get_bind]
  by_cases hhas : h.node.adminState.has child = true
  · rw [if_pos hhas, exec_bind, saveAdminState_exec]
    by_cases hsaves : io.adminSaves = true
    · rw [if_pos hsaves]
      right
      refine ⟨_, rfl, fun id hid => ?_⟩
      exact AdminState.has_of_remove (by simpa using hid)
    · rw [if_neg hsaves]
      exact .inl rfl
  · rw [if_neg hhas]
    exact .inl rfl

/-! ## Requests -/

/-- Whether a request neither detaches a child, nor moves an anchor, nor changes the
designations. -/
def ControlRequest.isOrdinary : ControlRequest → Bool
  | detachChild _ | adminDetachChild _ | exit _ | registerEthAddress _ | adminDesignate _
  | adminRevoke _ => false
  | _ => true

/-- Whether a request replaces or drops the parent link. -/
def ControlRequest.relinks : ControlRequest → Bool
  | joinApproved _ | detachNotice _ => true
  | _ => false

/-- Whether a request changes the designations. -/
def ControlRequest.designates : ControlRequest → Bool
  | adminDesignate _ | adminRevoke _ => true
  | _ => false

/-- Whether a request sends its child a detach notice. -/
def ControlRequest.notifies : ControlRequest → Bool
  | detachChild _ | adminDetachChild _ => true
  | _ => false

variable [ControlPostcard] [EthPrimitives] [ZeroKey]

theorem OrdinaryInvariant.handleRequest {I : NodeHost → Prop} (g : OrdinaryInvariant I) (io : Io)
    {signed : SignedControl} (now : UInt64) (authority : Option Authority)
    (route : Option (NodeId × NodeId)) (hordinary : signed.request.isOrdinary = true)
    (hrelink : signed.request.relinks = true → RelinkInvariant I) :
    Keeps I (handleRequest io signed now authority route) := by
  unfold Cawala.handleRequest
  cases hrequest : signed.request with
  | join join => exact (g.handleJoin _ _ _ _).map
  | joinApproved approval =>
      rw [hrequest] at hrelink
      have hset := fun slot => (hrelink rfl).parentSet signed.origin slot
      exact (g.handleJoinApproved _ _ _ hset).map
  | joinRejected rejection => exact (g.handleJoinRejected _ _ _).map
  | createChild create =>
      cases authority with
      | some authority => exact (g.handleCreateChild _ _ _).map
      | none => exact Keeps.throw _
  | moveChild move =>
      exact (g.handleMoveChild _ _ _).map
  | setAddress address =>
      cases authority with
      | some authority => exact (g.handleSetAddress _ _ _).map
      | none => exact Keeps.throw _
  | query => exact (Keeps.get_bind fun _ _ => Keeps.pure _).map
  | adminQuery => exact (Keeps.get_bind fun _ _ => Keeps.pure _).map
  | adminApproveJoin approve => exact (g.handleAdminApproveJoin _ _ _).map
  | adminRejectJoin reject => exact (g.handleAdminRejectJoin _ _ _).map
  | adminRedeliverJoin child => exact (g.handleAdminRedeliverJoin _ _).map
  | detachNotice node =>
      rw [hrequest] at hrelink
      have hunlink := hrelink rfl
      exact (g.handleDetachNotice _ _ _ _ hunlink.rooted hunlink.unlinked).map
  | rebase notice =>
      exact (g.handleRebase _ _ _ _).map
  | rebasePull node => exact (OrdinaryInvariant.handleRebasePull _ _).map
  | adminLedgerQuery =>
      apply Keeps.get_bind
      intro _ _
      exact (Keeps.refuseIf _ _).bind fun _ => Keeps.pure _
  | adminMoveChild move =>
      exact (g.handleAdminMoveChild _ _ _).map
  | adminIssue request => exact (OrdinaryInvariant.prepareAdminValue _ _ _).map
  | adminBurn request => exact (OrdinaryInvariant.prepareAdminValue _ _ _).map
  | capabilities version => exact Keeps.pure _
  | detachChild child => simp [hrequest, ControlRequest.isOrdinary] at hordinary
  | exit exit => simp [hrequest, ControlRequest.isOrdinary] at hordinary
  | adminDetachChild child => simp [hrequest, ControlRequest.isOrdinary] at hordinary
  | adminDesignate child => simp [hrequest, ControlRequest.isOrdinary] at hordinary
  | adminRevoke child => simp [hrequest, ControlRequest.isOrdinary] at hordinary
  | registerEthAddress register => simp [hrequest, ControlRequest.isOrdinary] at hordinary

/-! ### Detaching a child -/

omit [EthPrimitives] [ZeroKey]

def NodeHost.detachedBy (h : NodeHost) (signed : SignedControl) : Option NodeId :=
  match signed.request with
  | .detachChild child => some child
  | .adminDetachChild child => if (validateNodeId "child" child).toBool then some child else none
  | .exit exit =>
      if exit.validate.toBool ∧ exit.node = signed.origin
          ∧ (verifyControl signed h.node.peers).toBool then some exit.node
      else none
  | _ => none

namespace OrdinaryInvariant

variable {I : NodeHost → Prop} {h : NodeHost} {signed : SignedControl}

theorem applyDetachChild (g : OrdinaryInvariant I) (hnotify : Notifies I) (io : Io)
    {child : NodeId} (now : UInt64)
    (hdetach : Keeps I (onRecord (RecordStore.detachChild child))) :
    Keeps I (applyDetachChild io child now) := by
  apply Keeps.bind hdetach.mapError
  intro _
  apply Keeps.bind (g.saveRecord _ _)
  intro _
  exact (hnotify _ _).bind fun _ => Keeps.pure _

/-- A refused notice of departure changes nothing. -/
theorem handleExit (g : OrdinaryInvariant I) (hI : I h) (io : Io) {exit : ExitRequest}
    (hrequest : signed.request = .exit exit)
    (hdetach : ∀ child, h.detachedBy signed = some child →
      Keeps I (onRecord (RecordStore.detachChild child))) :
    I (exec (handleExit io signed exit) h).2 := by
  rw [Cawala.handleExit, exec_refuseIf_bind]
  by_cases hvalid : exit.validate.toBool = false
  · rw [if_pos hvalid]
    exact hI
  rw [if_neg hvalid, exec_refuseIf_bind]
  by_cases hnode : exit.node ≠ signed.origin
  · rw [if_pos hnode]
    exact hI
  rw [if_neg hnode, exec_get_bind, exec_refuseIf_bind]
  by_cases hpeer : (verifyControl signed h.node.peers).toBool = false
  · rw [if_pos hpeer]
    exact hI
  rw [if_neg hpeer]
  have hchild : h.detachedBy signed = some exit.node := by
    simp only [NodeHost.detachedBy, hrequest]
    rw [if_pos ⟨by simpa using hvalid, not_not.mp hnode, by simpa using hpeer⟩]
  apply Keeps.exec (I := I) _ hI
  refine Keeps.bind (Keeps.when fun _ => ?_) fun _ => Keeps.pure _
  exact (hdetach _ hchild).mapError.bind fun _ => g.saveRecord _ _

theorem handleAdminDetachChild (g : OrdinaryInvariant I) (hI : I h) (hnotify : Notifies I)
    (io : Io) {child : NodeId} (now : UInt64) (hrequest : signed.request = .adminDetachChild child)
    (hdetach : ∀ child, h.detachedBy signed = some child →
      Keeps I (onRecord (RecordStore.detachChild child))) :
    I (exec (handleAdminDetachChild io child now) h).2 := by
  rw [Cawala.handleAdminDetachChild, exec_refuseIf_bind]
  by_cases hvalid : (validateNodeId "child" child).toBool = false
  · rw [if_pos hvalid]
    exact hI
  rw [if_neg hvalid]
  have hchild : h.detachedBy signed = some child := by
    simp only [NodeHost.detachedBy, hrequest]
    rw [if_pos (by simpa using hvalid)]
  exact (g.applyDetachChild hnotify io now (hdetach _ hchild)).exec hI

end OrdinaryInvariant

/-! ### Anchors -/

variable [EthPrimitives]

/-- An anchor is written only for a user child that proves control of its address. -/
theorem OrdinaryInvariant.handleRegisterEthAddress {I : NodeHost → Prop} {h : NodeHost}
    (g : OrdinaryInvariant I) (hI : I h) (io : Io) (signed : SignedControl)
    (register : RegisterEthAddress)
    (hanchor : ∀ child, h.node.record.childEntry signed.origin = some child →
      (register.verify signed.origin child.ethAddress).toBool = true →
      Keeps I (onRecord (RecordStore.setChildEthAddress signed.origin register.address))) :
    I (exec (handleRegisterEthAddress io signed register) h).2 := by
  rw [Cawala.handleRegisterEthAddress, exec_get_bind, exec_refuseIf_bind]
  by_cases hpeer : (verifyControl signed h.node.peers).toBool = false
  · rw [if_pos hpeer]
    exact hI
  rw [if_neg hpeer]
  cases hchild : h.node.record.childEntry signed.origin with
  | none => exact hI
  | some child =>
      dsimp only
      rw [exec_refuseIf_bind]
      by_cases hkind : child.kind ≠ .user
      · rw [if_pos hkind]
        exact hI
      rw [if_neg hkind, exec_refuseIf_bind]
      by_cases hproof : (register.verify signed.origin child.ethAddress).toBool = false
      · rw [if_pos hproof]
        exact hI
      rw [if_neg hproof]
      apply Keeps.exec (I := I) _ hI
      apply Keeps.bind (hanchor child hchild (by simpa using hproof)).mapError
      intro _
      exact (g.saveRecord _ _).bind fun _ => Keeps.pure _

end Cawala
