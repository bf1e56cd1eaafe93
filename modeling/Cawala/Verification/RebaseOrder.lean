import Cawala.Model.BrowserControl
import Cawala.Model.Rebase
import Cawala.Verification.ControlAnchors

/-! # The order of rebase notices

A notice is applied only above the mark of the parent link. Nothing but an approval of the same
parent takes the mark back, so once a notice was applied no older one of that parent moves the
node again, whatever it pulls from the parent in between. -/

namespace Cawala

open Library Transaction

/-! ## The mark in a record -/

/-- A link to the parent `p` carries a mark of at least `g`. -/
def NodeRecord.MarkAtLeast (p : NodeId) (g : UInt64) (r : NodeRecord) : Prop :=
  ∀ link, r.parent = some link → link.parentId = p → g ≤ link.generation

theorem generation_le_max {g a b : UInt64} (h : g ≤ a ∨ g ≤ b) : g ≤ max a b := by
  rw [show max a b = if a ≤ b then b else a from rfl]
  by_cases hab : a ≤ b
  · rw [if_pos hab]
    exact h.elim (fun ha => UInt64.le_trans ha hab) id
  · rw [if_neg hab]
    exact h.elim id fun hb => UInt64.le_trans hb ((UInt64.le_total a b).resolve_left hab)

section Records

variable {p : NodeId} {g : UInt64} {r r' : NodeRecord}

theorem NodeRecord.MarkAtLeast.of_parent_eq (h : r.MarkAtLeast p g) (heq : r'.parent = r.parent) :
    r'.MarkAtLeast p g := by
  rw [NodeRecord.MarkAtLeast, heq]
  exact h

theorem NodeRecord.markAtLeast_of_unattached (h : r.parent = none) : r.MarkAtLeast p g := by
  intro link hlink
  rw [h] at hlink
  cases hlink

namespace RecordStore

theorem setAddressValue_mark (address : Option OctAddr) :
    Keeps (NodeRecord.MarkAtLeast p g) (setAddressValue address) := by
  apply Keeps.modify
  intro r hr
  by_cases h : r.address ≠ address
  · rw [if_pos h]
    exact hr.of_parent_eq rfl
  · rw [if_neg h]
    exact hr

theorem setAddress_mark (address : OctAddr) :
    Keeps (NodeRecord.MarkAtLeast p g) (setAddress address) :=
  (setAddressValue_mark _).bind fun _ => revalidate_keeps

theorem unsetAddress_mark : Keeps (NodeRecord.MarkAtLeast p g) unsetAddress :=
  (setAddressValue_mark _).bind fun _ => revalidate_keeps

theorem setParentGeneration_mark (generation : UInt64) :
    Keeps (NodeRecord.MarkAtLeast p g) (setParentGeneration generation) := by
  apply Keeps.modify
  intro r hr link hlink hparent
  obtain ⟨old, hold, rfl⟩ := Option.map_eq_some_iff.mp hlink
  exact generation_le_max (.inl (hr old hold hparent))

theorem applyRebase_mark (address : OctAddr) (slot : UInt8) (generation : UInt64) :
    Keeps (NodeRecord.MarkAtLeast p g) (applyRebase address slot generation) := by
  apply Keeps.onCopy
  apply Keeps.bind (setAddressValue_mark _)
  intro _
  refine Keeps.bind (Keeps.modify ?_) fun _ => ?_
  · intro r hr link hlink hparent
    obtain ⟨old, hold, rfl⟩ := Option.map_eq_some_iff.mp hlink
    exact hr old hold hparent
  · exact (setParentGeneration_mark _).bind fun _ => revalidate_keeps

theorem attachChild_mark (child : NodeId) (kind : ChildKind) (slot : Option UInt8)
    (dateJoined : UInt64) :
    Keeps (NodeRecord.MarkAtLeast p g) (attachChild child kind slot dateJoined) :=
  attachChild_keeps fun _ _ hr => hr.of_parent_eq rfl

theorem detachChild_mark (child : NodeId) :
    Keeps (NodeRecord.MarkAtLeast p g) (detachChild child) :=
  detachChild_keeps fun _ hr => hr.of_parent_eq rfl

theorem setChildEthAddress_mark (child : NodeId) (address : EthAddress) :
    Keeps (NodeRecord.MarkAtLeast p g) (setChildEthAddress child address) :=
  setChildEthAddress_keeps fun _ hr => hr.of_parent_eq rfl

theorem moveChildSlot_mark (child : NodeId) (slot : UInt8) :
    Keeps (NodeRecord.MarkAtLeast p g) (moveChildSlot child slot) := by
  apply Keeps.get_bind
  intro r _
  cases r.childEntry child with
  | none => exact Keeps.throw _
  | some entry =>
      dsimp only
      split
      · exact Keeps.pure _
      · apply Keeps.onCopy
        apply Keeps.bind (detachChild_mark child)
        intro _
        apply Keeps.bind (attachChild_mark child _ _ _)
        intro _
        apply Keeps.bind (Keeps.forSome fun address _ => setChildEthAddress_mark child address)
        intro _
        refine Keeps.bind (Keeps.modify fun _ hr => ?_) fun _ => ?_
        · exact hr.of_parent_eq rfl
        · exact revalidate_keeps.bind fun _ => Keeps.pure _

/-- Another parent's link says nothing of this one. -/
theorem setParent_mark {parent : NodeId} (hne : parent ≠ p) (slot : UInt8) :
    Keeps (NodeRecord.MarkAtLeast p g) (setParent parent slot) := by
  apply Keeps.get_bind
  intro _ _
  apply Keeps.bind (Keeps.refuseIf _ _)
  intro _
  apply Keeps.bind (Keeps.refuseIf _ _)
  intro _
  refine Keeps.bind (Keeps.modify ?_) fun _ => revalidate_keeps
  intro _ _ link hlink hparent
  obtain rfl := Option.some.inj hlink
  exact absurd hparent hne

theorem rebaseToRoot_mark : Keeps (NodeRecord.MarkAtLeast p g) rebaseToRoot := by
  refine Keeps.bind (Keeps.modify fun _ _ => ?_) fun _ => ?_
  · exact NodeRecord.markAtLeast_of_unattached rfl
  · exact (setAddressValue_mark _).bind fun _ => revalidate_keeps

theorem unsetParent_mark : Keeps (NodeRecord.MarkAtLeast p g) unsetParent := by
  refine Keeps.bind (Keeps.modify fun _ _ => ?_) fun _ => ?_
  · exact NodeRecord.markAtLeast_of_unattached rfl
  · apply Keeps.get_bind
    intro _ _
    exact (Keeps.when fun _ => setAddressValue_mark _).bind fun _ => revalidate_keeps

theorem setParentGeneration_reaches {generation : UInt64}
    (h : exec (setParentGeneration generation) r = (.ok ⟨⟩, r')) :
    r'.MarkAtLeast p generation := by
  obtain rfl := (Prod.mk.inj h).2
  intro link hlink _
  obtain ⟨old, -, rfl⟩ := Option.map_eq_some_iff.mp hlink
  exact generation_le_max (.inr (UInt64.le_refl _))

theorem applyRebase_reaches {address : OctAddr} {slot : UInt8}
    {generation : UInt64}
    (h : exec (applyRebase address slot generation) r = (.ok ⟨⟩, r')) :
    r'.MarkAtLeast p generation := by
  rw [applyRebase, exec_onCopy] at h
  split at h
  · rename_i hrun
    obtain ⟨-, rfl⟩ := Prod.mk.inj h
    rw [exec_bind_eq_ok] at hrun
    obtain ⟨_, moved, -, hrun⟩ := hrun
    rw [exec_bind_eq_ok] at hrun
    obtain ⟨_, placed, -, hrun⟩ := hrun
    rw [exec_bind_eq_ok] at hrun
    obtain ⟨_, marked, hmarked, hvalid⟩ := hrun
    rw [revalidate_ok hvalid]
    exact setParentGeneration_reaches hmarked
  · cases (Prod.mk.inj h).1

end RecordStore

end Records

section Engine

/-! ## The mark through a step -/

variable [Crypto]

/-- The mark of the link to `p` is at least `g`, in memory and on disk. -/
structure NodeHost.MarkAtLeast (p : NodeId) (g : UInt64) (h : NodeHost) : Prop where
  memory : h.node.record.MarkAtLeast p g
  disk : ∀ r, h.disk.record = some r → r.MarkAtLeast p g

section Hosts

variable {p : NodeId} {g : UInt64} {h h' : NodeHost}

theorem NodeHost.MarkAtLeast.of_eq (hI : h.MarkAtLeast p g)
    (hmemory : h'.node.record = h.node.record) (hdisk : h'.disk.record = h.disk.record) :
    h'.MarkAtLeast p g where
  memory := hmemory ▸ hI.memory
  disk r hr := hI.disk r (hdisk ▸ hr)

theorem onRecord_mark {α : Type} {x : RecordOp α} (hx : Keeps (NodeRecord.MarkAtLeast p g) x) :
    Keeps (NodeHost.MarkAtLeast p g) (onRecord x) :=
  Keeps.zoom (fun _ hs => hs.memory) (fun _ _ hs hr => ⟨hr, hs.disk⟩) hx

theorem mark_invariant (p : NodeId) (g : UInt64) :
    CoreInvariant (NodeHost.MarkAtLeast p g) where
  quiet hcore hI :=
    hI.of_eq (congrArg HostCore.record hcore) (congrArg HostCore.storedRecord hcore)

theorem mark_ordinary (p : NodeId) (g : UInt64) :
    OrdinaryInvariant (NodeHost.MarkAtLeast p g) where
  toQuietInvariant := (mark_invariant p g).toQuiet
  saved hI := ⟨hI.memory, fun _ hr => Option.some.inj hr ▸ hI.memory⟩
  restored hI hI' := ⟨hI.memory, hI'.disk⟩
  attached child kind slot now := onRecord_mark (RecordStore.attachChild_mark child kind slot now)
  undone _ _ := onRecord_mark (RecordStore.detachChild_mark _)
  moved child slot := onRecord_mark (RecordStore.moveChildSlot_mark child slot)
  addressSet address := onRecord_mark (RecordStore.setAddress_mark address)
  addressUnset := onRecord_mark RecordStore.unsetAddress_mark
  generationSet generation := onRecord_mark (RecordStore.setParentGeneration_mark generation)
  rebased address slot generation :=
    onRecord_mark (RecordStore.applyRebase_mark address slot generation)

theorem saveRecord_mark {ε : Type} (io : Io) (e : ε) :
    Meets (fun h => h.node.record.MarkAtLeast p g) (saveRecord io e)
      (fun _ => NodeHost.MarkAtLeast p g) (fun _ _ => True) := by
  intro h hs
  obtain hsaved | hrefused := saveRecord_exec io e h
  · rw [hsaved]
    exact ⟨hs, fun _ hr => Option.some.inj hr ▸ hs⟩
  · rw [hrefused]
    trivial

/-- An operation that reaches a record leaves it in memory. -/
theorem onRecord_reaches {Q : NodeRecord → Prop} {x : RecordOp PUnit} {f : RecordError → RejectCode}
    (hx : ∀ r r', exec x r = (.ok ⟨⟩, r') → Q r') (h : NodeHost) :
    Meets (· = h) (mapError f (onRecord x)) (fun _ s => Q s.node.record) (fun _ _ => True) := by
  intro s hs
  subst hs
  rw [exec_mapError, onRecord, exec_zoom]
  cases hrun : exec x s.node.record with
  | mk result r =>
      cases result with
      | ok _ => exact hx _ r hrun
      | error _ => trivial

end Hosts

section Notices

variable [ControlPostcard] {p : NodeId} {g : UInt64} {h : NodeHost} {signed : SignedControl}
  {notice : RebaseNotice}

/-- An accepted notice above the mark takes the mark to its generation, in memory and on disk. -/
theorem handleRebase_newer (io : Io) (now : UInt64)
    (hnewer : h.node.record.parentGeneration < notice.generation) :
    Meets (· = h) (handleRebase io signed notice now)
      (fun _ s => s.MarkAtLeast p notice.generation) (fun _ _ => True) := by
  apply Meets.refuseIf_bind_at (fun _ => trivial)
  intro _
  apply Meets.get_bind_at
  apply Meets.refuseIf_bind_at (fun _ => trivial)
  intro _
  split
  · exact Meets.throw fun _ _ => trivial
  · apply Meets.refuseIf_bind_at (fun _ => trivial)
    intro _
    apply Meets.refuseIf_bind_at (fun _ => trivial)
    intro _
    apply Meets.refuseIf_bind_at (fun _ => trivial)
    intro _
    dsimp only
    rw [if_neg (UInt64.not_lt.mpr (UInt64.le_of_lt hnewer))]
    split
    · rw [when, if_pos hnewer]
      refine Meets.bind (Q := fun _ s => s.MarkAtLeast p notice.generation) ?_ fun _ =>
        Meets.pure fun _ => id
      refine Meets.bind (onRecord_reaches (Q := NodeRecord.MarkAtLeast p notice.generation) ?_ h)
        fun _ => saveRecord_mark io _
      exact fun _ _ => RecordStore.setParentGeneration_reaches
    · apply Meets.refuseIf_bind_at (fun _ => trivial)
      intro _
      split
      · exact Meets.throw fun _ _ => trivial
      · refine Meets.bind (onRecord_reaches (Q := NodeRecord.MarkAtLeast p notice.generation) ?_ h)
          fun _ => ?_
        · exact fun _ _ => RecordStore.applyRebase_reaches
        apply Meets.bind (saveRecord_mark io _)
        intro _
        have hannounced := (mark_invariant p notice.generation).toQuiet.propagateRebase
          notice.address now
        refine Meets.bind (Meets.of_keeps hannounced fun _ _ => trivial) fun _ => ?_
        exact Meets.pure fun _ => id

end Notices

/-! ## The mark through a run -/

section Runs

variable [ControlPostcard] {p : NodeId} {g : UInt64}

omit [ControlPostcard] in
theorem NodeHost.MarkAtLeast.reload {h : NodeHost} (io : ReloadIo) (hI : h.MarkAtLeast p g) :
    (h.reload io).MarkAtLeast p g := by
  have hstored := (h.reload_refreshed io).stored.1
  obtain hkept | hread := (h.reload_refreshed io).record
  · exact hI.of_eq hkept hstored
  · refine ⟨hI.disk _ hread, fun r hr => hI.disk r ?_⟩
    rw [← hstored]
    exact hr

omit [ControlPostcard] in
theorem NodeHost.MarkAtLeast.reloaded {h : NodeHost} (e : ControlEvent)
    (hI : h.MarkAtLeast p g) : (e.reloaded h).MarkAtLeast p g := by
  cases e with
  | direct io signed now => exact hI.reload io.reload
  | routed io remote carried now => exact (hI.reload io.routedReload).reload io.reload
  | _ => exact hI

omit [ControlPostcard] in
theorem NodeHost.MarkAtLeast.idle {h s : NodeHost} {e : ControlEvent} (hI : h.MarkAtLeast p g)
    (hs : e.Idle h s) : s.MarkAtLeast p g := by
  cases hs with
  | refused => exact hI
  | halfway heq => exact hI.reload _
  | reloaded => exact hI.reloaded e
  | marked seen stored => exact (hI.reloaded e).of_eq rfl rfl

omit [ControlPostcard] in
/-- An engine opened on a data directory holds the mark of its disk. -/
theorem markAtLeast_of_open {opens : OpenIo} {disk : DataDir} {nodeId : NodeId}
    {operator : OperatorSecretKey} {ledger : Bool} {now : UInt64} {node : ControlNode}
    (hopen : ControlNode.open_ opens disk nodeId operator ledger now = some node)
    (hdisk : ∀ r, disk.record = some r → r.MarkAtLeast p g) : node.record.MarkAtLeast p g := by
  rw [anchor_of_open hopen]
  cases hrecord : disk.record with
  | none => exact NodeRecord.markAtLeast_of_unattached rfl
  | some r => exact hdisk r hrecord

omit [ControlPostcard] in
theorem elsewhere_mark {ε α : Type} {c : ControlHost} (opens : OpenIo) (now : UInt64)
    {x : Transaction NodeHost ε α} (hI : c.host.MarkAtLeast p g)
    (hx : Keeps (NodeHost.MarkAtLeast p g) x) :
    (c.elsewhere opens now x).host.MarkAtLeast p g := by
  rw [ControlHost.elsewhere]
  split
  · exact hI
  · rename_i node hnode
    have hopened : ({ c.host with node } : NodeHost).MarkAtLeast p g :=
      ⟨markAtLeast_of_open hnode hI.disk, hI.disk⟩
    exact ⟨hI.memory, (hx.exec hopened).disk⟩

/-- An approval of the parent `p` reaches its handler. -/
def ControlEvent.Rejoins (h : NodeHost) (p : NodeId) (e : ControlEvent) : Prop :=
  ∃ d approval, e.handOff h = some d ∧ d.signed.origin = p
    ∧ d.signed.request = .joinApproved approval

variable [EthPrimitives] [ZeroKey]

/-- A handler takes the mark back only for an approval of the same parent. -/
theorem HandOff.handled_mark {d : HandOff} (hI : d.host.MarkAtLeast p g)
    (hkept : d.signed.origin = p → ∀ approval, d.signed.request ≠ .joinApproved approval) :
    d.handled.2.MarkAtLeast p g := by
  have g' := mark_ordinary p g
  by_cases hrelinks : d.signed.request.relinks = true
  · cases hrequest : d.signed.request with
    | joinApproved approval =>
        have hne : d.signed.origin ≠ p := fun horigin => hkept horigin approval hrequest
        rw [handled, handleRequest, hrequest, exec_map]
        apply (g'.handleJoinApproved d.io approval d.now ?_).exec hI
        exact fun slot => onRecord_mark (RecordStore.setParent_mark hne slot)
    | detachNotice node =>
        rw [handled, handleRequest, hrequest, exec_map]
        apply (g'.handleDetachNotice d.io d.signed node d.now ?_ ?_).exec hI
        · exact onRecord_mark RecordStore.rebaseToRoot_mark
        · apply onRecord_mark
          exact RecordStore.unsetAddress_mark.bind fun _ => RecordStore.unsetParent_mark
    | _ => simp [hrequest, ControlRequest.relinks] at hrelinks
  · apply HandOff.handled_keeps g' hI (fun h => absurd h hrelinks)
      fun _ => (mark_invariant p g).notifies
    · exact fun child _ => onRecord_mark (RecordStore.detachChild_mark child)
    · exact fun _ _ => onRecord_mark (RecordStore.setChildEthAddress_mark _ _)
    · exact fun _ _ => hI.of_eq rfl rfl

variable [Postcard]

/-- A step of the engine or of a process beside it keeps the mark. -/
theorem ControlHost.step_mark {c c' : ControlHost} {e : ControlEvent}
    (hI : c.host.MarkAtLeast p g) (hstep : c.step e = some c')
    (hkept : ¬ e.Rejoins c.host p) : c'.host.MarkAtLeast p g := by
  cases hreceived : e.received c.host with
  | some result =>
      rw [step_received hreceived, Option.some.injEq] at hstep
      subst hstep
      obtain ⟨-, -, hidle⟩ | ⟨d, hd, rfl, -, seen, stored, hhost⟩ :=
        ControlEvent.received_cases hreceived
      · exact (hI.idle hidle).of_eq rfl rfl
      · have hstart : d.host.MarkAtLeast p g := hhost ▸ hI.idle (.marked seen stored)
        have hhandled := HandOff.handled_mark hstart fun horigin approval hrequest =>
          hkept ⟨d, approval, hd, horigin, hrequest⟩
        exact hhandled.of_eq rfl rfl
  | none =>
      cases e with
      | direct io signed now => cases hreceived
      | routed io remote carried now => cases hreceived
      | execute index audited env now =>
          obtain rfl := Option.some.inj hstep
          rw [executeMutation]
          split
          · exact hI
          · exact hI
      | approve opens io node slot parentLedger now =>
          obtain rfl := Option.some.inj hstep
          exact elsewhere_mark opens now hI ((mark_ordinary p g).approvePending _ _ _ _ _)
      | reject opens io node now =>
          obtain rfl := Option.some.inj hstep
          exact elsewhere_mark opens now hI ((mark_ordinary p g).rejectPending _ _ _)
      | adminAdd adminReads recordReads adminSaves node now =>
          obtain rfl := Option.some.inj hstep
          rw [adminAdd]
          split
          · exact hI
          · split
            · exact hI
            · split
              · exact hI.of_eq rfl rfl
              · exact hI
      | adminRemove adminReads adminSaves node now =>
          obtain rfl := Option.some.inj hstep
          rw [adminRemove]
          split
          · exact hI.of_eq rfl rfl
          · exact hI
      | restart opens now =>
          obtain ⟨node, hnode, rfl⟩ := Option.map_eq_some_iff.mp hstep
          have hmemory := markAtLeast_of_open hnode hI.disk
          exact ⟨hmemory, fun _ hr => Option.some.inj hr ▸ hmemory⟩

/-! ### Pulls and exits -/

omit [ControlPostcard] [EthPrimitives] [ZeroKey] [Postcard] in
theorem OrdinaryInvariant.storeRecord {I : NodeHost → Prop} (h : OrdinaryInvariant I) (io : Io) :
    Keeps I (storeRecord io) := by
  apply Keeps.get_bind
  intro _ _
  apply Keeps.bind (Keeps.ofExcept _)
  intro _
  exact h.saveRecord _ _

omit [EthPrimitives] [ZeroKey] [Postcard] in
theorem QuietInvariant.announceAddress {I : NodeHost → Prop} (h : QuietInvariant I)
    (address : OctAddr) (now : UInt64) : Keeps I (announceAddress address now) :=
  Keeps.catchWith (h.propagateRebase _ _) fun _ => Keeps.pure _

omit [EthPrimitives] [ZeroKey] [Postcard] in
/-- A pull moves the address and the slot, saves them and announces the address. -/
theorem OrdinaryInvariant.applyPullSnapshot {I : NodeHost → Prop} (h : OrdinaryInvariant I)
    (io : Io) (snapshot : NodeSnapshot) (now : UInt64) :
    Keeps I (applyPullSnapshot io snapshot now) := by
  apply Keeps.get_bind
  intro _ _
  split
  · exact Keeps.throw _
  · apply Keeps.bind (Keeps.ofExcept _)
    intro placement
    dsimp only
    split
    · exact Keeps.pure _
    · apply Keeps.bind (h.rebased _ _ _).mapError
      intro _
      apply Keeps.bind (h.storeRecord io)
      intro _
      exact (h.announceAddress _ _).bind fun _ => Keeps.pure _

omit [EthPrimitives] [ZeroKey] [Postcard] in
theorem exitCommand_mark (io : Io) (now : UInt64) :
    Keeps (NodeHost.MarkAtLeast p g) (exitCommand io now) := by
  apply Keeps.get_bind
  intro _ _
  apply Keeps.bind (Keeps.refuseIf _ _)
  intro _
  apply Keeps.bind (onRecord_mark RecordStore.rebaseToRoot_mark).mapError
  intro _
  apply Keeps.bind ((mark_ordinary p g).storeRecord io)
  intro _
  apply Keeps.get_bind
  intro _ _
  exact Keeps.forSome fun _ _ => (mark_ordinary p g).announceAddress _ _

/-- An approval of the parent `p` reaches its handler in a step. -/
def NodeEvent.Rejoins (h : NodeHost) (p : NodeId) : NodeEvent → Prop
  | .control e => e.Rejoins h p
  | _ => False

theorem ControlHost.nodeStep_mark {c c' : ControlHost} {e : NodeEvent}
    (hI : c.host.MarkAtLeast p g) (hstep : c.nodeStep e = some c')
    (hkept : ¬ e.Rejoins c.host p) : c'.host.MarkAtLeast p g := by
  cases e with
  | control e => exact step_mark hI hstep hkept
  | pull io snapshot now =>
      obtain rfl := Option.some.inj hstep
      exact (((mark_ordinary p g).applyPullSnapshot io snapshot now).exec hI).of_eq rfl rfl
  | exit opens io now =>
      obtain rfl := Option.some.inj hstep
      exact elsewhere_mark opens now hI (exitCommand_mark io now)

/-- A handed-off notice above the mark of its parent's link is not refused. -/
def HandOff.Applies (d : HandOff) (notice : RebaseNotice) : Prop :=
  d.signed.request = .rebase notice
    ∧ d.host.node.record.parentGeneration < notice.generation
    ∧ d.handled.1.toBool = true

/-- The states of a node that has applied a notice of the parent `p` with generation `g`, and that
`p` has not approved since. -/
inductive ControlHost.HasApplied (p : NodeId) (g : UInt64) : ControlHost → Prop where
  | applied {c c' : ControlHost} {e : ControlEvent} {d : HandOff} {notice : RebaseNotice}
      (hd : e.handOff c.host = some d) (horigin : d.signed.origin = p)
      (happlies : d.Applies notice) (hgeneration : notice.generation = g)
      (hstep : c.nodeStep (.control e) = some c') : HasApplied p g c'
  | step {c c' : ControlHost} {e : NodeEvent} (hpast : HasApplied p g c)
      (hkept : ¬ e.Rejoins c.host p) (hstep : c.nodeStep e = some c') : HasApplied p g c'

omit [Postcard] in
theorem HandOff.Applies.mark {d : HandOff} {notice : RebaseNotice} (h : d.Applies notice) :
    d.handled.2.MarkAtLeast d.signed.origin notice.generation := by
  obtain ⟨hrequest, hnewer, hreply⟩ := h
  have hmeets : Meets (· = d.host) (handleRebase d.io d.signed notice d.now)
      (fun _ s => s.MarkAtLeast d.signed.origin notice.generation) (fun _ _ => True) :=
    handleRebase_newer d.io d.now hnewer
  replace hmeets := hmeets d.host rfl
  rw [handled, handleRequest, hrequest, exec_map] at hreply ⊢
  cases hrun : exec (handleRebase d.io d.signed notice d.now) d.host with
  | mk result s =>
      rw [hrun] at hmeets hreply
      cases result with
      | ok _ => exact hmeets
      | error _ => cases hreply

theorem ControlHost.HasApplied.mark {c : ControlHost} (h : c.HasApplied p g) :
    c.host.MarkAtLeast p g := by
  induction h with
  | applied hd horigin happlies hgeneration hstep =>
      rename_i c c' e d notice
      obtain ⟨result, hresult⟩ : ∃ result, e.received c.host = some result := by
        cases e with
        | direct io signed now => exact ⟨_, rfl⟩
        | routed io remote carried now => exact ⟨_, rfl⟩
        | _ => cases hd
      change c.step e = some c' at hstep
      rw [step_received hresult, Option.some.injEq] at hstep
      subst hstep hgeneration horigin
      obtain ⟨hnone, -⟩ | ⟨d', hd', rfl, -⟩ := ControlEvent.received_cases hresult
      · rw [hnone] at hd
        cases hd
      · rw [hd, Option.some.injEq] at hd'
        subst hd'
        exact happlies.mark.of_eq rfl rfl
  | step _ hkept hstep ih => exact nodeStep_mark ih hstep hkept

end Runs

/-! ## The guard of a browser -/

namespace BrowserControl

variable [EndpointKeys] [ControlPostcard] {p : NodeId} {g : UInt64}

/-- While the browser is linked to the parent `p`, its guard is about `p` and at least `g`. -/
def MarkAtLeast (p : NodeId) (g : UInt64) (b : BrowserControl) : Prop :=
  ∀ link, b.state.record.parent = some link → link.nodeId = p →
    b.rebaseGuard.parent = some p ∧ g ≤ b.rebaseGuard.generation

omit [EndpointKeys] [ControlPostcard] in
theorem MarkAtLeast.of_eq {b b' : BrowserControl} (hI : b.MarkAtLeast p g)
    (hparent : b'.state.record.parent = b.state.record.parent)
    (hguard : b'.rebaseGuard = b.rebaseGuard) : b'.MarkAtLeast p g := by
  rw [MarkAtLeast, hparent, hguard]
  exact hI

omit [EndpointKeys] [ControlPostcard] in
theorem markAtLeast_of_unattached {b : BrowserControl} (h : b.state.record.parent = none) :
    b.MarkAtLeast p g := by
  intro link hlink
  rw [h] at hlink
  cases hlink

omit [EndpointKeys] [ControlPostcard] in
theorem applyRebase_parent (s : LocalState) (parentAddress address : OctAddr) :
    (s.applyRebase parentAddress address).2.record.parent = s.record.parent := by
  rw [LocalState.applyRebase]
  split
  · rfl
  · split
    · rfl
    · split
      · rfl
      · rfl

omit [EndpointKeys] [ControlPostcard] in
theorem applyDetach_unattached (s : LocalState) : s.applyDetach.2.record.parent = none := by
  rw [LocalState.applyDetach]
  split
  · rename_i hnone
    exact Option.isNone_iff_eq_none.mp hnone.1
  · rfl

/-- What a notice leaves: nothing new, the guard seated for the sender, or the guard at a
generation above the one it was seated at. -/
theorem handleRebase_cases (b : BrowserControl) (signed : SignedControl) (notice : RebaseNotice) :
    (b.handleRebase signed notice).2 = b
      ∨ ∃ link, b.state.record.parent = some link ∧ signed.origin = link.nodeId
        ∧ (b.handleRebase signed notice).2.state.record.parent = some link
        ∧ ((b.handleRebase signed notice).2.rebaseGuard = b.rebaseGuard.seatedFor link.nodeId
          ∨ (b.rebaseGuard.seatedFor link.nodeId).generation < notice.generation
            ∧ (b.handleRebase signed notice).2.rebaseGuard
              = { b.rebaseGuard.seatedFor link.nodeId with generation := notice.generation }) := by
  rw [handleRebase]
  split
  · exact .inl rfl
  split
  · exact .inl rfl
  split
  · exact .inl rfl
  cases hparent : b.state.record.parent with
  | none => exact .inl rfl
  | some link =>
      dsimp only
      split
      · exact .inl rfl
      rename_i hsender
      have horigin : signed.origin = link.nodeId := by
        by_contra hne
        exact hsender (.inl hne)
      split
      · exact .inl rfl
      right
      refine ⟨link, rfl, horigin, ?_⟩
      split
      · exact ⟨hparent, .inl rfl⟩
      rename_i hnotbelow
      split
      · split
        · exact ⟨hparent, .inl rfl⟩
        · exact ⟨hparent, .inl rfl⟩
      rename_i hne
      have hnewer : (b.rebaseGuard.seatedFor link.nodeId).generation < notice.generation :=
        UInt64.lt_of_le_of_ne (UInt64.not_lt.mp hnotbelow) (Ne.symm hne)
      have hkept := applyRebase_parent b.state notice.parentAddress notice.address
      rw [hparent] at hkept
      split
      · exact ⟨hkept, .inr ⟨hnewer, rfl⟩⟩
      · exact ⟨hkept, .inl rfl⟩

omit [Crypto] [EndpointKeys] [ControlPostcard] in
theorem seatedFor_eq {guard : RebaseGuard} (h : guard.parent = some p) :
    guard.seatedFor p = guard := by
  rw [RebaseGuard.seatedFor, if_neg (not_not.mpr h)]

omit [Crypto] [EndpointKeys] [ControlPostcard] in
theorem seatedFor_parent (guard : RebaseGuard) : (guard.seatedFor p).parent = some p := by
  rw [RebaseGuard.seatedFor]
  split
  · rfl
  · rename_i h
    exact not_not.mp h

/-- A notice keeps the mark: the guard of the parent only rises. -/
theorem handleRebase_mark {b : BrowserControl} {signed : SignedControl} {notice : RebaseNotice}
    (hI : b.MarkAtLeast p g) : (b.handleRebase signed notice).2.MarkAtLeast p g := by
  obtain hsame | ⟨link, hlink, -, hkept, hguard⟩ := b.handleRebase_cases signed notice
  · rw [hsame]
    exact hI
  · intro link' hlink' hp
    rw [hkept, Option.some.injEq] at hlink'
    subst hlink' hp
    obtain ⟨hseat, hmark⟩ := hI link hlink rfl
    rw [seatedFor_eq hseat] at hguard
    obtain hguard | ⟨hnewer, hguard⟩ := hguard
    · rw [hguard]
      exact ⟨hseat, hmark⟩
    · rw [hguard]
      exact ⟨hseat, UInt64.le_of_lt (UInt64.lt_of_le_of_lt hmark hnewer)⟩

/-- A notice above the guard of its parent is accepted. -/
def Applies (b : BrowserControl) (signed : SignedControl) (now : UInt64)
    (notice : RebaseNotice) : Prop :=
  signed.request = .rebase notice
    ∧ (b.rebaseGuard.seatedFor signed.origin).generation < notice.generation
    ∧ (b.handle signed now).1 = .accepted

/-- An approval of the parent `p` is accepted in a step. -/
def Event.Rejoins (b : BrowserControl) (p : NodeId) (e : Event) : Prop :=
  ∃ signed now approval, e = .frame signed now ∧ signed.origin = p
    ∧ signed.request = .joinApproved approval ∧ (b.handle signed now).1 = .accepted

/-- An accepted notice above the guard takes it to the notice's generation. -/
theorem handleRebase_newer {b : BrowserControl} {signed : SignedControl} {notice : RebaseNotice}
    (hnewer : (b.rebaseGuard.seatedFor signed.origin).generation < notice.generation)
    (haccepted : (b.handleRebase signed notice).1 = .accepted) :
    (b.handleRebase signed notice).2.MarkAtLeast signed.origin notice.generation := by
  rw [handleRebase] at haccepted ⊢
  split at haccepted
  · cases haccepted
  rename_i hsigned
  split at haccepted
  · cases haccepted
  rename_i hvalid
  split at haccepted
  · cases haccepted
  rename_i hnode
  rw [if_neg hsigned, if_neg hvalid, if_neg hnode]
  cases hparent : b.state.record.parent with
  | none =>
      rw [hparent] at haccepted
      cases haccepted
  | some link =>
      rw [hparent] at haccepted
      dsimp only at haccepted ⊢
      split at haccepted
      · cases haccepted
      rename_i hsender
      split at haccepted
      · cases haccepted
      rename_i hplace
      have horigin : signed.origin = link.nodeId := by
        by_contra hne
        exact hsender (.inl hne)
      rw [horigin] at hnewer
      rw [if_neg hsender, if_neg hplace, if_neg (UInt64.not_lt.mpr (UInt64.le_of_lt hnewer)),
        if_neg (UInt64.ne_of_lt hnewer).symm]
      have htransition : (b.state.applyRebase notice.parentAddress notice.address).1 = .rebased
          ∨ (b.state.applyRebase notice.parentAddress notice.address).1 = .none := by
        rw [LocalState.applyRebase, hparent]
        dsimp only
        rw [if_neg hplace]
        split
        · exact .inr rfl
        · exact .inl rfl
      rw [if_pos htransition]
      intro link' _ _
      rw [horigin]
      exact ⟨seatedFor_parent _, UInt64.le_refl _⟩

theorem handleDetachNotice_mark {b : BrowserControl} {signed : SignedControl} {node : NodeId}
    (hI : b.MarkAtLeast p g) : (b.handleDetachNotice signed node).2.MarkAtLeast p g := by
  rw [handleDetachNotice]
  split
  · exact hI
  split
  · exact hI
  split
  · exact hI
  split
  · exact hI
  split
  · exact hI
  · apply markAtLeast_of_unattached
    dsimp only
    split
    · exact applyDetach_unattached b.state
    · exact applyDetach_unattached b.state

omit [EndpointKeys] in
/-- An approval is refused and changes nothing, or it links the browser to its sender. -/
theorem handleJoinApproved_cases (b : BrowserControl) (signed : SignedControl)
    (approval : JoinApproval) :
    (b.handleJoinApproved signed approval).2 = b
      ∨ (b.handleJoinApproved signed approval).1 = .accepted
        ∧ (b.handleJoinApproved signed approval).2.state.record.parent
          = some { nodeId := signed.origin, slot := approval.slot } := by
  rw [handleJoinApproved]
  split
  · exact .inl rfl
  rw [LocalState.onJoinApproved]
  cases b.state.outbound with
  | none => exact .inl rfl
  | some outbound =>
      dsimp only
      split
      · exact .inl rfl
      split
      · exact .inl rfl
      split
      · exact .inl rfl
      · exact .inr ⟨rfl, rfl⟩

omit [EndpointKeys] in
theorem handleJoinRejected_mark {b : BrowserControl} {signed : SignedControl}
    {rejection : JoinRejection} (hI : b.MarkAtLeast p g) :
    (b.handleJoinRejected signed rejection).2.MarkAtLeast p g := by
  rw [handleJoinRejected]
  split
  · exact hI
  split
  · exact hI
  refine MarkAtLeast.of_eq hI (?_ : (b.state.onJoinRejected _ _ _).2.record.parent = _) rfl
  rw [LocalState.onJoinRejected]
  cases b.state.outbound with
  | none => rfl
  | some outbound =>
      dsimp only
      split
      · rfl
      split
      · rfl
      split
      · rfl
      · rfl

/-- A step keeps the mark, unless the same parent approves the browser again. -/
theorem step_mark {b : BrowserControl} {e : Event} (hI : b.MarkAtLeast p g)
    (hkept : ¬ e.Rejoins b p) : (b.step e).MarkAtLeast p g := by
  cases e with
  | join outbound => exact hI.of_eq rfl rfl
  | refused code => exact hI.of_eq rfl rfl
  | leave => exact markAtLeast_of_unattached (applyDetach_unattached b.state)
  | frame signed now =>
      change (b.handle signed now).2.MarkAtLeast p g
      by_cases hversion : (!isSupportedControlVersion signed.version) = true
      · rw [handle, if_pos hversion]
        exact hI
      by_cases hexpired : signed.expiry < now
      · rw [handle, if_neg hversion, if_pos hexpired]
        exact hI
      cases hrequest : signed.request with
      | joinApproved approval =>
          have hhandle : b.handle signed now = b.handleJoinApproved signed approval := by
            rw [handle, if_neg hversion, if_neg hexpired, hrequest]
          obtain hsame | ⟨haccepted, hlinked⟩ := b.handleJoinApproved_cases signed approval
          · rw [hhandle, hsame]
            exact hI
          · rw [hhandle]
            intro link hlink hp
            rw [hlinked, Option.some.injEq] at hlink
            subst hlink
            exact absurd ⟨signed, now, approval, rfl, hp, hrequest, hhandle ▸ haccepted⟩ hkept
      | joinRejected rejection =>
          rw [handle, if_neg hversion, if_neg hexpired, hrequest]
          exact handleJoinRejected_mark hI
      | rebase notice =>
          rw [handle, if_neg hversion, if_neg hexpired, hrequest]
          exact handleRebase_mark hI
      | detachNotice node =>
          rw [handle, if_neg hversion, if_neg hexpired, hrequest]
          exact handleDetachNotice_mark hI
      | _ =>
          -- the rest changes nothing
          rw [handle, if_neg hversion, if_neg hexpired, hrequest]
          exact hI

/-- The states of a browser that has applied a notice of the parent `p` with generation `g` since
its page was loaded, and that `p` has not approved since. -/
inductive HasApplied (p : NodeId) (g : UInt64) : BrowserControl → Prop where
  | applied {b : BrowserControl} {signed : SignedControl} {now : UInt64} {notice : RebaseNotice}
      (horigin : signed.origin = p) (happlies : b.Applies signed now notice)
      (hgeneration : notice.generation = g) : HasApplied p g (b.step (.frame signed now))
  | step {b : BrowserControl} {e : Event} (hpast : HasApplied p g b) (hkept : ¬ e.Rejoins b p) :
      HasApplied p g (b.step e)

/-- A frame with a notice is refused before the notice is read, or handled as the notice. -/
theorem handle_rebase (b : BrowserControl) {signed : SignedControl} {notice : RebaseNotice}
    (now : UInt64) (hrequest : signed.request = .rebase notice) :
    (∃ code, b.handle signed now = (.rejected code, b))
      ∨ b.handle signed now = b.handleRebase signed notice := by
  rw [handle]
  split
  · exact .inl ⟨_, rfl⟩
  split
  · exact .inl ⟨_, rfl⟩
  rw [hrequest]
  exact .inr rfl

theorem HasApplied.mark {b : BrowserControl} (h : b.HasApplied p g) : b.MarkAtLeast p g := by
  induction h with
  | applied horigin happlies hgeneration =>
      rename_i b signed now notice
      obtain ⟨hrequest, hnewer, haccepted⟩ := happlies
      subst horigin hgeneration
      change (b.handle signed now).2.MarkAtLeast _ _
      obtain ⟨code, hrefused⟩ | hhandle := b.handle_rebase now hrequest
      · rw [hrefused] at haccepted
        cases haccepted
      · rw [hhandle] at haccepted ⊢
        exact handleRebase_newer hnewer haccepted
  | step _ hkept ih => exact step_mark ih hkept

end BrowserControl

/-! ## Notices in order -/

end Engine

section Concrete

open Concrete

/-- The operator key of the parent's id. -/
scoped instance endpointKeys : EndpointKeys where
  operatorKeyFromNode id := if id = "p" then some (2 : ℕ) else none

end Concrete

end Cawala
