import Cawala.Verification.ControlAuthority

/-! # Designations and membership

A designation is dropped when a request finds that its child has left. It ends with the
membership of the child exactly if the step that takes the child back finds no designation of
it on disk, or drops it there first. -/

namespace Cawala

open Library Transaction

section Requests

variable [Crypto]

/-! ## Designations on disk -/

namespace DataDir

theorem designates_congr {d d' : DataDir} (h : d'.adminState = d.adminState) {id : NodeId} :
    d'.designates id ↔ d.designates id := by
  rw [designates, designates, loadAdminState, loadAdminState, h]

/-- A set that is stored and designates an id names it. -/
theorem has_of_designates {d : DataDir} {state : AdminState} {id : NodeId}
    (hstored : d.adminState = some state) (h : d.designates id) : state.has id = true := by
  obtain ⟨loaded, hload, hhas⟩ := h
  simp only [loadAdminState, hstored, Option.ite_none_right_eq_some, Option.some.injEq] at hload
  obtain ⟨-, rfl⟩ := hload
  exact hhas

end DataDir

namespace NodeHost

theorem designates_of_reload {io : ReloadIo} {h : NodeHost} {id : NodeId}
    (hid : (h.reload io).disk.designates id) : h.disk.designates id := by
  obtain hsame | ⟨state, hload, hpruned⟩ := (h.reload_refreshed io).storedAdmins
  · exact (DataDir.designates_congr hsame).mp hid
  · have hhas := DataDir.has_of_designates hpruned hid
    exact ⟨state, hload, (AdminState.has_of_prune hhas).1⟩

theorem designates_of_has {io : ReloadIo} {h : NodeHost} {id : NodeId}
    (hid : (h.reload io).node.adminState.has id = true) : h.disk.designates id :=
  ((h.reload_refreshed io).admins id hid).2

end NodeHost

/-! ## Membership -/

def ReloadIo.full : ReloadIo where
  recordReads := true
  peersReads := true
  adminReads := true
  pruneSaves := true

def NodeHost.currentRecord (h : NodeHost) : NodeRecord :=
  (h.refreshControlPlane .full).node.record

def NodeHost.isChild (h : NodeHost) (id : NodeId) : Prop := h.currentRecord.lists id = true

namespace NodeHost

theorem currentRecord_eq (h : NodeHost) :
    h.currentRecord = match h.disk.record with
      | none => h.node.record
      | some _ =>
          match openRecord true h.disk h.node.nodeId with
          | .ok record => record
          | .error _ => h.node.record := by
  cases hstored : h.disk.record with
  | none => simp [currentRecord, refreshControlPlane, hstored]
  | some stored =>
      simp only [currentRecord, refreshControlPlane, hstored, Option.isSome_some, if_true]
      rfl

theorem openRecord_unread (disk : DataDir) (nodeId : NodeId) :
    openRecord false disk nodeId = .error .readFailed := rfl

/-- A reload takes the current record, or keeps the one in memory. -/
theorem reload_record (io : ReloadIo) (h : NodeHost) :
    (h.reload io).node.record = if io.recordReads then h.currentRecord else h.node.record := by
  have hkept : (h.reload io).node.record = (h.refreshControlPlane io).node.record := by
    rw [reload, reloadAdminState]
    split
    · rfl
    · rfl
  rw [hkept, currentRecord_eq, refreshControlPlane]
  cases hstored : h.disk.record with
  | none =>
      cases io.recordReads with
      | true => simp
      | false => simp
  | some stored =>
      cases io.recordReads with
      | true => rfl
      | false => simp [openRecord_unread]

theorem currentRecord_reload (io : ReloadIo) (h : NodeHost) :
    (h.reload io).currentRecord = h.currentRecord := by
  have hstored : (h.reload io).disk.record = h.disk.record := (h.reload_refreshed io).stored.1
  have hid : (h.reload io).node.nodeId = h.node.nodeId := by
    rw [reload, reloadAdminState]
    split
    · rfl
    · rfl
  have hopen : openRecord true (h.reload io).disk (h.reload io).node.nodeId
      = openRecord true h.disk h.node.nodeId := by
    rw [openRecord, openRecord, hstored, hid]
  have hrecord := h.reload_record io
  rw [currentRecord_eq (h.reload io), hstored, hopen, hrecord, currentRecord_eq h]
  cases h.disk.record with
  | none => simp
  | some stored =>
      cases openRecord true h.disk h.node.nodeId with
      | ok record => rfl
      | error e => simp

theorem currentRecord_congr {h h' : NodeHost} (hrecord : h'.node.record = h.node.record)
    (hstored : h'.disk.record = h.disk.record) (hid : h'.node.nodeId = h.node.nodeId) :
    h'.currentRecord = h.currentRecord := by
  have hopen : openRecord true h'.disk h'.node.nodeId = openRecord true h.disk h.node.nodeId := by
    rw [openRecord, openRecord, hstored, hid]
  rw [currentRecord_eq, currentRecord_eq, hstored, hopen, hrecord]

end NodeHost

/-! ## Reloads that drop a designation -/

/-- A reload drops the designation of an id that is no child: it reads the designations, finds a
record without the id, and can write the set back. -/
def ReloadIo.Drops (io : ReloadIo) (h : NodeHost) (id : NodeId) : Prop :=
  io.adminReads = true ∧ io.pruneSaves = true
    ∧ (io.recordReads = true ∨ h.node.record.lists id = false)

namespace NodeHost

theorem isChild_reload (io : ReloadIo) (h : NodeHost) {id : NodeId} :
    (h.reload io).isChild id ↔ h.isChild id := by
  rw [isChild, isChild, currentRecord_reload]

theorem lists_of_drops {io : ReloadIo} {h : NodeHost} {id : NodeId} (hgone : ¬ h.isChild id)
    (hdrops : io.Drops h id) : (h.reload io).node.record.lists id = false := by
  rw [reload_record]
  by_cases hreads : io.recordReads = true
  · rw [if_pos hreads]
    exact Bool.eq_false_iff.mpr hgone
  · rw [if_neg hreads]
    exact hdrops.2.2.resolve_left hreads

theorem not_designates_of_drops {io : ReloadIo} {h : NodeHost} {id : NodeId}
    (hgone : ¬ h.isChild id) (hdrops : io.Drops h id) :
    ¬ (h.reload io).node.adminState.has id = true
      ∧ ¬ (h.reload io).disk.designates id := by
  have hlists := lists_of_drops hgone hdrops
  constructor
  · intro hhas
    rw [((h.reload_refreshed io).admins id hhas).1] at hlists
    cases hlists
  · intro hid
    have hcurrent : (h.refreshControlPlane io).node.record.lists id = false := by
      rw [reload, reloadAdminState] at hlists
      split at hlists
      · exact hlists
      · exact hlists
    rw [reload, reloadAdminState] at hid
    have hreads : io.adminReads = true := hdrops.1
    cases hload : loadAdminState io.adminReads (h.refreshControlPlane io).disk with
    | none =>
        rw [hload] at hid
        obtain ⟨state, hstate, -⟩ := hid
        rw [hreads] at hload
        have hstored : loadAdminState true (h.refreshControlPlane io).disk = some state := hstate
        rw [hstored] at hload
        cases hload
    | some state =>
        rw [hload] at hid
        dsimp only at hid
        set listed := (h.refreshControlPlane io).node.record.children.map (·.childId) with hlisted
        have hpruned : ¬ (state.prune listed).has id = true := by
          intro hhas
          have hmem := (AdminState.has_of_prune hhas).2
          rw [hlisted, ← NodeRecord.lists_iff, hcurrent] at hmem
          cases hmem
        by_cases hsaved : (state.prune listed).admins.length ≠ state.admins.length
            ∧ io.pruneSaves = true
        · rw [if_pos hsaved] at hid
          exact hpruned (DataDir.has_of_designates rfl hid)
        · rw [if_neg hsaved] at hid
          -- nothing was dropped, so the set on disk is the pruned one
          obtain ⟨stored, hstored, hhas⟩ := hid
          rw [hreads, show loadAdminState true (h.refreshControlPlane io).disk = some stored
            from hstored, Option.some.injEq] at hload
          subst hload
          have hlength : (stored.prune listed).admins.length = stored.admins.length := by
            by_contra hne
            exact hsaved ⟨hne, hdrops.2.1⟩
          have hadmins : (stored.prune listed).admins = stored.admins :=
            List.filter_sublist.eq_of_length hlength
          apply hpruned
          rw [AdminState.has, hadmins]
          exact hhas

end NodeHost

/-- The step that takes a child back finds no designation of it, or drops it first: a request by
one of its reloads. The condition is about the state before the step and what can be read. -/
def ControlEvent.Clears (h : NodeHost) (id : NodeId) : ControlEvent → Prop
  | .direct io _ _ => ¬ h.disk.designates id ∨ io.reload.Drops h id
  | .routed io _ _ _ =>
      ¬ h.disk.designates id ∨ io.routedReload.Drops h id ∨ io.reload.Drops h id
  | _ => ¬ h.disk.designates id

/-! ## Frames of the handlers -/

/-- The designations, in memory and on disk, that the handlers of other requests keep. -/
def SameAdmins (admins : AdminState) (stored : Option AdminState) (h : NodeHost) : Prop :=
  h.node.adminState = admins ∧ h.disk.adminState = stored

theorem sameAdmins_invariant (admins : AdminState) (stored : Option AdminState) :
    HandlerInvariant (SameAdmins admins stored) :=
  .of_ignores
    (fun hcore hI => ⟨(congrArg HostCore.admins hcore).trans hI.1,
      (congrArg HostCore.storedAdmins hcore).trans hI.2⟩)
    (fun hI => hI) (fun hI => hI)

/-- The designations of the reloaded state, in memory and on disk, were on disk. -/
theorem ControlEvent.designates_of_reloaded {h : NodeHost} {e : ControlEvent} {id : NodeId}
    (hid : (e.reloaded h).disk.designates id) : h.disk.designates id := by
  cases e with
  | direct io signed now => exact NodeHost.designates_of_reload hid
  | routed io remote carried now =>
      exact NodeHost.designates_of_reload (NodeHost.designates_of_reload hid)
  | _ => exact hid

theorem ControlEvent.designates_of_idle {h s : NodeHost} {e : ControlEvent} {id : NodeId}
    (hs : e.Idle h s) (hid : s.disk.designates id) : h.disk.designates id := by
  cases hs with
  | refused => exact hid
  | halfway heq => exact NodeHost.designates_of_reload hid
  | reloaded => exact designates_of_reloaded hid
  | marked seen stored => exact designates_of_reloaded hid

theorem ControlEvent.isChild_of_idle {h s : NodeHost} {e : ControlEvent} {id : NodeId}
    (hs : e.Idle h s) : s.isChild id ↔ h.isChild id := by
  have hreloaded : (e.reloaded h).isChild id ↔ h.isChild id := by
    cases e with
    | direct io signed now => exact NodeHost.isChild_reload io.reload h
    | routed io remote carried now =>
        exact (NodeHost.isChild_reload io.reload _).trans
          (NodeHost.isChild_reload io.routedReload h)
    | _ => exact Iff.rfl
  cases hs with
  | refused => exact Iff.rfl
  | halfway heq => exact NodeHost.isChild_reload _ h
  | reloaded => exact hreloaded
  | marked seen stored => exact hreloaded

/-! ## The local processes -/

theorem ControlHost.isChild_adminAdd {c : ControlHost} {adminReads recordReads adminSaves : Bool}
    {child id : NodeId} {now : UInt64} :
    (c.adminAdd adminReads recordReads adminSaves child now).host.isChild id
      ↔ c.host.isChild id := by
  rw [adminAdd]
  split
  · exact Iff.rfl
  · split
    · exact Iff.rfl
    · split
      · exact Iff.rfl
      · exact Iff.rfl

/-- A run of another process that keeps the designations on disk. -/
theorem ControlHost.elsewhere_storedAdmins {ε α : Type} (c : ControlHost) (opens : OpenIo)
    (now : UInt64) {x : Transaction NodeHost ε α}
    (hx : ∀ {I : NodeHost → Prop}, HandlerInvariant I → Keeps I x) :
    (c.elsewhere opens now x).host.disk.adminState = c.host.disk.adminState := by
  rw [elsewhere]
  split
  · rfl
  · rename_i node _
    have g := sameAdmins_invariant node.adminState c.host.disk.adminState
    exact ((hx g).exec (s := { c.host with node }) ⟨rfl, rfl⟩).2

theorem ControlHost.adminForRepair_has {c : ControlHost} {reads : Bool} {id : NodeId}
    (h : (c.adminForRepair reads).has id = true) : c.host.disk.designates id := by
  cases hload : loadAdminState reads c.host.disk with
  | none => simp [adminForRepair, hload, AdminState.has, AdminState.empty] at h
  | some state =>
      rw [adminForRepair, hload] at h
      exact ⟨state, loadAdminState_eq_some hload, h⟩

/-! ## What a handler designates -/

variable [ControlPostcard]

/-- Whom a handed-off frame finds designated was designated on disk. -/
theorem ControlEvent.Shown.designates_of_has {h : NodeHost} {d : HandOff} {e : ControlEvent}
    (hd : e.Shown h d) {id : NodeId} (hid : (e.reloaded h).node.adminState.has id = true) :
    h.disk.designates id := by
  cases e with
  | direct io signed now => exact NodeHost.designates_of_has hid
  | routed io remote carried now =>
      exact NodeHost.designates_of_reload (NodeHost.designates_of_has hid)
  | _ => exact hd.elim

theorem ControlEvent.Shown.isChild_reloaded {h : NodeHost} {d : HandOff} {e : ControlEvent}
    (hd : e.Shown h d) {id : NodeId} : (e.reloaded h).isChild id ↔ h.isChild id := by
  cases e with
  | direct io signed now => exact NodeHost.isChild_reload io.reload h
  | routed io remote carried now =>
      exact (NodeHost.isChild_reload io.reload _).trans (NodeHost.isChild_reload io.routedReload h)
  | _ => exact hd.elim

/-- The frame of a clearing event finds its child designated nowhere. -/
theorem ControlEvent.Shown.not_designates_of_clears {h : NodeHost} {d : HandOff}
    {e : ControlEvent} (hd : e.Shown h d) {id : NodeId} (hgone : ¬ h.isChild id)
    (hclear : e.Clears h id) :
    ¬ (e.reloaded h).node.adminState.has id = true
      ∧ ¬ (e.reloaded h).disk.designates id := by
  cases e with
  | direct io signed now =>
      obtain hnone | hdrops := hclear
      · exact ⟨mt NodeHost.designates_of_has hnone, mt NodeHost.designates_of_reload hnone⟩
      · exact NodeHost.not_designates_of_drops hgone hdrops
  | routed io remote carried now =>
      have hgone' : ¬ (h.reload io.routedReload).isChild id :=
        mt (NodeHost.isChild_reload io.routedReload h).mp hgone
      have hfirst : ¬ (h.reload io.routedReload).disk.designates id ∨ io.reload.Drops h id := by
        obtain hnone | hdrops | hdrops := hclear
        · exact .inl (mt NodeHost.designates_of_reload hnone)
        · exact .inl (NodeHost.not_designates_of_drops hgone hdrops).2
        · exact .inr hdrops
      obtain hnone | ⟨hadmins, hsaves, hrecord⟩ := hfirst
      · exact ⟨mt NodeHost.designates_of_has hnone, mt NodeHost.designates_of_reload hnone⟩
      · apply NodeHost.not_designates_of_drops hgone'
        refine ⟨hadmins, hsaves, hrecord.imp_right fun hlists => ?_⟩
        -- the first reload takes in no record that lists the child
        rw [NodeHost.reload_record]
        by_cases hreads : io.routedReload.recordReads = true
        · rw [if_pos hreads]
          exact Bool.eq_false_iff.mpr hgone
        · rw [if_neg hreads]
          exact hlists
  | _ => exact hd.elim

variable [EthPrimitives] [ZeroKey]

theorem HandOff.not_designates {d : HandOff} {child : NodeId}
    (hmem : ¬ d.host.node.adminState.has child = true) (hdisk : ¬ d.host.disk.designates child)
    (hnew : d.signed.request = .adminDesignate child →
      d.handled.1 ≠ .ok (.reply .accepted)) :
    ¬ d.handled.2.disk.designates child := by
  have hsame : SameAdmins d.host.node.adminState d.host.disk.adminState d.handled.2 →
      ¬ d.handled.2.disk.designates child :=
    fun hkept => mt (DataDir.designates_congr hkept.2).mp hdisk
  have hsaved : ∀ {state : AdminState}, ¬ state.has child = true →
      ¬ (d.host.designationsSaved state).disk.designates child :=
    fun hstate h => hstate (DataDir.has_of_designates rfl h)
  have g := sameAdmins_invariant d.host.node.adminState d.host.disk.adminState
  have hstart : SameAdmins d.host.node.adminState d.host.disk.adminState d.host := ⟨rfl, rfl⟩
  cases hrequest : d.signed.request with
  | adminRevoke node =>
      rw [handled, handleRequest, hrequest, exec_map]
      obtain hkept | ⟨state, hstate, hhas⟩ :=
        handleAdminRevoke_cases d.io node d.now d.route d.host
      · rwa [hkept]
      · rw [hstate]
        exact hsaved fun h => hmem (hhas child h)
  | adminDesignate node =>
      have hexec : d.handled
          = ((exec (handleAdminDesignate d.io node d.now d.route) d.host).1.map .reply,
            (exec (handleAdminDesignate d.io node d.now d.route) d.host).2) := by
        rw [handled, handleRequest, hrequest, exec_map]
      obtain hkept | ⟨state, hstate, hhas⟩ :=
        handleAdminDesignate_cases d.io node d.now d.route d.host
      · rw [hexec]
        dsimp only
        rwa [hkept]
      · rw [hstate] at hexec
        rw [hexec]
        apply hsaved
        intro h
        obtain hold | rfl := hhas child h
        · exact hmem hold
        · exact hnew hrequest (by rw [hexec]; rfl)
  | _ =>
      -- the other requests leave the designations
      apply hsame
      apply HandOff.handled_keeps g.ordinary hstart (fun _ => g.relink)
        (fun _ => g.toCoreInvariant.notifies) (fun _ _ => onRecord_keeps fun hI => hI)
        (fun _ _ => onRecord_keeps fun hI => hI)
      intro hdesignates
      rw [hrequest] at hdesignates
      cases hdesignates

theorem HandOff.designate_frame (d : HandOff) {child : NodeId}
    (hrequest : d.signed.request = .adminDesignate child) :
    d.handled.2.node.record = d.host.node.record ∧ d.handled.2.disk.record = d.host.disk.record
      ∧ d.handled.2.node.nodeId = d.host.node.nodeId := by
  have hexec : d.handled.2 = (exec (handleAdminDesignate d.io child d.now d.route) d.host).2 := by
    rw [handled, handleRequest, hrequest, exec_map]
  rw [hexec]
  obtain hkept | ⟨state, hstate, -⟩ := handleAdminDesignate_cases d.io child d.now d.route d.host
  · rw [hkept]
    exact ⟨rfl, rfl, rfl⟩
  · rw [hstate]
    exact ⟨rfl, rfl, rfl⟩

/-! ## Steps -/

namespace ControlEvent

/-- An event accepts a designation of a child: a request that is answered so, or the local tool
that writes one. -/
def Designates (c : ControlHost) (child : NodeId) : ControlEvent → Prop
  | .adminAdd adminReads recordReads adminSaves node _ =>
      node = child ∧ child ∈ c.currentChildren recordReads
        ∧ ((c.adminForRepair adminReads).add child).isSome = true ∧ adminSaves = true
  | e => ∃ d, e.handOff c.host = some d ∧ d.signed.request = .adminDesignate child
      ∧ d.handled.1 = .ok (.reply .accepted)

end ControlEvent

theorem ControlEvent.Designates.kind {c : ControlHost} {child : NodeId} {e : ControlEvent}
    (h : e.Designates c child) :
    e.request = some (.adminDesignate child)
      ∨ ∃ adminReads recordReads adminSaves now,
        e = .adminAdd adminReads recordReads adminSaves child now := by
  cases e with
  | adminAdd adminReads recordReads adminSaves node now =>
      obtain ⟨rfl, -⟩ := h
      exact .inr ⟨adminReads, recordReads, adminSaves, now, rfl⟩
  | _ =>
      obtain ⟨d, hd, hrequest, -⟩ := h
      left
      rw [(ControlEvent.shown_of_handOff hd).request_eq, hrequest]

variable [Postcard]

namespace ControlHost

theorem not_designates_of_step {c c' : ControlHost} {e : ControlEvent} {child : NodeId}
    (hstep : c.step e = some c') (hbefore : ¬ c.host.disk.designates child)
    (hnew : ¬ e.Designates c child) : ¬ c'.host.disk.designates child := by
  cases hreceived : e.received c.host with
  | some result =>
      rw [step_received hreceived, Option.some.injEq] at hstep
      subst hstep
      obtain ⟨-, -, hidle⟩ | ⟨d, hd, rfl, hshown, seen, stored, hhost⟩ :=
        ControlEvent.received_cases hreceived
      · exact fun h => hbefore (ControlEvent.designates_of_idle hidle h)
      · apply HandOff.not_designates
        · rw [hhost]
          exact fun h => hbefore (hshown.designates_of_has h)
        · rw [hhost]
          exact fun h => hbefore (ControlEvent.designates_of_reloaded h)
        · intro hrequest hok
          apply hnew
          cases e with
          | adminAdd adminReads recordReads adminSaves node now => cases hd
          | _ => exact ⟨d, hd, hrequest, hok⟩
  | none =>
      cases e with
      | direct io signed now => cases hreceived
      | routed io remote carried now => cases hreceived
      | execute index audited env now =>
          obtain rfl := Option.some.inj hstep
          rw [executeMutation]
          split
          · exact hbefore
          · exact hbefore
      | approve opens io node slot parentLedger now =>
          obtain rfl := Option.some.inj hstep
          exact mt (DataDir.designates_congr (elsewhere_storedAdmins c opens now
            fun g => g.ordinary.approvePending _ _ _ _ _)).mp hbefore
      | reject opens io node now =>
          obtain rfl := Option.some.inj hstep
          exact mt (DataDir.designates_congr (elsewhere_storedAdmins c opens now
            fun g => g.ordinary.rejectPending _ _ _)).mp hbefore
      | adminAdd adminReads recordReads adminSaves node now =>
          obtain rfl := Option.some.inj hstep
          rw [adminAdd]
          split
          · exact hbefore
          · rename_i hadd
            split
            · exact hbefore
            · rename_i state hstate
              split
              · rename_i hsaves
                intro h
                have hhas := DataDir.has_of_designates rfl h
                rw [AdminState.has_markUpdated] at hhas
                obtain hold | rfl := AdminState.has_of_add hstate hhas
                · exact hbefore (adminForRepair_has hold)
                · exact hnew ⟨rfl, by simpa using (not_or.mp hadd).2, by rw [hstate]; rfl, hsaves⟩
              · exact hbefore
      | adminRemove adminReads adminSaves node now =>
          obtain rfl := Option.some.inj hstep
          rw [adminRemove]
          split
          · intro h
            have hhas := DataDir.has_of_designates rfl h
            rw [AdminState.has_markUpdated] at hhas
            exact hbefore (adminForRepair_has (AdminState.has_of_remove hhas))
          · exact hbefore
      | restart opens now =>
          obtain ⟨node, -, rfl⟩ := Option.map_eq_some_iff.mp hstep
          exact hbefore

/-- A step that takes a child back leaves no designation of it, if it clears. -/
theorem not_designates_of_attach {c c' : ControlHost} {e : ControlEvent} {child : NodeId}
    (hgone : ¬ c.host.isChild child) (hstep : c.step e = some c')
    (hback : c'.host.isChild child) (hclear : e.Clears c.host child) :
    ¬ c'.host.disk.designates child := by
  cases hreceived : e.received c.host with
  | some result =>
      rw [step_received hreceived, Option.some.injEq] at hstep
      subst hstep
      obtain ⟨-, -, hidle⟩ | ⟨d, hd, rfl, hshown, seen, stored, hhost⟩ :=
        ControlEvent.received_cases hreceived
      · exact absurd ((ControlEvent.isChild_of_idle hidle).mp hback) hgone
      · obtain ⟨hmem, hdisk⟩ := hshown.not_designates_of_clears hgone hclear
        apply HandOff.not_designates
        · rw [hhost]
          exact hmem
        · rw [hhost]
          exact hdisk
        · intro hrequest _
          -- a designation takes no child back
          apply hgone
          rw [← hshown.isChild_reloaded]
          obtain ⟨hrecord, hstored, hid⟩ := d.designate_frame hrequest
          have hcurrent := NodeHost.currentRecord_congr hrecord hstored hid
          have hlisted : d.handled.2.currentRecord.lists child = true := hback
          rw [hcurrent, hhost] at hlisted
          exact hlisted
  | none =>
      cases e with
      | direct io signed now => cases hreceived
      | routed io remote carried now => cases hreceived
      | adminAdd adminReads recordReads adminSaves node now =>
          obtain rfl := Option.some.inj hstep
          exact absurd (isChild_adminAdd.mp hback) hgone
      | _ =>
          exact not_designates_of_step hstep hclear fun ⟨d, hd, _⟩ => by cases hd

/-- While no designation is accepted, none comes to be on disk. -/
theorem not_designates_of_run {c c' : ControlHost} {events : List ControlEvent} {child : NodeId}
    (hrun : c.run events = some c') (hbefore : ¬ c.host.disk.designates child)
    (hnew : ∀ past e rest mid, events = past ++ e :: rest → c.run past = some mid →
      ¬ e.Designates mid child) : ¬ c'.host.disk.designates child := by
  refine run_induction (P := fun _ c => ¬ c.host.disk.designates child) hrun hbefore ?_
  intro past mid e next hmid hprefix ih hstep
  apply not_designates_of_step hstep ih
  obtain ⟨rest, hrest⟩ := hprefix
  exact hnew past e rest mid (by rw [← hrest]; simp) hmid

end ControlHost

/-- A designation does not outlive the membership of its child: in every run, from the step that
takes a child back and clears its designation on, the child administers the node in no request,
until a designation of it is accepted again. -/
theorem designation_ends {c₀ c₁ c : ControlHost} {e : ControlEvent} {later : List ControlEvent}
    {child : NodeId} (hgone : ¬ c₀.host.isChild child) (hattach : c₀.step e = some c₁)
    (hback : c₁.host.isChild child) (hclear : e.Clears c₀.host child)
    (hrun : c₁.run later = some c)
    (hnew : ∀ past e' rest mid, later = past ++ e' :: rest → c₁.run past = some mid →
      ¬ e'.Designates mid child) :
    (∀ io, (c.host.reload io).node.isAdministrator child = none)
      ∧ ∀ (next : ControlEvent) (d : HandOff), next.handOff c.host = some d →
        d.authority ≠ some (.adminChild child) := by
  have hstart := ControlHost.not_designates_of_attach hgone hattach hback hclear
  have hdisk := ControlHost.not_designates_of_run hrun hstart hnew
  constructor
  · intro io
    rw [ControlNode.isAdministrator, if_neg]
    intro h
    exact hdisk (NodeHost.designates_of_has (Bool.and_eq_true_iff.mp h).2)
  · intro next d hd hauthority
    have hshown := ControlEvent.shown_of_handOff hd
    have hstands := hshown.stands hauthority
    exact hdisk (hshown.designates_of_has hstands.2.2.1)

end Requests

/-! ## A designation that outlives its child's membership -/

section Concrete

open Concrete

/-- While it is a child, `x` asks to join, and then it leaves. -/
def joinThenExit : List ControlEvent :=
  [.direct io (frame "x" 2 1 (.join
      { node := "x", kind := .node, operator := (2 : ℕ), ledger := some (12 : ℕ)
        desiredSlot := none, locationHint := none, nonce := 1, expiry := 200 })) 150,
    .direct io (frame "x" 2 2 (.exit { node := "x", subtreeNodes := 1 })) 150]

def queryOfChild : ControlEvent := .direct io (frame "x" 2 3 .query) 150

/-- The local tool takes `x` back, and its next request is authorised by the old designation. -/
theorem designation_outlives :
    ∃ c₀ c₁ : ControlHost, ∃ d, ran designatedChild joinThenExit = some c₀
      ∧ ¬ c₀.host.isChild "x"
      ∧ c₀.step (.approve opens io "x" none (9 : ℕ) 150) = some c₁ ∧ c₁.host.isChild "x"
      ∧ queryOfChild.handOff c₁.host = some d ∧ d.authority = some (.adminChild "x") := by
  have hrun : (ran designatedChild joinThenExit).any (fun c₀ =>
      !c₀.host.currentRecord.lists "x"
        && (c₀.step (.approve opens io "x" none (9 : ℕ) 150)).any fun c₁ =>
          c₁.host.currentRecord.lists "x"
            && (queryOfChild.handOff c₁.host).any fun d =>
              d.authority == some (.adminChild "x")) = true := by decide +kernel
  simp only [Option.any_eq_true, Bool.and_eq_true, beq_iff_eq, Bool.not_eq_true'] at hrun
  obtain ⟨c₀, hran, hgone, c₁, hstep, hback, d, hd, hauthority⟩ := hrun
  refine ⟨c₀, c₁, d, hran, ?_, hstep, hback, hd, hauthority⟩
  exact Bool.eq_false_iff.mp hgone

/-- The operator's own approval drops the designation first, and the query is refused. -/
theorem designation_ends_approved :
    ∃ c₀ c₁ c : ControlHost, ran designatedChild joinThenExit = some c₀
      ∧ c₀.step (.direct io (frame "n" 1 5 (.adminApproveJoin { child := "x", slot := none })) 150)
          = some c₁
      ∧ c₁.run [queryOfChild] = some c
      ∧ ∀ io, (c.host.reload io).node.isAdministrator "x" = none := by
  have hrun : (ran designatedChild joinThenExit).any (fun c₀ =>
      !c₀.host.currentRecord.lists "x"
        && (c₀.step (.direct io (frame "n" 1 5
            (.adminApproveJoin { child := "x", slot := none })) 150)).any fun c₁ =>
          c₁.host.currentRecord.lists "x" && (c₁.run [queryOfChild]).isSome) = true := by
    decide +kernel
  simp only [Option.any_eq_true, Bool.and_eq_true, Bool.not_eq_true',
    Option.isSome_iff_exists] at hrun
  obtain ⟨c₀, hran, hgone, c₁, hstep, hback, c, hlater⟩ := hrun
  refine ⟨c₀, c₁, c, hran, hstep, hlater, ?_⟩
  refine (designation_ends (Bool.eq_false_iff.mp hgone) hstep hback
    (.inr ⟨rfl, rfl, .inl rfl⟩) hlater ?_).1
  intro past e rest mid hsplit _ hdesignates
  have he : e = queryOfChild := by
    cases past with
    | nil => exact (List.cons.inj hsplit).1.symm
    | cons _ past => cases past <;> cases (List.cons.inj hsplit).2
  subst he
  obtain hrequest | ⟨_, _, _, _, hadd⟩ := hdesignates.kind
  · cases hrequest
  · cases hadd

end Concrete

end Cawala
