import Cawala.Library.Except
import Cawala.Verification.ControlHandlers

/-! # Admission

What a request has passed when its handler runs, which state the handler finds, and what a
request leaves that never reaches its handler. -/

namespace Cawala

open Library Transaction

variable [Crypto]

/-! ## The replay guard -/

/-- The marks of the replay guard, in memory and on disk, replaced. -/
def NodeHost.withMarks (h : NodeHost) (seen : SeenStore SeenKey)
    (stored : Option (List (SeenEntry SeenKey))) : NodeHost :=
  { h with node := { h.node with seen }, disk := { h.disk with seen := stored } }

/-- Whether the replay guard refuses a frame: its mark is held in memory. -/
def NodeHost.Replays (h : NodeHost) (signed : SignedControl) : Prop :=
  (h.node.seen.observe signed.seenKey (nonceMsgId signed.nonce) signed.expiry).1 = .duplicate

instance (h : NodeHost) (signed : SignedControl) : Decidable (h.Replays signed) :=
  inferInstanceAs (Decidable (_ = Seen.duplicate))

/-- The host once the guard has observed a frame. -/
def NodeHost.observing (h : NodeHost) (signed : SignedControl) : NodeHost :=
  h.withMarks (h.node.seen.observe signed.seenKey (nonceMsgId signed.nonce) signed.expiry).2
    h.disk.seen

/-- The host once the guard has persisted its marks. -/
def NodeHost.seenSaved (h : NodeHost) (now : UInt64) : NodeHost :=
  h.withMarks h.node.seen (some (h.node.seen.document now))

/-- The replay guard refuses a frame it holds, fails to persist the mark of a fresh one, or
persists it. -/
theorem replayGuard_cases (io : Io) (signed : SignedControl) (now : UInt64) (h : NodeHost) :
    (h.Replays signed
      ∧ exec (replayGuard io signed now) h = (.error .replay, h.observing signed))
    ∨ (¬ h.Replays signed ∧ io.seenSaves = false
      ∧ exec (replayGuard io signed now) h = (.error .internal, h.observing signed))
    ∨ (¬ h.Replays signed ∧ io.seenSaves = true
      ∧ exec (replayGuard io signed now) h = (.ok ⟨⟩, (h.observing signed).seenSaved now)) := by
  rw [replayGuard, exec_get_bind, exec_bind, exec_modify]
  dsimp only
  rw [exec_refuseIf_bind]
  by_cases hdup : (h.node.seen.observe signed.seenKey (nonceMsgId signed.nonce)
      signed.expiry).1 = .duplicate
  · rw [if_pos hdup]
    exact .inl ⟨hdup, rfl⟩
  rw [if_neg hdup, saveSeen, exec_refuseIf_bind]
  cases hsaves : io.seenSaves with
  | false => exact .inr (.inl ⟨hdup, rfl, rfl⟩)
  | true => exact .inr (.inr ⟨hdup, rfl, rfl⟩)

theorem replayGuard_marks (io : Io) (signed : SignedControl) (now : UInt64) (h : NodeHost) :
    ∃ seen stored, (exec (replayGuard io signed now) h).2 = h.withMarks seen stored := by
  obtain ⟨-, hguard⟩ | ⟨-, -, hguard⟩ | ⟨-, -, hguard⟩ := replayGuard_cases io signed now h
  · rw [hguard]
    exact ⟨_, _, rfl⟩
  · rw [hguard]
    exact ⟨_, _, rfl⟩
  · rw [hguard]
    exact ⟨_, _, rfl⟩

/-! ## Prechecks and authority -/

variable [ControlPostcard]

theorem precheck_exec (io : ReloadIo) (signed : SignedControl) (now : UInt64) (h : NodeHost) :
    (∃ e, exec (precheck io signed now) h = (.error e, h))
      ∨ exec (precheck io signed now) h = (.ok ⟨⟩, h.reload io)
        ∧ signed.verifySignature.toBool = true ∧ now ≤ signed.expiry := by
  rw [precheck, exec_refuseIf_bind]
  by_cases hversion : (!isSupportedControlVersion signed.version) = true
  · rw [if_pos hversion]
    exact .inl ⟨_, rfl⟩
  rw [if_neg hversion, exec_refuseIf_bind]
  by_cases hmin : signed.version < signed.request.minControlVersion
  · rw [if_pos hmin]
    exact .inl ⟨_, rfl⟩
  rw [if_neg hmin, exec_refuseIf_bind]
  by_cases hsig : signed.verifySignature.toBool = false
  · rw [if_pos hsig]
    exact .inl ⟨_, rfl⟩
  rw [if_neg hsig, exec_refuseIf_bind]
  by_cases hexpired : now > signed.expiry
  · rw [if_pos hexpired]
    exact .inl ⟨_, rfl⟩
  rw [if_neg hexpired, exec_refuseIf_bind]
  by_cases hfar : signed.expiry > saturatingAdd now controlRequestMaxTtlSecs
  · rw [if_pos hfar]
    exact .inl ⟨_, rfl⟩
  rw [if_neg hfar]
  exact .inr ⟨rfl, by simpa using hsig, UInt64.not_lt.mp hexpired⟩

/-- An authority stands for an actor: the node's own operator, or a designated child whose
registered operator key signed the frame. -/
def Authority.StandsFor (h : NodeHost) (signed : SignedControl) : Authority → Prop
  | .selfOperator =>
      signed.origin = h.node.nodeId ∧ signed.controller = Crypto.pubKey h.node.operator
        ∧ signed.verifySignature.toBool = true
  | .adminChild child =>
      child = signed.origin ∧ h.node.record.lists child = true
        ∧ h.node.adminState.has child = true
        ∧ ∃ peer, h.node.peers.get child = some peer ∧ peer.operator = signed.controller
          ∧ signed.verifySignature.toBool = true

theorem verifyControl_ok {signed : SignedControl} {registry : PeerRegistry} {peer : PeerKeys}
    (h : verifyControl signed registry = .ok peer) :
    registry.get signed.origin = some peer ∧ peer.operator = signed.controller
      ∧ signed.verifySignature.toBool = true := by
  rw [verifyControl, ite_error_eq_ok] at h
  have hpeer := h.2
  cases hget : registry.get signed.origin with
  | none => simp [hget] at hpeer
  | some row =>
      simp only [hget, ite_error_eq_ok, bind_eq_ok, pure_eq_ok, not_not] at hpeer
      obtain ⟨hoperator, u, hsig, rfl⟩ := hpeer
      exact ⟨rfl, hoperator, by rw [hsig]; rfl⟩

omit [ControlPostcard] in
theorem isAdministrator_eq_some {n : ControlNode} {node : NodeId} {authority : Authority} :
    n.isAdministrator node = some authority ↔
      n.record.lists node = true ∧ n.adminState.has node = true
        ∧ authority = .adminChild node := by
  rw [ControlNode.isAdministrator]
  cases n.record.lists node with
  | false => simp
  | true =>
      cases n.adminState.has node with
      | false => simp
      | true => simp [eq_comm]

theorem authorizeActor_ok {h : NodeHost} {signed : SignedControl} {authority : Authority}
    (hok : h.node.authorizeActor signed = .ok authority) : authority.StandsFor h signed := by
  rw [ControlNode.authorizeActor] at hok
  by_cases hself : signed.origin = h.node.nodeId
  · rw [if_pos hself] at hok
    simp only [ite_error_eq_ok, not_or, not_not, Bool.not_eq_false, Except.ok.injEq] at hok
    obtain ⟨⟨hkey, hsig⟩, rfl⟩ := hok
    exact ⟨hself, hkey, hsig⟩
  · rw [if_neg hself] at hok
    cases hpeer : verifyControl signed h.node.peers with
    | error e => simp [hpeer] at hok
    | ok peer =>
        simp only [hpeer] at hok
        cases hadmin : h.node.isAdministrator signed.origin with
        | none => simp [hadmin] at hok
        | some admin =>
            simp only [hadmin, Except.ok.injEq] at hok
            subst hok
            obtain ⟨hlists, hhas, rfl⟩ := isAdministrator_eq_some.mp hadmin
            obtain ⟨hget, hoperator, hsig⟩ := verifyControl_ok hpeer
            exact ⟨rfl, hlists, hhas, peer, hget, hoperator, hsig⟩

theorem actorAuthority_exec (signed : SignedControl) (h : NodeHost) :
    exec (actorAuthority signed) h = (h.node.authorizeActor signed, h) := by
  rw [actorAuthority, exec_get_bind, exec_ofExcept]

/-! ## Direct requests -/

omit [ControlPostcard] in
theorem needsAuthority_of_isAdmin {request : ControlRequest} (h : request.isAdmin = true) :
    request.needsAuthority = true := by
  simp [ControlRequest.needsAuthority, h]

structure AdmittedDirect (h : NodeHost) (signed : SignedControl) (now : UInt64)
    (authority : Option Authority) : Prop where
  signature : signed.verifySignature.toBool = true
  unexpired : now ≤ signed.expiry
  actor : signed.request.needsAuthority = true → ∃ a, authority = some a
  stands : ∀ a, authority = some a → a.StandsFor h signed
  selfOnly : signed.request.isAdmin = true → authority = some .selfOperator

theorem admitDirect_exec (io : Io) (signed : SignedControl) (now : UInt64) (h : NodeHost) :
    (∃ e, exec (admitDirect io signed now) h = (.error e, h))
      ∨ (∃ e, exec (admitDirect io signed now) h = (.error e, h.reload io.reload))
      ∨ ∃ authority, exec (admitDirect io signed now) h = (.ok authority, h.reload io.reload)
          ∧ AdmittedDirect (h.reload io.reload) signed now authority := by
  rw [admitDirect, exec_bind]
  obtain ⟨e, hrefused⟩ | ⟨hpass, hsig, hnow⟩ := precheck_exec io.reload signed now h
  · rw [hrefused]
    exact .inl ⟨e, rfl⟩
  rw [hpass]
  dsimp only
  right
  by_cases hneeds : signed.request.needsAuthority = true
  · rw [if_pos hneeds, exec_bind, actorAuthority_exec]
    cases hactor : (h.reload io.reload).node.authorizeActor signed with
    | error e => exact .inl ⟨e, rfl⟩
    | ok authority =>
        dsimp only
        rw [exec_refuseIf_bind]
        by_cases hadmin : signed.request.isAdmin ∧ authority ≠ .selfOperator
        · rw [if_pos hadmin]
          exact .inl ⟨_, rfl⟩
        · rw [if_neg hadmin]
          right
          refine ⟨some authority, rfl, hsig, hnow, fun _ => ⟨authority, rfl⟩, fun a ha => ?_,
            fun hisAdmin => ?_⟩
          · obtain rfl := Option.some.inj ha
            exact authorizeActor_ok hactor
          · by_contra hne
            exact hadmin ⟨hisAdmin, fun heq => hne (by rw [heq])⟩
  · rw [if_neg hneeds]
    right
    refine ⟨none, rfl, hsig, hnow, fun h => absurd h hneeds, fun a ha => ?_, fun hisAdmin => ?_⟩
    · cases ha
    · exact absurd (needsAuthority_of_isAdmin hisAdmin) hneeds

/-! ## Routed requests -/

omit [ControlPostcard] in
/-- Every forward of a coherent routed request carries the request of its intent, and is signed
in the name of its hop. -/
theorem RoutedControlV1.forward_of_validate {routed : RoutedControlV1}
    (h : routed.validate.toBool = true) {forward : RoutedForward}
    (hmem : forward ∈ routed.forwards) :
    forward.signed.request = routed.intent.request
      ∧ forward.hop.node = forward.signed.origin := by
  obtain ⟨u, hok⟩ := exists_ok_of_toBool h
  simp only [validate, ite_error_eq_ok] at hok
  obtain ⟨-, -, -, hall⟩ := hok
  obtain ⟨index, hlt, rfl⟩ := List.getElem_of_mem hmem
  have hindex : (routed.forwards[index], index) ∈ routed.forwards.zipIdx :=
    List.mem_zipIdx_iff_getElem?.mpr (List.getElem?_eq_getElem hlt)
  have hcheck := forM_eq_ok.mp hall _ hindex
  simp only [checkForward, ite_error_eq_ok, not_not] at hcheck
  exact ⟨hcheck.2.1, hcheck.2.2.1⟩

structure AdmittedRouted (h : NodeHost) (remote : NodeId) (routed : RoutedControlV1)
    (now : UInt64) (authority : Authority) (last : SignedControl) : Prop where
  forward : ∃ hop, routed.forwards.getLast? = some ⟨hop, last⟩ ∧ hop.node = remote
  origin : last.origin = remote
  request : last.request = routed.intent.request
  unexpired : now ≤ last.expiry
  relayed : last.request.isDirectOnly = false
  actor : authority.StandsFor h last

theorem admitRouted_exec (io : Io) (remote : NodeId) (routed : RoutedControlV1) (now : UInt64)
    (h : NodeHost) :
    (∃ e, exec (admitRouted io remote routed now) h = (.error e, h))
      ∨ (∃ e, exec (admitRouted io remote routed now) h = (.error e, h.reload io.routedReload))
      ∨ (∃ e, exec (admitRouted io remote routed now) h
          = (.error e, (h.reload io.routedReload).reload io.reload))
      ∨ ∃ authority last, exec (admitRouted io remote routed now) h
            = (.ok (authority, last), (h.reload io.routedReload).reload io.reload)
          ∧ AdmittedRouted ((h.reload io.routedReload).reload io.reload) remote routed now
              authority last := by
  rw [admitRouted, exec_refuseIf_bind]
  by_cases hvalid : routed.validate.toBool = false
  · rw [if_pos hvalid]
    exact .inl ⟨_, rfl⟩
  rw [if_neg hvalid, exec_bind, exec_modify]
  dsimp only
  rw [exec_get_bind]
  right
  set reloaded := h.reload io.routedReload
  rw [exec_refuseIf_bind]
  by_cases htarget : routed.target.node ≠ reloaded.node.nodeId
  · rw [if_pos htarget]
    exact .inl ⟨_, rfl⟩
  rw [if_neg htarget, exec_refuseIf_bind]
  by_cases haddr : reloaded.node.record.address ≠ some routed.target.addr
  · rw [if_pos haddr]
    exact .inl ⟨_, rfl⟩
  rw [if_neg haddr, exec_refuseIf_bind]
  by_cases hintent : routed.intent.verifySignature.toBool = false
  · rw [if_pos hintent]
    exact .inl ⟨_, rfl⟩
  rw [if_neg hintent, exec_refuseIf_bind]
  by_cases hexpired : now > routed.intent.expiry
  · rw [if_pos hexpired]
    exact .inl ⟨_, rfl⟩
  rw [if_neg hexpired, exec_refuseIf_bind]
  by_cases hfar : routed.intent.expiry > saturatingAdd now controlRequestMaxTtlSecs
  · rw [if_pos hfar]
    exact .inl ⟨_, rfl⟩
  rw [if_neg hfar]
  cases hlast : routed.forwards.getLast? with
  | none => exact .inl ⟨_, rfl⟩
  | some last =>
      dsimp only
      rw [exec_refuseIf_bind]
      by_cases hremote : last.hop.node ≠ remote
      · rw [if_pos hremote]
        exact .inl ⟨_, rfl⟩
      rw [if_neg hremote, exec_refuseIf_bind]
      by_cases hforward : (reloaded.node.verifyForward last).toBool = false
      · rw [if_pos hforward]
        exact .inl ⟨_, rfl⟩
      rw [if_neg hforward, exec_refuseIf_bind]
      by_cases hdirect : routed.intent.request.isDirectOnly = true
      · rw [if_pos hdirect]
        exact .inl ⟨_, rfl⟩
      rw [if_neg hdirect, exec_bind]
      obtain ⟨e, hrefused⟩ | ⟨hpass, -, hnow⟩ :=
        precheck_exec io.reload last.signed now reloaded
      · rw [hrefused]
        exact .inl ⟨e, rfl⟩
      rw [hpass]
      dsimp only
      right
      rw [exec_bind, actorAuthority_exec]
      cases hactor : (reloaded.reload io.reload).node.authorizeActor last.signed with
      | error e => exact .inl ⟨e, rfl⟩
      | ok authority =>
          right
          have hmem := List.mem_of_getLast? hlast
          obtain ⟨hrequest, horigin⟩ :=
            RoutedControlV1.forward_of_validate (by simpa using hvalid) hmem
          exact ⟨authority, last.signed, rfl, {
            forward := ⟨last.hop, hlast, not_not.mp hremote⟩
            origin := horigin.symm.trans (not_not.mp hremote)
            request := hrequest
            unexpired := hnow
            relayed := by simpa [hrequest] using hdirect
            actor := authorizeActor_ok hactor }⟩

/-! ## The hand-off to the handler -/

/-- A frame that is handed to its handler: the authority found for it, the way it came, and the
state its handler starts from. -/
structure HandOff where
  io : Io
  signed : SignedControl
  now : UInt64
  authority : Option Authority
  route : Option (NodeId × NodeId)
  host : NodeHost

namespace ControlEvent

/-- The frame that an event hands to a handler, if it is admitted and not a replay. -/
def handOff (h : NodeHost) : ControlEvent → Option HandOff
  | .direct io signed now =>
      match exec (admitDirect io signed now) h with
      | (.error _, _) => none
      | (.ok authority, admitted) =>
          match exec (replayGuard io signed now) admitted with
          | (.error _, _) => none
          | (.ok _, host) => some { io, signed, now, authority, route := none, host }
  | .routed io remote carried now =>
      match exec (admitRouted io remote carried now) h with
      | (.error _, _) => none
      | (.ok (authority, last), admitted) =>
          match exec (replayGuard io last now) admitted with
          | (.error _, _) => none
          | (.ok _, host) =>
              some { io, signed := last, now, authority := some authority
                     route := some (carried.requester.node, remote), host }
  | _ => none

/-- The state a request finds once the persisted state is reloaded. -/
def reloaded (h : NodeHost) : ControlEvent → NodeHost
  | .direct io _ _ => h.reload io.reload
  | .routed io _ _ _ => (h.reload io.routedReload).reload io.reload
  | _ => h

/-- The states a request can leave without reaching a handler. -/
inductive Idle (h : NodeHost) (e : ControlEvent) : NodeHost → Prop where
  | refused : Idle h e h
  | halfway {io remote carried now} (heq : e = .routed io remote carried now) :
      Idle h e (h.reload io.routedReload)
  | reloaded : Idle h e (e.reloaded h)
  | marked (seen stored) : Idle h e ((e.reloaded h).withMarks seen stored)

def Shown (h : NodeHost) (d : HandOff) : ControlEvent → Prop
  | .direct io signed now =>
      d.io = io ∧ d.signed = signed ∧ d.now = now ∧ d.route = none
        ∧ AdmittedDirect (h.reload io.reload) signed now d.authority
  | .routed io remote carried now =>
      d.io = io ∧ d.now = now ∧ d.route = some (carried.requester.node, remote)
        ∧ ∃ authority, d.authority = some authority
          ∧ AdmittedRouted ((h.reload io.routedReload).reload io.reload) remote carried now
              authority d.signed
  | _ => False

end ControlEvent

variable [EthPrimitives] [ZeroKey]

def HandOff.handled (d : HandOff) : Except RejectCode Handled × NodeHost :=
  exec (handleRequest d.io d.signed d.now d.authority d.route) d.host

/-- What the steps of the handlers keep is kept by a hand-off, if the detachment, the anchor and
the designations it may change keep it. -/
theorem HandOff.handled_keeps {I : NodeHost → Prop} {d : HandOff} (g : OrdinaryInvariant I)
    (hI : I d.host) (hrelink : d.signed.request.relinks = true → RelinkInvariant I)
    (hnotify : d.signed.request.notifies = true → Notifies I)
    (hdetach : ∀ child, d.host.detachedBy d.signed = some child →
      Keeps I (onRecord (RecordStore.detachChild child)))
    (hanchor : ∀ register, d.signed.request = .registerEthAddress register →
      Keeps I (onRecord (RecordStore.setChildEthAddress d.signed.origin register.address)))
    (hadmins : d.signed.request.designates = true →
      ∀ state, I (d.host.designationsSaved state)) : I d.handled.2 := by
  cases hrequest : d.signed.request with
  | detachChild child =>
      rw [handled, handleRequest, hrequest, exec_map]
      have hchild : d.host.detachedBy d.signed = some child := by
        rw [NodeHost.detachedBy, hrequest]
      have hnotifies := hnotify (by rw [hrequest]; rfl)
      exact (g.applyDetachChild hnotifies d.io d.now (hdetach child hchild)).exec hI
  | adminDetachChild child =>
      rw [handled, handleRequest, hrequest, exec_map]
      have hnotifies := hnotify (by rw [hrequest]; rfl)
      exact g.handleAdminDetachChild hI hnotifies d.io d.now hrequest hdetach
  | exit exit =>
      rw [handled, handleRequest, hrequest, exec_map]
      exact g.handleExit hI d.io hrequest hdetach
  | registerEthAddress register =>
      rw [handled, handleRequest, hrequest, exec_map]
      apply g.handleRegisterEthAddress hI
      intro _ _ _
      exact hanchor register hrequest
  | adminRevoke child =>
      rw [handled, handleRequest, hrequest, exec_map]
      obtain hsame | ⟨state, hstate, -⟩ := handleAdminRevoke_cases d.io child d.now d.route d.host
      · rw [hsame]
        exact hI
      · rw [hstate]
        exact hadmins (by rw [hrequest]; rfl) state
  | adminDesignate child =>
      rw [handled, handleRequest, hrequest, exec_map]
      obtain hsame | ⟨state, hstate, -⟩ :=
        handleAdminDesignate_cases d.io child d.now d.route d.host
      · rw [hsame]
        exact hI
      · rw [hstate]
        exact hadmins (by rw [hrequest]; rfl) state
  | _ =>
      -- the ordinary requests
      have hordinary : d.signed.request.isOrdinary = true := by
        rw [hrequest]
        rfl
      exact (g.handleRequest d.io d.now d.authority d.route hordinary hrelink).exec hI

/-- The engine's part of an event: nothing for those that are not requests. -/
def ControlEvent.received (h : NodeHost) : ControlEvent →
    Option (Except RejectCode Handled × NodeHost)
  | .direct io signed now => some (exec (receiveAtHandled io signed now) h)
  | .routed io remote carried now => some (exec (receiveRoutedAtHandled io remote carried now) h)
  | _ => none

/-- A request ends without reaching a handler, or as its handler ends on what the guards left. -/
theorem ControlEvent.received_cases {h : NodeHost} {e : ControlEvent}
    {result : Except RejectCode Handled × NodeHost} (hresult : e.received h = some result) :
    (e.handOff h = none ∧ (∃ code, result.1 = .error code) ∧ e.Idle h result.2)
      ∨ ∃ d, e.handOff h = some d ∧ result = d.handled ∧ e.Shown h d
          ∧ ∃ seen stored, d.host = (e.reloaded h).withMarks seen stored := by
  cases e with
  | direct io signed now =>
      simp only [received, Option.some.injEq] at hresult
      subst hresult
      rw [receiveAtHandled, exec_bind, handOff]
      obtain ⟨code, hrun⟩ | ⟨code, hrun⟩ | ⟨authority, hrun, hadmitted⟩ :=
        admitDirect_exec io signed now h
      · rw [hrun]
        exact .inl ⟨rfl, ⟨code, rfl⟩, .refused⟩
      · rw [hrun]
        exact .inl ⟨rfl, ⟨code, rfl⟩, .reloaded⟩
      · rw [hrun]
        dsimp only
        rw [dispatchAuthorized, exec_bind]
        obtain ⟨seen, stored, hmarks⟩ := replayGuard_marks io signed now (h.reload io.reload)
        cases hguard : exec (replayGuard io signed now) (h.reload io.reload) with
        | mk outcome guarded =>
            rw [hguard] at hmarks
            obtain rfl : guarded = _ := hmarks
            cases outcome with
            | error code => exact .inl ⟨rfl, ⟨code, rfl⟩, .marked seen stored⟩
            | ok _ =>
                exact .inr ⟨_, rfl, rfl, ⟨rfl, rfl, rfl, rfl, hadmitted⟩, seen, stored, rfl⟩
  | routed io remote carried now =>
      simp only [received, Option.some.injEq] at hresult
      subst hresult
      rw [receiveRoutedAtHandled, exec_bind, handOff]
      obtain ⟨code, hrun⟩ | ⟨code, hrun⟩ | ⟨code, hrun⟩ | ⟨authority, last, hrun, hadmitted⟩ :=
        admitRouted_exec io remote carried now h
      · rw [hrun]
        exact .inl ⟨rfl, ⟨code, rfl⟩, .refused⟩
      · rw [hrun]
        exact .inl ⟨rfl, ⟨code, rfl⟩, .halfway rfl⟩
      · rw [hrun]
        exact .inl ⟨rfl, ⟨code, rfl⟩, .reloaded⟩
      · rw [hrun]
        dsimp only
        rw [dispatchAuthorized, exec_bind]
        set reloaded := (h.reload io.routedReload).reload io.reload
        obtain ⟨seen, stored, hmarks⟩ := replayGuard_marks io last now reloaded
        cases hguard : exec (replayGuard io last now) reloaded with
        | mk outcome guarded =>
            rw [hguard] at hmarks
            obtain rfl : guarded = _ := hmarks
            cases outcome with
            | error code => exact .inl ⟨rfl, ⟨code, rfl⟩, .marked seen stored⟩
            | ok _ =>
                exact .inr ⟨_, rfl, rfl, ⟨rfl, rfl, rfl, authority, rfl, hadmitted⟩, seen,
                  stored, rfl⟩
  | _ => cases hresult

omit [EthPrimitives] [ZeroKey] in
theorem ControlEvent.Shown.stands {h : NodeHost} {d : HandOff} {e : ControlEvent}
    (hd : e.Shown h d) {authority : Authority} (hauthority : d.authority = some authority) :
    authority.StandsFor (e.reloaded h) d.signed := by
  cases e with
  | direct io signed now =>
      obtain ⟨-, rfl, -, -, hshown⟩ := hd
      exact hshown.stands authority hauthority
  | routed io remote carried now =>
      obtain ⟨-, -, -, actor, hactor, hshown⟩ := hd
      rw [hauthority, Option.some.injEq] at hactor
      subst hactor
      exact hshown.actor
  | _ => exact hd.elim

theorem ControlEvent.shown_of_handOff {h : NodeHost} {d : HandOff} {e : ControlEvent}
    (hd : e.handOff h = some d) : e.Shown h d := by
  obtain ⟨result, hresult⟩ : ∃ result, e.received h = some result := by
    cases e with
    | direct io signed now => exact ⟨_, rfl⟩
    | routed io remote carried now => exact ⟨_, rfl⟩
    | _ => cases hd
  obtain ⟨hnone, -⟩ | ⟨d', hd', -, hshown, -⟩ := received_cases hresult
  · rw [hnone] at hd
    cases hd
  · rw [hd, Option.some.injEq] at hd'
    subst hd'
    exact hshown

/-! ## Runs -/

namespace ControlHost

variable [Postcard]

/-- A request takes one step, to what the engine leaves. -/
theorem step_received {c : ControlHost} {e : ControlEvent}
    {result : Except RejectCode Handled × NodeHost} (h : e.received c.host = some result) :
    c.step e = some (c.settle result) := by
  cases e with
  | direct io signed now =>
      simp only [ControlEvent.received, Option.some.injEq] at h
      subst h
      rfl
  | routed io remote carried now =>
      simp only [ControlEvent.received, Option.some.injEq] at h
      subst h
      rfl
  | _ => cases h

@[simp] theorem run_nil (c : ControlHost) : c.run [] = some c := rfl

theorem run_cons (c : ControlHost) (e : ControlEvent) (events : List ControlEvent) :
    c.run (e :: events) = (c.step e).bind fun c' => c'.run events := rfl

theorem run_append (c : ControlHost) (events later : List ControlEvent) :
    c.run (events ++ later) = (c.run events).bind fun c' => c'.run later := by
  rw [run, List.foldlM_append]
  rfl

theorem run_concat_eq_some {c c' : ControlHost} {events : List ControlEvent} {e : ControlEvent} :
    c.run (events ++ [e]) = some c' ↔ ∃ mid, c.run events = some mid ∧ mid.step e = some c' := by
  rw [run_append, Option.bind_eq_some_iff]
  simp only [run_cons, run_nil, Option.bind_fun_some]

/-- What holds at the start and is kept by each step, told the events before it, holds at the
end of a run. -/
theorem run_induction {P : List ControlEvent → ControlHost → Prop} {c c' : ControlHost}
    {events : List ControlEvent} (hrun : c.run events = some c') (hstart : P [] c)
    (hstep : ∀ past mid e next, c.run past = some mid → past ++ [e] <+: events → P past mid →
      mid.step e = some next → P (past ++ [e]) next) : P events c' := by
  induction events using List.reverseRecOn generalizing c' with
  | nil =>
      obtain rfl := Option.some.inj hrun
      exact hstart
  | append_singleton events e ih =>
      obtain ⟨mid, hmid, hnext⟩ := run_concat_eq_some.mp hrun
      refine hstep events mid e c' hmid (List.prefix_refl _) (ih hmid ?_) hnext
      intro past mid e' next hpast hfirst
      exact hstep past mid e' next hpast (hfirst.trans (List.prefix_append _ _))

end ControlHost

end Cawala
