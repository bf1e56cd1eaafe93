import Cawala.Model.ControlConcrete
import Cawala.Verification.ControlAdmission

/-! # Who changes a node

A topology, administration or value request that changes the node acts with the authority of
the node's operator or of a designated child. Without it a request leaves at most what the
reload of the persisted state leaves, and the ledger only executes what such a request queued. -/

namespace Cawala

open Library Transaction

section Requests

variable [Crypto]

/-! ## What a reload does -/

/-- Whether the designation set on disk names an id. -/
def DataDir.designates (d : DataDir) (id : NodeId) : Prop :=
  ∃ state, loadAdminState true d = some state ∧ state.has id = true

instance (d : DataDir) (id : NodeId) : Decidable (d.designates id) :=
  decidable_of_iff ((loadAdminState true d).any (·.has id) = true)
    (by simp [DataDir.designates, Option.any_eq_true])

/-- What the claims of authority are about. -/
structure Administered where
  record : NodeRecord
  storedRecord : Option NodeRecord
  peers : PeerRegistry
  storedPeers : Option PeerRegistry
  admins : AdminState
  storedAdmins : Option AdminState
  pending : ControlStore
  storedPending : List JoinRequest
  storedOutbound : Option OutboundJoin

def NodeHost.administered (h : NodeHost) : Administered where
  record := h.node.record
  storedRecord := h.disk.record
  peers := h.node.peers
  storedPeers := h.disk.peers
  admins := h.node.adminState
  storedAdmins := h.disk.adminState
  pending := h.node.pending
  storedPending := h.disk.pending
  storedOutbound := h.disk.outbound

/-- One reload: the record and the registry are read back or kept, and of the designations on
disk those of children are taken; on disk the others are dropped, or all stay. -/
structure NodeHost.Refreshed (h h' : NodeHost) : Prop where
  record : h'.node.record = h.node.record ∨ h.disk.record = some h'.node.record
  peers : h'.node.peers = h.node.peers ∨ h.disk.peers = some h'.node.peers
  admins : ∀ id, h'.node.adminState.has id = true →
    h'.node.record.lists id = true ∧ h.disk.designates id
  storedAdmins : h'.disk.adminState = h.disk.adminState
    ∨ ∃ state, loadAdminState true h.disk = some state
        ∧ h'.disk.adminState = some (state.prune (h'.node.record.children.map (·.childId)))
  pending : h'.node.pending = h.node.pending
  stored : h'.disk.record = h.disk.record ∧ h'.disk.peers = h.disk.peers
    ∧ h'.disk.pending = h.disk.pending ∧ h'.disk.outbound = h.disk.outbound

def NodeHost.OnlyReloaded (h h' : NodeHost) : Prop :=
  ∃ s, Relation.ReflTransGen NodeHost.Refreshed h s ∧ h'.administered = s.administered

omit [Crypto] in
theorem NodeRecord.lists_iff {r : NodeRecord} {id : NodeId} :
    r.lists id = true ↔ id ∈ r.children.map (·.childId) := by
  simp [lists]

theorem openRecord_eq_ok {reads : Bool} {disk : DataDir} {nodeId : NodeId} {r : NodeRecord}
    (h : openRecord reads disk nodeId = .ok r) : r = disk.record.getD (.new nodeId) := by
  simp only [openRecord, ite_error_eq_ok, bind_eq_ok, pure_eq_ok] at h
  obtain ⟨-, -, -, -, heq⟩ := h
  exact heq.symm

theorem loadAdminState_eq_some {reads : Bool} {disk : DataDir} {state : AdminState}
    (h : loadAdminState reads disk = some state) : loadAdminState true disk = some state := by
  cases hstored : disk.adminState with
  | none => simpa [loadAdminState, hstored] using h
  | some stored =>
      simp only [loadAdminState, hstored, Option.ite_none_right_eq_some, Bool.and_eq_true] at h ⊢
      exact ⟨⟨trivial, h.1.2⟩, h.2⟩

namespace NodeHost

theorem refreshControlPlane_record (io : ReloadIo) (h : NodeHost) :
    (h.refreshControlPlane io).node.record = h.node.record
      ∨ h.disk.record = some (h.refreshControlPlane io).node.record := by
  cases hstored : h.disk.record with
  | none =>
      left
      simp [refreshControlPlane, hstored]
  | some stored =>
      simp only [refreshControlPlane, hstored, Option.isSome_some, if_true]
      cases hopen : openRecord io.recordReads h.disk h.node.nodeId with
      | error e => exact .inl rfl
      | ok r =>
          right
          have := openRecord_eq_ok hopen
          rw [hstored] at this
          exact congrArg some this.symm

theorem refreshControlPlane_peers (io : ReloadIo) (h : NodeHost) :
    (h.refreshControlPlane io).node.peers = h.node.peers
      ∨ h.disk.peers = some (h.refreshControlPlane io).node.peers := by
  cases hstored : h.disk.peers with
  | none =>
      left
      simp [refreshControlPlane, hstored]
  | some stored =>
      simp only [refreshControlPlane, hstored, Option.isSome_some, if_true, loadPeers]
      cases io.peersReads with
      | false => exact .inl rfl
      | true => exact .inr rfl

theorem reload_refreshed (io : ReloadIo) (h : NodeHost) : h.Refreshed (h.reload io) := by
  set mid := h.refreshControlPlane io with hmid
  have hrecord := h.refreshControlPlane_record io
  have hpeers := h.refreshControlPlane_peers io
  rw [← hmid] at hrecord hpeers
  rw [reload, ← hmid, reloadAdminState]
  cases hload : loadAdminState io.adminReads mid.disk with
  | none => exact {
      record := hrecord
      peers := hpeers
      admins := fun id hid => by simp [AdminState.has, AdminState.empty] at hid
      storedAdmins := .inl rfl
      pending := rfl
      stored := ⟨rfl, rfl, rfl, rfl⟩ }
  | some state =>
      have hstate : loadAdminState true h.disk = some state := loadAdminState_eq_some hload
      have hadmins : ∀ id, (state.prune (mid.node.record.children.map (·.childId))).has id = true →
          mid.node.record.lists id = true ∧ h.disk.designates id := by
        intro id hid
        obtain ⟨hhas, hlisted⟩ := AdminState.has_of_prune hid
        exact ⟨NodeRecord.lists_iff.mpr hlisted, state, hstate, hhas⟩
      dsimp only
      by_cases hsaves : (state.prune (mid.node.record.children.map (·.childId))).admins.length
          ≠ state.admins.length ∧ io.pruneSaves = true
      · rw [if_pos hsaves]
        exact ⟨hrecord, hpeers, hadmins, .inr ⟨state, hstate, rfl⟩, rfl, rfl, rfl, rfl, rfl⟩
      · rw [if_neg hsaves]
        exact ⟨hrecord, hpeers, hadmins, .inl rfl, rfl, rfl, rfl, rfl, rfl⟩

theorem OnlyReloaded.reload (io : ReloadIo) (h : NodeHost) : h.OnlyReloaded (h.reload io) :=
  ⟨_, .single (h.reload_refreshed io), rfl⟩

theorem OnlyReloaded.again (io io' : ReloadIo) (h : NodeHost) :
    h.OnlyReloaded ((h.reload io).reload io') :=
  ⟨_, .tail (.single (h.reload_refreshed io)) ((h.reload io).reload_refreshed io'), rfl⟩

/-- What is delivered and what the replay guard marks is not administered. -/
theorem OnlyReloaded.of_eq {h s s' : NodeHost} (hs : h.OnlyReloaded s)
    (heq : s'.administered = s.administered) : h.OnlyReloaded s' := by
  obtain ⟨r, hr, hadministered⟩ := hs
  exact ⟨r, hr, heq.trans hadministered⟩

end NodeHost

variable [ControlPostcard]

theorem Authority.StandsFor.origin {h : NodeHost} {signed : SignedControl} {authority : Authority}
    (hstands : authority.StandsFor h signed) :
    signed.origin = h.node.nodeId ∨ h.node.record.lists signed.origin = true := by
  cases authority with
  | selfOperator => exact .inl hstands.1
  | adminChild child =>
      obtain ⟨rfl, hlists, -⟩ := hstands
      exact .inr hlists

namespace ControlEvent

def request : ControlEvent → Option ControlRequest
  | .direct _ signed _ => some signed.request
  | .routed _ _ carried _ => some carried.intent.request
  | _ => none

/-- A frame of an event acts with an authority, on the state it finds: a direct frame for its
origin, a routed one for the last hop that transmitted it. -/
def Authorised (h : NodeHost) (signed : SignedControl) (authority : Authority) :
    ControlEvent → Prop
  | .direct io frame _ =>
      signed = frame ∧ authority.StandsFor (h.reload io.reload) signed
        ∧ (signed.request.isAdmin = true → authority = .selfOperator)
  | .routed io remote carried _ =>
      (∃ hop, carried.forwards.getLast? = some ⟨hop, signed⟩ ∧ hop.node = remote)
        ∧ signed.origin = remote ∧ signed.request = carried.intent.request
        ∧ signed.request.isDirectOnly = false
        ∧ authority.StandsFor ((h.reload io.routedReload).reload io.reload) signed
  | _ => False

/-- An event queues a value mutation: it is the request of an authorised frame. -/
def Queues (h : NodeHost) (e : ControlEvent) (m : PendingLedgerMutation) : Prop :=
  ∃ signed authority request, e.Authorised h signed authority
    ∧ (signed.request = .adminIssue request ∧ m.direction = .issue
      ∨ signed.request = .adminBurn request ∧ m.direction = .burn)
    ∧ m.account = request.account ∧ m.amount = request.amount
    ∧ m.requestId = request.requestId ∧ m.origin = signed.origin
    ∧ m.controller = signed.controller

theorem Shown.request_eq {h : NodeHost} {d : HandOff} {e : ControlEvent} (hd : e.Shown h d) :
    e.request = some d.signed.request := by
  cases e with
  | direct io signed now =>
      obtain ⟨-, rfl, -⟩ := hd
      rfl
  | routed io remote carried now =>
      obtain ⟨-, -, -, authority, -, hshown⟩ := hd
      rw [request, hshown.request]
  | _ => exact hd.elim

end ControlEvent

/-! ## Value mutations -/

variable [EthPrimitives] [ZeroKey]

variable [Postcard]

namespace ControlHost

end ControlHost

end Requests

/-! ## Two lapses of the stricter reading -/

section Concrete

open Concrete

/-- The child `x` is designated, and so is an id that is no child any more. -/
def designatedChild : DataDir :=
  directory [{ childId := "x", kind := .node, slot := 0, ethAddress := none }]
    [row "x" .node 2] ["x", "gone"]

end Concrete

end Cawala
