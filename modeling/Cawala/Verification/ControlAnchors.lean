import Cawala.Verification.ControlDesignations

/-! # The Ethereum anchor of a user

The anchor is a field of the child entry. Every operation on the children but the removal of
the user's own entry keeps it or rotates it with a proof of the incumbent, so it is lost only
when the user is detached. -/

namespace Cawala

open Library Transaction

/-! ## The anchor in a record -/

namespace NodeRecord

variable {r r' : NodeRecord} {user : NodeId}

theorem lists_eq_isSome : r.lists user = (r.childEntry user).isSome := by
  rw [lists, childEntry, Bool.eq_iff_iff, List.any_eq_true, List.find?_isSome]

theorem childEntry_eq_none_iff : r.childEntry user = none ↔ r.lists user = false := by
  rw [lists_eq_isSome, Option.isSome_eq_false_iff, Option.isNone_iff_eq_none]

theorem childEntry_append_self (h : r.lists user = false) (entry : ChildEntry)
    (hid : entry.childId = user) :
    ({ r with children := r.children ++ [entry] } : NodeRecord).childEntry user = some entry := by
  have hnone : r.childEntry user = none := childEntry_eq_none_iff.mpr h
  rw [childEntry] at hnone
  rw [childEntry, List.find?_append, hnone, Option.none_or,
    List.find?_cons_of_pos (by simp [hid])]

end NodeRecord

def NodeRecord.withAnchor (r : NodeRecord) (child : NodeId) (address : EthAddress) : NodeRecord :=
  { r with
    children := Fifo.replaceFirst (fun entry => entry.childId == child)
      (fun entry => { entry with ethAddress := some address }) r.children }

theorem NodeRecord.childEntry_withAnchor {r : NodeRecord} {child : NodeId} {address : EthAddress} :
    (r.withAnchor child address).childEntry child
      = (r.childEntry child).map fun entry => { entry with ethAddress := some address } :=
  Fifo.find?_replaceFirst_self fun _ h => h

def Unanchored (user : NodeId) (r : NodeRecord) : Prop :=
  ∀ entry ∈ r.children, entry.childId = user → entry.ethAddress = none

def AnchoredAs (user : NodeId) (anchor : Option EthAddress) (r : NodeRecord) : Prop :=
  r.lists user = true ∧ r.childEthAddress user = anchor

theorem Unanchored.of_unlisted {user : NodeId} {r : NodeRecord} (h : r.lists user = false) :
    Unanchored user r := by
  intro entry hmem hid
  have hlisted : r.lists user = true := List.any_eq_true.mpr ⟨entry, hmem, by simp [hid]⟩
  rw [h] at hlisted
  cases hlisted

theorem Unanchored.childEthAddress {user : NodeId} {r : NodeRecord} (h : Unanchored user r) :
    r.childEthAddress user = none := by
  rw [NodeRecord.childEthAddress]
  cases hentry : r.childEntry user with
  | none => rfl
  | some entry =>
      have hmem := List.mem_of_find?_eq_some hentry
      have hid : entry.childId = user := by simpa using List.find?_some hentry
      exact h entry hmem hid

theorem AnchoredAs.of_childEntry {user : NodeId} {anchor : Option EthAddress} {r : NodeRecord}
    {entry : ChildEntry} (hentry : r.childEntry user = some entry)
    (hanchor : entry.ethAddress = anchor) : AnchoredAs user anchor r := by
  constructor
  · rw [NodeRecord.lists_eq_isSome, hentry, Option.isSome_some]
  · rw [NodeRecord.childEthAddress, hentry]
    exact hanchor

theorem AnchoredAs.of_childEntry_eq {user : NodeId} {anchor : Option EthAddress}
    {r r' : NodeRecord} (h : r'.childEntry user = r.childEntry user)
    (hr : AnchoredAs user anchor r) :
    AnchoredAs user anchor r' := by
  constructor
  · rw [NodeRecord.lists_eq_isSome, h, ← NodeRecord.lists_eq_isSome]
    exact hr.1
  · rw [NodeRecord.childEthAddress, h]
    exact hr.2

/-- Erasing an element of another kind hides nothing from a search. -/
theorem find?_eraseP_of_disjoint {α : Type} {p q : α → Bool} (h : ∀ a, p a = true → q a = false)
    (l : List α) : (l.eraseP p).find? q = l.find? q := by
  induction l with
  | nil => rfl
  | cons a l ih =>
      by_cases hp : p a = true
      · rw [List.eraseP_cons_of_pos hp, List.find?_cons_of_neg (by simp [h a hp])]
      · rw [List.eraseP_cons_of_neg hp, List.find?_cons, List.find?_cons, ih]

namespace RecordStore

variable {user child : NodeId} {anchor : Option EthAddress}

theorem attachChild_keeps {P : NodeRecord → Prop} {kind : ChildKind} {slot : Option UInt8}
    {dateJoined : UInt64}
    (hP : ∀ r slot, P r → P { r with
      children := r.children
        ++ [{ childId := child, kind, slot, dateJoined, ethAddress := none }] }) :
    Keeps P (attachChild child kind slot dateJoined) := by
  apply Keeps.get_bind
  intro _ _
  apply Keeps.bind (Keeps.refuseIf _ _)
  intro _
  apply Keeps.bind (Keeps.refuseIf _ _)
  intro _
  apply Keeps.bind (Keeps.ofExcept _)
  intro _
  apply Keeps.bind (Keeps.refuseIf _ _)
  intro _
  refine Keeps.bind (Keeps.modify fun r hr => ?_) fun _ => revalidate_keeps
  exact hP r _ hr

theorem detachChild_keeps {P : NodeRecord → Prop}
    (hP : ∀ r, P r → P { r with
      children := r.children.eraseP fun entry => entry.childId == child }) :
    Keeps P (detachChild child) := by
  apply Keeps.get_bind
  intro _ _
  apply Keeps.bind (Keeps.refuseIf _ _)
  intro _
  refine Keeps.bind (Keeps.modify fun r hr => ?_) fun _ => revalidate_keeps
  exact hP r hr

theorem setChildEthAddress_keeps {P : NodeRecord → Prop} {address : EthAddress}
    (hP : ∀ r, P r → P (r.withAnchor child address)) :
    Keeps P (setChildEthAddress child address) := by
  apply Keeps.get_bind
  intro _ _
  apply Keeps.bind (Keeps.refuseIf _ _)
  intro _
  exact Keeps.modify fun r hr => hP r hr

/-! ### Users without an anchor -/

theorem attachChild_unanchored (kind : ChildKind) (slot : Option UInt8) (dateJoined : UInt64) :
    Keeps (Unanchored user) (attachChild child kind slot dateJoined) := by
  apply attachChild_keeps
  intro r slot hr entry hmem hid
  obtain hold | hnew := List.mem_append.mp hmem
  · exact hr entry hold hid
  · rw [List.mem_singleton.mp hnew]

theorem detachChild_unanchored : Keeps (Unanchored user) (detachChild child) := by
  apply detachChild_keeps
  intro r hr entry hmem hid
  exact hr entry (List.mem_of_mem_eraseP hmem) hid

theorem setChildEthAddress_unanchored (address : EthAddress) (hne : child ≠ user) :
    Keeps (Unanchored user) (setChildEthAddress child address) := by
  apply setChildEthAddress_keeps
  intro r hr entry hmem hid
  obtain hold | ⟨old, hold, hchild, rfl⟩ := Fifo.mem_replaceFirst hmem
  · exact hr entry hold hid
  · have hchild : old.childId = child := by simpa using hchild
    exact absurd (hchild.symm.trans hid) hne

/-! ### Users with an anchor -/

theorem attachChild_anchored (kind : ChildKind) (slot : Option UInt8) (dateJoined : UInt64) :
    Keeps (AnchoredAs user anchor) (attachChild child kind slot dateJoined) := by
  apply attachChild_keeps
  intro r slot hr
  obtain ⟨hlists, hanchor⟩ := hr
  constructor
  · rw [NodeRecord.lists, List.any_append, ← NodeRecord.lists, hlists, Bool.true_or]
  · obtain ⟨entry, hentry⟩ : ∃ entry, r.childEntry user = some entry := by
      cases hentry : r.childEntry user with
      | some entry => exact ⟨entry, rfl⟩
      | none =>
          rw [NodeRecord.childEntry_eq_none_iff, hlists] at hentry
          cases hentry
    rw [NodeRecord.childEthAddress, hentry] at hanchor
    rw [NodeRecord.childEthAddress, NodeRecord.childEntry, List.find?_append,
      ← NodeRecord.childEntry,
      hentry, Option.some_or]
    exact hanchor

theorem childId_disjoint (hne : child ≠ user) (entry : ChildEntry)
    (h : (entry.childId == child) = true) : (entry.childId == user) = false := by
  have hid : entry.childId = child := by simpa using h
  simpa [hid] using hne

theorem detachChild_anchored (hne : child ≠ user) :
    Keeps (AnchoredAs user anchor) (detachChild child) := by
  apply detachChild_keeps
  intro r hr
  exact AnchoredAs.of_childEntry_eq (find?_eraseP_of_disjoint (childId_disjoint hne) r.children) hr

theorem setChildEthAddress_anchored (address : EthAddress) (hne : child ≠ user) :
    Keeps (AnchoredAs user anchor) (setChildEthAddress child address) := by
  apply setChildEthAddress_keeps
  intro r hr
  refine AnchoredAs.of_childEntry_eq (Fifo.find?_replaceFirst fun entry h => ?_) hr
  exact ⟨childId_disjoint hne entry h, childId_disjoint hne _ h⟩

/-! ### Moving a child -/

theorem moveChildSlot_unanchored (slot : UInt8) :
    Keeps (Unanchored user) (moveChildSlot child slot) := by
  apply Keeps.get_bind
  intro r hr
  cases hentry : r.childEntry child with
  | none => exact Keeps.throw _
  | some entry =>
      dsimp only
      split
      · exact Keeps.pure _
      · apply Keeps.onCopy
        apply Keeps.bind detachChild_unanchored
        intro _
        apply Keeps.bind (attachChild_unanchored _ _ _)
        intro _
        refine Keeps.bind (Keeps.forSome fun address haddress => ?_) fun _ => ?_
        · apply setChildEthAddress_unanchored
          intro heq
          have hid : entry.childId = child := by simpa using List.find?_some hentry
          have hnone := hr entry (List.mem_of_find?_eq_some hentry) (hid.trans heq)
          rw [haddress] at hnone
          cases hnone
        · refine Keeps.bind (Keeps.modify fun _ hr => ?_) fun _ => ?_
          · exact hr
          · exact revalidate_keeps.bind fun _ => Keeps.pure _

theorem revalidate_ok {r r' : NodeRecord} {u : PUnit}
    (h : exec revalidate r = (.ok u, r')) : r' = r := by
  rw [revalidate, exec_get_bind, exec_ofExcept] at h
  exact (Prod.mk.inj h).2.symm

theorem detachChild_ok {r r' : NodeRecord} {u : PUnit}
    (h : exec (detachChild child) r = (.ok u, r')) :
    r' = { r with children := r.children.eraseP fun entry => entry.childId == child } := by
  rw [detachChild, exec_get_bind] at h
  simp only [exec_bind_eq_ok, exec_refuseIf_eq_ok, exec_modify, Prod.mk.injEq] at h
  obtain ⟨_, _, ⟨-, rfl⟩, _, _, ⟨-, rfl⟩, hvalid⟩ := h
  exact revalidate_ok hvalid

theorem attachChild_ok {kind : ChildKind} {slot : Option UInt8} {dateJoined : UInt64}
    {r r' : NodeRecord} {u : PUnit}
    (h : exec (attachChild child kind slot dateJoined) r = (.ok u, r')) :
    r.lists child = false ∧ ∃ slot, r' = { r with
      children := r.children
        ++ [{ childId := child, kind, slot, dateJoined, ethAddress := none }] } := by
  rw [attachChild, exec_get_bind] at h
  simp only [exec_bind_eq_ok, exec_refuseIf_eq_ok, exec_ofExcept, exec_modify, Prod.mk.injEq] at h
  obtain ⟨_, _, ⟨-, rfl⟩, _, _, ⟨hlists, rfl⟩, slot, _, ⟨-, rfl⟩, _, _, ⟨-, rfl⟩, _, _,
    ⟨-, rfl⟩, hvalid⟩ := h
  exact ⟨by simpa using hlists, slot, revalidate_ok hvalid⟩

theorem setChildEthAddress_ok {address : EthAddress} {r r' : NodeRecord} {u : PUnit}
    (h : exec (setChildEthAddress child address) r = (.ok u, r')) :
    r' = r.withAnchor child address := by
  rw [setChildEthAddress, exec_get_bind] at h
  simp only [exec_bind_eq_ok, exec_refuseIf_eq_ok, exec_modify, Prod.mk.injEq] at h
  obtain ⟨_, _, ⟨-, rfl⟩, -, rfl⟩ := h
  rfl

/-- The moved child keeps its anchor: it is detached, attached again, and its anchor is set. -/
theorem moveChildSlot_self (slot : UInt8) :
    Keeps (AnchoredAs child anchor) (moveChildSlot child slot) := by
  apply Keeps.of_exec
  intro r hr
  rw [moveChildSlot, exec_get_bind]
  cases hentry : r.childEntry child with
  | none => exact hr
  | some entry =>
      dsimp only
      by_cases hslot : entry.slot = slot
      · rw [if_pos hslot]
        exact hr
      rw [if_neg hslot, exec_onCopy]
      have hanchor : entry.ethAddress = anchor := by
        have hr := hr.2
        rwa [NodeRecord.childEthAddress, hentry] at hr
      split
      · rename_i result r' hrun
        simp only [exec_bind_eq_ok, exec_modify, Prod.mk.injEq] at hrun
        obtain ⟨_, r₁, hdetach, _, r₂, hattach, _, r₃, hset, _, r₄, ⟨-, rfl⟩, _, r₅, hvalid, -,
          rfl⟩ := hrun
        obtain rfl := revalidate_ok hvalid
        obtain ⟨hunlisted, newSlot, rfl⟩ := attachChild_ok hattach
        have hnew := NodeRecord.childEntry_append_self hunlisted
          { childId := child, kind := entry.kind, slot := newSlot
            dateJoined := entry.dateJoined, ethAddress := none } rfl
        apply AnchoredAs.of_childEntry_eq (r := r₃) rfl
        cases haddress : entry.ethAddress with
        | none =>
            rw [haddress] at hset hanchor
            obtain rfl := (Prod.mk.inj hset).2
            exact .of_childEntry hnew hanchor
        | some address =>
            rw [haddress] at hset hanchor
            obtain rfl := setChildEthAddress_ok hset
            exact .of_childEntry (NodeRecord.childEntry_withAnchor.trans (congrArg _ hnew)) hanchor
      · exact hr

theorem moveChildSlot_anchored (slot : UInt8) :
    Keeps (AnchoredAs user anchor) (moveChildSlot child slot) := by
  by_cases hne : child = user
  · rw [← hne]
    exact moveChildSlot_self slot
  · apply Keeps.get_bind
    intro r _
    cases r.childEntry child with
    | none => exact Keeps.throw _
    | some entry =>
        dsimp only
        split
        · exact Keeps.pure _
        · apply Keeps.onCopy
          apply Keeps.bind (detachChild_anchored hne)
          intro _
          apply Keeps.bind (attachChild_anchored _ _ _)
          intro _
          refine Keeps.bind (Keeps.forSome fun _ _ => setChildEthAddress_anchored _ hne) fun _ => ?_
          refine Keeps.bind (Keeps.modify fun r hr => ?_) fun _ => ?_
          · exact AnchoredAs.of_childEntry_eq (r := r) rfl hr
          · exact revalidate_keeps.bind fun _ => Keeps.pure _

end RecordStore

/-! ## The anchor through a handler -/

section Requests

variable [Crypto]

/-- The record in memory has a property, and the one on disk has it or is an earlier one. -/
def RecordHas (P : NodeRecord → Prop) (stored : Option NodeRecord) (h : NodeHost) : Prop :=
  P h.node.record ∧ (h.disk.record = stored ∨ ∃ r, h.disk.record = some r ∧ P r)

theorem onRecord_keeps_recordHas {P : NodeRecord → Prop} {stored : Option NodeRecord} {α : Type}
    {x : RecordOp α} (hx : Keeps P x) : Keeps (RecordHas P stored) (onRecord x) :=
  Keeps.zoom (fun _ hs => hs.1) (fun _ _ hs hr => ⟨hr, hs.2⟩) hx

/-- A property of a record that the operations on the links keep is kept by the handlers. -/
theorem recordHas_invariant {P : NodeRecord → Prop} (stored : Option NodeRecord)
    (hlinks : ∀ {r r' : NodeRecord}, r'.children = r.children → P r → P r')
    (hattach : ∀ child kind slot now, Keeps P (RecordStore.attachChild child kind slot now))
    (hundone : ∀ {r : NodeRecord} {child}, P r → r.childEntry child = none →
      Keeps P (RecordStore.detachChild child))
    (hmoved : ∀ child slot, Keeps P (RecordStore.moveChildSlot child slot)) :
    HandlerInvariant (RecordHas P stored) where
  quiet {h h'} hcore hI := by
    have hrecord : h'.node.record = h.node.record := congrArg HostCore.record hcore
    have hstored : h'.disk.record = h.disk.record := congrArg HostCore.storedRecord hcore
    rw [RecordHas, hrecord, hstored]
    exact hI
  saved hI := ⟨hI.1, .inr ⟨_, rfl, hI.1⟩⟩
  links hchildren hI := ⟨hlinks hchildren hI.1, hI.2⟩
  restored hI hI' := ⟨hI.1, hI'.2⟩
  attached child kind slot now := onRecord_keeps_recordHas (hattach child kind slot now)
  undone hI hnone := onRecord_keeps_recordHas (hundone hI.1 hnone)
  moved child slot := onRecord_keeps_recordHas (hmoved child slot)

theorem unanchored_invariant (user : NodeId) (stored : Option NodeRecord) :
    HandlerInvariant (RecordHas (Unanchored user) stored) :=
  recordHas_invariant stored
    (fun hchildren hr entry hmem => hr entry (hchildren ▸ hmem))
    (fun _ => RecordStore.attachChild_unanchored)
    (fun _ _ => RecordStore.detachChild_unanchored)
    (fun _ => RecordStore.moveChildSlot_unanchored)

theorem anchored_invariant (user : NodeId) (anchor : Option EthAddress)
    (stored : Option NodeRecord) :
    HandlerInvariant (RecordHas (AnchoredAs user anchor) stored) :=
  recordHas_invariant stored
    (fun hchildren => AnchoredAs.of_childEntry_eq (by
      rw [NodeRecord.childEntry, NodeRecord.childEntry, hchildren]))
    (fun _ => RecordStore.attachChild_anchored)
    (fun hr hnone => RecordStore.detachChild_anchored fun heq => by
      subst heq
      rw [NodeRecord.childEntry_eq_none_iff, hr.1] at hnone
      cases hnone)
    (fun _ => RecordStore.moveChildSlot_anchored)

/-- The anchor of a user on disk, which the gate of the parent reads. -/
def NodeHost.anchor (h : NodeHost) (user : NodeId) : Option EthAddress :=
  h.disk.record.bind fun r => r.childEthAddress user

variable [ControlPostcard] [EthPrimitives] [ZeroKey]

/-- A handler that neither detaches a user nor registers its anchor keeps a property of the
record that the other operations keep. -/
theorem HandOff.handled_recordHas {P : NodeRecord → Prop} {d : HandOff} {user : NodeId}
    (g : HandlerInvariant (RecordHas P d.host.disk.record)) (hstart : P d.host.node.record)
    (hdetach : ∀ child, child ≠ user → Keeps P (RecordStore.detachChild child))
    (hanchor : ∀ child address, child ≠ user →
      Keeps P (RecordStore.setChildEthAddress child address))
    (hkept : d.host.detachedBy d.signed ≠ some user)
    (hunregistered : d.signed.origin = user →
      ∀ register, d.signed.request ≠ .registerEthAddress register) :
    RecordHas P d.host.disk.record d.handled.2 := by
  have hI : RecordHas P d.host.disk.record d.host := ⟨hstart, .inl rfl⟩
  apply HandOff.handled_keeps g.ordinary hI (fun _ => g.relink) fun _ => g.toCoreInvariant.notifies
  · intro child hchild
    apply onRecord_keeps_recordHas
    apply hdetach
    intro heq
    exact hkept (by rw [hchild, heq])
  · intro register hrequest
    apply onRecord_keeps_recordHas
    apply hanchor
    exact fun horigin => hunregistered horigin register hrequest
  · exact fun _ _ => hI

/-- What a handler leaves of a user's anchor: in memory that of `anchor`, and on disk the one it
found or the one in memory. -/
def LeavesAnchor (user : NodeId) (anchor : Option EthAddress) (h h' : NodeHost) : Prop :=
  h'.node.record.childEthAddress user = anchor
    ∧ (h'.anchor user = h.anchor user ∨ h'.anchor user = anchor)

omit [ControlPostcard] [EthPrimitives] [ZeroKey] in
theorem RecordHas.leavesAnchor {P : NodeRecord → Prop} {user : NodeId}
    {anchor : Option EthAddress} (hP : ∀ r, P r → r.childEthAddress user = anchor)
    {h h' : NodeHost} (hkept : RecordHas P h.disk.record h') : LeavesAnchor user anchor h h' := by
  refine ⟨hP _ hkept.1, hkept.2.imp ?_ ?_⟩
  · intro hstored
    rw [NodeHost.anchor, hstored, NodeHost.anchor]
  · intro ⟨r, hstored, hr⟩
    rw [NodeHost.anchor, hstored]
    exact hP r hr

/-- A handler that neither detaches a user nor registers its anchor leaves the anchor. -/
theorem HandOff.handled_leavesAnchor {d : HandOff} {user : NodeId}
    (hkept : d.host.detachedBy d.signed ≠ some user)
    (hunregistered : d.signed.origin = user →
      ∀ register, d.signed.request ≠ .registerEthAddress register) :
    LeavesAnchor user (d.host.node.record.childEthAddress user) d.host d.handled.2 := by
  cases hlists : d.host.node.record.lists user with
  | true =>
      have hkeeps := HandOff.handled_recordHas (anchored_invariant user _ d.host.disk.record)
        ⟨hlists, rfl⟩ (fun _ => RecordStore.detachChild_anchored)
        (fun _ _ => RecordStore.setChildEthAddress_anchored _) hkept hunregistered
      exact hkeeps.leavesAnchor fun r hr => hr.2
  | false =>
      have hstart := Unanchored.of_unlisted hlists
      have hkeeps := HandOff.handled_recordHas (unanchored_invariant user d.host.disk.record)
        hstart (fun _ _ => RecordStore.detachChild_unanchored)
        (fun _ _ => RecordStore.setChildEthAddress_unanchored _) hkept hunregistered
      rw [hstart.childEthAddress]
      exact hkeeps.leavesAnchor fun r hr => hr.childEthAddress

end Requests

section Storing

variable [Crypto]

/-! ### Handlers that detach or register -/

def StoredFrom (stored : Option NodeRecord) (h : NodeHost) : Prop :=
  h.disk.record = stored ∨ h.disk.record = some h.node.record

theorem storedFrom_invariant (stored : Option NodeRecord) : CoreInvariant (StoredFrom stored) where
  quiet {h h'} hcore hI := by
    have hrecord : h'.node.record = h.node.record := congrArg HostCore.record hcore
    have hstored : h'.disk.record = h.disk.record := congrArg HostCore.storedRecord hcore
    rw [StoredFrom, hrecord, hstored]
    exact hI

theorem saveRecord_exec {ε : Type} (io : Io) (e : ε) (h : NodeHost) :
    exec (saveRecord io e) h = (.ok ⟨⟩, h.recordSaved)
      ∨ exec (saveRecord io e) h = (.error e, h) := by
  rw [saveRecord, exec_get_bind, exec_refuseIf_bind]
  by_cases hrefused : h.node.record.validate.toBool = false ∨ (!io.recordSaves) = true
  · rw [if_pos hrefused]
    exact .inr rfl
  · rw [if_neg hrefused]
    exact .inl rfl

theorem saveRecord_storedFrom {ε : Type} (io : Io) (e : ε) (stored : Option NodeRecord) :
    Meets (fun h => h.disk.record = stored) (saveRecord io e) (fun _ => StoredFrom stored)
      (fun _ => StoredFrom stored) := by
  intro h hs
  obtain hsaved | hrefused := saveRecord_exec io e h
  · rw [hsaved]
    exact .inr rfl
  · rw [hrefused]
    exact .inl hs

theorem changeThenSave_storedFrom {α : Type} (io : Io) (e : RejectCode) (x : RecordOp α)
    (stored : Option NodeRecord) :
    Meets (fun h => h.disk.record = stored)
      (mapError mapRecordError (onRecord x) >>= fun _ => saveRecord io e)
      (fun _ => StoredFrom stored) (fun _ => StoredFrom stored) := by
  refine Meets.bind (Meets.of_keeps ?_ fun _ => .inl) fun _ => saveRecord_storedFrom io e stored
  exact (onRecord_keeps fun hI => hI).mapError

variable [ControlPostcard]

theorem applyDetachChild_storedFrom (io : Io) (child : NodeId) (now : UInt64)
    (stored : Option NodeRecord) :
    Meets (fun h => h.disk.record = stored) (applyDetachChild io child now)
      (fun _ => StoredFrom stored) (fun _ => StoredFrom stored) := by
  refine Meets.bind (Meets.of_keeps ?_ fun _ => .inl) fun _ => ?_
  · exact (onRecord_keeps fun hI => hI).mapError
  · refine Meets.bind (saveRecord_storedFrom io _ stored) fun _ => ?_
    exact ((storedFrom_invariant stored).notifies _ _).bind fun _ => Keeps.pure _

theorem handleExit_storedFrom (io : Io) (signed : SignedControl) (exit : ExitRequest)
    (stored : Option NodeRecord) :
    Meets (fun h => h.disk.record = stored) (handleExit io signed exit)
      (fun _ => StoredFrom stored) (fun _ => StoredFrom stored) := by
  refine Meets.bind (Meets.of_keeps (Keeps.refuseIf _ _) fun _ => .inl) fun _ => ?_
  refine Meets.bind (Meets.of_keeps (Keeps.refuseIf _ _) fun _ => .inl) fun _ => ?_
  refine Meets.bind (Meets.of_keeps Keeps.get fun _ => .inl) fun h => ?_
  refine Meets.bind (Meets.of_keeps (Keeps.refuseIf _ _) fun _ => .inl) fun _ => ?_
  refine Meets.bind (Q := fun _ => StoredFrom stored) ?_ fun _ => Keeps.pure _
  by_cases hlists : h.node.record.lists exit.node = true
  · rw [when, if_pos hlists]
    exact changeThenSave_storedFrom io _ _ stored
  · rw [when, if_neg hlists]
    exact Meets.pure fun _ => .inl

omit [ControlPostcard] in
theorem setChildEthAddress_exec {h : NodeHost} {child : NodeId} {address : EthAddress}
    (hlists : h.node.record.lists child = true) :
    exec (onRecord (RecordStore.setChildEthAddress child address)) h
      = (.ok ⟨⟩, h.withRecord (h.node.record.withAnchor child address)) := by
  rw [onRecord, exec_zoom, RecordStore.setChildEthAddress, exec_get_bind, exec_refuseIf_bind,
    if_neg (by simp [hlists])]
  rfl

/-- A registration is refused and changes nothing, or it sets the anchor in memory with a proof
against the incumbent, and then fails to save it or saves it. -/
theorem handleRegisterEthAddress_cases [EthPrimitives] (io : Io) (signed : SignedControl)
    (register : RegisterEthAddress) (h : NodeHost) :
    (∃ code, code ≠ .replay
        ∧ exec (handleRegisterEthAddress io signed register) h = (.error code, h))
      ∨ ∃ child, h.node.record.childEntry signed.origin = some child
        ∧ (register.verify signed.origin child.ethAddress).toBool = true
        ∧ (exec (handleRegisterEthAddress io signed register) h
            = (.error .internal,
              h.withRecord (h.node.record.withAnchor signed.origin register.address))
          ∨ exec (handleRegisterEthAddress io signed register) h
            = (.ok .accepted,
              (h.withRecord
                (h.node.record.withAnchor signed.origin register.address)).recordSaved)) := by
  rw [handleRegisterEthAddress, exec_get_bind, exec_refuseIf_bind]
  by_cases hpeer : (verifyControl signed h.node.peers).toBool = false
  · rw [if_pos hpeer]
    exact .inl ⟨_, by simp, rfl⟩
  rw [if_neg hpeer]
  cases hchild : h.node.record.childEntry signed.origin with
  | none => exact .inl ⟨.notFound, by simp, rfl⟩
  | some child =>
      dsimp only
      rw [exec_refuseIf_bind]
      by_cases hkind : child.kind ≠ .user
      · rw [if_pos hkind]
        exact .inl ⟨_, by simp, rfl⟩
      rw [if_neg hkind, exec_refuseIf_bind]
      by_cases hproof : (register.verify signed.origin child.ethAddress).toBool = false
      · rw [if_pos hproof]
        exact .inl ⟨_, by simp, rfl⟩
      rw [if_neg hproof]
      right
      refine ⟨child, rfl, by simpa using hproof, ?_⟩
      have hlists : h.node.record.lists signed.origin = true := by
        rw [NodeRecord.lists_eq_isSome, hchild, Option.isSome_some]
      rw [exec_bind, exec_mapError, setChildEthAddress_exec hlists]
      dsimp only [Except.mapError]
      rw [exec_bind]
      obtain hsaved | hrefused := saveRecord_exec io RejectCode.internal
        (h.withRecord (h.node.record.withAnchor signed.origin register.address))
      · rw [hsaved]
        exact .inr rfl
      · rw [hrefused]
        exact .inl rfl

variable [EthPrimitives] [ZeroKey]

/-- A handler that detaches a child leaves on disk the record it found or the one in memory. -/
theorem HandOff.handled_storedFrom {d : HandOff} {child : NodeId}
    (hdetach : d.host.detachedBy d.signed = some child) :
    StoredFrom d.host.disk.record d.handled.2 := by
  cases hrequest : d.signed.request with
  | detachChild node =>
      rw [handled, handleRequest, hrequest, exec_map]
      exact (applyDetachChild_storedFrom d.io node d.now d.host.disk.record).exec rfl
  | adminDetachChild node =>
      rw [handled, handleRequest, hrequest, exec_map]
      have hmeets : Meets (fun h => h.disk.record = d.host.disk.record)
          (handleAdminDetachChild d.io node d.now) (fun _ => StoredFrom d.host.disk.record)
          (fun _ => StoredFrom d.host.disk.record) := by
        refine Meets.bind (Meets.of_keeps (Keeps.refuseIf _ _) fun _ => .inl) fun _ => ?_
        exact applyDetachChild_storedFrom d.io node d.now d.host.disk.record
      exact hmeets.exec rfl
  | exit exit =>
      rw [handled, handleRequest, hrequest, exec_map]
      exact (handleExit_storedFrom d.io d.signed exit d.host.disk.record).exec rfl
  | _ =>
      -- no other request detaches
      simp [NodeHost.detachedBy, hrequest] at hdetach

end Storing

/-! ## Rotations -/

section Rotations

variable [Crypto] {user : NodeId} {R : EthAddress → EthAddress → Prop}

/-- The anchor on disk leads to the one in memory by rotations: a save may have failed. -/
def AnchorAhead (R : EthAddress → EthAddress → Prop) (user : NodeId) (h : NodeHost) : Prop :=
  ∀ a, h.anchor user = some a →
    ∃ b, h.node.record.childEthAddress user = some b ∧ Relation.ReflTransGen R a b

theorem AnchorAhead.of_stored {h : NodeHost}
    (hmem : h.anchor user = h.node.record.childEthAddress user) : AnchorAhead R user h :=
  fun a ha => ⟨a, hmem ▸ ha, .refl⟩

theorem AnchorAhead.of_eq {h h' : NodeHost} (hahead : AnchorAhead R user h)
    (hmem : h'.node.record = h.node.record) (hstored : h'.disk.record = h.disk.record) :
    AnchorAhead R user h' := by
  rw [AnchorAhead, NodeHost.anchor, hstored, hmem]
  exact hahead

theorem NodeHost.anchor_reload (io : ReloadIo) (h : NodeHost) :
    (h.reload io).anchor user = h.anchor user := by
  rw [anchor, (h.reload_refreshed io).stored.1, anchor]

theorem AnchorAhead.reload {h : NodeHost} (io : ReloadIo) (hahead : AnchorAhead R user h) :
    AnchorAhead R user (h.reload io) := by
  obtain hkept | hread := (h.reload_refreshed io).record
  · exact hahead.of_eq hkept (h.reload_refreshed io).stored.1
  · apply AnchorAhead.of_stored
    rw [NodeHost.anchor_reload, NodeHost.anchor, hread]
    rfl

theorem ControlEvent.anchor_reloaded (e : ControlEvent) (h : NodeHost) :
    (e.reloaded h).anchor user = h.anchor user := by
  cases e with
  | direct io signed now => exact NodeHost.anchor_reload io.reload h
  | routed io remote carried now =>
      exact (NodeHost.anchor_reload io.reload _).trans (NodeHost.anchor_reload io.routedReload h)
  | _ => rfl

/-- A request that reaches no handler leaves the anchors on disk. -/
theorem ControlEvent.Idle.anchor {h s : NodeHost} {e : ControlEvent} (hs : e.Idle h s) :
    s.anchor user = h.anchor user := by
  cases hs with
  | refused => rfl
  | halfway heq => exact NodeHost.anchor_reload _ h
  | reloaded => exact e.anchor_reloaded h
  | marked seen stored => exact e.anchor_reloaded h

theorem AnchorAhead.reloaded {h : NodeHost} (e : ControlEvent) (hahead : AnchorAhead R user h) :
    AnchorAhead R user (e.reloaded h) := by
  cases e with
  | direct io signed now => exact hahead.reload io.reload
  | routed io remote carried now => exact (hahead.reload io.routedReload).reload io.reload
  | _ => exact hahead

theorem AnchorAhead.idle {h s : NodeHost} {e : ControlEvent} (hahead : AnchorAhead R user h)
    (hs : e.Idle h s) : AnchorAhead R user s ∧ s.anchor user = h.anchor user := by
  refine ⟨?_, hs.anchor⟩
  cases hs with
  | refused => exact hahead
  | halfway heq => exact hahead.reload _
  | reloaded => exact hahead.reloaded e
  | marked seen stored => exact hahead.reloaded e

/-- The anchor on disk stays, or moves by rotations; it is not lost. -/
def AnchorMoves (R : EthAddress → EthAddress → Prop) (user : NodeId) (h h' : NodeHost) : Prop :=
  ∀ a, h.anchor user = some a → ∃ b, h'.anchor user = some b ∧ Relation.ReflTransGen R a b

theorem AnchorMoves.of_eq {h h' : NodeHost} (heq : h'.anchor user = h.anchor user) :
    AnchorMoves R user h h' := fun a ha => ⟨a, heq.trans ha, .refl⟩

/-- A handler that leaves the anchor in memory moves the one on disk at most up to it. -/
theorem LeavesAnchor.moves {h h' : NodeHost} (hahead : AnchorAhead R user h)
    (hleaves : LeavesAnchor user (h.node.record.childEthAddress user) h h') :
    AnchorAhead R user h' ∧ AnchorMoves R user h h' := by
  obtain ⟨hmem, hstored⟩ := hleaves
  constructor
  · intro a ha
    obtain hsame | hsaved := hstored
    · obtain ⟨b, hb, hchain⟩ := hahead a (hsame ▸ ha)
      exact ⟨b, hmem.trans hb, hchain⟩
    · exact ⟨a, (hmem.trans hsaved.symm).trans ha, .refl⟩
  · intro a ha
    obtain hsame | hsaved := hstored
    · exact ⟨a, hsame.trans ha, .refl⟩
    · obtain ⟨b, hb, hchain⟩ := hahead a ha
      exact ⟨b, hsaved.trans hb, hchain⟩

variable (user) in
/-- A local process that keeps what the handlers keep leaves the anchor. -/
theorem keeps_leavesAnchor {ε α : Type} {x : Transaction NodeHost ε α}
    (hx : ∀ {I : NodeHost → Prop}, HandlerInvariant I → Keeps I x) (h : NodeHost) :
    LeavesAnchor user (h.node.record.childEthAddress user) h (exec x h).2 := by
  cases hlists : h.node.record.lists user with
  | true =>
      have hkeeps : RecordHas (AnchoredAs user (h.node.record.childEthAddress user)) h.disk.record
          (exec x h).2 :=
        (hx (anchored_invariant user _ h.disk.record)).exec ⟨⟨hlists, rfl⟩, .inl rfl⟩
      exact hkeeps.leavesAnchor fun r hr => hr.2
  | false =>
      have hstart := Unanchored.of_unlisted hlists
      have hkeeps : RecordHas (Unanchored user) h.disk.record (exec x h).2 :=
        (hx (unanchored_invariant user h.disk.record)).exec ⟨hstart, .inl rfl⟩
      rw [hstart.childEthAddress]
      exact hkeeps.leavesAnchor fun r hr => hr.childEthAddress

/-- An engine opened on a data directory holds the anchors of its disk. -/
theorem anchor_of_open {opens : OpenIo} {disk : DataDir} {nodeId : NodeId}
    {operator : OperatorSecretKey} {ledger : Bool} {now : UInt64} {node : ControlNode}
    (h : ControlNode.open_ opens disk nodeId operator ledger now = some node) :
    node.record = disk.record.getD (.new nodeId) := by
  simp only [ControlNode.open_, Option.bind_eq_bind, Option.bind_eq_some_iff] at h
  obtain ⟨record, hrecord, peers, -, pending, -, hnode⟩ := h
  obtain rfl := Option.some.inj hnode
  obtain hopen : openRecord opens.recordReads disk nodeId = .ok record := by
    cases hresult : openRecord opens.recordReads disk nodeId with
    | error e => simp [hresult, Except.toOption] at hrecord
    | ok r => simpa [hresult, Except.toOption] using hrecord
  exact openRecord_eq_ok hopen

theorem anchor_getD (disk : DataDir) (nodeId : NodeId) :
    (disk.record.getD (.new nodeId)).childEthAddress user
      = disk.record.bind fun r => r.childEthAddress user := by
  cases disk.record with
  | none => rfl
  | some r => rfl

variable (user) in
theorem elsewhere_anchor {ε α : Type} (c : ControlHost) (opens : OpenIo) (now : UInt64)
    {x : Transaction NodeHost ε α}
    (hx : ∀ {I : NodeHost → Prop}, HandlerInvariant I → Keeps I x) :
    (c.elsewhere opens now x).host.anchor user = c.host.anchor user
      ∧ (c.elsewhere opens now x).host.node = c.host.node := by
  rw [ControlHost.elsewhere]
  split
  · exact ⟨rfl, rfl⟩
  · rename_i node hnode
    refine ⟨?_, rfl⟩
    obtain ⟨-, hstored⟩ := keeps_leavesAnchor user hx { c.host with node }
    obtain hsame | hsaved := hstored
    · exact hsame
    · rw [anchor_of_open hnode, anchor_getD] at hsaved
      exact hsaved

variable [ControlPostcard] [EthPrimitives] [ZeroKey]

/-- A handed-off frame that rotates a user's anchor: the proof recovers to the old address. -/
def HandOff.Rotates (d : HandOff) (user : NodeId) (a b : EthAddress) : Prop :=
  d.signed.origin = user ∧ ∃ register, d.signed.request = .registerEthAddress register
    ∧ register.address = b ∧ (register.proof.verifyRotation user a b).toBool = true

theorem HandOff.register_moves {d : HandOff} {register : RegisterEthAddress}
    (hahead : AnchorAhead R user d.host) (horigin : d.signed.origin = user)
    (hrequest : d.signed.request = .registerEthAddress register)
    (hR : ∀ a b, d.Rotates user a b → R a b) :
    AnchorAhead R user d.handled.2 ∧ AnchorMoves R user d.host d.handled.2 := by
  have hexec : d.handled.2
      = (exec (handleRegisterEthAddress d.io d.signed register) d.host).2 := by
    rw [handled, handleRequest, hrequest, exec_map]
  obtain ⟨code, -, hsame⟩ | ⟨child, hchild, hproof, hset⟩ :=
    handleRegisterEthAddress_cases d.io d.signed register d.host
  · rw [hexec, hsame]
    exact ⟨hahead, .of_eq rfl⟩
  rw [horigin] at hchild hproof hset
  have hincumbent : d.host.node.record.childEthAddress user = child.ethAddress := by
    rw [NodeRecord.childEthAddress, hchild]
    rfl
  have hnew : (d.host.node.record.withAnchor user register.address).childEthAddress user
      = some register.address := by
    rw [NodeRecord.childEthAddress, NodeRecord.childEntry_withAnchor, hchild]
    rfl
  have hstep : ∀ a, d.host.anchor user = some a → Relation.ReflTransGen R a register.address := by
    intro a ha
    obtain ⟨b, hb, hchain⟩ := hahead a ha
    rw [hincumbent] at hb
    rw [hb] at hproof
    exact hchain.tail (hR b _ ⟨horigin, register, hrequest, rfl, hproof⟩)
  rw [hexec]
  obtain hmem | hsaved := hset
  · rw [hmem]
    refine ⟨fun a ha => ⟨_, hnew, hstep a ha⟩, .of_eq rfl⟩
  · rw [hsaved]
    refine ⟨AnchorAhead.of_stored rfl, fun a ha => ⟨_, hnew, hstep a ha⟩⟩

/-- A handler moves the anchor of a user by rotations, unless it detaches an anchored one. -/
theorem HandOff.handled_moves {d : HandOff} (hahead : AnchorAhead R user d.host)
    (hkept : d.host.anchor user ≠ none → d.host.detachedBy d.signed ≠ some user)
    (hR : ∀ a b, d.Rotates user a b → R a b) :
    AnchorAhead R user d.handled.2 ∧ AnchorMoves R user d.host d.handled.2 := by
  by_cases hregister : d.signed.origin = user
      ∧ ∃ register, d.signed.request = .registerEthAddress register
  · obtain ⟨horigin, register, hrequest⟩ := hregister
    exact register_moves hahead horigin hrequest hR
  by_cases hdetached : d.host.detachedBy d.signed = some user
  · have hnone : d.host.anchor user = none := by
      by_contra hne
      exact hkept hne hdetached
    refine ⟨fun a ha => ?_, fun a ha => ?_⟩
    · obtain hsame | hsaved := handled_storedFrom hdetached
      · rw [NodeHost.anchor, hsame, ← NodeHost.anchor, hnone] at ha
        cases ha
      · exact AnchorAhead.of_stored (by rw [NodeHost.anchor, hsaved]; rfl) a ha
    · rw [hnone] at ha
      cases ha
  · apply LeavesAnchor.moves hahead
    apply handled_leavesAnchor hdetached
    intro horigin register hrequest
    exact hregister ⟨horigin, register, hrequest⟩

/-- An event detaches a user: its frame reaches a handler that takes the user's entry out. -/
def ControlEvent.Detaches (h : NodeHost) (user : NodeId) (e : ControlEvent) : Prop :=
  ∃ d, e.handOff h = some d ∧ d.host.detachedBy d.signed = some user

/-- An event rotates a user's anchor. -/
def ControlEvent.Rotates (h : NodeHost) (user : NodeId) (a b : EthAddress) (e : ControlEvent) :
    Prop := ∃ d, e.handOff h = some d ∧ d.Rotates user a b

theorem ControlEvent.not_detaches {h : NodeHost} {e : ControlEvent}
    {register : RegisterEthAddress} (hrequest : e.request = some (.registerEthAddress register)) :
    ¬ e.Detaches h user := by
  intro ⟨d, hd, hdetached⟩
  have heq := (ControlEvent.shown_of_handOff hd).request_eq
  rw [hrequest, Option.some.injEq] at heq
  rw [NodeHost.detachedBy, ← heq] at hdetached
  cases hdetached

variable [Postcard]

/-- One step moves the anchor of a user by rotations, unless it detaches an anchored one. -/
theorem ControlHost.step_moves {c c' : ControlHost} {e : ControlEvent}
    (hahead : AnchorAhead R user c.host) (hstep : c.step e = some c')
    (hkept : c.host.anchor user ≠ none → ¬ e.Detaches c.host user)
    (hR : ∀ a b, e.Rotates c.host user a b → R a b) :
    AnchorAhead R user c'.host ∧ AnchorMoves R user c.host c'.host := by
  cases hreceived : e.received c.host with
  | some result =>
      rw [step_received hreceived, Option.some.injEq] at hstep
      subst hstep
      obtain ⟨-, -, hidle⟩ | ⟨d, hd, rfl, hshown, seen, stored, hhost⟩ :=
        ControlEvent.received_cases hreceived
      · obtain ⟨hahead', hsame⟩ := hahead.idle hidle
        exact ⟨hahead', .of_eq hsame⟩
      · obtain ⟨hahead', hsame⟩ := hahead.idle (.marked seen stored)
        rw [← hhost] at hahead' hsame
        obtain ⟨hafter, hmoves⟩ := HandOff.handled_moves hahead'
          (fun hne hdetached => hkept (hsame ▸ hne) ⟨d, hd, hdetached⟩)
          (fun a b hrotates => hR a b ⟨d, hd, hrotates⟩)
        exact ⟨hafter, fun a ha => hmoves a (hsame.trans ha)⟩
  | none =>
      cases e with
      | direct io signed now => cases hreceived
      | routed io remote carried now => cases hreceived
      | execute index audited env now =>
          obtain rfl := Option.some.inj hstep
          rw [executeMutation]
          split
          · exact ⟨hahead, .of_eq rfl⟩
          · exact ⟨hahead, .of_eq rfl⟩
      | approve opens io node slot parentLedger now =>
          obtain rfl := Option.some.inj hstep
          obtain ⟨hsame, hnode⟩ := elsewhere_anchor user c opens now
            fun g => g.ordinary.approvePending io node slot now parentLedger
          refine ⟨?_, .of_eq hsame⟩
          intro a ha
          rw [hnode]
          exact hahead a (hsame.symm.trans ha)
      | reject opens io node now =>
          obtain rfl := Option.some.inj hstep
          obtain ⟨hsame, hnode⟩ := elsewhere_anchor user c opens now
            fun g => g.ordinary.rejectPending io node ControlError.persist
          refine ⟨?_, .of_eq hsame⟩
          intro a ha
          rw [hnode]
          exact hahead a (hsame.symm.trans ha)
      | adminAdd adminReads recordReads adminSaves node now =>
          obtain rfl := Option.some.inj hstep
          rw [adminAdd]
          split
          · exact ⟨hahead, .of_eq rfl⟩
          · split
            · exact ⟨hahead, .of_eq rfl⟩
            · split
              · exact ⟨hahead, .of_eq rfl⟩
              · exact ⟨hahead, .of_eq rfl⟩
      | adminRemove adminReads adminSaves node now =>
          obtain rfl := Option.some.inj hstep
          rw [adminRemove]
          split
          · exact ⟨hahead, .of_eq rfl⟩
          · exact ⟨hahead, .of_eq rfl⟩
      | restart opens now =>
          obtain ⟨node, hnode, rfl⟩ := Option.map_eq_some_iff.mp hstep
          refine ⟨.of_stored rfl, .of_eq ?_⟩
          have hrecord := anchor_of_open hnode
          rw [NodeHost.anchor, NodeHost.anchor, ← anchor_getD c.host.disk c.host.node.nodeId,
            ← hrecord]
          rfl

/-- An engine that has just been opened on its data directory. -/
def ControlHost.Opened (c : ControlHost) : Prop :=
  ∃ opens ledger now, ControlNode.open_ opens c.host.disk c.host.node.nodeId c.host.node.operator
    ledger now = some c.host.node

def RotatedIn (c : ControlHost) (events : List ControlEvent) (user : NodeId)
    (a b : EthAddress) : Prop :=
  ∃ past e rest mid, events = past ++ e :: rest ∧ c.run past = some mid
    ∧ e.Rotates mid.host user a b

/-- The anchor is write-once: in a run that detaches the user only while it has no anchor, an
anchor on disk stays or moves by rotation proofs that recover to the address they replace, and
the gate accepts no order of the user that does not recover to the current one. -/
theorem anchor_write_once {c₀ c₁ c : ControlHost} {past later : List ControlEvent}
    {a : EthAddress} (hstart : c₀.Opened) (hpast : c₀.run past = some c₁)
    (hlater : c₁.run later = some c) (hanchored : c₁.host.anchor user = some a)
    (hkept : ∀ before e rest mid, past ++ later = before ++ e :: rest →
      c₀.run before = some mid → mid.host.anchor user ≠ none → ¬ e.Detaches mid.host user) :
    ∃ b, c.host.anchor user = some b
      ∧ Relation.ReflTransGen (RotatedIn c₀ (past ++ later) user) a b
      ∧ ∀ record recovered, c.host.disk.record = some record →
        anchorGate record user recovered = .ok () → recovered = some b := by
  have hrun : c₀.run (past ++ later) = some c := by
    rw [ControlHost.run_append, hpast]
    exact hlater
  -- each step of the whole run moves the anchor by the rotations of the run
  have hsteps : ∀ before mid e next, c₀.run before = some mid →
      before ++ [e] <+: past ++ later → mid.step e = some next →
      AnchorAhead (RotatedIn c₀ (past ++ later) user) user mid.host →
      AnchorAhead (RotatedIn c₀ (past ++ later) user) user next.host
        ∧ AnchorMoves (RotatedIn c₀ (past ++ later) user) user mid.host next.host := by
    intro before mid e next hmid hfirst hstep hahead
    obtain ⟨rest, hrest⟩ := hfirst
    have hsplit : past ++ later = before ++ e :: rest := by
      rw [← hrest, List.append_assoc, List.singleton_append]
    apply ControlHost.step_moves hahead hstep (hkept before e rest mid hsplit hmid)
    intro x y hrotates
    exact ⟨before, e, rest, mid, hsplit, hmid, hrotates⟩
  have hfirst : AnchorAhead (RotatedIn c₀ (past ++ later) user) user c₀.host := by
    obtain ⟨opens, ledger, now, hopen⟩ := hstart
    apply AnchorAhead.of_stored
    rw [anchor_of_open hopen, anchor_getD]
    rfl
  have hahead : AnchorAhead (RotatedIn c₀ (past ++ later) user) user c₁.host := by
    refine ControlHost.run_induction
      (P := fun _ c => AnchorAhead (RotatedIn c₀ (past ++ later) user) user c.host) hpast hfirst ?_
    intro before mid e next hmid hfirst ih hstep
    exact (hsteps before mid e next hmid (hfirst.trans (List.prefix_append _ _)) hstep ih).1
  obtain ⟨-, b, hb, hchain⟩ : AnchorAhead (RotatedIn c₀ (past ++ later) user) user c.host
      ∧ ∃ b, c.host.anchor user = some b
        ∧ Relation.ReflTransGen (RotatedIn c₀ (past ++ later) user) a b := by
    refine ControlHost.run_induction
      (P := fun _ c => AnchorAhead (RotatedIn c₀ (past ++ later) user) user c.host
        ∧ ∃ b, c.host.anchor user = some b
          ∧ Relation.ReflTransGen (RotatedIn c₀ (past ++ later) user) a b) hlater
      ⟨hahead, a, hanchored, .refl⟩ ?_
    intro before mid e next hmid hfirst ⟨ih, b, hb, hchain⟩ hstep
    have hmid' : c₀.run (past ++ before) = some mid := by
      rw [ControlHost.run_append, hpast]
      exact hmid
    have hfirst' : (past ++ before) ++ [e] <+: past ++ later := by
      rw [List.append_assoc]
      exact (List.prefix_append_right_inj past).mpr hfirst
    obtain ⟨hnext, hmoves⟩ := hsteps (past ++ before) mid e next hmid' hfirst' hstep ih
    obtain ⟨b', hb', hchain'⟩ := hmoves b hb
    exact ⟨hnext, b', hb', hchain.trans hchain'⟩
  refine ⟨b, hb, hchain, ?_⟩
  intro record recovered hrecord hgate
  rw [NodeHost.anchor, hrecord, Option.bind_some] at hb
  unfold anchorGate at hgate
  rw [hb] at hgate
  cases recovered with
  | none => cases hgate
  | some address =>
      by_cases heq : b = address
      · rw [heq]
      · simp [heq] at hgate

end Rotations

/-! ## An anchor that is lost -/

section Concrete

open Concrete

def userChild : DataDir :=
  directory [{ childId := "u", kind := .user, slot := 0, ethAddress := none }] [row "u" .user 4] []

def userAddress : EthAddress := addressFromPublicKey (ethPublicKey 7)

def registerUser : ControlEvent :=
  .direct io (frame "u" 4 1 (.registerEthAddress
    { address := userAddress
      proof :=
        { signature := ethSign 7 (ethRegistrationDigest "u" userAddress)
          oldAddress := none } })) 150

def rotateUser : ControlEvent :=
  .direct io (frame "u" 4 2 (.registerEthAddress
    { address := addressFromPublicKey (ethPublicKey 8)
      proof :=
        { signature := ethSign 7 (ethRotationDigest "u" userAddress
            (addressFromPublicKey (ethPublicKey 8)))
          oldAddress := some userAddress } })) 150

theorem opened_of_started {disk : DataDir} {c : ControlHost} (h : started disk = some c) :
    c.Opened := by
  obtain ⟨node, hnode, rfl⟩ := Option.map_eq_some_iff.mp h
  have hopen := hnode
  simp only [ControlNode.open_, Option.bind_eq_bind, Option.bind_eq_some_iff] at hnode
  obtain ⟨record, -, peers, -, pending, -, hnode⟩ := hnode
  obtain rfl := Option.some.inj hnode
  exact ⟨opens, true, 100, hopen⟩

/-- A registration and a rotation: the anchor moves, by a proof of the key it replaces. -/
theorem anchor_write_once_rotated :
    ∃ c₀ c : ControlHost, ∃ b, started userChild = some c₀
      ∧ c₀.run [registerUser, rotateUser] = some c ∧ c.host.anchor "u" = some b
      ∧ b ≠ userAddress
      ∧ Relation.ReflTransGen (RotatedIn c₀ [registerUser, rotateUser] "u") userAddress b := by
  have hrun : (started userChild).any (fun c₀ => (c₀.run [registerUser]).any fun c₁ =>
      c₁.host.anchor "u" == some userAddress && (c₁.run [rotateUser]).any fun c =>
        c.host.anchor "u" != some userAddress) = true := by decide +kernel
  simp only [Option.any_eq_true, Bool.and_eq_true, beq_iff_eq, bne_iff_ne] at hrun
  obtain ⟨c₀, hstart, c₁, hfirst, hanchored, c, hlater, hmoved⟩ := hrun
  obtain ⟨b, hb, hchain, -⟩ := anchor_write_once (opened_of_started hstart) hfirst hlater
    hanchored (by
      intro before e rest mid hsplit _ _
      have hmem : e ∈ [registerUser, rotateUser] := by
        rw [show [registerUser, rotateUser] = before ++ e :: rest from hsplit]
        simp
      obtain rfl | hmem := List.mem_cons.mp hmem
      · exact ControlEvent.not_detaches rfl
      · obtain rfl := List.mem_singleton.mp hmem
        exact ControlEvent.not_detaches rfl)
  refine ⟨c₀, c, b, hstart, ?_, hb, ?_, hchain⟩
  · rw [show [registerUser, rotateUser] = [registerUser] ++ [rotateUser] from rfl,
      ControlHost.run_append, hfirst]
    exact hlater
  · intro heq
    rw [heq] at hb
    exact hmoved hb

/-- With its transport key alone, the user leaves, asks to join again, and is approved. -/
def leaveAndReturn : List ControlEvent :=
  [.direct io (frame "u" 4 2 (.exit { node := "u", subtreeNodes := 1 })) 150,
    .direct io (frame "u" 4 3 (.join
      { node := "u", kind := .user, operator := (4 : ℕ), ledger := none
        desiredSlot := none, locationHint := none, nonce := 1, expiry := 200 })) 150,
    .direct io (frame "n" 1 1 (.adminApproveJoin { child := "u", slot := none })) 150]

/-- An anchored user comes back without its anchor, though no frame but the registration names an
address, and the gate accepts an order of it without a signature. -/
theorem anchor_lost :
    ∃ c₀ c₁ c : ControlHost, started userChild = some c₀ ∧ c₀.run [registerUser] = some c₁
      ∧ c₁.host.anchor "u" = some userAddress ∧ c₁.run leaveAndReturn = some c
      ∧ c.host.anchor "u" = none
      ∧ ∃ record, c.host.disk.record = some record ∧ record.lists "u" = true
        ∧ anchorGate record "u" none = .ok () := by
  have hrun : (started userChild).any (fun c₀ => (c₀.run [registerUser]).any fun c₁ =>
      c₁.host.anchor "u" == some userAddress && (c₁.run leaveAndReturn).any fun c =>
        c.host.anchor "u" == none && c.host.disk.record.any fun record =>
          record.lists "u" && (anchorGate record "u" none).toBool) = true := by decide +kernel
  simp only [Option.any_eq_true, Bool.and_eq_true, beq_iff_eq] at hrun
  obtain ⟨c₀, hstart, c₁, hfirst, hanchored, c, hlater, hlost, record, hrecord, hlisted, hgate⟩ :=
    hrun
  obtain ⟨u, hok⟩ := exists_ok_of_toBool hgate
  exact ⟨c₀, c₁, c, hstart, hfirst, hanchored, hlater, hlost, record, hrecord, hlisted, hok⟩

end Concrete

end Cawala
