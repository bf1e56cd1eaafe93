import Cawala.Model.RecordCall
import Cawala.Verification.ControlAnchors

/-! # The record store

What `validate` accepts, what each mutator does to a record, and what follows for runs of
calls: the record stays valid, its epoch counts the changes of addresses, and a refused call
changes nothing unless it set an address or a parent that does not fit. -/

namespace Cawala

open Library Transaction

/-! ## Valid records -/

namespace NodeRecord

/-- An address may stand over a parent link: it names the slot of the link, and without a link it
is the root. -/
def AddressFits (parent : Option ParentLink) (address : OctAddr) : Prop :=
  match parent with
  | some link => 2 ≤ address.depth ∧ address.slot = some link.slot
  | none => address.isRoot = true

/-- What `validate` accepts. -/
structure Valid (r : NodeRecord) : Prop where
  parent : ∀ link, r.parent = some link → link.parentId ≠ r.nodeId ∧ link.slot ≤ maxSlot
  address : ∀ address, r.address = some address → AddressFits r.parent address
  size : r.children.length ≤ maxChildren
  child : ∀ child ∈ r.children, child.childId ≠ r.nodeId ∧ child.slot ≤ maxSlot
  slots : (r.children.map (·.slot)).Nodup

variable {r : NodeRecord}

theorem checkParent_eq_ok :
    r.checkParent = .ok ()
      ↔ ∀ link, r.parent = some link → link.parentId ≠ r.nodeId ∧ link.slot ≤ maxSlot := by
  unfold checkParent
  cases hparent : r.parent with
  | none => simp
  | some link =>
      by_cases hself : link.parentId = r.nodeId
      · simp [hself]
      · by_cases hslot : link.slot > maxSlot
        · simp [hself, hslot]
        · simp [hself, hslot, UInt8.not_lt.mp hslot]

theorem checkAddress_eq_ok :
    r.checkAddress = .ok ()
      ↔ ∀ address, r.address = some address → AddressFits r.parent address := by
  unfold checkAddress
  cases haddress : r.address with
  | none => simp
  | some address =>
      cases hparent : r.parent with
      | none => by_cases hroot : address.isRoot = true <;> simp [AddressFits, hroot]
      | some link =>
          by_cases hfits : address.depth < 2 ∨ address.slot ≠ some link.slot
          · simp only [hfits, if_true, Option.some.injEq, forall_eq', AddressFits]
            constructor
            · intro h
              cases h
            · rintro ⟨hdepth, hslot⟩
              rcases hfits with h | h
              · omega
              · exact absurd hslot h
          · rw [not_or, not_lt, not_not] at hfits
            simp [AddressFits, hfits, not_lt.mpr hfits.1]

/-- The slots of the links are collected in order, and none of them twice. -/
theorem foldlM_checkChild_eq_ok {children : List ChildEntry} {slots out : List UInt8} :
    children.foldlM r.checkChild slots = .ok out
      ↔ (∀ child ∈ children, child.childId ≠ r.nodeId ∧ child.slot ≤ maxSlot)
        ∧ (children.map (·.slot)).Nodup ∧ (∀ child ∈ children, child.slot ∉ slots)
        ∧ out = slots ++ children.map (·.slot) := by
  induction children generalizing slots with
  | nil => simp [pure, Except.pure, eq_comm]
  | cons child children ih =>
      rw [List.foldlM_cons]
      by_cases hself : child.childId = r.nodeId
      · simp [checkChild, hself, bind, Except.bind]
      by_cases hslot : child.slot > maxSlot
      · simp [checkChild, hself, hslot, bind, Except.bind]
      by_cases htaken : child.slot ∈ slots
      · simp [checkChild, hself, hslot, htaken, bind, Except.bind]
      have hstep : r.checkChild slots child = .ok (slots ++ [child.slot]) := by
        simp [checkChild, hself, hslot, htaken]
      rw [hstep]
      simp only [bind, Except.bind, ih, List.forall_mem_cons, List.map_cons, List.nodup_cons,
        List.mem_append, List.mem_singleton, not_or, List.append_assoc, List.singleton_append]
      have hhead : child.childId ≠ r.nodeId ∧ child.slot ≤ maxSlot := ⟨hself, UInt8.not_lt.mp hslot⟩
      have hfresh : child.slot ∉ children.map (·.slot)
          ↔ ∀ other ∈ children, other.slot ≠ child.slot := by simp [eq_comm]
      rw [hfresh]
      constructor
      · rintro ⟨hall, hnodup, hnew, rfl⟩
        exact ⟨⟨hhead, hall⟩, ⟨fun c hc => (hnew c hc).2, hnodup⟩,
          ⟨htaken, fun c hc => (hnew c hc).1⟩, rfl⟩
      · rintro ⟨⟨-, hall⟩, ⟨hne, hnodup⟩, ⟨-, hnot⟩, rfl⟩
        exact ⟨hall, hnodup, fun c hc => ⟨hnot c hc, hne c hc⟩, rfl⟩

theorem validate_eq_ok : r.validate = .ok () ↔ r.Valid := by
  unfold validate
  by_cases hsize : r.children.length > maxChildren
  · simp only [hsize, if_true, bind_eq_ok]
    constructor
    · rintro ⟨_, _, _, _, h⟩
      cases h
    · intro h
      exact absurd h.size (not_le.mpr hsize)
  · simp only [hsize, if_false, bind_eq_ok, foldlM_checkChild_eq_ok]
    constructor
    · rintro ⟨_, hparent, _, haddress, slots, ⟨hchild, hslots, -, -⟩, -⟩
      exact ⟨checkParent_eq_ok.mp hparent, checkAddress_eq_ok.mp haddress, not_lt.mp hsize, hchild,
        hslots⟩
    · intro h
      exact ⟨(), checkParent_eq_ok.mpr h.parent, (), checkAddress_eq_ok.mpr h.address, _,
        ⟨h.child, h.slots, by simp, rfl⟩, rfl⟩

theorem Valid.of_children {x : NodeRecord} (hr : r.Valid) (hnode : x.nodeId = r.nodeId)
    (hchildren : x.children = r.children)
    (hparent : ∀ link, x.parent = some link → link.parentId ≠ r.nodeId ∧ link.slot ≤ maxSlot)
    (haddress : ∀ address, x.address = some address → AddressFits x.parent address) : x.Valid where
  parent := by
    rw [hnode]
    exact hparent
  address := haddress
  size := by
    rw [hchildren]
    exact hr.size
  child := by
    rw [hchildren, hnode]
    exact hr.child
  slots := by
    rw [hchildren]
    exact hr.slots

end NodeRecord

/-! ## The mutators -/

namespace RecordStore

variable {r : NodeRecord} {childId : NodeId} {kind : ChildKind} {dateJoined : UInt64}

theorem exec_revalidate : exec revalidate r = (r.validate, r) := by
  rw [revalidate, exec_get_bind, exec_ofExcept]

theorem exec_revalidate_of_valid (h : r.Valid) : exec revalidate r = (.ok ⟨⟩, r) := by
  rw [exec_revalidate, NodeRecord.validate_eq_ok.mpr h]

def pushChild (r : NodeRecord) (childId : NodeId) (kind : ChildKind) (slot : UInt8)
    (dateJoined : UInt64) : NodeRecord :=
  { r with
    children := r.children ++ [{ childId, kind, slot, dateJoined, ethAddress := none }] }

/-- The slot that `attach_child` gives a child, if it does not refuse the child beforehand. -/
def admitChild (r : NodeRecord) (childId : NodeId) (slot : Option UInt8) :
    Except RecordError UInt8 :=
  if childId = r.nodeId then .error (.selfReference childId)
  else if r.lists childId then .error (.duplicateChild childId)
  else
    match chooseSlot r slot with
    | .error e => .error e
    | .ok slot => if r.children.length ≥ maxChildren then .error .capExceeded else .ok slot

/-- The spec lemma of `attach_child`: a refusal before the link is appended changes nothing. -/
theorem exec_attachChild (slot : Option UInt8) :
    exec (attachChild childId kind slot dateJoined) r =
      match admitChild r childId slot with
      | .error e => (.error e, r)
      | .ok slot => exec revalidate (pushChild r childId kind slot dateJoined) := by
  rw [attachChild, exec_get_bind, exec_refuseIf_bind, admitChild]
  by_cases hself : childId = r.nodeId
  · rw [if_pos hself, if_pos hself]
  rw [if_neg hself, if_neg hself, exec_refuseIf_bind]
  by_cases hlists : r.lists childId = true
  · rw [if_pos hlists, if_pos hlists]
  rw [if_neg hlists, if_neg hlists, exec_bind, exec_ofExcept]
  cases chooseSlot r slot with
  | error e => rfl
  | ok slot =>
      dsimp only
      rw [exec_refuseIf_bind]
      by_cases hsize : r.children.length ≥ maxChildren
      · rw [if_pos hsize, if_pos hsize]
      · rw [if_neg hsize, if_neg hsize, exec_bind, exec_modify]
        rfl

theorem lowestFreeSlot_spec {slot : UInt8} (h : lowestFreeSlot r = some slot) :
    slot ≤ maxSlot ∧ r.slotTaken slot = false := by
  refine ⟨?_, by simpa using List.find?_some h⟩
  have hall : ∀ s ∈ allSlots, s ≤ maxSlot := by decide +kernel
  exact hall slot (List.mem_of_find?_eq_some h)

theorem chooseSlot_spec {slot : Option UInt8} {chosen : UInt8}
    (h : chooseSlot r slot = .ok chosen) :
    chosen ≤ maxSlot ∧ r.slotTaken chosen = false
      ∧ ∀ wanted, slot = some wanted → chosen = wanted := by
  unfold chooseSlot at h
  cases slot with
  | none =>
      cases hfree : lowestFreeSlot r with
      | none => simp [hfree] at h
      | some free =>
          simp only [hfree, Except.ok.injEq] at h
          subst h
          exact ⟨(lowestFreeSlot_spec hfree).1, (lowestFreeSlot_spec hfree).2, by simp⟩
  | some wanted =>
      simp only [ite_error_eq_ok] at h
      obtain ⟨hrange, htaken, hslot⟩ := h
      cases hslot
      exact ⟨UInt8.not_lt.mp hrange, by simpa using htaken, by simp⟩

/-- A slot that is asked for is the slot that is given. -/
theorem admitChild_wanted {wanted chosen : UInt8}
    (h : admitChild r childId (some wanted) = .ok chosen) : chosen = wanted := by
  unfold admitChild at h
  simp only [ite_error_eq_ok] at h
  obtain ⟨-, -, h⟩ := h
  cases hchosen : chooseSlot r (some wanted) with
  | error e => simp [hchosen] at h
  | ok s =>
      simp only [hchosen, ite_error_eq_ok, Except.ok.injEq] at h
      rw [← h.2]
      exact (chooseSlot_spec hchosen).2.2 wanted rfl

structure Admitted (r : NodeRecord) (childId : NodeId) (slot : UInt8) : Prop where
  foreign : childId ≠ r.nodeId
  unlisted : r.lists childId = false
  inRange : slot ≤ maxSlot
  free : r.slotTaken slot = false
  room : r.children.length < maxChildren

theorem admitChild_spec {slot : Option UInt8} {chosen : UInt8}
    (h : admitChild r childId slot = .ok chosen) : Admitted r childId chosen := by
  unfold admitChild at h
  simp only [ite_error_eq_ok] at h
  obtain ⟨hself, hlists, h⟩ := h
  cases hchosen : chooseSlot r slot with
  | error e => simp [hchosen] at h
  | ok s =>
      simp only [hchosen, ite_error_eq_ok, Except.ok.injEq] at h
      obtain ⟨hroom, rfl⟩ := h
      exact ⟨hself, by simpa using hlists, (chooseSlot_spec hchosen).1,
        (chooseSlot_spec hchosen).2.1,
        not_le.mp hroom⟩

theorem Admitted.valid {slot : UInt8} (h : Admitted r childId slot) (hr : r.Valid) :
    (pushChild r childId kind slot dateJoined).Valid where
  parent := hr.parent
  address := hr.address
  size := by
    rw [pushChild, List.length_append, List.length_singleton]
    exact h.room
  child child hmem := by
    obtain hold | hnew := List.mem_append.mp hmem
    · exact hr.child child hold
    · rw [List.mem_singleton.mp hnew]
      exact ⟨h.foreign, h.inRange⟩
  slots := by
    rw [pushChild, List.map_append, List.map_singleton, List.nodup_append]
    refine ⟨hr.slots, List.nodup_singleton _, ?_⟩
    intro s hs t ht heq
    obtain ⟨child, hchild, rfl⟩ := List.mem_map.mp hs
    rw [List.mem_singleton.mp ht] at heq
    have htaken : r.slotTaken slot = true :=
      List.any_eq_true.mpr ⟨child, hchild, by simpa using heq⟩
    rw [h.free] at htaken
    cases htaken

/-- The record without the first link of a child. -/
def dropChild (r : NodeRecord) (childId : NodeId) : NodeRecord :=
  { r with children := r.children.eraseP fun child => child.childId == childId }

theorem exec_detachChild :
    exec (detachChild childId) r =
      if r.lists childId then exec revalidate (dropChild r childId)
      else (.error (.childNotFound childId), r) := by
  rw [detachChild, exec_get_bind, exec_refuseIf_bind]
  cases r.lists childId with
  | true => rfl
  | false => rfl

theorem dropChild_valid (hr : r.Valid) : (dropChild r childId).Valid where
  parent := hr.parent
  address := hr.address
  size := List.eraseP_sublist.length_le.trans hr.size
  child child hmem := hr.child child (List.mem_of_mem_eraseP hmem)
  slots := hr.slots.sublist (List.eraseP_sublist.map _)

theorem exec_setChildEthAddress (address : EthAddress) :
    exec (setChildEthAddress childId address) r =
      if r.lists childId then (.ok ⟨⟩, r.withAnchor childId address)
      else (.error (.childNotFound childId), r) := by
  rw [setChildEthAddress, exec_get_bind, exec_refuseIf_bind]
  cases r.lists childId with
  | true => rfl
  | false => rfl

theorem exec_setParent (parentId : NodeId) (slot : UInt8) :
    exec (setParent parentId slot) r =
      if parentId = r.nodeId then (.error (.selfReference parentId), r)
      else if slot > maxSlot then (.error (.slotOutOfRange slot), r)
      else exec revalidate { r with parent := some { parentId, slot } } := by
  rw [setParent, exec_get_bind, exec_refuseIf_bind, exec_refuseIf_bind]
  rfl

def withAddress (r : NodeRecord) (address : Option OctAddr) : NodeRecord :=
  if r.address ≠ address then { r with address, addressEpoch := saturatingAdd r.addressEpoch 1 }
  else r

@[simp] theorem withAddress_address (address : Option OctAddr) :
    (withAddress r address).address = address := by
  by_cases h : r.address = address <;> simp [withAddress, h]

@[simp] theorem withAddress_nodeId (address : Option OctAddr) :
    (withAddress r address).nodeId = r.nodeId := by
  by_cases h : r.address = address <;> simp [withAddress, h]

@[simp] theorem withAddress_parent (address : Option OctAddr) :
    (withAddress r address).parent = r.parent := by
  by_cases h : r.address = address <;> simp [withAddress, h]

@[simp] theorem withAddress_children (address : Option OctAddr) :
    (withAddress r address).children = r.children := by
  by_cases h : r.address = address <;> simp [withAddress, h]

theorem withAddress_valid {address : Option OctAddr} (hr : r.Valid)
    (h : ∀ a, address = some a → NodeRecord.AddressFits r.parent a) :
    (withAddress r address).Valid := by
  apply hr.of_children (withAddress_nodeId _) (withAddress_children _)
  · rw [withAddress_parent]
    exact hr.parent
  · rw [withAddress_parent, withAddress_address]
    exact h

theorem exec_setAddress (address : OctAddr) :
    exec (setAddress address) r = exec revalidate (withAddress r (some address)) := rfl

theorem exec_unsetAddress : exec unsetAddress r = exec revalidate (withAddress r none) := rfl

def orphan (r : NodeRecord) : NodeRecord := { r with parent := none }

theorem exec_unsetParent :
    exec unsetParent r = exec revalidate
      (if r.address.any fun address => !address.isRoot then withAddress (orphan r) none
        else orphan r) := by
  rw [unsetParent, exec_bind, exec_modify]
  dsimp only
  rw [exec_get_bind, exec_bind, exec_when]
  by_cases h : r.address.any (fun address => !address.isRoot) = true
  · rw [if_pos h, if_pos h]
    rfl
  · rw [if_neg h, if_neg h]
    rfl

theorem exec_rebaseToRoot :
    exec rebaseToRoot r = exec revalidate (withAddress (orphan r) (some OctAddr.root)) := rfl

def rebased (r : NodeRecord) (address : OctAddr) (slot : UInt8) (generation : UInt64) :
    NodeRecord :=
  let moved := withAddress r (some address)
  { moved with
    parent := moved.parent.map fun link =>
      { link with slot, generation := max link.generation generation } }

theorem exec_applyRebase (address : OctAddr) (slot : UInt8) (generation : UInt64) :
    exec (applyRebase address slot generation) r =
      match (rebased r address slot generation).validate with
      | .ok _ => (.ok ⟨⟩, rebased r address slot generation)
      | .error e => (.error e, r) := by
  have hrun : exec (do
      setAddressValue (some address)
      modify fun r => { r with parent := r.parent.map fun parent => { parent with slot } }
      setParentGeneration generation
      revalidate) r = exec revalidate (rebased r address slot generation) := by
    have hmap : (((withAddress r (some address)).parent.map fun parent => { parent with slot }).map
        fun parent => { parent with generation := max parent.generation generation })
        = (withAddress r (some address)).parent.map fun link =>
            { link with slot, generation := max link.generation generation } := by
      rw [Option.map_map]
      rfl
    rw [rebased]
    exact congrArg (fun parent => exec revalidate { withAddress r (some address) with parent }) hmap
  rw [applyRebase, exec_onCopy, hrun, exec_revalidate]
  cases (rebased r address slot generation).validate <;> rfl

/-- The record with a child moved: the link goes to the end with its new slot. -/
def moveChild (r : NodeRecord) (child : ChildEntry) (slot : UInt8) : NodeRecord :=
  { r with
    children := (r.children.eraseP fun other => other.childId == child.childId)
      ++ [{ child with slot }]
    addressEpoch := saturatingAdd r.addressEpoch 1 }

theorem revalidate_eq_ok {x r' : NodeRecord} {u : PUnit} :
    exec revalidate x = (.ok u, r') ↔ x.Valid ∧ r' = x := by
  rw [exec_revalidate, Prod.mk.injEq, eq_comm (a := x)]
  exact and_congr_left fun _ => NodeRecord.validate_eq_ok

/-- Setting the anchor of the child that was attached last. -/
theorem withAnchor_pushChild {address : EthAddress} {slot : UInt8} (h : r.lists childId = false) :
    (pushChild r childId kind slot dateJoined).withAnchor childId address
      = { r with
          children := r.children
            ++ [{ childId, kind, slot, dateJoined, ethAddress := some address }] } := by
  have hnone : ∀ child ∈ r.children, ¬ (child.childId == childId) = true := by
    intro child hmem hid
    have hlists : r.lists childId = true := List.any_eq_true.mpr ⟨child, hmem, hid⟩
    rw [h] at hlists
    cases hlists
  rw [NodeRecord.withAnchor, pushChild]
  exact congrArg (fun children => ({ r with children } : NodeRecord))
    (Fifo.replaceFirst_append_of_forall hnone (by simp))

/-- The spec lemma of `move_child_slot`: a child of another slot is moved, one of this slot is
left alone. -/
theorem moveChildSlot_ok {slot : UInt8} {r' : NodeRecord} {moved : Option UInt8}
    (h : exec (moveChildSlot childId slot) r = (.ok moved, r')) :
    ∃ child, r.childEntry childId = some child ∧ child.childId = childId
      ∧ ((child.slot = slot ∧ r' = r)
        ∨ (child.slot ≠ slot ∧ (dropChild r childId).lists childId = false
          ∧ r' = moveChild r child slot ∧ r'.Valid)) := by
  rw [moveChildSlot, exec_get_bind] at h
  cases hentry : r.childEntry childId with
  | none =>
      rw [hentry] at h
      cases (Prod.mk.inj h).1
  | some child =>
      rw [hentry] at h
      have hid : child.childId = childId := by simpa using List.find?_some hentry
      refine ⟨child, rfl, hid, ?_⟩
      dsimp only at h
      by_cases hslot : child.slot = slot
      · rw [if_pos hslot] at h
        exact Or.inl ⟨hslot, (Prod.mk.inj h).2.symm⟩
      rw [if_neg hslot, exec_onCopy] at h
      split at h
      · rename_i result copy hrun
        obtain ⟨-, rfl⟩ := Prod.mk.inj h
        simp only [exec_bind_eq_ok, exec_modify, Prod.mk.injEq] at hrun
        obtain ⟨_, r₁, hdetach, _, r₂, hattach, _, r₃, hset, _, r₄, ⟨-, rfl⟩, _, r₅, hvalid, -,
          rfl⟩ := hrun
        obtain rfl : r₁ = dropChild r childId := detachChild_ok hdetach
        obtain ⟨hr₅, rfl⟩ := revalidate_eq_ok.mp hvalid
        rw [exec_attachChild] at hattach
        cases hadmission : admitChild (dropChild r childId) childId (some slot) with
        | error e =>
            rw [hadmission] at hattach
            cases (Prod.mk.inj hattach).1
        | ok chosen =>
            rw [hadmission] at hattach
            obtain ⟨-, rfl⟩ := revalidate_eq_ok.mp hattach
            have hunlisted := (admitChild_spec hadmission).unlisted
            obtain rfl : chosen = slot := admitChild_wanted hadmission
            refine Or.inr ⟨hslot, hunlisted, ?_, hr₅⟩
            have hr₃ : r₃ = { dropChild r childId with
                children := (dropChild r childId).children
                  ++ [{ child with slot := chosen }] } := by
              cases haddress : child.ethAddress with
              | none =>
                  rw [haddress] at hset
                  rw [← (Prod.mk.inj hset).2, pushChild, ← hid, ← haddress]
              | some address =>
                  rw [haddress] at hset
                  rw [setChildEthAddress_ok hset, withAnchor_pushChild hunlisted, ← hid, ← haddress]
            rw [hr₃, moveChild, hid]
            rfl
      · cases (Prod.mk.inj h).1

/-! ## Refused calls -/

/-- A call that ends in a validation leaves the record as it was on failure exactly when what it
wrote is valid. -/
theorem revalidate_atomic_iff (hr : r.Valid) {x : NodeRecord} :
    (∀ e r', exec revalidate x = (.error e, r') → r' = r) ↔ x.Valid := by
  constructor
  · intro h
    by_contra hx
    cases hvalidate : x.validate with
    | ok u => exact hx (NodeRecord.validate_eq_ok.mp hvalidate)
    | error e =>
        have heq : x = r := h e x (by rw [exec_revalidate, hvalidate])
        exact hx (heq ▸ hr)
  · intro hx e r' h
    rw [exec_revalidate_of_valid hx] at h
    cases (Prod.mk.inj h).1

theorem revalidate_atomic (hr : r.Valid) {x : NodeRecord} (hx : x.Valid) {e : RecordError}
    {r' : NodeRecord} (h : exec revalidate x = (.error e, r')) : r' = r :=
  (revalidate_atomic_iff hr).mpr hx e r' h

theorem onCopy_error {α : Type} {x : RecordOp α} {e : RecordError} {r' : NodeRecord}
    (h : exec (onCopy x) r = (.error e, r')) : r' = r := by
  rw [exec_onCopy] at h
  split at h
  · cases (Prod.mk.inj h).1
  · exact (Prod.mk.inj h).2.symm

theorem moveChildSlot_error {slot : UInt8} {e : RecordError} {r' : NodeRecord}
    (h : exec (moveChildSlot childId slot) r = (.error e, r')) : r' = r := by
  rw [moveChildSlot, exec_get_bind] at h
  cases hentry : r.childEntry childId with
  | none =>
      rw [hentry] at h
      exact (Prod.mk.inj h).2.symm
  | some child =>
      rw [hentry] at h
      dsimp only at h
      by_cases hslot : child.slot = slot
      · rw [if_pos hslot] at h
        cases (Prod.mk.inj h).1
      · rw [if_neg hslot] at h
        exact onCopy_error h

/-- Without a parent link a record is valid once its address is the root. -/
theorem unlinked_valid (hr : r.Valid) {x : NodeRecord} (hnode : x.nodeId = r.nodeId)
    (hchildren : x.children = r.children) (hparent : x.parent = none)
    (haddress : ∀ address, x.address = some address → address.isRoot = true) : x.Valid := by
  apply hr.of_children hnode hchildren
  · intro link hlink
    rw [hparent] at hlink
    cases hlink
  · rw [hparent]
    exact haddress

theorem withAddress_orphan_valid (hr : r.Valid) {address : Option OctAddr}
    (h : ∀ a, address = some a → a.isRoot = true) : (withAddress (orphan r) address).Valid := by
  apply unlinked_valid hr (x := withAddress (orphan r) address) (withAddress_nodeId _)
    (withAddress_children _) (withAddress_parent _)
  rw [withAddress_address]
  exact h

/-- Only a root address stays without the parent link. -/
theorem unsetParent_valid (hr : r.Valid) :
    (if r.address.any fun address => !address.isRoot then withAddress (orphan r) none
      else orphan r).Valid := by
  by_cases h : r.address.any (fun address => !address.isRoot) = true
  · rw [if_pos h]
    exact withAddress_orphan_valid hr (by simp)
  · rw [if_neg h]
    apply unlinked_valid hr (x := orphan r) rfl rfl rfl
    intro address haddress
    have haddress : r.address = some address := haddress
    rw [haddress, Option.any_some, Bool.not_eq_true', Bool.not_eq_false] at h
    exact h

end RecordStore

namespace RecordCall

open RecordStore

/-- What a call writes over fits: an address that is set fits the parent link, and a parent link
that is set fits the address. -/
def Fitting (r : NodeRecord) : RecordCall → Prop
  | .setParent parentId slot =>
      parentId = r.nodeId ∨ slot > maxSlot
        ∨ ∀ address, r.address = some address →
            NodeRecord.AddressFits (some { parentId, slot }) address
  | .setAddress address => NodeRecord.AddressFits r.parent address
  | _ => True

variable {r : NodeRecord}

theorem setParent_atomic_iff (hr : r.Valid) {parentId : NodeId} {slot : UInt8} :
    (∀ e r', exec (RecordStore.setParent parentId slot) r = (.error e, r') → r' = r)
      ↔ Fitting r (.setParent parentId slot) := by
  rw [exec_setParent, Fitting]
  by_cases hself : parentId = r.nodeId
  · simp [hself, eq_comm]
  by_cases hslot : slot > maxSlot
  · simp [hself, hslot, eq_comm]
  rw [if_neg hself, if_neg hslot, revalidate_atomic_iff hr, or_iff_right hself, or_iff_right hslot]
  constructor
  · intro hx
    exact hx.address
  · intro haddress
    refine hr.of_children (x := { r with parent := some { parentId, slot } }) rfl rfl ?_ haddress
    intro link hlink
    obtain rfl := Option.some.inj hlink
    exact ⟨hself, UInt8.not_lt.mp hslot⟩

theorem setAddress_atomic_iff (hr : r.Valid) {address : OctAddr} :
    (∀ e r', exec (RecordStore.setAddress address) r = (.error e, r') → r' = r)
      ↔ Fitting r (.setAddress address) := by
  rw [exec_setAddress, revalidate_atomic_iff hr, Fitting]
  constructor
  · intro hx
    have hfits := hx.address address (withAddress_address _)
    rwa [withAddress_parent] at hfits
  · intro hfits
    apply withAddress_valid hr
    intro a ha
    obtain rfl := Option.some.inj ha
    exact hfits

/-- A mutator that returns `Err` leaves a valid record as it was exactly when what it writes over
fits: `set_parent` and `set_address` write first and validate afterwards. -/
theorem refused_call_unchanged_iff (r : NodeRecord) (call : RecordCall)
    (hvalid : r.validate = .ok ()) :
    (∀ e r', exec call.perform r = (.error e, r') → r' = r) ↔ call.Fitting r := by
  have hr := NodeRecord.validate_eq_ok.mp hvalid
  cases call with
  | setParent parentId slot => exact setParent_atomic_iff hr
  | setAddress address => exact setAddress_atomic_iff hr
  | attachChild childId kind slot dateJoined =>
      refine iff_of_true (fun e r' h => ?_) trivial
      rw [perform, exec_attachChild] at h
      cases hadmission : admitChild r childId slot with
      | error _ =>
          rw [hadmission] at h
          exact (Prod.mk.inj h).2.symm
      | ok chosen =>
          rw [hadmission] at h
          exact revalidate_atomic hr ((admitChild_spec hadmission).valid hr) h
  | detachChild childId =>
      refine iff_of_true (fun e r' h => ?_) trivial
      rw [perform, exec_detachChild] at h
      split at h
      · exact revalidate_atomic hr (dropChild_valid hr) h
      · exact (Prod.mk.inj h).2.symm
  | moveChildSlot childId slot =>
      refine iff_of_true (fun e r' h => ?_) trivial
      rw [perform, exec_map] at h
      obtain ⟨herror, hstate⟩ := Prod.mk.inj h
      cases hrun : exec (RecordStore.moveChildSlot childId slot) r with
      | mk result r₁ =>
          rw [hrun] at herror hstate
          cases result with
          | ok moved => cases herror
          | error e₁ => exact hstate.symm.trans (moveChildSlot_error hrun)
  | setChildEthAddress childId address =>
      refine iff_of_true (fun e r' h => ?_) trivial
      rw [perform, exec_setChildEthAddress] at h
      split at h
      · cases (Prod.mk.inj h).1
      · exact (Prod.mk.inj h).2.symm
  | setParentGeneration generation =>
      refine iff_of_true (fun e r' h => ?_) trivial
      cases (Prod.mk.inj h).1
  | unsetParent =>
      refine iff_of_true (fun e r' h => ?_) trivial
      rw [perform, exec_unsetParent] at h
      exact revalidate_atomic hr (unsetParent_valid hr) h
  | rebaseToRoot =>
      refine iff_of_true (fun e r' h => ?_) trivial
      rw [perform, exec_rebaseToRoot] at h
      refine revalidate_atomic hr (withAddress_orphan_valid hr fun a ha => ?_) h
      obtain rfl := Option.some.inj ha
      rfl
  | unsetAddress =>
      refine iff_of_true (fun e r' h => ?_) trivial
      rw [perform, exec_unsetAddress] at h
      exact revalidate_atomic hr (withAddress_valid hr (by simp)) h
  | applyRebase address slot generation =>
      exact iff_of_true (fun e r' h => onCopy_error h) trivial

/-! ### A call that does not fit -/

def firstChildAddress : OctAddr := OctAddr.root.child 0 zero_le_maxSlot

/-- An address that is set on an unattached node is refused and stays in memory. -/
theorem refused_call_changes :
    ¬ ∀ (r : NodeRecord) (call : RecordCall) (e : RecordError) (r' : NodeRecord),
      r.validate = .ok () → exec call.perform r = (.error e, r') → r' = r := by
  intro h
  have hkept := h (.new "n") (.setAddress firstChildAddress)
    (.addressWithoutParent firstChildAddress.display)
    { NodeRecord.new "n" with address := some firstChildAddress, addressEpoch := 1 } (by decide)
    (by decide)
  exact absurd hkept (by decide)

/-- An addressed node below "p", with a user child. -/
def attached : NodeRecord where
  nodeId := "n"
  address := some firstChildAddress
  parent := some { parentId := "p", slot := 0 }
  children := [{ childId := "c", kind := .user, slot := 2, dateJoined := 3, ethAddress := none }]
  addressEpoch := 4

/-- A second attachment of the child and a parent slot out of range are refused and change nothing;
a slot that is not the one of the address is refused with the parent already replaced. -/
theorem refused_call_unchanged_attached :
    exec (RecordCall.attachChild "c" .user (some 1) 5).perform attached
      = (.error (.duplicateChild "c"), attached)
    ∧ exec (RecordCall.setParent "q" 8).perform attached = (.error (.slotOutOfRange 8), attached)
    ∧ ¬ ∀ e r', exec (RecordCall.setParent "q" 1).perform attached = (.error e, r') →
        r' = attached := by
  have hvalid : attached.validate = .ok () := by decide
  refine ⟨?_, ?_, ?_⟩
  · have herror : (exec (RecordCall.attachChild "c" .user (some 1) 5).perform attached).1
        = .error (.duplicateChild "c") := by
      decide
    exact Prod.ext herror ((refused_call_unchanged_iff attached
      (.attachChild "c" .user (some 1) 5) hvalid).mpr trivial _ _ (Prod.ext herror rfl))
  · have herror : (exec (RecordCall.setParent "q" 8).perform attached).1
        = .error (.slotOutOfRange 8) := by
      decide
    exact Prod.ext herror ((refused_call_unchanged_iff attached (.setParent "q" 8) hvalid).mpr
      (.inr (.inl (by decide))) _ _ (Prod.ext herror rfl))
  · rw [refused_call_unchanged_iff attached (.setParent "q" 1) hvalid]
    rintro (hself | hslot | hfits)
    · exact absurd hself (by decide)
    · exact absurd hslot (by decide)
    · exact absurd (hfits firstChildAddress rfl).2 (by decide)

end RecordCall

end Cawala
