import Cawala.Verification.RebaseOrder
import Cawala.Verification.RecordStore

/-! # Runs of the record store

What every call that returns `Ok` keeps of a record, and what it does to the address epoch, the
generation of the parent link and the children. -/

namespace Cawala

open Library Transaction

/-! ## The laws of a call -/

/-- What holds of the record of a store. -/
structure NodeRecord.WellFormed (r : NodeRecord) : Prop where
  valid : r.validate = .ok ()
  ids : (r.children.map (·.childId)).Nodup
  slots : (r.children.map (·.slot)).Nodup
  inRange : ∀ child ∈ r.children, child.slot ≤ maxSlot

theorem NodeRecord.wellFormed_iff {r : NodeRecord} :
    r.WellFormed ↔ r.Valid ∧ (r.children.map (·.childId)).Nodup := by
  constructor
  · intro h
    exact ⟨NodeRecord.validate_eq_ok.mp h.valid, h.ids⟩
  · rintro ⟨hvalid, hids⟩
    exact ⟨NodeRecord.validate_eq_ok.mpr hvalid, hids, hvalid.slots,
      fun child hmem => (hvalid.child child hmem).2⟩

def Reslotted (r r' : NodeRecord) : Prop :=
  ∃ child ∈ r.children, ∃ child' ∈ r'.children,
    child'.childId = child.childId ∧ child'.slot ≠ child.slot

/-- The node's own address or the slot of a child changes. -/
def Readdressed (r r' : NodeRecord) : Prop := r'.address ≠ r.address ∨ Reslotted r r'

/-- The epoch counts the changes of addresses. -/
structure EpochLaw (r r' : NodeRecord) : Prop where
  counted : Readdressed r r' → r.addressEpoch.toNat < 2 ^ 64 - 1 →
    r'.addressEpoch.toNat = r.addressEpoch.toNat + 1
  kept : ¬ Readdressed r r' → r'.addressEpoch = r.addressEpoch

/-- The parent link names the same parent, and its generation has not fallen. -/
def GenerationRises (r r' : NodeRecord) : Prop :=
  ∀ link', r'.parent = some link' → ∃ link, r.parent = some link
    ∧ link'.parentId = link.parentId ∧ link.generation ≤ link'.generation

def OnlyMoved (childId : NodeId) (slot : UInt8) (r r' : NodeRecord) : Prop :=
  (∃ child ∈ r.children, child.childId = childId ∧ { child with slot } ∈ r'.children)
    ∧ (r'.children.filter fun child => !(child.childId == childId))
      = r.children.filter fun child => !(child.childId == childId)

/-- What one call that returns `Ok` does to the record. -/
structure RecordCall.Lawful (call : RecordCall) (r r' : NodeRecord) : Prop where
  epoch : EpochLaw r r'
  generation : (∀ parentId slot, call ≠ .setParent parentId slot) → GenerationRises r r'
  moved : ∀ childId slot, call = .moveChildSlot childId slot → OnlyMoved childId slot r r'

/-! ## The epoch -/

section Epoch

variable {r r' : NodeRecord}

theorem saturatingAdd_one_toNat {a : UInt64} (h : a.toNat < 2 ^ 64 - 1) :
    (saturatingAdd a 1).toNat = a.toNat + 1 := by
  have hone : (1 : UInt64).toNat = 1 := rfl
  have hlt : a.toNat + (1 : UInt64).toNat < 2 ^ 64 := by omega
  rw [saturatingAdd, if_pos hlt, UInt64.toNat_add, hone, Nat.mod_eq_of_lt (by omega)]

theorem eq_of_childId {children : List ChildEntry} (hids : (children.map (·.childId)).Nodup)
    {a b : ChildEntry} (ha : a ∈ children) (hb : b ∈ children) (h : a.childId = b.childId) :
    a = b :=
  List.inj_on_of_nodup_map hids ha hb h

theorem not_reslotted (hids : (r.children.map (·.childId)).Nodup)
    (h : ∀ child' ∈ r'.children, (∀ child ∈ r.children, child.childId ≠ child'.childId)
      ∨ ∃ child ∈ r.children, child.childId = child'.childId ∧ child.slot = child'.slot) :
    ¬ Reslotted r r' := by
  rintro ⟨child, hchild, child', hchild', hid, hslot⟩
  obtain hnew | ⟨old, hold, hidOld, hslotOld⟩ := h child' hchild'
  · exact hnew child hchild hid.symm
  · obtain rfl := eq_of_childId hids hold hchild (hidOld.trans hid)
    exact hslot hslotOld.symm

theorem not_reslotted_of_subset (hids : (r.children.map (·.childId)).Nodup)
    (h : ∀ child' ∈ r'.children, child' ∈ r.children) : ¬ Reslotted r r' :=
  not_reslotted hids fun child' hmem => Or.inr ⟨child', h child' hmem, rfl, rfl⟩

theorem EpochLaw.of_kept (haddress : r'.address = r.address) (hslots : ¬ Reslotted r r')
    (hepoch : r'.addressEpoch = r.addressEpoch) : EpochLaw r r' where
  counted h _ := by
    rcases h with h | h
    · exact absurd haddress h
    · exact absurd h hslots
  kept _ := hepoch

theorem EpochLaw.of_withAddress (hids : (r.children.map (·.childId)).Nodup)
    {address : Option OctAddr} (hchildren : r'.children = r.children)
    (haddress : r'.address = address)
    (hepoch : r'.addressEpoch = (RecordStore.withAddress r address).addressEpoch) :
    EpochLaw r r' := by
  have hslots : ¬ Reslotted r r' :=
    not_reslotted_of_subset hids fun child' hmem => hchildren ▸ hmem
  by_cases h : r.address = address
  · apply EpochLaw.of_kept (haddress.trans h.symm) hslots
    rw [hepoch, RecordStore.withAddress, if_neg (not_not.mpr h)]
  · rw [RecordStore.withAddress, if_pos h] at hepoch
    constructor
    · intro _ hlt
      rw [hepoch]
      exact saturatingAdd_one_toNat hlt
    · intro hnot
      refine absurd (Or.inl ?_) hnot
      rw [haddress]
      exact fun heq => h heq.symm

end Epoch

theorem GenerationRises.of_parent_eq {r r' : NodeRecord} (h : r'.parent = r.parent) :
    GenerationRises r r' := by
  intro link hlink
  exact ⟨link, h ▸ hlink, rfl, UInt64.le_refl _⟩

theorem GenerationRises.of_unattached {r r' : NodeRecord} (h : r'.parent = none) :
    GenerationRises r r' := by
  intro link hlink
  rw [h] at hlink
  cases hlink

theorem GenerationRises.of_map {r r' : NodeRecord} {f : ParentLink → ParentLink}
    (h : r'.parent = r.parent.map f) (hid : ∀ link, (f link).parentId = link.parentId)
    (hgeneration : ∀ link, link.generation ≤ (f link).generation) : GenerationRises r r' := by
  intro link' hlink'
  rw [h] at hlink'
  obtain ⟨link, hlink, rfl⟩ := Option.map_eq_some_iff.mp hlink'
  exact ⟨link, hlink, hid link, hgeneration link⟩

/-! ## What each call keeps -/

section Calls

variable {r r' : NodeRecord} {u : PUnit}

/-- What a call that returns `Ok` meets from a well-formed record. -/
structure Lawfully (call : RecordCall) (r r' : NodeRecord) : Prop where
  valid : r'.Valid
  ids : (r'.children.map (·.childId)).Nodup
  lawful : call.Lawful r r'

theorem attachChild_lawfully (hids : (r.children.map (·.childId)).Nodup) {childId : NodeId}
    {kind : ChildKind} {slot : Option UInt8} {dateJoined : UInt64}
    (h : exec (RecordStore.attachChild childId kind slot dateJoined) r = (.ok u, r')) :
    Lawfully (.attachChild childId kind slot dateJoined) r r' := by
  rw [RecordStore.exec_attachChild] at h
  cases hadmission : RecordStore.admitChild r childId slot with
  | error e =>
      rw [hadmission] at h
      cases (Prod.mk.inj h).1
  | ok chosen =>
      rw [hadmission] at h
      obtain ⟨hvalid, rfl⟩ := RecordStore.revalidate_eq_ok.mp h
      have hunlisted := (RecordStore.admitChild_spec hadmission).unlisted
      have hnew : ∀ child ∈ r.children, child.childId ≠ childId := by
        intro child hmem heq
        have hlists : r.lists childId = true := List.any_eq_true.mpr ⟨child, hmem, by simp [heq]⟩
        rw [hunlisted] at hlists
        cases hlists
      refine ⟨hvalid, ?_, ?_, fun _ => .of_parent_eq rfl, fun _ _ hcall => by cases hcall⟩
      · rw [RecordStore.pushChild, List.map_append, List.map_singleton, List.nodup_append]
        refine ⟨hids, List.nodup_singleton _, ?_⟩
        intro id hid other hother heq
        obtain ⟨child, hmem, rfl⟩ := List.mem_map.mp hid
        exact hnew child hmem (heq.trans (List.mem_singleton.mp hother))
      · refine EpochLaw.of_kept rfl (not_reslotted hids fun child' hmem => ?_) rfl
        obtain hold | hpushed := List.mem_append.mp hmem
        · exact Or.inr ⟨child', hold, rfl, rfl⟩
        · rw [List.mem_singleton.mp hpushed]
          exact Or.inl hnew

theorem detachChild_lawfully (hids : (r.children.map (·.childId)).Nodup) {childId : NodeId}
    (h : exec (RecordStore.detachChild childId) r = (.ok u, r')) :
    Lawfully (.detachChild childId) r r' := by
  rw [RecordStore.exec_detachChild] at h
  split at h
  · obtain ⟨hvalid, rfl⟩ := RecordStore.revalidate_eq_ok.mp h
    refine ⟨hvalid, ?_, ?_, fun _ => .of_parent_eq rfl, fun _ _ hcall => by cases hcall⟩
    · exact hids.sublist (List.eraseP_sublist.map _)
    · exact EpochLaw.of_kept rfl
        (not_reslotted_of_subset hids fun _ hmem => List.mem_of_mem_eraseP hmem) rfl
  · cases (Prod.mk.inj h).1

/-- Erasing one element of a kind leaves the elements of the other kind. -/
theorem filter_eraseP {α : Type} (p : α → Bool) (l : List α) :
    ((l.eraseP p).filter fun a => !p a) = l.filter fun a => !p a := by
  induction l with
  | nil => rfl
  | cons a l ih =>
      by_cases hp : p a = true
      · rw [List.eraseP_cons_of_pos hp, List.filter_cons_of_neg (by simp [hp])]
      · rw [List.eraseP_cons_of_neg hp, List.filter_cons_of_pos (by simpa using hp),
          List.filter_cons_of_pos (by simpa using hp), ih]

theorem moveChild_lawfully (hids : (r.children.map (·.childId)).Nodup) {child : ChildEntry}
    (hmem : child ∈ r.children) {slot : UInt8} (hslot : child.slot ≠ slot)
    (hunlisted : (RecordStore.dropChild r child.childId).lists child.childId = false)
    (hvalid : (RecordStore.moveChild r child slot).Valid) :
    Lawfully (.moveChildSlot child.childId slot) r (RecordStore.moveChild r child slot) where
  valid := hvalid
  ids := by
    rw [RecordStore.moveChild, List.map_append, List.map_singleton, List.nodup_append]
    refine ⟨hids.sublist (List.eraseP_sublist.map _), List.nodup_singleton _, ?_⟩
    intro id hid other hother heq
    obtain ⟨kept, hkept, rfl⟩ := List.mem_map.mp hid
    have hlists : (RecordStore.dropChild r child.childId).lists child.childId = true :=
      List.any_eq_true.mpr ⟨kept, hkept, by simpa using heq.trans (List.mem_singleton.mp hother)⟩
    rw [hunlisted] at hlists
    cases hlists
  lawful := by
    have hmoved : { child with slot } ∈ (RecordStore.moveChild r child slot).children :=
      List.mem_append_right _ (List.mem_singleton_self _)
    have hreslotted : Reslotted r (RecordStore.moveChild r child slot) :=
      ⟨child, hmem, { child with slot }, hmoved, rfl, fun heq => hslot heq.symm⟩
    refine ⟨⟨fun _ hlt => saturatingAdd_one_toNat hlt, fun hnot => absurd (Or.inr hreslotted) hnot⟩,
      fun _ => .of_parent_eq rfl, ?_⟩
    intro childId slot' hcall
    cases hcall
    refine ⟨⟨child, hmem, rfl, hmoved⟩, ?_⟩
    rw [RecordStore.moveChild, List.filter_append, filter_eraseP]
    simp

theorem moveChildSlot_lawfully (hr : r.Valid) (hids : (r.children.map (·.childId)).Nodup)
    {childId : NodeId} {slot : UInt8} {moved : Option UInt8}
    (h : exec (RecordStore.moveChildSlot childId slot) r = (.ok moved, r')) :
    Lawfully (.moveChildSlot childId slot) r r' := by
  obtain ⟨child, hentry, rfl, ⟨hslot, rfl⟩ | ⟨hslot, hunlisted, rfl, hvalid⟩⟩ :=
    RecordStore.moveChildSlot_ok h
  · have hmem := List.mem_of_find?_eq_some hentry
    refine ⟨hr, hids, .of_kept rfl (not_reslotted_of_subset hids fun _ => id) rfl,
      fun _ => .of_parent_eq rfl, ?_⟩
    intro childId slot' hcall
    cases hcall
    rw [← hslot]
    exact ⟨⟨child, hmem, rfl, hmem⟩, rfl⟩
  · exact moveChild_lawfully hids (List.mem_of_find?_eq_some hentry) hslot hunlisted hvalid

theorem setChildEthAddress_lawfully (hr : r.Valid) (hids : (r.children.map (·.childId)).Nodup)
    {childId : NodeId} {address : EthAddress}
    (h : exec (RecordStore.setChildEthAddress childId address) r = (.ok u, r')) :
    Lawfully (.setChildEthAddress childId address) r r' := by
  obtain rfl := RecordStore.setChildEthAddress_ok h
  have hslots : (r.withAnchor childId address).children.map (·.slot)
      = r.children.map (·.slot) := Fifo.map_replaceFirst fun _ => rfl
  have hnames : (r.withAnchor childId address).children.map (·.childId)
      = r.children.map (·.childId) := Fifo.map_replaceFirst fun _ => rfl
  have hcases : ∀ child' ∈ (r.withAnchor childId address).children,
      ∃ child ∈ r.children, child.childId = child'.childId ∧ child.slot = child'.slot := by
    intro child' hmem
    obtain hold | ⟨old, hold, -, rfl⟩ := Fifo.mem_replaceFirst hmem
    · exact ⟨child', hold, rfl, rfl⟩
    · exact ⟨old, hold, rfl, rfl⟩
  refine ⟨⟨hr.parent, hr.address, ?_, ?_, ?_⟩, ?_, ?_, fun _ => .of_parent_eq rfl,
    fun _ _ hcall => by cases hcall⟩
  · rw [NodeRecord.withAnchor, Fifo.length_replaceFirst]
    exact hr.size
  · intro child' hmem
    obtain ⟨child, hchild, hid, hslot⟩ := hcases child' hmem
    rw [← hid, ← hslot]
    exact hr.child child hchild
  · rw [hslots]
    exact hr.slots
  · rw [hnames]
    exact hids
  · refine EpochLaw.of_kept rfl (not_reslotted hids ?_) rfl
    exact fun child' hmem => Or.inr (hcases child' hmem)

theorem setParentGeneration_lawfully (hr : r.Valid) (hids : (r.children.map (·.childId)).Nodup)
    {generation : UInt64}
    (h : exec (RecordStore.setParentGeneration generation) r = (.ok u, r')) :
    Lawfully (.setParentGeneration generation) r r' := by
  obtain rfl := (Prod.mk.inj h).2
  refine ⟨?_, hids, .of_kept rfl (not_reslotted_of_subset hids fun _ => id) rfl, fun _ => ?_,
    fun _ _ hcall => by cases hcall⟩
  · refine hr.of_children (x := { r with parent := r.parent.map fun parent =>
      { parent with generation := max parent.generation generation } }) rfl rfl ?_ ?_
    · intro link' hlink'
      obtain ⟨link, hlink, rfl⟩ := Option.map_eq_some_iff.mp hlink'
      exact hr.parent link hlink
    · intro address haddress
      have hfits := hr.address address haddress
      cases hparent : r.parent <;> rw [hparent] at hfits <;> exact hfits
  · refine GenerationRises.of_map rfl (fun _ => rfl) fun _ => ?_
    exact generation_le_max (.inl (UInt64.le_refl _))

theorem setParent_lawfully (hids : (r.children.map (·.childId)).Nodup) {parentId : NodeId}
    {slot : UInt8} (h : exec (RecordStore.setParent parentId slot) r = (.ok u, r')) :
    Lawfully (.setParent parentId slot) r r' := by
  rw [RecordStore.exec_setParent] at h
  split at h
  · cases (Prod.mk.inj h).1
  split at h
  · cases (Prod.mk.inj h).1
  obtain ⟨hvalid, rfl⟩ := RecordStore.revalidate_eq_ok.mp h
  exact ⟨hvalid, hids, .of_kept rfl (not_reslotted_of_subset hids fun _ => id) rfl,
    fun hne => absurd rfl (hne parentId slot), fun _ _ hcall => by cases hcall⟩

/-- A call that sets the address of the record, with its parent link or without it. -/
theorem Lawfully.of_withAddress {call : RecordCall} (hids : (r.children.map (·.childId)).Nodup)
    {address : Option OctAddr} (hvalid : r'.Valid) (hchildren : r'.children = r.children)
    (haddress : r'.address = address)
    (hepoch : r'.addressEpoch = (RecordStore.withAddress r address).addressEpoch)
    (hgeneration : GenerationRises r r')
    (hcall : ∀ childId slot, call ≠ .moveChildSlot childId slot) : Lawfully call r r' where
  valid := hvalid
  ids := by
    rw [hchildren]
    exact hids
  lawful :=
    ⟨.of_withAddress hids hchildren haddress hepoch, fun _ => hgeneration,
      fun childId slot heq => absurd heq (hcall childId slot)⟩

theorem withAddress_epoch_congr {x : NodeRecord} {address : Option OctAddr}
    (haddress : x.address = r.address) (hepoch : x.addressEpoch = r.addressEpoch) :
    (RecordStore.withAddress x address).addressEpoch
      = (RecordStore.withAddress r address).addressEpoch := by
  rw [RecordStore.withAddress, RecordStore.withAddress, haddress]
  split
  · exact congrArg (saturatingAdd · 1) hepoch
  · exact hepoch

theorem setAddress_lawfully (hids : (r.children.map (·.childId)).Nodup) {address : OctAddr}
    (h : exec (RecordStore.setAddress address) r = (.ok u, r')) :
    Lawfully (.setAddress address) r r' := by
  rw [RecordStore.exec_setAddress] at h
  obtain ⟨hvalid, rfl⟩ := RecordStore.revalidate_eq_ok.mp h
  exact .of_withAddress hids hvalid (RecordStore.withAddress_children _)
    (RecordStore.withAddress_address _) rfl (.of_parent_eq (RecordStore.withAddress_parent _))
    fun _ _ hcall => by cases hcall

theorem unsetAddress_lawfully (hids : (r.children.map (·.childId)).Nodup)
    (h : exec RecordStore.unsetAddress r = (.ok u, r')) : Lawfully .unsetAddress r r' := by
  rw [RecordStore.exec_unsetAddress] at h
  obtain ⟨hvalid, rfl⟩ := RecordStore.revalidate_eq_ok.mp h
  exact .of_withAddress hids hvalid (RecordStore.withAddress_children _)
    (RecordStore.withAddress_address _) rfl (.of_parent_eq (RecordStore.withAddress_parent _))
    fun _ _ hcall => by cases hcall

theorem rebaseToRoot_lawfully (hids : (r.children.map (·.childId)).Nodup)
    (h : exec RecordStore.rebaseToRoot r = (.ok u, r')) : Lawfully .rebaseToRoot r r' := by
  rw [RecordStore.exec_rebaseToRoot] at h
  obtain ⟨hvalid, rfl⟩ := RecordStore.revalidate_eq_ok.mp h
  exact .of_withAddress hids hvalid (RecordStore.withAddress_children _)
    (RecordStore.withAddress_address _) (withAddress_epoch_congr rfl rfl)
    (.of_unattached (RecordStore.withAddress_parent _)) fun _ _ hcall => by cases hcall

theorem unsetParent_lawfully (hids : (r.children.map (·.childId)).Nodup)
    (h : exec RecordStore.unsetParent r = (.ok u, r')) : Lawfully .unsetParent r r' := by
  rw [RecordStore.exec_unsetParent] at h
  obtain ⟨hvalid, rfl⟩ := RecordStore.revalidate_eq_ok.mp h
  by_cases hrooted : r.address.any (fun address => !address.isRoot) = true
  · rw [if_pos hrooted] at hvalid ⊢
    exact .of_withAddress hids hvalid (RecordStore.withAddress_children _)
      (RecordStore.withAddress_address _) (withAddress_epoch_congr rfl rfl)
      (.of_unattached (RecordStore.withAddress_parent _)) fun _ _ hcall => by cases hcall
  · rw [if_neg hrooted] at hvalid ⊢
    exact ⟨hvalid, hids, .of_kept rfl (not_reslotted_of_subset hids fun _ => id) rfl,
      fun _ => .of_unattached rfl, fun _ _ hcall => by cases hcall⟩

theorem applyRebase_lawfully (hids : (r.children.map (·.childId)).Nodup) {address : OctAddr}
    {slot : UInt8} {generation : UInt64}
    (h : exec (RecordStore.applyRebase address slot generation) r = (.ok u, r')) :
    Lawfully (.applyRebase address slot generation) r r' := by
  rw [RecordStore.exec_applyRebase] at h
  cases hvalidate : (RecordStore.rebased r address slot generation).validate with
  | error e =>
      rw [hvalidate] at h
      cases (Prod.mk.inj h).1
  | ok _ =>
      rw [hvalidate] at h
      obtain rfl := (Prod.mk.inj h).2
      refine .of_withAddress hids (NodeRecord.validate_eq_ok.mp hvalidate)
        (RecordStore.withAddress_children _) (RecordStore.withAddress_address _) rfl ?_
        fun _ _ hcall => by cases hcall
      apply GenerationRises.of_map (f := fun link =>
        { link with slot, generation := max link.generation generation }) _ (fun _ => rfl)
        fun _ => generation_le_max (.inl (UInt64.le_refl _))
      simp only [RecordStore.rebased, RecordStore.withAddress_parent]

/-- The step lemma: a call that returns `Ok` keeps a record well-formed, and follows the laws. -/
theorem perform_lawfully (hr : r.Valid) (hids : (r.children.map (·.childId)).Nodup)
    {call : RecordCall} (h : exec call.perform r = (.ok u, r')) : Lawfully call r r' := by
  cases call with
  | attachChild childId kind slot dateJoined => exact attachChild_lawfully hids h
  | detachChild childId => exact detachChild_lawfully hids h
  | moveChildSlot childId slot =>
      obtain ⟨moved, hmoved, -⟩ := exec_map_eq_ok.mp h
      exact moveChildSlot_lawfully hr hids hmoved
  | setChildEthAddress childId address => exact setChildEthAddress_lawfully hr hids h
  | setParentGeneration generation => exact setParentGeneration_lawfully hr hids h
  | setParent parentId slot => exact setParent_lawfully hids h
  | unsetParent => exact unsetParent_lawfully hids h
  | rebaseToRoot => exact rebaseToRoot_lawfully hids h
  | setAddress address => exact setAddress_lawfully hids h
  | unsetAddress => exact unsetAddress_lawfully hids h
  | applyRebase address slot generation => exact applyRebase_lawfully hids h

end Calls

/-! ## Runs -/

namespace RecordCall

theorem performOk_eq_some {r r' : NodeRecord} {call : RecordCall} :
    call.performOk r = some r' ↔ ∃ u, exec call.perform r = (.ok u, r') := by
  unfold performOk
  cases exec call.perform r with
  | mk result after => cases result <;> simp

/-- The run lemma: calls that return `Ok` keep a record well-formed. -/
theorem run_wellFormed {r r' : NodeRecord} {calls : List RecordCall} (hr : r.WellFormed)
    (h : run r calls = some r') : r'.WellFormed := by
  induction calls generalizing r with
  | nil =>
      obtain rfl := Option.some.inj h
      exact hr
  | cons call calls ih =>
      simp only [run, List.foldlM_cons, Option.bind_eq_bind, Option.bind_eq_some_iff] at h
      obtain ⟨mid, hstep, hrest⟩ := h
      obtain ⟨u, hexec⟩ := performOk_eq_some.mp hstep
      obtain ⟨hvalid, hids⟩ := NodeRecord.wellFormed_iff.mp hr
      have hlaw := perform_lawfully hvalid hids hexec
      exact ih (NodeRecord.wellFormed_iff.mpr ⟨hlaw.valid, hlaw.ids⟩) hrest

theorem new_wellFormed (nodeId : NodeId) : (NodeRecord.new nodeId).WellFormed := by
  rw [NodeRecord.wellFormed_iff]
  refine ⟨⟨?_, ?_, ?_, ?_, ?_⟩, ?_⟩ <;> simp [NodeRecord.new]

/-- In every run of calls that return `Ok` on a fresh record, the record is well-formed, and the
next such call follows the laws of the epoch, the generation and the moved child. -/
theorem store_keeps_laws (nodeId : NodeId) (calls : List RecordCall) (r : NodeRecord)
    (hrun : run (.new nodeId) calls = some r) :
    r.WellFormed ∧ ∀ (call : RecordCall) (r' : NodeRecord), call.performOk r = some r' →
      r'.WellFormed ∧ call.Lawful r r' := by
  have hr := run_wellFormed (new_wellFormed nodeId) hrun
  refine ⟨hr, fun call r' h => ?_⟩
  obtain ⟨u, hexec⟩ := performOk_eq_some.mp h
  obtain ⟨hvalid, hids⟩ := NodeRecord.wellFormed_iff.mp hr
  have hlaw := perform_lawfully hvalid hids hexec
  exact ⟨NodeRecord.wellFormed_iff.mpr ⟨hlaw.valid, hlaw.ids⟩, hlaw.lawful⟩

def joinedCalls : List RecordCall :=
  [.setParent "p" 0, .setParentGeneration 5, .attachChild "c" .node none 0]

/-- A parent link that is set again to the same parent and slot starts at generation zero; and a
refused address stays in the record, which a later call leaves invalid while it returns `Ok`. -/
theorem generation_starts_again :
    (∃ r r' link link', run (.new "n") joinedCalls = some r
      ∧ (setParent "p" 0).performOk r = some r' ∧ r.parent = some link ∧ r'.parent = some link'
      ∧ link'.parentId = link.parentId ∧ link'.slot = link.slot
      ∧ link'.generation < link.generation)
    ∧ ∃ r', (moveChildSlot "c" 0).performOk
        (runAll (.new "n") [.attachChild "c" .node none 0, .setAddress firstChildAddress]) = some r'
      ∧ r'.validate ≠ .ok () := by
  refine ⟨⟨_, _, _, _, rfl, rfl, rfl, rfl, rfl, rfl, by decide⟩, _, rfl, by decide⟩

theorem store_keeps_laws_joined :
    ∃ r, run (.new "n") joinedCalls = some r ∧ r.WellFormed ∧
      ∀ (call : RecordCall) (r' : NodeRecord), call.performOk r = some r' →
        r'.WellFormed ∧ call.Lawful r r' :=
  ⟨_, rfl, store_keeps_laws "n" joinedCalls _ rfl⟩

end RecordCall

end Cawala
