import Cawala.Verification.RouteAgreement
import Cawala.Verification.SettleOrigin

/-! # The layout of a network

Who sits at which address. The nodes of a cascade see parts of the layout in their own records,
and each derives from its part the hop that the layout gives it. -/

namespace Cawala

open Library

/-- Who sits at an address, as a node or as a user, and at which leaf a user is at home. Siblings
have different ids. -/
structure Layout where
  tenant : OctAddr → NodeId
  kind : OctAddr → ChildKind
  home : NodeId → OctAddr
  apart : ∀ a b, a.parent = b.parent → tenant a = tenant b → a = b
  users : ∀ a, kind a = .user → a.parent = some (home (tenant a))

namespace Layout

variable (layout : Layout)

structure Lists (a : OctAddr) (record : NodeRecord) : Prop where
  address : record.address = some a
  children : ∀ child ∈ record.children, ∃ b : OctAddr, b.digits = a.digits ++ [child.slot]
    ∧ layout.tenant b = child.childId ∧ layout.kind b = child.kind

def Houses (a : OctAddr) (id : NodeId) : Prop :=
  ∃ b, b.parent = some a ∧ layout.tenant b = id ∧ layout.kind b = .user

/-- The address one level below a node toward a target. -/
def below (a target : OctAddr) : OctAddr := target.takeDigits (a.depth + 1) (Nat.succ_pos _)

def hop (payer payee a : OctAddr) : Option DerivedHop :=
  match classifyHop payer payee a with
  | some .ascend =>
      some { role := .ascend, first := .parent, second := .child (layout.tenant (below a payer)) }
  | some .lca =>
      some
        { role := .lca, first := .child (layout.tenant (below a payer))
          second := .child (layout.tenant (below a payee)) }
  | some .descend =>
      some { role := .descend, first := .parent, second := .child (layout.tenant (below a payee)) }
  | _ => none

end Layout

def PaymentOrder.creditHop (order : PaymentOrder) : DerivedHop where
  role := .descend
  first := .parent
  second := .child order.to_

section Records

variable {layout : Layout} {record : NodeRecord} {a target src dst srcLeaf dstLeaf : OctAddr}
  {signers : List OctAddr} {order : PaymentOrder} {derived : DerivedHop} {id : NodeId}

theorem Layout.below_eq {b : OctAddr} {slot : UInt8} (hb : b.digits = a.digits ++ [slot])
    (htarget : b.digits <+: target.digits) : Layout.below a target = b := by
  refine OctAddr.ext ?_
  have htake := List.prefix_iff_eq_take.mp htarget
  have hlength : b.digits.length = a.digits.length + 1 := by simp [hb]
  rw [htake, hlength]
  rfl

theorem Layout.below_parent (h : target.parent = some a) : Layout.below a target = target := by
  obtain ⟨slot, hslot⟩ := OctAddr.parent_eq_some.mp h
  exact Layout.below_eq hslot List.prefix_rfl

theorem Layout.Lists.toward (h : layout.Lists a record) (hle : a.digits <+: target.digits)
    (hchild : childToward record a target = .ok id) :
    layout.tenant (Layout.below a target) = id := by
  unfold childToward at hchild
  split at hchild
  · cases hchild
  next slot hslot =>
    split at hchild
    · cases hchild
    next child hfind =>
      have hmem := List.mem_of_find?_eq_some hfind
      have heq : child.slot = slot := by simpa using List.find?_some hfind
      obtain ⟨b, hb, htenant, -⟩ := h.children child hmem
      have hbelow : b.digits <+: target.digits := by
        obtain ⟨rest, hrest⟩ := hle
        rw [← hrest, OctAddr.depth, List.getElem?_append_right le_rfl, Nat.sub_self] at hslot
        rw [hb, ← hrest, heq, List.prefix_append_right_inj]
        cases rest with
        | nil => cases hslot
        | cons first rest =>
            obtain rfl := Option.some.inj hslot
            exact List.prefix_append [first] rest
      rw [Layout.below_eq hb hbelow, htenant]
      exact Except.ok.inj hchild

theorem SignerRoute.role_cases (h : SignerRoute src dst srcLeaf dstLeaf signers)
    {role : HopRole} (hrole : classifyHop src dst a = some role) :
    (role = .lca ∧ a.digits = meet srcLeaf.digits dstLeaf.digits)
      ∨ (role = .ascend ∧ (a = src ∨ a.digits ≠ meet srcLeaf.digits dstLeaf.digits
          ∧ meet srcLeaf.digits dstLeaf.digits <+: a.digits ∧ a.digits <+: srcLeaf.digits))
      ∨ (role = .descend ∧ (a = dst ∨ a.digits ≠ meet srcLeaf.digits dstLeaf.digits
          ∧ meet srcLeaf.digits dstLeaf.digits <+: a.digits ∧ a.digits <+: dstLeaf.digits)) := by
  rw [classifyHop_eq_of_parents h.src h.dst h.left h.right] at hrole
  split at hrole
  next heq => exact Or.inl ⟨(Option.some.inj hrole).symm, heq⟩
  next hne =>
    split at hrole
    next hside =>
      exact Or.inr (Or.inl ⟨(Option.some.inj hrole).symm, hside.imp id fun hle => ⟨hne, hle⟩⟩)
    next =>
      split at hrole
      next hside =>
        exact Or.inr (Or.inr ⟨(Option.some.inj hrole).symm, hside.imp id fun hle => ⟨hne, hle⟩⟩)
      next => cases hrole

theorem prefix_of_parent {b p : OctAddr} (h : b.parent = some p) : p.digits <+: b.digits := by
  obtain ⟨slot, hslot⟩ := OctAddr.parent_eq_some.mp h
  exact hslot ▸ List.prefix_append _ _

theorem Layout.Lists.hop_of_deriveHop (h : layout.Lists a record)
    (hroute : SignerRoute src dst srcLeaf dstLeaf signers)
    (hderived : deriveHop record a src dst = .ok derived) :
    layout.hop src dst a = some derived := by
  have hsrc := prefix_of_parent hroute.src
  have hdst := prefix_of_parent hroute.dst
  have hself : ∀ {id}, childToward record a a ≠ .ok id := by
    intro id hok
    simp [childToward, OctAddr.depth] at hok
  unfold deriveHop at hderived
  unfold Layout.hop
  cases hrole : classifyHop src dst a with
  | none =>
      rw [hrole] at hderived
      cases hderived
  | some role =>
    rw [hrole] at hderived
    cases role with
    | direct => cases hderived
    | ascend =>
        simp only [bind_eq_ok, pure_eq_ok] at hderived
        obtain ⟨child, hchild, rfl⟩ := hderived
        have hle : a.digits <+: src.digits := by
          rcases hroute.role_cases hrole with ⟨heq, -⟩ | ⟨-, hside⟩ | ⟨heq, -⟩
          · cases heq
          · rcases hside with rfl | ⟨-, -, hle⟩
            · exact absurd hchild hself
            · exact hle.trans hsrc
          · cases heq
        rw [h.toward hle hchild]
    | lca =>
        simp only [bind_eq_ok, pure_eq_ok] at hderived
        obtain ⟨first, hfirst, second, hsecond, rfl⟩ := hderived
        have hmeet : a.digits = meet srcLeaf.digits dstLeaf.digits := by
          rcases hroute.role_cases hrole with ⟨-, heq⟩ | ⟨heq, -⟩ | ⟨heq, -⟩
          · exact heq
          · cases heq
          · cases heq
        rw [h.toward (hmeet ▸ (meet_le_left _ _).trans hsrc) hfirst,
          h.toward (hmeet ▸ (meet_le_right _ _).trans hdst) hsecond]
    | descend =>
        simp only [bind_eq_ok, pure_eq_ok] at hderived
        obtain ⟨child, hchild, rfl⟩ := hderived
        have hle : a.digits <+: dst.digits := by
          rcases hroute.role_cases hrole with ⟨heq, -⟩ | ⟨heq, -⟩ | ⟨-, hside⟩
          · cases heq
          · cases heq
          · rcases hside with rfl | ⟨-, -, hle⟩
            · exact absurd hchild hself
            · exact hle.trans hdst
        rw [h.toward hle hchild]

theorem Layout.Lists.user (h : layout.Lists a record)
    (huser : userChildAddress record id = some target) :
    layout.tenant target = id ∧ layout.kind target = .user ∧ target.parent = some a := by
  simp only [userChildAddress, h.address, Option.bind_eq_bind, Option.bind_some,
    Option.bind_eq_some_iff] at huser
  obtain ⟨child, hfind, haddr⟩ := huser
  have hchild := List.find?_some hfind
  simp only [Bool.and_eq_true, beq_iff_eq] at hchild
  obtain ⟨b, hb, htenant, hkind⟩ := h.children child (List.mem_of_find?_eq_some hfind)
  have htarget : target = b := by
    unfold childAddress at haddr
    split at haddr
    · exact (Option.some.inj haddr).symm.trans (OctAddr.ext hb.symm)
    · cases haddr
  subst htarget
  exact ⟨htenant.trans hchild.2, hkind.trans hchild.1, OctAddr.parent_eq_some.mpr ⟨_, hb⟩⟩

theorem Layout.Lists.childKind_user (h : layout.Lists a record)
    (huser : userChildAddress record id = some target) : childKind record id = some .user := by
  obtain ⟨htenant, hkind, hparent⟩ := h.user huser
  have hmem : ∃ child ∈ record.children, child.childId = id := by
    simp only [userChildAddress, Option.bind_eq_bind, Option.bind_eq_some_iff] at huser
    obtain ⟨_, -, child, hfind, -⟩ := huser
    have hchild := List.find?_some hfind
    simp only [Bool.and_eq_true, beq_iff_eq] at hchild
    exact ⟨child, List.mem_of_find?_eq_some hfind, hchild.2⟩
  obtain ⟨child, hfind⟩ : ∃ child, record.children.find? (·.childId == id) = some child := by
    obtain ⟨child, hchild, hid⟩ := hmem
    exact Option.isSome_iff_exists.mp (List.find?_isSome.mpr ⟨child, hchild, by simp [hid]⟩)
  have hid : child.childId = id := by simpa using List.find?_some hfind
  obtain ⟨b, hb, hbTenant, hbKind⟩ := h.children child (List.mem_of_find?_eq_some hfind)
  -- no two children have the same id
  obtain rfl := layout.apart b target
    ((OctAddr.parent_eq_some.mpr ⟨_, hb⟩).trans hparent.symm)
    (hbTenant.trans (hid.trans htenant.symm))
  exact Option.map_eq_some_iff.mpr ⟨child, hfind, hbKind.symm.trans hkind⟩

theorem Layout.Lists.houses (h : layout.Lists a record) (hkind : childKind record id = some .user) :
    layout.Houses a id := by
  obtain ⟨child, hfind, huser⟩ := Option.map_eq_some_iff.mp hkind
  obtain ⟨b, hb, htenant, hkindB⟩ := h.children child (List.mem_of_find?_eq_some hfind)
  have hid : child.childId = id := by simpa using List.find?_some hfind
  exact ⟨b, OctAddr.parent_eq_some.mpr ⟨_, hb⟩, htenant.trans hid, hkindB.trans huser⟩

theorem Layout.Houses.home (h : layout.Houses a id) : layout.home id = a := by
  obtain ⟨b, hparent, rfl, hkind⟩ := h
  exact Option.some.inj ((layout.users b hkind).symm.trans hparent)

theorem Layout.user_unique {b : OctAddr} (ha : layout.kind a = .user) (hb : layout.kind b = .user)
    (h : layout.tenant a = layout.tenant b) : a = b := by
  refine layout.apart a b ?_ h
  rw [layout.users a ha, layout.users b hb, h]

theorem Layout.hop_last (hroute : SignerRoute src dst srcLeaf dstLeaf signers)
    (hpayee : layout.tenant dst = order.to_) :
    layout.hop src dst dstLeaf = some order.creditHop := by
  simp [Layout.hop, hroute.classify_last, Layout.below_parent hroute.dst, hpayee,
    PaymentOrder.creditHop]

end Records

end Cawala
