import Mathlib

/-! # Forests of parent links

A forest is a parent function whose chains all end. A new link keeps it one as long as the
node that moves does not lie above its new parent. -/

namespace Cawala.Library

variable {α : Type*} {up up' : α → Option α}

def IsParent (up : α → Option α) (p c : α) : Prop := up c = some p

def Acyclic (up : α → Option α) : Prop := WellFounded (IsParent up)

def AtOrAbove (up : α → Option α) (a c : α) : Prop := Relation.ReflTransGen (IsParent up) a c

theorem AtOrAbove.refl (a : α) : AtOrAbove up a a := Relation.ReflTransGen.refl

theorem AtOrAbove.step {a p c : α} (h : AtOrAbove up a p) (hp : up c = some p) :
    AtOrAbove up a c := Relation.ReflTransGen.tail h hp

/-- Above a node is itself, or what is above its parent. -/
theorem atOrAbove_iff {a c : α} :
    AtOrAbove up a c ↔ a = c ∨ ∃ p, up c = some p ∧ AtOrAbove up a p := by
  rw [AtOrAbove, Relation.ReflTransGen.cases_tail_iff]
  constructor
  · rintro (rfl | ⟨p, hp, hstep⟩)
    · exact Or.inl rfl
    · exact Or.inr ⟨p, hstep, hp⟩
  · rintro (rfl | ⟨p, hstep, hp⟩)
    · exact Or.inl rfl
    · exact Or.inr ⟨p, hp, hstep⟩

/-- In a forest no node is above itself. -/
theorem Acyclic.irrefl (h : Acyclic up) (a : α) : ¬ Relation.TransGen (IsParent up) a a :=
  (WellFounded.transGen h).irrefl.irrefl a

theorem Acyclic.not_above_parent (h : Acyclic up) {p c : α} (hp : up c = some p) :
    ¬ AtOrAbove up c p := by
  intro habove
  exact h.irrefl c (Relation.TransGen.tail' habove hp)

/-- Links taken away leave a forest. -/
theorem Acyclic.mono (h : Acyclic up) (hle : ∀ c p, up' c = some p → up c = some p) :
    Acyclic up' := Subrelation.wf (fun {_ _} hp => hle _ _ hp) h

theorem AtOrAbove.mono (hle : ∀ c p, up' c = some p → up c = some p) {a c : α}
    (h : AtOrAbove up' a c) : AtOrAbove up a c := by
  induction h with
  | refl => exact .refl a
  | tail _ hp ih => exact ih.step (hle _ _ hp)

/-- A link under a node that is not below the moved one leaves a forest. -/
theorem Acyclic.link (h : Acyclic up) {p c : α} (hbelow : ¬ AtOrAbove up c p)
    (hsame : ∀ x, x ≠ c → up' x = up x) (hc : up' c = some p) : Acyclic up' := by
  -- Away from the moved node the links are the old ones.
  have haway : ∀ x, ¬ AtOrAbove up c x → Acc (IsParent up') x := by
    intro x
    induction x using h.induction with
    | _ x ih =>
        intro hx
        have hne : x ≠ c := by
          rintro rfl
          exact hx (.refl x)
        constructor
        intro q hq
        rw [IsParent, hsame x hne] at hq
        exact ih q hq fun hcq => hx (hcq.step hq)
  have hmoved : Acc (IsParent up') c := by
    constructor
    intro q hq
    rw [IsParent, hc, Option.some.injEq] at hq
    exact hq ▸ haway p hbelow
  constructor
  intro x
  induction x using h.induction with
  | _ x ih =>
      by_cases hx : x = c
      · rw [hx]
        exact hmoved
      · constructor
        intro q hq
        rw [IsParent, hsame x hx] at hq
        exact ih q hq

end Cawala.Library
