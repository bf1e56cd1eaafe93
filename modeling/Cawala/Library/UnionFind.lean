import Mathlib

/-! # Union-find

Disjoint sets of the numbers below a bound: parent pointers with ranks, united by rank and found
with path halving. Two numbers have the same root exactly when unions connect them. -/

namespace Cawala.Library

/-- Parent pointers and ranks. A number beyond them is its own root. -/
structure UnionFind where
  parent : List ℕ
  rank : List ℕ

namespace UnionFind

def new (n : ℕ) : UnionFind where
  parent := List.range n
  rank := List.replicate n 0

def up (u : UnionFind) (x : ℕ) : ℕ := (u.parent[x]?).getD x

def rankOf (u : UnionFind) (x : ℕ) : ℕ := (u.rank[x]?).getD 0

/-- Point a number at its grandparent. -/
def halve (u : UnionFind) (x : ℕ) : UnionFind :=
  { u with parent := u.parent.set x (u.up (u.up x)) }

/-- The loop of `find`: halve the path and go on from the new parent, until a root is met. -/
def findLoop : ℕ → UnionFind → ℕ → ℕ × UnionFind
  | 0, u, x => (x, u)
  | fuel + 1, u, x =>
      if u.up x = x then (x, u)
      else findLoop fuel (u.halve x) ((u.halve x).up x)

/-- The root of a number. Each round climbs, so one more round than there are numbers is
enough. -/
def find (u : UnionFind) (x : ℕ) : ℕ × UnionFind := findLoop (u.parent.length + 1) u x

/-- Unite the sets of two numbers: the root of lower rank is put below the other one. -/
def union (u : UnionFind) (a b : ℕ) : UnionFind :=
  let (ra, u) := u.find a
  let (rb, u) := u.find b
  if ra = rb then u
  else if u.rankOf ra < u.rankOf rb then { u with parent := u.parent.set ra rb }
  else if u.rankOf ra > u.rankOf rb then { u with parent := u.parent.set rb ra }
  else { parent := u.parent.set rb ra, rank := u.rank.set ra (u.rankOf ra + 1) }

/-! ## Roots -/

def roots (u : UnionFind) : Finset ℕ := (Finset.range u.parent.length).filter fun x => u.up x = x

/-- Ranks grow along the pointers, and every union that raises one costs a root. -/
structure Valid (u : UnionFind) : Prop where
  length : u.rank.length = u.parent.length
  inRange : ∀ x < u.parent.length, u.up x < u.parent.length
  ranked : ∀ x, u.up x ≠ x → u.rankOf x < u.rankOf (u.up x)
  bounded : ∀ x, u.rankOf x + u.roots.card ≤ u.parent.length

/-- The root above a number: where the pointers lead. -/
def root (u : UnionFind) (x : ℕ) : ℕ := u.up^[u.parent.length + 1] x

variable {u : UnionFind} {x y a b : ℕ}

theorem rank_iterate (hu : u.Valid) (x k : ℕ) :
    u.up (u.up^[k] x) = u.up^[k] x ∨ k ≤ u.rankOf (u.up^[k] x) := by
  induction k with
  | zero => exact Or.inr (Nat.zero_le _)
  | succ k ih =>
      rw [Function.iterate_succ_apply']
      rcases ih with hroot | hrank
      · left
        rw [hroot, hroot]
      · by_cases hroot : u.up (u.up^[k] x) = u.up^[k] x
        · left
          rw [hroot, hroot]
        · right
          have := hu.ranked _ hroot
          omega

theorem up_root (hu : u.Valid) (x : ℕ) : u.up (u.root x) = u.root x := by
  rcases rank_iterate hu x (u.parent.length + 1) with hroot | hrank
  · exact hroot
  · have := hu.bounded (u.up^[u.parent.length + 1] x)
    omega

theorem root_of_up_eq (h : u.up x = x) : u.root x = x := Function.iterate_fixed h _

theorem root_up (hu : u.Valid) (x : ℕ) : u.root (u.up x) = u.root x := by
  have hcomm : u.root (u.up x) = u.up (u.root x) :=
    (Function.iterate_succ_apply u.up _ x).symm.trans (Function.iterate_succ_apply' u.up _ x)
  rw [hcomm, up_root hu]

/-- What is constant along the pointers and fixes the roots is the root. -/
theorem root_unique (hu : u.Valid) (f : ℕ → ℕ) (hup : ∀ x, f (u.up x) = f x)
    (hroot : ∀ x, u.up x = x → f x = x) (x : ℕ) : u.root x = f x := by
  have hiterate : ∀ k, f (u.up^[k] x) = f x := by
    intro k
    induction k with
    | zero => rfl
    | succ k ih => rw [Function.iterate_succ_apply', hup, ih]
  rw [← hiterate (u.parent.length + 1)]
  exact (hroot _ (up_root hu x)).symm

theorem root_lt (hu : u.Valid) (hx : x < u.parent.length) : u.root x < u.parent.length := by
  rw [root]
  generalize u.parent.length + 1 = k
  induction k with
  | zero => exact hx
  | succ k ih =>
      rw [Function.iterate_succ_apply']
      exact hu.inRange _ ih

theorem lt_of_up_ne (h : u.up x ≠ x) : x < u.parent.length := by
  by_contra hlt
  apply h
  rw [up, List.getElem?_eq_none (Nat.not_lt.mp hlt)]
  rfl

/-! ## Finding -/

theorem up_set (x v y : ℕ) (hx : x < u.parent.length) (rank : List ℕ) :
    ({ parent := u.parent.set x v, rank } : UnionFind).up y = if y = x then v else u.up y := by
  rw [up, List.getElem?_set]
  by_cases hyx : x = y
  · subst hyx
    simp [hx]
  · rw [if_neg hyx, if_neg (Ne.symm hyx)]
    rfl

theorem up_halve (h : u.up x ≠ x) (y : ℕ) :
    (u.halve x).up y = if y = x then u.up (u.up x) else u.up y :=
  up_set x _ y (lt_of_up_ne h) u.rank

theorem up_up_ne (hu : u.Valid) (h : u.up x ≠ x) : u.up (u.up x) ≠ x := by
  intro hback
  have hrank := hu.ranked x h
  by_cases hroot : u.up (u.up x) = u.up x
  · exact h (hroot.symm.trans hback)
  · have hrank' := hu.ranked _ hroot
    rw [hback] at hrank'
    omega

theorem halve_up_eq_iff (hu : u.Valid) (h : u.up x ≠ x) (y : ℕ) :
    (u.halve x).up y = y ↔ u.up y = y := by
  rw [up_halve h]
  split_ifs with hy
  · subst hy
    exact iff_of_false (up_up_ne hu h) h
  · rfl

theorem Valid.halve (hu : u.Valid) (h : u.up x ≠ x) : (u.halve x).Valid := by
  have hroots : (u.halve x).roots = u.roots := by
    ext y
    simp only [roots, Finset.mem_filter, Finset.mem_range, halve_up_eq_iff hu h]
    rw [UnionFind.halve, List.length_set]
  have hlen : (u.halve x).parent.length = u.parent.length := List.length_set ..
  refine ⟨?_, ?_, ?_, ?_⟩
  · rw [hlen]
    exact hu.length
  · intro y hy
    rw [hlen] at hy ⊢
    rw [up_halve h]
    split_ifs
    · exact hu.inRange _ (hu.inRange _ (lt_of_up_ne h))
    · exact hu.inRange y hy
  · intro y hy
    rw [ne_eq, halve_up_eq_iff hu h] at hy
    change u.rankOf y < u.rankOf _
    rw [up_halve h]
    split_ifs with hyx
    · subst hyx
      have hrank := hu.ranked y hy
      by_cases hroot : u.up (u.up y) = u.up y
      · rw [hroot]
        exact hrank
      · exact hrank.trans (hu.ranked _ hroot)
    · exact hu.ranked y hy
  · intro y
    rw [hroots, hlen]
    exact hu.bounded y

theorem root_halve (hu : u.Valid) (h : u.up x ≠ x) (y : ℕ) : (u.halve x).root y = u.root y := by
  refine root_unique (hu.halve h) u.root ?_ ?_ y
  · intro z
    rw [up_halve h]
    split_ifs with hz
    · rw [hz, root_up hu, root_up hu]
    · exact root_up hu z
  · intro z hz
    exact root_of_up_eq ((halve_up_eq_iff hu h z).mp hz)

theorem findLoop_spec (hu : u.Valid) (fuel : ℕ) (hfuel : u.parent.length < u.rankOf x + fuel) :
    (findLoop fuel u x).1 = u.root x ∧ (findLoop fuel u x).2.Valid
      ∧ (findLoop fuel u x).2.parent.length = u.parent.length
      ∧ (findLoop fuel u x).2.rank = u.rank
      ∧ ∀ y, (findLoop fuel u x).2.root y = u.root y := by
  induction fuel generalizing u x with
  | zero =>
      have := hu.bounded x
      omega
  | succ fuel ih =>
      rw [findLoop]
      by_cases hroot : u.up x = x
      · rw [if_pos hroot]
        exact ⟨(root_of_up_eq hroot).symm, hu, rfl, rfl, fun y => rfl⟩
      · rw [if_neg hroot]
        have hlen : (u.halve x).parent.length = u.parent.length := List.length_set ..
        have hup : (u.halve x).up x = u.up (u.up x) := by rw [up_halve hroot, if_pos rfl]
        have hclimb : u.rankOf x < (u.halve x).rankOf ((u.halve x).up x) :=
          (hu.halve hroot).ranked x (by rw [hup]; exact up_up_ne hu hroot)
        obtain ⟨hfind, hvalid, hlength, hrank, hroots⟩ :=
          ih (hu.halve hroot) (x := (u.halve x).up x) (by omega)
        refine ⟨?_, hvalid, hlength.trans hlen, hrank, ?_⟩
        · rw [hfind, root_up (hu.halve hroot), root_halve hu hroot]
        · intro y
          rw [hroots, root_halve hu hroot]

/-- The spec lemma of `find`: it returns the root, and halving changes no root. -/
theorem find_spec (hu : u.Valid) (x : ℕ) :
    (u.find x).1 = u.root x ∧ (u.find x).2.Valid
      ∧ (u.find x).2.parent.length = u.parent.length ∧ (u.find x).2.rank = u.rank
      ∧ ∀ y, (u.find x).2.root y = u.root y :=
  findLoop_spec hu _ (by omega)

/-! ## Uniting -/

/-- Put one root below another one, whose rank is then above it. -/
theorem link_spec (hu : u.Valid) (ha : u.up a = a) (hb : u.up b = b) (hne : a ≠ b)
    (hbound : b < u.parent.length) {rank : List ℕ} (hlength : rank.length = u.rank.length)
    {v : UnionFind} (hv : v = { parent := u.parent.set b a, rank }) (haLt : a < u.parent.length)
    (hbelow : u.rankOf b < v.rankOf a) (hother : ∀ y, y ≠ a → v.rankOf y = u.rankOf y)
    (hge : u.rankOf a ≤ v.rankOf a) (hle : v.rankOf a ≤ u.rankOf a + 1) :
    v.Valid ∧ v.parent.length = u.parent.length
      ∧ ∀ y, v.root y = if u.root y = b then a else u.root y := by
  have hlen : v.parent.length = u.parent.length := by
    rw [hv]
    exact List.length_set ..
  have hup : ∀ y, v.up y = if y = b then a else u.up y := by
    intro y
    rw [hv]
    exact up_set b a y hbound rank
  have hroots : v.roots = u.roots.erase b := by
    ext y
    simp only [roots, Finset.mem_filter, Finset.mem_range, Finset.mem_erase, hlen, hup]
    by_cases hy : y = b
    · simp [hy, hne]
    · simp [hy]
  have hcard : v.roots.card + 1 = u.roots.card := by
    rw [hroots]
    refine Finset.card_erase_add_one ?_
    simp [roots, hb, hbound]
  have hvalid : v.Valid := by
    refine ⟨?_, ?_, ?_, ?_⟩
    · rw [hlen, hv]
      exact hlength.trans hu.length
    · intro y hy
      rw [hlen] at hy ⊢
      rw [hup]
      split_ifs
      · exact haLt
      · exact hu.inRange y hy
    · intro y hy
      rw [hup] at hy ⊢
      split_ifs at hy ⊢ with hyb
      · rw [hyb, hother b hne.symm]
        exact hbelow
      · have hya : y ≠ a := by
          rintro rfl
          exact hy ha
        have hrank := hu.ranked y hy
        rw [hother y hya]
        by_cases hupa : u.up y = a
        · rw [hupa] at hrank ⊢
          omega
        · rw [hother _ hupa]
          exact hrank
    · intro y
      have hy := hu.bounded y
      rw [hlen]
      by_cases hya : y = a
      · subst hya
        omega
      · rw [hother y hya]
        omega
  refine ⟨hvalid, hlen, ?_⟩
  refine root_unique hvalid (fun y => if u.root y = b then a else u.root y) ?_ ?_
  · intro y
    rw [hup]
    by_cases hy : y = b
    · rw [if_pos hy, hy, root_of_up_eq ha, root_of_up_eq hb, if_neg hne, if_pos rfl]
    · rw [if_neg hy, root_up hu]
  · intro y hy
    rw [hup] at hy
    split_ifs at hy with hyb
    · exact absurd (hy.trans hyb) hne
    · rw [root_of_up_eq hy, if_neg hyb]

theorem rankOf_set (x v y : ℕ) (hx : x < u.rank.length) (parent : List ℕ) :
    ({ parent, rank := u.rank.set x v } : UnionFind).rankOf y
      = if y = x then v else u.rankOf y := by
  rw [rankOf, List.getElem?_set]
  by_cases hyx : x = y
  · subst hyx
    simp [hx]
  · rw [if_neg hyx, if_neg (Ne.symm hyx)]
    rfl

/-- The spec lemma of `union`: the two sets get one of their roots, the others keep theirs. -/
theorem union_spec (hu : u.Valid) (ha : a < u.parent.length) (hb : b < u.parent.length) :
    (u.union a b).Valid ∧ (u.union a b).parent.length = u.parent.length
      ∧ ∃ c, (c = u.root a ∨ c = u.root b)
        ∧ ∀ y, (u.union a b).root y
          = if u.root y = u.root a ∨ u.root y = u.root b then c else u.root y := by
  obtain ⟨hra, hvalid₁, hlen₁, -, hroots₁⟩ := find_spec hu a
  obtain ⟨hrb, hvalid₂, hlen₂, -, hroots₂⟩ := find_spec hvalid₁ b
  unfold union
  generalize hfirst : u.find a = first at hra hvalid₁ hlen₁ hroots₁ hrb hvalid₂ hlen₂ hroots₂
  obtain ⟨ra, v⟩ := first
  simp only at hra hvalid₁ hlen₁ hroots₁ hrb hvalid₂ hlen₂ hroots₂ ⊢
  generalize hsecond : v.find b = second at hrb hvalid₂ hlen₂ hroots₂
  obtain ⟨rb, w⟩ := second
  simp only at hrb hvalid₂ hlen₂ hroots₂ ⊢
  have hlen : w.parent.length = u.parent.length := hlen₂.trans hlen₁
  have hroots : ∀ y, w.root y = u.root y := fun y => (hroots₂ y).trans (hroots₁ y)
  rw [hroots₁] at hrb
  have haRoot : w.up ra = ra := by
    rw [hra, ← hroots, up_root hvalid₂]
  have hbRoot : w.up rb = rb := by
    rw [hrb, ← hroots, up_root hvalid₂]
  have haLt : ra < w.parent.length := by
    rw [hlen, hra]
    exact root_lt hu ha
  have hbLt : rb < w.parent.length := by
    rw [hlen, hrb]
    exact root_lt hu hb
  rw [← hra, ← hrb]
  by_cases heq : ra = rb
  · rw [if_pos heq]
    refine ⟨hvalid₂, hlen, ra, Or.inl rfl, ?_⟩
    intro y
    rw [hroots, ← heq]
    split_ifs with hy
    · exact hy.elim id id
    · rfl
  rw [if_neg heq]
  by_cases hlt : w.rankOf ra < w.rankOf rb
  · rw [if_pos hlt]
    obtain ⟨hvalid, hlength, hlink⟩ := link_spec hvalid₂ hbRoot haRoot (Ne.symm heq) haLt rfl
      (v := { w with parent := w.parent.set ra rb }) rfl hbLt hlt (fun y _ => rfl) le_rfl
      (Nat.le_succ _)
    refine ⟨hvalid, hlength.trans hlen, rb, Or.inr rfl, ?_⟩
    intro y
    rw [hlink, hroots]
    by_cases hya : u.root y = ra
    · rw [if_pos hya, if_pos (Or.inl hya)]
    · rw [if_neg hya]
      split_ifs with hy
      · exact hy.resolve_left hya
      · rfl
  rw [if_neg hlt]
  by_cases hgt : w.rankOf ra > w.rankOf rb
  · rw [if_pos hgt]
    obtain ⟨hvalid, hlength, hlink⟩ := link_spec hvalid₂ haRoot hbRoot heq hbLt rfl
      (v := { w with parent := w.parent.set rb ra }) rfl haLt hgt (fun y _ => rfl) le_rfl
      (Nat.le_succ _)
    refine ⟨hvalid, hlength.trans hlen, ra, Or.inl rfl, ?_⟩
    intro y
    rw [hlink, hroots]
    by_cases hyb : u.root y = rb
    · rw [if_pos hyb, if_pos (Or.inr hyb)]
    · rw [if_neg hyb]
      split_ifs with hy
      · exact hy.resolve_right hyb
      · rfl
  · rw [if_neg hgt]
    have haRank : ra < w.rank.length := by
      rw [hvalid₂.length]
      exact haLt
    have hrank : ∀ y, ({ parent := w.parent.set rb ra, rank := w.rank.set ra (w.rankOf ra + 1) } :
        UnionFind).rankOf y = if y = ra then w.rankOf ra + 1 else w.rankOf y := fun y =>
      rankOf_set ra _ y haRank _
    obtain ⟨hvalid, hlength, hlink⟩ := link_spec hvalid₂ haRoot hbRoot heq hbLt
      (List.length_set ..)
      (v := { parent := w.parent.set rb ra, rank := w.rank.set ra (w.rankOf ra + 1) }) rfl haLt
      (by rw [hrank, if_pos rfl]; omega) (fun y hy => by rw [hrank, if_neg hy])
      (by rw [hrank, if_pos rfl]; omega) (by rw [hrank, if_pos rfl])
    refine ⟨hvalid, hlength.trans hlen, ra, Or.inl rfl, ?_⟩
    intro y
    rw [hlink, hroots]
    by_cases hyb : u.root y = rb
    · rw [if_pos hyb, if_pos (Or.inr hyb)]
    · rw [if_neg hyb]
      split_ifs with hy
      · exact hy.resolve_right hyb
      · rfl

/-! ## Connected sets -/

theorem up_new (n x : ℕ) : (new n).up x = x := by
  simp only [up, new]
  by_cases hx : x < n
  · simp [hx]
  · simp [Nat.not_lt.mp hx]

theorem valid_new (n : ℕ) : (new n).Valid := by
  refine ⟨by simp [new], ?_, ?_, ?_⟩
  · intro x hx
    rw [up_new]
    exact hx
  · intro x hx
    exact absurd (up_new n x) hx
  · intro x
    have hrank : (new n).rankOf x = 0 := by
      simp only [rankOf, new]
      by_cases hx : x < n
      · simp [hx]
      · simp [Nat.not_lt.mp hx]
    rw [hrank, Nat.zero_add]
    refine (Finset.card_filter_le _ _).trans ?_
    simp

def connect (n : ℕ) (links : List (ℕ × ℕ)) : UnionFind :=
  links.foldl (fun u link => u.union link.1 link.2) (new n)

/-- Two numbers get the same root exactly when links connect them. -/
theorem connect_spec (n : ℕ) (links : List (ℕ × ℕ)) (hlinks : ∀ l ∈ links, l.1 < n ∧ l.2 < n) :
    (connect n links).Valid ∧ (connect n links).parent.length = n
      ∧ ∀ x y, (connect n links).root x = (connect n links).root y
        ↔ Relation.EqvGen (fun a b => (a, b) ∈ links) x y := by
  induction links using List.reverseRecOn with
  | nil =>
      refine ⟨valid_new n, by simp [connect, new], ?_⟩
      intro x y
      rw [connect, List.foldl_nil, root_of_up_eq (up_new n x), root_of_up_eq (up_new n y)]
      constructor
      · rintro rfl
        exact Relation.EqvGen.refl _
      · intro h
        induction h with
        | rel a b hab => cases hab
        | refl a => rfl
        | symm a b _ ih => exact ih.symm
        | trans a b c _ _ ih ih' => exact ih.trans ih'
  | append_singleton links l ih =>
      obtain ⟨hvalid, hlen, hiff⟩ := ih fun l' hl' => hlinks l' (List.mem_append_left _ hl')
      obtain ⟨h₁, h₂⟩ := hlinks l (List.mem_append_right _ (List.mem_singleton.mpr rfl))
      have hfold : connect n (links ++ [l]) = (connect n links).union l.1 l.2 := by
        rw [connect, List.foldl_append]
        rfl
      obtain ⟨hvalid', hlen', c, hc, hroot⟩ :=
        union_spec hvalid (hlen.symm ▸ h₁) (hlen.symm ▸ h₂)
      rw [hfold]
      refine ⟨hvalid', hlen'.trans hlen, ?_⟩
      have hmono : ∀ x y, Relation.EqvGen (fun a b => (a, b) ∈ links) x y →
          Relation.EqvGen (fun a b => (a, b) ∈ links ++ [l]) x y := fun x y =>
        Relation.EqvGen.mono (fun a b (hab : (a, b) ∈ links) => List.mem_append_left [l] hab) x y
      have hlink : Relation.EqvGen (fun a b => (a, b) ∈ links ++ [l]) l.1 l.2 :=
        Relation.EqvGen.rel _ _ (List.mem_append_right _ (List.mem_singleton.mpr rfl))
      -- every number of the united sets is connected to the first end of the new link
      have hmerged : ∀ x, (connect n links).root x = (connect n links).root l.1
            ∨ (connect n links).root x = (connect n links).root l.2 →
          Relation.EqvGen (fun a b => (a, b) ∈ links ++ [l]) x l.1 := by
        intro x hx
        rcases hx with hx | hx
        · exact hmono _ _ ((hiff _ _).mp hx)
        · exact (hmono _ _ ((hiff _ _).mp hx)).trans _ _ _ hlink.symm
      intro x y
      constructor
      · intro h
        rw [hroot, hroot] at h
        split_ifs at h with hx hy hy
        · exact (hmerged x hx).trans _ _ _ (hmerged y hy).symm
        · exact absurd (hc.imp (fun hc => (h.symm.trans hc)) fun hc => h.symm.trans hc) hy
        · exact absurd (hc.imp (fun hc => (h.trans hc)) fun hc => h.trans hc) hx
        · exact hmono _ _ ((hiff _ _).mp h)
      · intro h
        induction h with
        | rel a b hab =>
            rcases List.mem_append.mp hab with hab | hab
            · have heq := (hiff a b).mpr (Relation.EqvGen.rel _ _ hab)
              rw [hroot, hroot, heq]
            · obtain rfl := List.mem_singleton.mp hab
              rw [hroot, hroot, if_pos (Or.inl rfl), if_pos (Or.inr rfl)]
        | refl a => rfl
        | symm a b _ ih => exact ih.symm
        | trans a b c _ _ ih ih' => exact ih.trans ih'

end UnionFind

end Cawala.Library
