import Mathlib

/-! # Unbalanced Merkle trees

The tree of RFC 6962 over an arbitrary node function: a list of at least two leaves is
split at the largest power of two below its length. A path is a list of sides and
siblings from the leaf to the root. -/

namespace Cawala.Library.Merkle

/-! ## The split point -/

/-- The largest power of two strictly below `n`, for `n ≥ 2`. -/
def split (n : ℕ) : ℕ := 2 ^ Nat.log 2 (n - 1)

theorem split_pos (n : ℕ) : 0 < split n := Nat.two_pow_pos _

theorem split_lt {n : ℕ} (h : 2 ≤ n) : split n < n := by
  have : split n ≤ n - 1 := Nat.pow_log_le_self 2 (by omega)
  omega

theorem le_two_mul_split {n : ℕ} (h : 2 ≤ n) : n ≤ 2 * split n := by
  have hlt : n - 1 < 2 ^ (Nat.log 2 (n - 1) + 1) := Nat.lt_pow_succ_log_self (by norm_num) _
  rw [pow_succ] at hlt
  simp only [split]
  omega

theorem split_eq {n j : ℕ} (hlo : 2 ^ j < n) (hhi : n ≤ 2 ^ (j + 1)) : split n = 2 ^ j := by
  have hne : n - 1 ≠ 0 := by
    have := Nat.two_pow_pos j
    omega
  have : Nat.log 2 (n - 1) = j :=
    (Nat.log_eq_iff (Or.inr ⟨by norm_num, hne⟩)).mpr ⟨by omega, by omega⟩
  rw [split, this]

/-- From three leaves on, the split point is even and halves with the tree. -/
theorem split_half {n : ℕ} (h : 3 ≤ n) :
    split n % 2 = 0 ∧ split ((n + 1) / 2) = split n / 2 := by
  obtain ⟨j, hj⟩ : ∃ j, split n = 2 ^ j := ⟨_, rfl⟩
  have hlt := split_lt (n := n) (by omega)
  have hle := le_two_mul_split (n := n) (by omega)
  cases j with
  | zero => omega
  | succ j =>
      rw [pow_succ] at hj
      refine ⟨by omega, ?_⟩
      rw [split_eq (j := j) (by omega) (by rw [pow_succ]; omega)]
      omega

/-! ## Sides of a leaf -/

/-- The halves that contain a leaf, from the root down; `true` is the right half. -/
def sides (n i : ℕ) : List Bool :=
  if _h : 2 ≤ n then
    if i < split n then false :: sides (split n) i
    else true :: sides (n - split n) (i - split n)
  else []
termination_by n
decreasing_by
  · exact split_lt ‹_›
  · have := split_pos n
    omega

theorem sides_of_lt {n : ℕ} (h : n < 2) (i : ℕ) : sides n i = [] := by
  rw [sides]
  simp [show ¬ 2 ≤ n by omega]

theorem sides_left {n i : ℕ} (h : 2 ≤ n) (hi : i < split n) :
    sides n i = false :: sides (split n) i := by
  rw [sides]
  simp [h, hi]

theorem sides_right {n i : ℕ} (h : 2 ≤ n) (hi : split n ≤ i) :
    sides n i = true :: sides (n - split n) (i - split n) := by
  rw [sides]
  simp [h, show ¬ i < split n by omega]

theorem sides_eq_nil_iff {n i : ℕ} : sides n i = [] ↔ n < 2 := by
  constructor
  · intro h
    by_contra hn
    by_cases hi : i < split n
    · rw [sides_left (by omega) hi] at h
      cases h
    · rw [sides_right (by omega) (by omega)] at h
      cases h
  · exact fun h => sides_of_lt h i

/-- The level above the leaves: what the lowest step of a path is, and where it leads.
A last leaf without a partner moves up unchanged. -/
theorem sides_bottom {n i : ℕ} (hn : 2 ≤ n) (hi : i < n) :
    sides n i = sides ((n + 1) / 2) (i / 2)
      ++ if i % 2 = 1 ∨ i + 1 < n then [decide (i % 2 = 1)] else [] := by
  induction n using Nat.strong_induction_on generalizing i with
  | _ n ih =>
      have hlt := split_lt hn
      have hle := le_two_mul_split hn
      have hpos := split_pos n
      by_cases htwo : n = 2
      · -- two leaves: one step, and a single node above
        subst htwo
        have hs : split 2 = 1 := by decide
        by_cases h0 : i < 1
        · obtain rfl : i = 0 := by omega
          rw [sides_left (by omega) (by omega), hs, sides_of_lt (by omega)]
          rfl
        · obtain rfl : i = 1 := by omega
          rw [sides_right (by omega) (by omega), hs, sides_of_lt (by omega)]
          rfl
      · obtain ⟨heven, hhalf⟩ := split_half (n := n) (by omega)
        by_cases hside : i < split n
        · -- the left subtree is complete, so its leaves are all paired
          have hsub : sides (split n) i = sides (split n / 2) (i / 2) ++ [decide (i % 2 = 1)] := by
            have hstep := ih (split n) hlt (by omega) hside
            rw [if_pos (by omega), show (split n + 1) / 2 = split n / 2 by omega] at hstep
            exact hstep
          rw [sides_left hn hside, hsub, sides_left (n := (n + 1) / 2) (by omega) (by omega), hhalf,
            if_pos (by omega)]
          rfl
        · rw [sides_right hn (by omega),
            sides_right (n := (n + 1) / 2) (i := i / 2) (by omega) (by omega), hhalf]
          have hn' : (n + 1) / 2 - split n / 2 = (n - split n + 1) / 2 := by omega
          have hi' : i / 2 - split n / 2 = (i - split n) / 2 := by omega
          have hmod : (i - split n) % 2 = i % 2 := by omega
          rw [hn', hi']
          by_cases hone : n - split n < 2
          · -- the right subtree is the unpaired last leaf
            rw [sides_of_lt hone, sides_of_lt (by omega), if_neg (by omega)]
            rfl
          · rw [ih (n - split n) (by omega) (by omega) (by omega), hmod]
            have hiff : (i % 2 = 1 ∨ i - split n + 1 < n - split n)
                ↔ (i % 2 = 1 ∨ i + 1 < n) := by omega
            simp only [hiff, List.cons_append]

/-- A tree of at most `2 ^ j` leaves has at most `j` levels. -/
theorem length_sides_le {n i j : ℕ} (h : n ≤ 2 ^ j) : (sides n i).length ≤ j := by
  induction j generalizing n i with
  | zero => simp [sides_of_lt (by omega : n < 2)]
  | succ j ih =>
      by_cases hn : 2 ≤ n
      · have hlt := split_lt hn
        have hle := le_two_mul_split hn
        have hsplit : split n ≤ 2 ^ j := by
          obtain ⟨m, hm⟩ : ∃ m, split n = 2 ^ m := ⟨_, rfl⟩
          rw [hm] at hlt ⊢
          have : m < j + 1 := (Nat.pow_lt_pow_iff_right (a := 2) (by norm_num)).mp (by omega)
          exact Nat.pow_le_pow_right (by norm_num) (by omega)
        by_cases hi : i < split n
        · rw [sides_left hn hi, List.length_cons]
          have := ih (i := i) hsplit
          omega
        · rw [sides_right hn (by omega), List.length_cons]
          have := ih (n := n - split n) (i := i - split n) (by omega)
          omega
      · simp [sides_of_lt (by omega : n < 2)]

/-! ## Climbing a path -/

variable {H : Type*}

/-- Hash a leaf up along a path of sides and siblings, lowest first. -/
def climb (node : H → H → H) : H → List (Bool × H) → H
  | x, [] => x
  | x, (right, sibling) :: rest =>
      climb node (if right then node sibling x else node x sibling) rest

/-- The last step of a path is at the root. -/
theorem climb_append_singleton (node : H → H → H) (x sibling : H) (right : Bool)
    (path : List (Bool × H)) :
    climb node x (path ++ [(right, sibling)])
      = if right then node sibling (climb node x path) else node (climb node x path) sibling := by
  induction path generalizing x with
  | nil => rfl
  | cons step path ih => exact ih _

/-- A hash of leaf lists that branches somewhere inside every longer list. -/
structure IsBranching (node : H → H → H) (tree : List H → H) : Prop where
  singleton : ∀ x, tree [x] = x
  branch : ∀ l : List H, 2 ≤ l.length → ∃ k, 0 < k ∧ k < l.length
    ∧ tree l = node (tree (l.take k)) (tree (l.drop k))

/-- A hash of leaf lists that follows the split on lists of at most `limit` leaves. -/
structure IsTreeHash (node : H → H → H) (tree : List H → H) (limit : ℕ) : Prop where
  singleton : ∀ x, tree [x] = x
  branch : ∀ l : List H, 2 ≤ l.length → l.length ≤ limit →
    tree l = node (tree (l.take (split l.length))) (tree (l.drop (split l.length)))

/-- Whatever the sides, a value that is no node and climbs to the root of a tree whose
leaves are no nodes is one of the leaves. -/
theorem IsBranching.mem_of_climb {node : H → H → H} {tree : List H → H}
    (htree : IsBranching node tree) (hinj : ∀ a b c d, node a b = node c d → a = c ∧ b = d)
    {leaves : List H} (hne : leaves ≠ []) (hleaves : ∀ y ∈ leaves, ∀ a b, y ≠ node a b) {x : H}
    (hx : ∀ a b, x ≠ node a b) {path : List (Bool × H)}
    (hroot : climb node x path = tree leaves) : x ∈ leaves := by
  induction hn : leaves.length using Nat.strong_induction_on generalizing leaves path with
  | _ n ih =>
      subst hn
      have hpos : 0 < leaves.length := List.length_pos_iff.mpr hne
      induction path using List.reverseRecOn with
      | nil =>
          -- the value is the root itself, so the tree is a single leaf
          by_cases hone : leaves.length < 2
          · obtain ⟨y, rfl⟩ := List.length_eq_one_iff.mp (by omega : leaves.length = 1)
            rw [htree.singleton] at hroot
            simpa [climb] using hroot
          · obtain ⟨k, -, -, hbranch⟩ := htree.branch leaves (by omega)
            rw [hbranch] at hroot
            exact absurd hroot (hx _ _)
      | append_singleton path step _ =>
          obtain ⟨right, sibling⟩ := step
          rw [climb_append_singleton] at hroot
          by_cases hone : leaves.length < 2
          · obtain ⟨y, rfl⟩ := List.length_eq_one_iff.mp (by omega : leaves.length = 1)
            rw [htree.singleton] at hroot
            cases right with
            | true => exact absurd hroot.symm (hleaves y (by simp) _ _)
            | false => exact absurd hroot.symm (hleaves y (by simp) _ _)
          · obtain ⟨k, hk, hlt, hbranch⟩ := htree.branch leaves (by omega)
            rw [hbranch] at hroot
            cases right with
            | true =>
                have hright := (hinj _ _ _ _ hroot).2
                refine List.mem_of_mem_drop (ih _ ?_ ?_ ?_ hright rfl)
                · rw [List.length_drop]
                  omega
                · exact List.ne_nil_of_length_pos (by rw [List.length_drop]; omega)
                · exact fun y hy => hleaves y (List.mem_of_mem_drop hy)
            | false =>
                have hleft := (hinj _ _ _ _ hroot).1
                refine List.mem_of_mem_take (ih _ ?_ ?_ ?_ hleft rfl)
                · rw [List.length_take]
                  omega
                · exact List.ne_nil_of_length_pos (by rw [List.length_take]; omega)
                · exact fun y hy => hleaves y (List.mem_of_mem_take hy)

/-- A root commits to its leaves: lists of leaves that are no nodes, and not the hash of the
empty list, have one root only when they are equal. Their lengths need not be known. -/
theorem IsBranching.injective {node : H → H → H} {tree : List H → H}
    (htree : IsBranching node tree) (hinj : ∀ a b c d, node a b = node c d → a = c ∧ b = d)
    (hempty : ∀ a b, tree [] ≠ node a b) {leaves leaves' : List H}
    (hleaves : ∀ y ∈ leaves, y ≠ tree [] ∧ ∀ a b, y ≠ node a b)
    (hleaves' : ∀ y ∈ leaves', y ≠ tree [] ∧ ∀ a b, y ≠ node a b)
    (hroot : tree leaves = tree leaves') : leaves = leaves' := by
  induction hn : leaves.length using Nat.strong_induction_on generalizing leaves leaves' with
  | _ n ih =>
      subst hn
      match leaves, leaves' with
      | [], [] => rfl
      | [], [y] =>
          rw [htree.singleton] at hroot
          exact absurd hroot.symm (hleaves' y (by simp)).1
      | [x], [] =>
          rw [htree.singleton] at hroot
          exact absurd hroot (hleaves x (by simp)).1
      | [x], [y] =>
          rw [htree.singleton, htree.singleton] at hroot
          rw [hroot]
      | [], y :: y' :: ys =>
          obtain ⟨k, -, -, hbranch⟩ := htree.branch (y :: y' :: ys) (by simp)
          exact absurd (hroot.trans hbranch) (hempty _ _)
      | x :: x' :: xs, [] =>
          obtain ⟨k, -, -, hbranch⟩ := htree.branch (x :: x' :: xs) (by simp)
          exact absurd (hroot.symm.trans hbranch) (hempty _ _)
      | [x], y :: y' :: ys =>
          obtain ⟨k, -, -, hbranch⟩ := htree.branch (y :: y' :: ys) (by simp)
          rw [htree.singleton] at hroot
          exact absurd (hroot.trans hbranch) ((hleaves x (by simp)).2 _ _)
      | x :: x' :: xs, [y] =>
          obtain ⟨k, -, -, hbranch⟩ := htree.branch (x :: x' :: xs) (by simp)
          rw [htree.singleton] at hroot
          exact absurd (hroot.symm.trans hbranch) ((hleaves' y (by simp)).2 _ _)
      | x :: x' :: xs, y :: y' :: ys =>
          -- the halves agree pairwise, wherever the two lists were cut
          obtain ⟨k, hpos, hlt, hbranch⟩ := htree.branch (x :: x' :: xs) (by simp)
          obtain ⟨k', hpos', hlt', hbranch'⟩ := htree.branch (y :: y' :: ys) (by simp)
          rw [hbranch, hbranch'] at hroot
          obtain ⟨hleft, hright⟩ := hinj _ _ _ _ hroot
          have htake : (x :: x' :: xs).take k = (y :: y' :: ys).take k' := by
            refine ih _ ?_ ?_ ?_ hleft rfl
            · rw [List.length_take]
              omega
            · exact fun z hz => hleaves z (List.mem_of_mem_take hz)
            · exact fun z hz => hleaves' z (List.mem_of_mem_take hz)
          have hdrop : (x :: x' :: xs).drop k = (y :: y' :: ys).drop k' := by
            refine ih _ ?_ ?_ ?_ hright rfl
            · rw [List.length_drop]
              omega
            · exact fun z hz => hleaves z (List.mem_of_mem_drop hz)
            · exact fun z hz => hleaves' z (List.mem_of_mem_drop hz)
          rw [← List.take_append_drop k (x :: x' :: xs), htake, hdrop, List.take_append_drop]

namespace IsTreeHash

variable {node : H → H → H} {tree : List H → H} {limit : ℕ}

/-- A path with the sides of an index, climbed to the root of a tree, starts at the leaf
of that index. -/
theorem getElem?_of_climb (htree : IsTreeHash node tree limit)
    (hinj : ∀ a b c d, node a b = node c d → a = c ∧ b = d) {leaves : List H}
    (hlimit : leaves.length ≤ limit) {i : ℕ} (hi : i < leaves.length) {x : H}
    {path : List (Bool × H)} (hsides : path.map Prod.fst = (sides leaves.length i).reverse)
    (hroot : climb node x path = tree leaves) : leaves[i]? = some x := by
  induction hn : leaves.length using Nat.strong_induction_on generalizing leaves i path with
  | _ n ih =>
      subst hn
      by_cases hone : leaves.length < 2
      · obtain ⟨y, rfl⟩ := List.length_eq_one_iff.mp (by omega : leaves.length = 1)
        obtain rfl : i = 0 := by simpa using hi
        rw [sides_of_lt hone] at hsides
        obtain rfl : path = [] := by simpa using hsides
        rw [htree.singleton] at hroot
        simpa [climb] using hroot.symm
      · have hlt := split_lt (n := leaves.length) (by omega)
        rw [htree.branch leaves (by omega) hlimit] at hroot
        by_cases hside : i < split leaves.length
        · -- the root step has the leaf on the left
          rw [sides_left (by omega) hside, List.reverse_cons] at hsides
          obtain ⟨path, last, rfl, hpath, hlast⟩ := List.map_eq_append_iff.mp hsides
          obtain ⟨⟨right, sibling⟩, rfl⟩ := List.length_eq_one_iff.mp
            (by simpa using congrArg List.length hlast)
          obtain rfl : right = false := by simpa using hlast
          rw [climb_append_singleton] at hroot
          have hleft := (hinj _ _ _ _ hroot).1
          have hlen : (leaves.take (split leaves.length)).length = split leaves.length := by
            simp
            omega
          have := ih _ (by rw [hlen]; exact hlt) (by rw [hlen]; omega) (by rw [hlen]; omega)
            (by rw [hlen]; exact hpath) hleft rfl
          rwa [List.getElem?_take_of_lt hside] at this
        · rw [sides_right (by omega) (by omega), List.reverse_cons] at hsides
          obtain ⟨path, last, rfl, hpath, hlast⟩ := List.map_eq_append_iff.mp hsides
          obtain ⟨⟨right, sibling⟩, rfl⟩ := List.length_eq_one_iff.mp
            (by simpa using congrArg List.length hlast)
          obtain rfl : right = true := by simpa using hlast
          rw [climb_append_singleton] at hroot
          have hright := (hinj _ _ _ _ hroot).2
          have hpos := split_pos leaves.length
          have hlen : (leaves.drop (split leaves.length)).length
              = leaves.length - split leaves.length := by simp
          have := ih _ (by rw [hlen]; omega) (by rw [hlen]; omega) (i := i - split leaves.length)
            (by rw [hlen]; omega) (by rw [hlen]; exact hpath) hright rfl
          rw [List.getElem?_drop] at this
          rwa [show split leaves.length + (i - split leaves.length) = i by omega] at this

end IsTreeHash

/-! ## Audit paths -/

def siblings (tree : List H → H) (leaves : List H) (i : ℕ) : List H :=
  if _h : 2 ≤ leaves.length then
    if i < split leaves.length then
      tree (leaves.drop (split leaves.length))
        :: siblings tree (leaves.take (split leaves.length)) i
    else
      tree (leaves.take (split leaves.length))
        :: siblings tree (leaves.drop (split leaves.length)) (i - split leaves.length)
  else []
termination_by leaves.length
decreasing_by
  · have := split_lt ‹_›
    simp
    omega
  · have := split_pos leaves.length
    simp
    omega

theorem length_siblings (tree : List H → H) (leaves : List H) (i : ℕ) :
    (siblings tree leaves i).length = (sides leaves.length i).length := by
  fun_induction siblings tree leaves i with
  | case1 leaves i h hi ih =>
      have := split_lt h
      rw [sides_left h hi, List.length_cons, List.length_cons, ih, List.length_take,
        Nat.min_eq_left (by omega)]
  | case2 leaves i h hi ih =>
      rw [sides_right h (by omega), List.length_cons, List.length_cons, ih, List.length_drop]
  | case3 leaves i h => rw [sides_of_lt (by omega)]; rfl

/-- The audit path of a leaf climbs to the root. -/
theorem IsTreeHash.climb_siblings {node : H → H → H} {tree : List H → H} {limit : ℕ}
    (htree : IsTreeHash node tree limit) (leaves : List H) (hlimit : leaves.length ≤ limit)
    (i : ℕ) (x : H) (hx : leaves[i]? = some x) :
    climb node x ((sides leaves.length i).zip (siblings tree leaves i)).reverse
      = tree leaves := by
  fun_induction siblings tree leaves i with
  | case1 leaves i h hi ih =>
      have hlt := split_lt h
      have hlen : (leaves.take (split leaves.length)).length = split leaves.length := by
        simp
        omega
      have hrec := ih (by rw [hlen]; omega) (by rw [List.getElem?_take_of_lt hi]; exact hx)
      rw [hlen] at hrec
      rw [sides_left h hi, List.zip_cons_cons, List.reverse_cons, climb_append_singleton, hrec,
        htree.branch leaves h hlimit]
      rfl
  | case2 leaves i h hi ih =>
      have hget : (leaves.drop (split leaves.length))[i - split leaves.length]? = some x := by
        rw [List.getElem?_drop, show split leaves.length + (i - split leaves.length) = i by omega]
        exact hx
      have hrec := ih (by simp; omega) hget
      rw [List.length_drop] at hrec
      rw [sides_right h (by omega), List.zip_cons_cons, List.reverse_cons,
        climb_append_singleton, hrec, htree.branch leaves h hlimit]
      rfl
  | case3 leaves i h =>
      have hi : i < leaves.length := (List.getElem?_eq_some_iff.mp hx).1
      obtain ⟨y, rfl⟩ := List.length_eq_one_iff.mp (by omega : leaves.length = 1)
      obtain rfl : i = 0 := by simpa using hi
      rw [sides_of_lt (by omega), htree.singleton]
      simpa [climb] using hx.symm

end Cawala.Library.Merkle
