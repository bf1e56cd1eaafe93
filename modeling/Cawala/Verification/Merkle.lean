import Cawala.Library.MerkleTree
import Cawala.Model.Commit

/-! # The Merkle code against the tree it walks

`root` splits as the tree does, the bit walk of the verifier follows the sides of the
index, and the prover's loop emits the sibling roots. -/

namespace Cawala

open Library Library.Merkle

/-! ## The power-of-two loop -/

theorem Target.one_lt_usizeBits (target : Target) : 1 < target.usizeBits := by
  cases target <;> decide

theorem Target.usizeBits_le (target : Target) : target.usizeBits ≤ 64 := by
  cases target <;> decide

theorem powerLoop_eq {bits fuel n j : ℕ} (hn : n ≤ 2 ^ (bits - 1)) (hj : 2 ^ j < n)
    (hfuel : bits ≤ fuel + j) : powerLoop bits fuel n (2 ^ j) = some (split n) := by
  have hlt : j < bits - 1 := (Nat.pow_lt_pow_iff_right (a := 2) (by norm_num)).mp (by omega)
  have hmod : 2 ^ j * 2 % 2 ^ bits = 2 ^ (j + 1) := by
    rw [← pow_succ]
    exact Nat.mod_eq_of_lt (Nat.pow_lt_pow_right (by norm_num) (by omega))
  induction fuel generalizing j with
  | zero => omega
  | succ fuel ih =>
      rw [powerLoop, hmod]
      by_cases hnext : 2 ^ (j + 1) < n
      · have hlt' : j + 1 < bits - 1 :=
          (Nat.pow_lt_pow_iff_right (a := 2) (by norm_num)).mp (by omega)
        rw [if_pos hnext]
        refine ih hnext (by omega) hlt' ?_
        rw [← pow_succ]
        exact Nat.mod_eq_of_lt (Nat.pow_lt_pow_right (by norm_num) (by omega))
      · rw [if_neg hnext, split_eq hj (by omega)]

/-- Up to half the range of `usize` the loop finds the split point. -/
theorem largestPowerOfTwoLessThan_eq (target : Target) {n : ℕ} (h2 : 2 ≤ n)
    (hn : n ≤ 2 ^ (target.usizeBits - 1)) :
    largestPowerOfTwoLessThan target n = some (split n) := by
  rw [largestPowerOfTwoLessThan, show (1 : ℕ) = 2 ^ 0 from rfl]
  exact powerLoop_eq hn (by omega) (by omega)

/-- Beyond that the loop never ends: every value it reaches is a power of two of the lower
half, or zero. -/
theorem powerLoop_none {bits fuel n k : ℕ} (hbits : 0 < bits) (hn : 2 ^ (bits - 1) < n)
    (hk : k = 0 ∨ ∃ j < bits, k = 2 ^ j) : powerLoop bits fuel n k = none := by
  induction fuel generalizing k with
  | zero => rfl
  | succ fuel ih =>
      have hnext : k * 2 % 2 ^ bits = 0 ∨ ∃ j < bits, k * 2 % 2 ^ bits = 2 ^ j := by
        rcases hk with rfl | ⟨j, hj, rfl⟩
        · left
          simp
        · rw [← pow_succ]
          rcases Nat.lt_or_ge (j + 1) bits with hlt | hge
          · right
            exact ⟨j + 1, hlt, Nat.mod_eq_of_lt (Nat.pow_lt_pow_right (by norm_num) hlt)⟩
          · left
            rw [show j + 1 = bits by omega, Nat.mod_self]
      have hle : k * 2 % 2 ^ bits ≤ 2 ^ (bits - 1) := by
        rcases hnext with h | ⟨j, hj, h⟩
        · rw [h]
          exact Nat.zero_le _
        · rw [h]
          exact Nat.pow_le_pow_right (by norm_num) (by omega)
      rw [powerLoop, if_pos (by omega)]
      exact ih hnext

theorem largestPowerOfTwoLessThan_none (target : Target) {n : ℕ}
    (hn : 2 ^ (target.usizeBits - 1) < n) : largestPowerOfTwoLessThan target n = none := by
  have hbits := target.one_lt_usizeBits
  exact powerLoop_none (by omega) hn (Or.inr ⟨0, by omega, rfl⟩)

theorem slicePower_eq {n : ℕ} (h2 : 2 ≤ n) (hn : n ≤ 2 ^ 63) : slicePower n = split n := by
  rw [slicePower, largestPowerOfTwoLessThan_eq .native64 h2 hn]
  rfl

theorem slicePower_bounds {n : ℕ} (h2 : 2 ≤ n) : 0 < slicePower n ∧ slicePower n < n := by
  by_cases hn : n ≤ 2 ^ 63
  · rw [slicePower_eq h2 hn]
    exact ⟨split_pos n, split_lt h2⟩
  · have hnone : largestPowerOfTwoLessThan .native64 n = none :=
      largestPowerOfTwoLessThan_none .native64 (by simp only [Target.usizeBits]; omega)
    rw [slicePower, hnone, Option.getD_none]
    omega

/-! ## Path lengths -/

/-- Each round descends one level, so `j + 1` rounds measure a tree of `2 ^ j` leaves. -/
theorem proofLenLoop_eq (target : Target) {fuel lo hi idx depth j : ℕ}
    (hj : hi - lo ≤ 2 ^ j) (hfuel : j < fuel) (hmax : hi - lo ≤ 2 ^ (target.usizeBits - 1)) :
    proofLenLoop target fuel lo hi idx depth = some (depth + (sides (hi - lo) idx).length) := by
  induction j generalizing fuel lo hi idx depth with
  | zero =>
      cases fuel with
      | zero => omega
      | succ fuel =>
          have hone : hi - lo < 2 := by
            simp only [pow_zero] at hj
            omega
          rw [proofLenLoop, if_neg (by omega), sides_of_lt hone]
          rfl
  | succ j ih =>
      cases fuel with
      | zero => omega
      | succ fuel =>
          rw [proofLenLoop]
          by_cases htwo : hi - lo > 1
          · have hlt := split_lt (n := hi - lo) (by omega)
            have hle := le_two_mul_split (n := hi - lo) (by omega)
            have hpow : split (hi - lo) ≤ 2 ^ j := by
              obtain ⟨m, hm⟩ : ∃ m, split (hi - lo) = 2 ^ m := ⟨_, rfl⟩
              rw [hm] at hlt ⊢
              have : m < j + 1 := (Nat.pow_lt_pow_iff_right (a := 2) (by norm_num)).mp (by omega)
              exact Nat.pow_le_pow_right (by norm_num) (by omega)
            rw [if_pos htwo, largestPowerOfTwoLessThan_eq target (by omega) hmax]
            by_cases hside : idx < split (hi - lo)
            · have hsub : lo + split (hi - lo) - lo = split (hi - lo) := by omega
              simp only [hside, ↓reduceIte]
              rw [ih (by omega) (by omega) (by omega), hsub,
                sides_left (n := hi - lo) (by omega) hside, List.length_cons]
              congr 1
              omega
            · have hsub : hi - (lo + split (hi - lo)) = hi - lo - split (hi - lo) := by omega
              simp only [hside, ↓reduceIte]
              rw [ih (by omega) (by omega) (by omega), hsub,
                sides_right (n := hi - lo) (i := idx) (by omega) (by omega), List.length_cons]
              congr 1
              omega
          · rw [if_neg htwo, sides_of_lt (by omega)]
            rfl

theorem proofLen_eq (target : Target) {index treeSize : ℕ}
    (hmax : treeSize ≤ 2 ^ (target.usizeBits - 1)) :
    proofLen target index treeSize = some (sides treeSize index).length := by
  rw [proofLen, proofLenLoop_eq target (j := target.usizeBits - 1) hmax (by omega) hmax]
  simp

theorem proofLen_none (target : Target) {index treeSize : ℕ}
    (hmax : 2 ^ (target.usizeBits - 1) < treeSize) : proofLen target index treeSize = none := by
  have hpos : 2 ≤ 2 ^ (target.usizeBits - 1) := by
    calc 2 = 2 ^ 1 := rfl
      _ ≤ 2 ^ (target.usizeBits - 1) :=
        Nat.pow_le_pow_right (by norm_num) (by have := target.one_lt_usizeBits; omega)
  rw [proofLen, proofLenLoop, if_pos (by omega), Nat.sub_zero,
    largestPowerOfTwoLessThan_none target hmax]

/-! ## The bit walk -/

/-- Doubling back: an unpaired last leaf has the sides of the leaf it moves up to. -/
theorem shiftLoop_last {fuel m : ℕ} (hm : m ≠ 0) (hfuel : m ≤ fuel) :
    ∃ k, shiftLoop fuel m m = (k, k) ∧ k % 2 = 1 ∧ sides (m + 1) m = sides (k + 1) k := by
  induction fuel generalizing m with
  | zero => omega
  | succ fuel ih =>
      by_cases hodd : m % 2 = 1
      · exact ⟨m, by simp [shiftLoop, hodd], hodd, rfl⟩
      · obtain ⟨k, hk, hkodd, hsides⟩ := ih (m := m / 2) (by omega) (by omega)
        refine ⟨k, ?_, hkodd, ?_⟩
        · rw [shiftLoop, if_pos ⟨by omega, hm⟩]
          exact hk
        · rw [sides_bottom (by omega) (by omega), if_neg (by omega), List.append_nil,
            show (m + 1 + 1) / 2 = m / 2 + 1 by omega]
          exact hsides

variable [Crypto]

/-- The walk accepts exactly the paths whose sides are those of the index, climbed to the
root. -/
theorem walkPath_iff (root : Hash) (proof : List Hash) (x : Hash) (fn sn : ℕ) (h : fn ≤ sn) :
    walkPath root proof x fn sn = true
      ↔ proof.length = (sides (sn + 1) fn).length
        ∧ climb nodeHash x ((sides (sn + 1) fn).reverse.zip proof) = root := by
  induction proof generalizing x fn sn with
  | nil =>
      have hnil : (sides (sn + 1) fn).length = 0 ↔ sn = 0 := by
        rw [List.length_eq_zero_iff, sides_eq_nil_iff]
        omega
      simp only [walkPath, Bool.and_eq_true, beq_iff_eq, List.length_nil, List.zip_nil_right, climb,
        eq_comm (a := 0), hnil]
  | cons sibling rest ih =>
      by_cases hzero : sn = 0
      · rw [walkPath, if_pos hzero, sides_of_lt (by omega)]
        simp
      · -- the lowest step and the position above it
        obtain ⟨right, fn', sn', hle, hstep, hsides⟩ : ∃ right fn' sn', fn' ≤ sn'
            ∧ walkPath root (sibling :: rest) x fn sn = walkPath root rest
                (if right then nodeHash sibling x else nodeHash x sibling) fn' sn'
            ∧ sides (sn + 1) fn = sides (sn' + 1) fn' ++ [right] := by
          by_cases hodd : fn % 2 = 1
          · refine ⟨true, fn / 2, sn / 2, by omega, ?_, ?_⟩
            · simp [walkPath, hzero, hodd]
            · rw [sides_bottom (by omega) (by omega), if_pos (Or.inl hodd), hodd,
                show (sn + 1 + 1) / 2 = sn / 2 + 1 by omega]
              rfl
          · by_cases hlast : fn = sn
            · subst hlast
              obtain ⟨k, hk, hkodd, hsides⟩ := shiftLoop_last hzero le_rfl
              refine ⟨true, k / 2, k / 2, le_rfl, ?_, ?_⟩
              · simp [walkPath, hzero, hk, show fn % 2 = 0 by omega]
              · rw [hsides, sides_bottom (by omega) (by omega), if_pos (Or.inl hkodd), hkodd,
                  show (k + 1 + 1) / 2 = k / 2 + 1 by omega]
                rfl
            · refine ⟨false, fn / 2, sn / 2, by omega, ?_, ?_⟩
              · simp [walkPath, hzero, hodd, hlast]
              · rw [sides_bottom (by omega) (by omega), if_pos (Or.inr (by omega)),
                  show (sn + 1 + 1) / 2 = sn / 2 + 1 by omega]
                simp [hodd]
        rw [hstep, ih _ _ _ hle, hsides]
        simp [climb]

theorem verifyInclusion_iff (target : Target) (leaf : Hash) (index treeSize : ℕ)
    (proof : List Hash) (root : Hash) :
    verifyInclusion target leaf index treeSize proof root = some true
      ↔ treeSize ≤ 2 ^ (target.usizeBits - 1) ∧ index < treeSize
        ∧ proof.length = (sides treeSize index).length
        ∧ climb nodeHash leaf ((sides treeSize index).reverse.zip proof) = root := by
  rw [verifyInclusion]
  by_cases hrange : treeSize = 0 ∨ index ≥ treeSize
  · rw [if_pos hrange]
    simp
    omega
  · rw [if_neg hrange]
    by_cases hmax : treeSize ≤ 2 ^ (target.usizeBits - 1)
    · have hwalk := walkPath_iff root proof leaf index (treeSize - 1) (by omega)
      rw [show treeSize - 1 + 1 = treeSize by omega] at hwalk
      rw [proofLen_eq target hmax]
      by_cases hlen : proof.length = (sides treeSize index).length
      · simp only [hlen, ne_eq, not_true_eq_false, ↓reduceIte, Option.some.injEq, hwalk, hmax,
          true_and]
        exact ⟨fun h => ⟨by omega, h⟩, fun h => h.2⟩
      · simp [hlen]
    · rw [proofLen_none target (by omega)]
      simp [hmax]

/-! ## The root and the prover -/

theorem rootAux_branch {fuel : ℕ} {leaves : List Hash} (h : 2 ≤ leaves.length) :
    rootAux (fuel + 1) leaves
      = nodeHash (rootAux fuel (leaves.take (slicePower leaves.length)))
          (rootAux fuel (leaves.drop (slicePower leaves.length))) := by
  match leaves, h with
  | [], h => simp at h
  | [x], h => simp at h
  | x :: y :: rest, _ => rfl

/-- Rounds beyond the length of the list change nothing. -/
theorem rootAux_eq_root {fuel : ℕ} {leaves : List Hash} (h : leaves.length ≤ fuel) :
    rootAux fuel leaves = root leaves := by
  induction fuel using Nat.strong_induction_on generalizing leaves with
  | _ fuel ih =>
      by_cases htwo : 2 ≤ leaves.length
      · obtain ⟨hpos, hlt⟩ := slicePower_bounds htwo
        have htake : (leaves.take (slicePower leaves.length)).length < leaves.length := by
          rw [List.length_take]
          omega
        have hdrop : (leaves.drop (slicePower leaves.length)).length < leaves.length := by
          rw [List.length_drop]
          omega
        cases fuel with
        | zero => omega
        | succ fuel =>
            obtain ⟨len, hlen⟩ : ∃ len, leaves.length = len + 1 := ⟨leaves.length - 1, by omega⟩
            have hroot : root leaves = rootAux (len + 1) leaves := by rw [root, hlen]
            rw [hroot, rootAux_branch htwo, rootAux_branch htwo,
              ih fuel (by omega) (by omega), ih fuel (by omega) (by omega),
              ih len (by omega) (by omega), ih len (by omega) (by omega)]
      · match leaves, htwo with
        | [], _ => cases fuel <;> rfl
        | [x], _ => cases fuel <;> rfl
        | x :: y :: rest, htwo => simp at htwo

theorem root_branch {leaves : List Hash} (h : 2 ≤ leaves.length) :
    root leaves = nodeHash (root (leaves.take (slicePower leaves.length)))
      (root (leaves.drop (slicePower leaves.length))) := by
  obtain ⟨hpos, hlt⟩ := slicePower_bounds h
  obtain ⟨len, hlen⟩ : ∃ len, leaves.length = len + 1 := ⟨leaves.length - 1, by omega⟩
  have htake : (leaves.take (slicePower leaves.length)).length ≤ len := by
    rw [List.length_take]
    omega
  have hdrop : (leaves.drop (slicePower leaves.length)).length ≤ len := by
    rw [List.length_drop]
    omega
  rw [← rootAux_eq_root htake, ← rootAux_eq_root hdrop, ← rootAux_branch h, ← hlen]
  rfl

theorem root_isBranching : IsBranching nodeHash root where
  singleton := fun _ => rfl
  branch := fun l h =>
    ⟨slicePower l.length, (slicePower_bounds h).1, (slicePower_bounds h).2, root_branch h⟩

theorem root_isTreeHash : IsTreeHash nodeHash root (2 ^ 63) where
  singleton := fun _ => rfl
  branch := by
    intro l h2 hmax
    rw [root_branch h2, slicePower_eq h2 hmax]

theorem length_slice {leaves : List Hash} {lo hi : ℕ} (h : hi ≤ leaves.length) :
    (slice leaves lo hi).length = hi - lo := by
  rw [slice, List.length_take, List.length_drop]
  omega

/-- The prover's loop emits the sibling roots of the slice it works on. -/
theorem proofLoop_eq {leaves : List Hash} {fuel lo hi idx : ℕ} {proof : List Hash}
    (hhi : hi ≤ leaves.length) (hmax : leaves.length ≤ 2 ^ 63) (hfuel : hi - lo ≤ fuel) :
    proofLoop leaves fuel lo hi idx proof
      = proof ++ siblings root (slice leaves lo hi) idx := by
  induction fuel generalizing lo hi idx proof with
  | zero =>
      rw [proofLoop, siblings, length_slice hhi, dif_neg (by omega), List.append_nil]
  | succ fuel ih =>
      rw [proofLoop]
      by_cases htwo : hi - lo > 1
      · have hlt := split_lt (n := hi - lo) (by omega)
        have hpos := split_pos (hi - lo)
        have hpower : slicePower (hi - lo) = split (hi - lo) := slicePower_eq (by omega) (by omega)
        have hleft : (slice leaves lo hi).take (split (hi - lo))
            = slice leaves lo (lo + split (hi - lo)) := by
          rw [slice, slice, List.take_take]
          congr 1
          omega
        have hright : (slice leaves lo hi).drop (split (hi - lo))
            = slice leaves (lo + split (hi - lo)) hi := by
          rw [slice, slice, List.drop_take, List.drop_drop]
          congr 1
          omega
        rw [if_pos htwo, siblings, length_slice hhi, dif_pos (by omega), hleft, hright]
        simp only [hpower]
        by_cases hside : idx < split (hi - lo)
        · rw [if_pos hside, if_pos hside, ih (by omega) (by omega)]
          simp
        · rw [if_neg hside, if_neg hside, ih (by omega) (by omega)]
          simp
      · rw [if_neg htwo, siblings, length_slice hhi, dif_neg (by omega), List.append_nil]

/-- The audit path of an index, in terms of the tree. -/
theorem inclusionProof_eq {leaves : List Hash} {index : ℕ} (h : index < leaves.length)
    (hmax : leaves.length ≤ 2 ^ 63) :
    inclusionProof leaves index = .ok (siblings root leaves index).reverse := by
  rw [inclusionProof, if_neg (by omega), proofLoop_eq le_rfl hmax (by omega)]
  simp [slice]

/-- The prover's path has the length the verifier expects, and the verifier accepts it. -/
theorem inclusionProof_verifies (target : Target) {leaves : List Hash} {index : ℕ} {leaf : Hash}
    (hmax : leaves.length ≤ 2 ^ (target.usizeBits - 1)) (hleaf : leaves[index]? = some leaf) :
    ∃ proof, inclusionProof leaves index = .ok proof
      ∧ proofLen target index leaves.length = some proof.length
      ∧ verifyInclusion target leaf index leaves.length proof (root leaves) = some true := by
  have hindex : index < leaves.length := (List.getElem?_eq_some_iff.mp hleaf).1
  have hbits : leaves.length ≤ 2 ^ 63 := by
    refine hmax.trans (Nat.pow_le_pow_right (by norm_num) ?_)
    have := target.usizeBits_le
    omega
  have hlen := length_siblings root leaves index
  refine ⟨_, inclusionProof_eq hindex hbits, ?_, ?_⟩
  · rw [proofLen_eq target hmax, List.length_reverse, hlen]
  · rw [verifyInclusion_iff]
    refine ⟨hmax, hindex, by rw [List.length_reverse, hlen], ?_⟩
    have hzip : (sides leaves.length index).reverse.zip (siblings root leaves index).reverse
        = ((sides leaves.length index).zip (siblings root leaves index)).reverse := by
      exact (List.reverse_zipWith hlen.symm).symm
    rw [hzip]
    exact root_isTreeHash.climb_siblings leaves hbits index leaf hleaf

end Cawala
