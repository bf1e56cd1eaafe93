import Mathlib.Data.List.Basic
import Mathlib.Data.Nat.Bitwise
import Mathlib.Tactic.Ring

/-! # Bit strings

Numbers of a fixed width as bit strings, the most significant bit first, and bit strings that
are read in groups of one width. -/

namespace Cawala.Library.BitString

/-- The lowest `width` bits of a number. -/
def toBits : ℕ → ℕ → List Bool
  | 0, _ => []
  | width + 1, n => n.testBit width :: toBits width n

/-- The number that a bit string spells. -/
def ofBits (bits : List Bool) : ℕ := bits.foldl (fun n bit => n <<< 1 ||| bit.toNat) 0

/-- The numbers that a bit string spells in groups of `width` bits. -/
def groups (width : ℕ) : ℕ → List Bool → List ℕ
  | 0, _ => []
  | count + 1, bits => ofBits (bits.take width) :: groups width count (bits.drop width)

@[simp] theorem length_toBits (width n : ℕ) : (toBits width n).length = width := by
  induction width with
  | zero => rfl
  | succ width ih => simp [toBits, ih]

theorem toBits_congr {width n m : ℕ} (h : ∀ i < width, n.testBit i = m.testBit i) :
    toBits width n = toBits width m := by
  induction width with
  | zero => rfl
  | succ width ih =>
    rw [toBits, toBits, h width width.lt_succ_self,
      ih fun i hi => h i (hi.trans width.lt_succ_self)]

theorem shiftLeft_or_toNat (n : ℕ) (bit : Bool) : n <<< 1 ||| bit.toNat = 2 * n + bit.toNat := by
  have hbit : bit.toNat < 2 ^ 1 := Bool.toNat_lt bit
  rw [← Nat.shiftLeft_add_eq_or_of_lt hbit, Nat.shiftLeft_eq, pow_one, Nat.mul_comm]

/-! ## One number -/

/-- A number read on from `acc` by the bits of `n`. -/
theorem foldl_toBits (width n acc : ℕ) :
    (toBits width n).foldl (fun n bit => n <<< 1 ||| bit.toNat) acc
      = acc * 2 ^ width + n % 2 ^ width := by
  induction width generalizing acc with
  | zero => simp [toBits, Nat.mod_one]
  | succ width ih =>
    rw [toBits, List.foldl_cons, ih, shiftLeft_or_toNat, Nat.toNat_testBit, Nat.mod_pow_succ]
    ring

theorem ofBits_toBits {width n : ℕ} (h : n < 2 ^ width) : ofBits (toBits width n) = n := by
  rw [ofBits, foldl_toBits, Nat.zero_mul, Nat.zero_add, Nat.mod_eq_of_lt h]

theorem foldl_bits (bits : List Bool) (acc : ℕ) :
    bits.foldl (fun n bit => n <<< 1 ||| bit.toNat) acc
      = 2 ^ bits.length * acc + ofBits bits := by
  induction bits generalizing acc with
  | nil => simp [ofBits]
  | cons bit bits ih =>
    rw [ofBits, List.foldl_cons, List.foldl_cons, ih, ih (0 <<< 1 ||| bit.toNat),
      shiftLeft_or_toNat, shiftLeft_or_toNat, List.length_cons]
    ring

theorem ofBits_cons (bit : Bool) (bits : List Bool) :
    ofBits (bit :: bits) = 2 ^ bits.length * bit.toNat + ofBits bits := by
  rw [ofBits, List.foldl_cons, foldl_bits, shiftLeft_or_toNat, Nat.mul_zero, Nat.zero_add]

theorem ofBits_lt (bits : List Bool) : ofBits bits < 2 ^ bits.length := by
  induction bits with
  | nil => decide
  | cons bit bits ih =>
    rw [ofBits_cons, List.length_cons, pow_succ]
    cases bit
    · simp only [Bool.toNat_false]
      omega
    · simp only [Bool.toNat_true]
      omega

theorem toBits_ofBits (bits : List Bool) : toBits bits.length (ofBits bits) = bits := by
  induction bits with
  | nil => rfl
  | cons bit bits ih =>
    have hlt := ofBits_lt bits
    have hhead : (ofBits (bit :: bits)).testBit bits.length = bit := by
      rw [ofBits_cons, Nat.testBit_two_pow_mul_add _ hlt]
      cases bit <;> simp
    have htail : toBits bits.length (ofBits (bit :: bits)) = toBits bits.length (ofBits bits) := by
      refine toBits_congr fun i hi => ?_
      rw [ofBits_cons, Nat.testBit_two_pow_mul_add _ hlt, if_pos hi]
    rw [List.length_cons, toBits, hhead, htail, ih]

/-! ## Groups -/

@[simp] theorem length_groups (width count : ℕ) (bits : List Bool) :
    (groups width count bits).length = count := by
  induction count generalizing bits with
  | zero => rfl
  | succ count ih => simp [groups, ih]

@[simp] theorem length_flatMap_toBits (width : ℕ) (ns : List ℕ) :
    (ns.flatMap (toBits width)).length = width * ns.length := by
  induction ns with
  | nil => rfl
  | cons n ns ih => simp only [List.flatMap_cons, List.length_append, length_toBits, ih,
      List.length_cons, Nat.mul_succ, Nat.add_comm]

/-- Numbers that fit the width are read back. -/
theorem groups_flatMap {width : ℕ} {ns : List ℕ} (h : ∀ n ∈ ns, n < 2 ^ width) :
    groups width ns.length (ns.flatMap (toBits width)) = ns := by
  induction ns with
  | nil => rfl
  | cons n ns ih =>
    have hn := h n List.mem_cons_self
    have hlength := length_toBits width n
    rw [List.length_cons, List.flatMap_cons, groups, List.take_left' hlength,
      List.drop_left' hlength, ofBits_toBits hn, ih fun m hm => h m (List.mem_cons_of_mem n hm)]

/-- A bit string of whole groups is written back. -/
theorem flatMap_groups {width count : ℕ} {bits : List Bool} (h : bits.length = width * count) :
    (groups width count bits).flatMap (toBits width) = bits := by
  induction count generalizing bits with
  | zero => exact (List.eq_nil_of_length_eq_zero (by simpa using h)).symm
  | succ count ih =>
    rw [Nat.mul_succ] at h
    have htake : (bits.take width).length = width := by
      rw [List.length_take]
      omega
    have hdrop : (bits.drop width).length = width * count := by
      rw [List.length_drop]
      omega
    have hhead := toBits_ofBits (bits.take width)
    rw [htake] at hhead
    rw [groups, List.flatMap_cons, ih hdrop, hhead, List.take_append_drop]

theorem groups_lt {width count : ℕ} {bits : List Bool} (h : bits.length = width * count) :
    ∀ n ∈ groups width count bits, n < 2 ^ width := by
  induction count generalizing bits with
  | zero => simp [groups]
  | succ count ih =>
    rw [Nat.mul_succ] at h
    intro n hn
    rw [groups, List.mem_cons] at hn
    rcases hn with rfl | hn
    · have hlt := ofBits_lt (bits.take width)
      rwa [List.length_take, min_eq_left (by omega)] at hlt
    · exact ih (by rw [List.length_drop]; omega) n hn

/-- A group, read by its bits' positions. -/
theorem ofBits_range (width start : ℕ) {bits : List Bool} (h : start + width ≤ bits.length) :
    ofBits ((List.range width).map fun b => bits.getD (start + b) false)
      = ofBits ((bits.drop start).take width) := by
  congr 1
  refine List.ext_getElem (by simp; omega) fun i hi hi' => ?_
  rw [List.getElem_map, List.getElem_range, List.getElem_take, List.getElem_drop,
    List.getD_eq_getElem]

theorem groups_eq_map_range {width count : ℕ} {bits : List Bool} :
    groups width count bits
      = (List.range count).map fun w => ofBits ((bits.drop (w * width)).take width) := by
  induction count generalizing bits with
  | zero => rfl
  | succ count ih =>
    rw [groups, ih, List.range_succ_eq_map, List.map_cons, List.map_map]
    refine congrArg₂ _ (by simp) (List.map_congr_left fun w _ => ?_)
    rw [List.drop_drop, Function.comp_apply, Nat.succ_mul, Nat.add_comm]

end Cawala.Library.BitString
