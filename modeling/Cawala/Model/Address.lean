import Mathlib

/-! # Octal hierarchical addresses

An address is one octal digit per tree level. The three facts every constructor of the
source enforces are fields, so that an ill-formed address cannot be built. -/

namespace Cawala

/-- Largest valid octal slot digit. -/
def maxSlot : UInt8 := 7

theorem zero_le_maxSlot : 0 ≤ maxSlot := by decide

theorem one_le_maxSlot : 1 ≤ maxSlot := by decide

theorem two_le_maxSlot : 2 ≤ maxSlot := by decide

/-- An octal hierarchical address. -/
structure OctAddr where
  digits : List UInt8
  rooted : digits.head? = some 0
  inRange : ∀ d ∈ digits, d ≤ maxSlot
deriving DecidableEq

namespace OctAddr

@[ext] theorem ext {a b : OctAddr} (h : a.digits = b.digits) : a = b := by
  cases a
  cases b
  cases h
  rfl

def root : OctAddr where
  digits := [0]
  rooted := rfl
  inRange := by simp [maxSlot]

/-- Build an address from digits, if they form one. -/
def fromDigits (digits : List UInt8) : Option OctAddr :=
  if h : digits.head? = some 0 ∧ ∀ d ∈ digits, d ≤ maxSlot then
    some { digits, rooted := h.1, inRange := h.2 }
  else none

/-- Number of levels. The root has depth 1. -/
def depth (a : OctAddr) : ℕ := a.digits.length

def isRoot (a : OctAddr) : Bool := a.depth == 1

def slot (a : OctAddr) : Option UInt8 :=
  if a.isRoot then none else a.digits.getLast?

theorem depth_pos (a : OctAddr) : 0 < a.depth := by
  cases h : a.digits with
  | nil =>
      have := a.rooted
      simp [h] at this
  | cons d ds => simp [depth, h]

/-- Keeping at least one leading digit keeps an address well formed. -/
theorem rooted_take (a : OctAddr) {n : ℕ} (h : 0 < n) : (a.digits.take n).head? = some 0 := by
  have hne : n ≠ 0 := by omega
  simpa [List.head?_take, hne] using a.rooted

/-- The address of the first `n` digits, at least one of them. -/
def takeDigits (a : OctAddr) (n : ℕ) (h : 0 < n) : OctAddr where
  digits := a.digits.take n
  rooted := a.rooted_take h
  inRange := fun d hd => a.inRange d (List.mem_of_mem_take hd)

/-- Parent address: the deepest digit removed. -/
def parent (a : OctAddr) : Option OctAddr :=
  if h : 0 < a.depth - 1 then some (a.takeDigits (a.depth - 1) h) else none

def child (a : OctAddr) (slot : UInt8) (h : slot ≤ maxSlot) : OctAddr where
  digits := a.digits ++ [slot]
  rooted := by simp [List.head?_append, a.rooted]
  inRange := by
    intro d hd
    rcases List.mem_append.mp hd with hd | hd
    · exact a.inRange d hd
    · rw [List.mem_singleton.mp hd]
      exact h

/-- Strict prefix test: `a` is a strict ancestor of `b`. -/
def isAncestorOf (a b : OctAddr) : Bool :=
  decide (a.depth < b.depth) && a.digits.isPrefixOf b.digits

/-- The number of leading digits two addresses share. -/
def commonLength (a b : OctAddr) : ℕ :=
  ((a.digits.zip b.digits).takeWhile (fun p => p.1 == p.2)).length

theorem commonLength_pos (a b : OctAddr) : 0 < a.commonLength b := by
  have ha := a.rooted
  have hb := b.rooted
  cases hda : a.digits with
  | nil => simp [hda] at ha
  | cons d ds =>
      cases hdb : b.digits with
      | nil => simp [hdb] at hb
      | cons e es =>
          simp only [hda, List.head?_cons, Option.some.injEq] at ha
          simp only [hdb, List.head?_cons, Option.some.injEq] at hb
          simp [commonLength, hda, hdb, ha, hb]

/-- The dotted rendering of an address. -/
def display (a : OctAddr) : String := ".".intercalate (a.digits.map toString)

/-- Least common ancestor: the longest common prefix. -/
def lca (a b : OctAddr) : OctAddr :=
  a.takeDigits (a.commonLength b) (a.commonLength_pos b)

end OctAddr

/-! ## Routing steps -/

/-- One step toward a destination. -/
inductive Step where
  | up (addr : OctAddr)
  | down (addr : OctAddr)
deriving DecidableEq

def Step.addr : Step → OctAddr
  | .up a => a
  | .down a => a

/-- One step from an address toward a destination. -/
def nextStep (from_ dst : OctAddr) : Option Step :=
  if from_ = dst then none
  else if from_.isAncestorOf dst then
    match h : dst.digits[from_.depth]? with
    | some slot => some (.down (from_.child slot (dst.inRange slot (List.mem_of_getElem? h))))
    | none => none
  else from_.parent.map .up

end Cawala
