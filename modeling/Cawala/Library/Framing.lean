import Mathlib

/-! # Length-prefixed frames

A frame is the length of its body as a little-endian `u32`, followed by the body. A scan of
a truncated concatenation of frames meets the whole frames and then a torn one. -/

namespace Cawala.Library.Framing

/-- A `u32` as four little-endian bytes. -/
def le32 (n : ℕ) : List UInt8 :=
  [UInt8.ofNat n, UInt8.ofNat (n / 256), UInt8.ofNat (n / 65536), UInt8.ofNat (n / 16777216)]

/-- The `u32` in four little-endian bytes. -/
def fromLe32 : List UInt8 → ℕ
  | [a, b, c, d] => a.toNat + 256 * b.toNat + 65536 * c.toNat + 16777216 * d.toNat
  | _ => 0

def frame (body : List UInt8) : List UInt8 := le32 body.length ++ body

/-- What stands at the front of a byte string. -/
inductive Next where
  | torn
  | tooLong (len : ℕ)
  | frame (body rest : List UInt8)
deriving DecidableEq

/-- Read the next frame, with a bound on its declared length. -/
def next (max : ℕ) (data : List UInt8) : Next :=
  if data.length < 4 then .torn
  else if max < fromLe32 (data.take 4) then .tooLong (fromLe32 (data.take 4))
  else if (data.drop 4).length < fromLe32 (data.take 4) then .torn
  else .frame ((data.drop 4).take (fromLe32 (data.take 4)))
    ((data.drop 4).drop (fromLe32 (data.take 4)))

@[simp] theorem length_le32 (n : ℕ) : (le32 n).length = 4 := rfl

@[simp] theorem length_frame (body : List UInt8) : (frame body).length = 4 + body.length := by
  simp [frame]

theorem fromLe32_le32 {n : ℕ} (h : n < 2 ^ 32) : fromLe32 (le32 n) = n := by
  simp only [le32, fromLe32, UInt8.toNat_ofNat']
  omega

theorem length_rest_lt {max : ℕ} {data body rest : List UInt8}
    (h : next max data = .frame body rest) : rest.length < data.length := by
  unfold next at h
  split at h
  · cases h
  · split at h
    · cases h
    · split at h
      · cases h
      · cases h
        simp only [List.length_drop]
        omega

/-- A whole frame is read back. -/
theorem next_frame {max : ℕ} {body : List UInt8} (rest : List UInt8) (hbody : body.length ≤ max)
    (hmax : max < 2 ^ 32) : next max (frame body ++ rest) = .frame body rest := by
  have htake : (frame body ++ rest).take 4 = le32 body.length := by
    rw [frame, List.append_assoc]
    exact List.take_left' rfl
  have hdrop : (frame body ++ rest).drop 4 = body ++ rest := by
    rw [frame, List.append_assoc]
    exact List.drop_left' rfl
  have hlen : ¬ (frame body ++ rest).length < 4 := by
    rw [List.length_append, length_frame]
    omega
  rw [next, if_neg hlen, htake, hdrop, fromLe32_le32 (by omega), if_neg (by omega),
    if_neg (by simp)]
  simp

/-- What follows a whole frame does not change how it is read. -/
theorem next_append {max : ℕ} {data body rest : List UInt8} (h : next max data = .frame body rest)
    (more : List UInt8) : next max (data ++ more) = .frame body (rest ++ more) := by
  unfold next at h
  split at h
  · cases h
  · rename_i hlen
    split at h
    · cases h
    · rename_i hmax
      split at h
      · cases h
      · rename_i hbody
        cases h
        have htake : (data ++ more).take 4 = data.take 4 :=
          List.take_append_of_le_length (by omega)
        have hdrop : (data ++ more).drop 4 = data.drop 4 ++ more :=
          List.drop_append_of_le_length (by omega)
        have hle : fromLe32 (data.take 4) ≤ (data.drop 4).length := by omega
        rw [next, htake, hdrop, if_neg (by rw [List.length_append]; omega), if_neg hmax,
          if_neg (by rw [List.length_append]; omega), List.take_append_of_le_length hle,
          List.drop_append_of_le_length hle]

/-- A frame cut short is torn, wherever it is cut. -/
theorem next_take {max : ℕ} {body : List UInt8} {n : ℕ} (hbody : body.length ≤ max)
    (hmax : max < 2 ^ 32) (hn : n < (frame body).length) :
    next max ((frame body).take n) = .torn := by
  rw [length_frame] at hn
  have hlen : ((frame body).take n).length = n := by
    rw [List.length_take, length_frame]
    omega
  by_cases hshort : n < 4
  · rw [next, if_pos (by omega)]
  · have htake : ((frame body).take n).take 4 = le32 body.length := by
      rw [List.take_take, Nat.min_eq_left (by omega), frame]
      exact List.take_left' rfl
    rw [next, if_neg (by omega), htake, fromLe32_le32 (by omega), if_neg (by omega),
      if_pos (by rw [List.length_drop]; omega)]

/-! ## Truncation -/

/-- How many leading pieces lie wholly within the first `n` elements. -/
def survivors {α : Type*} : List (List α) → ℕ → ℕ
  | [], _ => 0
  | p :: ps, n => if p.length ≤ n then 1 + survivors ps (n - p.length) else 0

/-- A truncated concatenation is the surviving pieces and a proper part of the next one. -/
theorem take_flatten {α : Type*} (pieces : List (List α)) (n : ℕ) :
    ∃ tail, pieces.flatten.take n = (pieces.take (survivors pieces n)).flatten ++ tail
      ∧ (tail = [] ∨ ∃ p ∈ pieces, ∃ m < p.length, tail = p.take m) := by
  induction pieces generalizing n with
  | nil => exact ⟨[], by simp [survivors], Or.inl rfl⟩
  | cons p ps ih =>
      by_cases hp : p.length ≤ n
      · obtain ⟨tail, htake, htail⟩ := ih (n - p.length)
        refine ⟨tail, ?_, ?_⟩
        · rw [survivors, if_pos hp, Nat.add_comm, List.take_succ_cons, List.flatten_cons,
            List.flatten_cons, List.take_append, List.take_of_length_le hp, htake,
            List.append_assoc]
        · refine htail.imp id ?_
          intro h
          obtain ⟨q, hq, m, hm, rfl⟩ := h
          exact ⟨q, List.mem_cons_of_mem _ hq, m, hm, rfl⟩
      · refine ⟨p.take n, ?_, Or.inr ⟨p, List.mem_cons_self, n, by omega, rfl⟩⟩
        rw [survivors, if_neg hp, List.flatten_cons, List.take_append_of_le_length (by omega)]
        rfl

/-! ## Runs of frames -/

def frames (bodies : List (List UInt8)) : List UInt8 := (bodies.map frame).flatten

@[simp] theorem frames_nil : frames [] = [] := rfl

@[simp] theorem frames_cons (body : List UInt8) (bodies : List (List UInt8)) :
    frames (body :: bodies) = frame body ++ frames bodies := rfl

@[simp] theorem frames_append (xs ys : List (List UInt8)) :
    frames (xs ++ ys) = frames xs ++ frames ys := by
  simp [frames]

theorem length_le_length_frames (bodies : List (List UInt8)) :
    bodies.length ≤ (frames bodies).length := by
  induction bodies with
  | nil => simp
  | cons body bodies ih =>
      rw [frames_cons, List.length_append, length_frame, List.length_cons]
      omega

theorem le32_fromLe32 {bytes : List UInt8} (h : bytes.length = 4) :
    le32 (fromLe32 bytes) = bytes := by
  match bytes, h with
  | [a, b, c, d], _ =>
    have ha := a.toNat_lt
    have hb := b.toNat_lt
    have hc := c.toNat_lt
    have hd := d.toNat_lt
    simp only [le32, fromLe32, List.cons.injEq, and_true, ← UInt8.toNat_inj, UInt8.toNat_ofNat']
    omega

/-- A frame that is read stands in the data, within the bound. -/
theorem eq_of_next {max : ℕ} {data body rest : List UInt8}
    (h : next max data = .frame body rest) :
    data = frame body ++ rest ∧ body.length ≤ max := by
  unfold next at h
  split at h
  · cases h
  · rename_i hlen
    split at h
    · cases h
    · rename_i hmax
      split at h
      · cases h
      · rename_i hbody
        cases h
        have hsize : ((data.drop 4).take (fromLe32 (data.take 4))).length
            = fromLe32 (data.take 4) := by
          rw [List.length_take]
          omega
        refine ⟨?_, by omega⟩
        rw [frame, hsize, le32_fromLe32 (by rw [List.length_take]; omega), List.append_assoc,
          List.take_append_drop, List.take_append_drop]

/-- A run of frames before a torn tail is read in one way. -/
theorem frames_append_inj {max : ℕ} (hmax : max < 2 ^ 32) {xs ys : List (List UInt8)}
    {tail tail' : List UInt8} (hxs : ∀ body ∈ xs, body.length ≤ max)
    (hys : ∀ body ∈ ys, body.length ≤ max) (htail : next max tail = .torn)
    (htail' : next max tail' = .torn) (h : frames xs ++ tail = frames ys ++ tail') :
    xs = ys ∧ tail = tail' := by
  induction xs generalizing ys with
  | nil =>
      cases ys with
      | nil => exact ⟨rfl, h⟩
      | cons y ys =>
          rw [frames_nil, List.nil_append, frames_cons, List.append_assoc] at h
          rw [h, next_frame _ (hys y List.mem_cons_self) hmax] at htail
          cases htail
  | cons x xs ih =>
      rw [frames_cons, List.append_assoc] at h
      have hnext := next_frame (frames xs ++ tail) (hxs x List.mem_cons_self) hmax
      cases ys with
      | nil =>
          rw [frames_nil, List.nil_append] at h
          rw [← h, hnext] at htail'
          cases htail'
      | cons y ys =>
          rw [frames_cons, List.append_assoc] at h
          rw [h, next_frame _ (hys y List.mem_cons_self) hmax, Next.frame.injEq] at hnext
          obtain ⟨hbody, hrest⟩ := hnext
          obtain ⟨hsame, htails⟩ := ih (fun body hb => hxs body (List.mem_cons_of_mem _ hb))
            (fun body hb => hys body (List.mem_cons_of_mem _ hb)) hrest.symm
          exact ⟨by rw [hbody, hsame], htails⟩

end Cawala.Library.Framing
