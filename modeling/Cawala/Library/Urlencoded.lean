import Cawala.Library.TextFile

/-! # Form-urlencoded queries

The name and value pairs of a query in `application/x-www-form-urlencoded`: percent decoding,
`+` for a space, and UTF-8 that is read with replacement characters. Text that is written with
its bytes escaped, or standing for themselves where they are no delimiter, is read back. -/

namespace Cawala.Library.Urlencoded

open TextFile

/-! ## Decoding -/

def hexValue (digit : UInt8) : Option UInt8 :=
  if 48 ≤ digit ∧ digit ≤ 57 then some (digit - 48)
  else if 65 ≤ digit ∧ digit ≤ 70 then some (digit - 55)
  else if 97 ≤ digit ∧ digit ≤ 102 then some (digit - 87)
  else none

/-- Read each `%` with two hex digits behind it as the byte they spell. -/
def percentDecode : List UInt8 → List UInt8
  | [] => []
  | [a] => [a]
  | [a, b] => [a, b]
  | a :: b :: c :: rest =>
      if a = 37 then
        match hexValue b, hexValue c with
        | some high, some low => (16 * high + low) :: percentDecode rest
        | _, _ => a :: percentDecode (b :: c :: rest)
      else a :: percentDecode (b :: c :: rest)

/-- Read each `+` as a space. -/
def replacePlus (bytes : List UInt8) : List UInt8 :=
  bytes.map fun byte => if byte = 43 then 32 else byte

def isContinuation (byte : UInt8) : Bool := 128 ≤ byte && byte ≤ 191

/-- Whether a byte may follow the lead byte of a character of three or four bytes. -/
def mayFollow (lead second : UInt8) : Bool :=
  if lead = 224 then 160 ≤ second && second ≤ 191
  else if lead = 237 then 128 ≤ second && second ≤ 159
  else if lead = 240 then 144 ≤ second && second ≤ 191
  else if lead = 244 then 128 ≤ second && second ≤ 143
  else isContinuation second

/-- The length of the ill-formed sequence at the front: as much of it as begins a character. -/
def invalidLength : List UInt8 → ℕ
  | lead :: second :: rest =>
      if 224 ≤ lead ∧ lead ≤ 244 ∧ mayFollow lead second = true then
        if 240 ≤ lead ∧ (rest.head?.any isContinuation) = true then 3 else 2
      else 1
  | _ => 1

/-- Read UTF-8, with U+FFFD for each ill-formed sequence. -/
def fromUtf8Lossy (bytes : List UInt8) : List Char :=
  if _h : bytes = [] then []
  else
    match bytes.toByteArray.utf8DecodeChar? 0 with
    | some c => c :: fromUtf8Lossy (bytes.drop c.utf8Size)
    | none => '\uFFFD' :: fromUtf8Lossy (bytes.drop (max 1 (invalidLength bytes)))
termination_by bytes.length
decreasing_by
  · have := c.utf8Size_pos
    have := List.length_pos_of_ne_nil _h
    simp only [List.length_drop]
    omega
  · have := List.length_pos_of_ne_nil _h
    simp only [List.length_drop]
    omega

def formDecode (bytes : List UInt8) : List Char :=
  fromUtf8Lossy (percentDecode (replacePlus bytes))

/-- The name and the value in a piece, which are separated by the first `=`. -/
def pairOf (piece : List UInt8) : List Char × List Char :=
  (formDecode (piece.takeWhile (· != 61)), formDecode (piece.dropWhile (· != 61)).tail)

/-- The pairs of a query: its pieces between the `&`s, the empty ones left out. -/
def pairs (query : List UInt8) : List (List Char × List Char) :=
  ((query.splitOn 38).filter fun piece => !piece.isEmpty).map pairOf

/-! ## Encoded text -/

def IsDelimiter (byte : UInt8) : Prop := byte = 37 ∨ byte = 43 ∨ byte = 38 ∨ byte = 61

/-- The left byte string spells the right one, with bytes standing for themselves or escaped. -/
inductive Spells : List UInt8 → List UInt8 → Prop
  | nil : Spells [] []
  | literal (byte : UInt8) {code bytes : List UInt8} (plain : ¬ IsDelimiter byte)
      (rest : Spells code bytes) : Spells (byte :: code) (byte :: bytes)
  | escaped (hi lo high low : UInt8) {code bytes : List UInt8} (hhi : hexValue hi = some high)
      (hlo : hexValue lo = some low) (rest : Spells code bytes) :
      Spells (37 :: hi :: lo :: code) ((16 * high + low) :: bytes)

theorem Spells.append {code code' bytes bytes' : List UInt8} (h : Spells code bytes)
    (h' : Spells code' bytes') : Spells (code ++ code') (bytes ++ bytes') := by
  induction h with
  | nil => exact h'
  | literal byte hplain _ ih => exact .literal byte hplain ih
  | escaped hi lo high low hhi hlo _ ih => exact .escaped hi lo high low hhi hlo ih

theorem not_isDelimiter_of_hexValue {digit value : UInt8} (h : hexValue digit = some value) :
    ¬ IsDelimiter digit := by
  rintro (rfl | rfl | rfl | rfl) <;> cases h

/-- Spelled text holds no separator of pairs, nor of names and values. -/
theorem Spells.not_mem {code bytes : List UInt8} (h : Spells code bytes) {sep : UInt8}
    (hsep : sep = 38 ∨ sep = 61) : sep ∉ code := by
  have hdelimiter : IsDelimiter sep := by
    rcases hsep with rfl | rfl
    · exact .inr (.inr (.inl rfl))
    · exact .inr (.inr (.inr rfl))
  have hpercent : sep ≠ 37 := by
    rcases hsep with rfl | rfl <;> decide
  induction h with
  | nil => exact List.not_mem_nil
  | literal byte hplain _ ih =>
      intro hmem
      rcases List.mem_cons.mp hmem with rfl | hmem
      · exact hplain hdelimiter
      · exact ih hmem
  | escaped hi lo high low hhi hlo _ ih =>
      intro hmem
      rcases List.mem_cons.mp hmem with heq | hmem
      · exact hpercent heq
      · rcases List.mem_cons.mp hmem with rfl | hmem
        · exact not_isDelimiter_of_hexValue hhi hdelimiter
        · rcases List.mem_cons.mp hmem with rfl | hmem
          · exact not_isDelimiter_of_hexValue hlo hdelimiter
          · exact ih hmem

theorem Spells.replacePlus_eq {code bytes : List UInt8} (h : Spells code bytes) :
    replacePlus code = code := by
  have hplain : ∀ byte : UInt8, ¬ IsDelimiter byte → (if byte = 43 then 32 else byte) = byte := by
    intro byte hbyte
    rw [if_neg]
    rintro rfl
    exact hbyte (.inr (.inl rfl))
  induction h with
  | nil => rfl
  | literal byte hbyte _ ih =>
      rw [replacePlus, List.map_cons, hplain byte hbyte]
      exact congrArg _ ih
  | escaped hi lo high low hhi hlo _ ih =>
      rw [replacePlus, List.map_cons, List.map_cons, List.map_cons,
        hplain hi (not_isDelimiter_of_hexValue hhi), hplain lo (not_isDelimiter_of_hexValue hlo),
        if_neg (by decide)]
      exact congrArg _ (congrArg _ (congrArg _ ih))

theorem percentDecode_cons {byte : UInt8} (h : byte ≠ 37) (rest : List UInt8) :
    percentDecode (byte :: rest) = byte :: percentDecode rest := by
  match rest with
  | [] => rfl
  | [_] => rfl
  | _ :: _ :: _ => rw [percentDecode, if_neg h]

theorem Spells.percentDecode_eq {code bytes : List UInt8} (h : Spells code bytes) :
    percentDecode code = bytes := by
  induction h with
  | nil => rfl
  | literal byte hplain _ ih =>
      rw [percentDecode_cons (fun heq => hplain (.inl heq)), ih]
  | escaped hi lo high low hhi hlo _ ih =>
      rw [percentDecode, if_pos rfl, hhi, hlo]
      exact congrArg _ ih

@[simp] theorem fromUtf8Lossy_nil : fromUtf8Lossy [] = [] := by
  rw [fromUtf8Lossy, dif_pos rfl]

@[simp] theorem fromUtf8Lossy_utf8 (text : List Char) : fromUtf8Lossy (utf8 text) = text := by
  induction text with
  | nil => exact fromUtf8Lossy_nil
  | cons c text ih =>
      have hne : utf8 (c :: text) ≠ [] := by
        rw [ne_eq, utf8_eq_nil]
        exact List.cons_ne_nil c text
      have hdecode : (utf8 (c :: text)).toByteArray.utf8DecodeChar? 0 = some c := by
        rw [utf8_cons, List.toByteArray_append]
        exact ByteArray.utf8DecodeChar?_utf8EncodeChar_append
      have hdrop : (utf8 (c :: text)).drop c.utf8Size = utf8 text := by
        rw [utf8_cons, ← String.length_utf8EncodeChar, List.drop_left]
      rw [fromUtf8Lossy, dif_neg hne, hdecode]
      simp only [hdrop, ih]

theorem Spells.formDecode_eq {code : List UInt8} {text : List Char} (h : Spells code (utf8 text)) :
    formDecode code = text := by
  rw [formDecode, h.replacePlus_eq, h.percentDecode_eq, fromUtf8Lossy_utf8]

/-! ## Encoded pairs -/

def SpellsPair (piece : List UInt8) (pair : List Char × List Char) : Prop :=
  ∃ name value, piece = name ++ 61 :: value ∧ Spells name (utf8 pair.1)
    ∧ Spells value (utf8 pair.2)

theorem SpellsPair.pairOf_eq {piece : List UInt8} {pair : List Char × List Char}
    (h : SpellsPair piece pair) : pairOf piece = pair := by
  obtain ⟨name, value, rfl, hname, hvalue⟩ := h
  have hnot : ∀ byte ∈ name, (byte != 61) = true := by
    intro byte hbyte
    rw [bne_iff_ne]
    rintro rfl
    exact hname.not_mem (.inr rfl) hbyte
  have htake : (name ++ 61 :: value).takeWhile (· != 61) = name := by
    rw [List.takeWhile_append_of_pos hnot, List.takeWhile_cons_of_neg (by decide), List.append_nil]
  have hdrop : (name ++ 61 :: value).dropWhile (· != 61) = 61 :: value := by
    rw [List.dropWhile_append_of_pos hnot, List.dropWhile_cons_of_neg (by decide)]
  rw [pairOf, htake, hdrop, List.tail_cons, hname.formDecode_eq, hvalue.formDecode_eq]

theorem SpellsPair.not_mem {piece : List UInt8} {pair : List Char × List Char}
    (h : SpellsPair piece pair) : 38 ∉ piece := by
  obtain ⟨name, value, rfl, hname, hvalue⟩ := h
  intro hmem
  rcases List.mem_append.mp hmem with hmem | hmem
  · exact hname.not_mem (.inl rfl) hmem
  · rcases List.mem_cons.mp hmem with heq | hmem
    · cases heq
    · exact hvalue.not_mem (.inl rfl) hmem

theorem SpellsPair.isEmpty_eq {piece : List UInt8} {pair : List Char × List Char}
    (h : SpellsPair piece pair) : (!piece.isEmpty) = true := by
  obtain ⟨name, value, rfl, -⟩ := h
  simp

theorem pairs_intercalate {pieces : List (List UInt8)} {ps : List (List Char × List Char)}
    (hne : pieces ≠ []) (h : List.Forall₂ SpellsPair pieces ps) :
    pairs (List.intercalate [38] pieces) = ps := by
  have hsep : ∀ piece ∈ pieces, 38 ∉ piece := by
    clear hne
    induction h with
    | nil => simp
    | cons hspells _ ih => exact List.forall_mem_cons.mpr ⟨hspells.not_mem, ih⟩
  rw [pairs, List.splitOn_intercalate 38 hsep hne]
  clear hne hsep
  induction h with
  | nil => rfl
  | cons hspells _ ih =>
      rw [List.filter_cons, if_pos hspells.isEmpty_eq, List.map_cons, hspells.pairOf_eq, ih]

end Cawala.Library.Urlencoded
