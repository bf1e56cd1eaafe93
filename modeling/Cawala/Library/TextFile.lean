import Cawala.Library.Framing

/-! # Text files

A text is written as UTF-8 and read as lines. A text that is cut, at any byte, either reads as the
characters before the cut or, cut inside a character, not at all; and what is written after it does
not mend it, because no character starts with a continuation byte. -/

namespace Cawala.Library.TextFile

/-! ## UTF-8 -/

def utf8 (text : List Char) : List UInt8 := text.flatMap String.utf8EncodeChar

/-- Read a text, if the bytes are valid UTF-8. -/
def readUtf8 (bytes : List UInt8) : Option (List Char) :=
  bytes.toByteArray.utf8Decode?.map Array.toList

@[simp] theorem utf8_nil : utf8 [] = [] := rfl

@[simp] theorem utf8_cons (c : Char) (text : List Char) :
    utf8 (c :: text) = String.utf8EncodeChar c ++ utf8 text := rfl

@[simp] theorem utf8_append (xs ys : List Char) : utf8 (xs ++ ys) = utf8 xs ++ utf8 ys := by
  simp [utf8]

@[simp] theorem readUtf8_utf8 (text : List Char) : readUtf8 (utf8 text) = some text := by
  have hbytes : (utf8 text).toByteArray = text.utf8Encode := rfl
  rw [readUtf8, hbytes, List.utf8Decode?_utf8Encode]
  rfl

theorem readUtf8_eq_some {bytes : List UInt8} {text : List Char} :
    readUtf8 bytes = some text ↔ bytes = utf8 text := by
  constructor
  · intro h
    rw [readUtf8, Option.map_eq_some_iff] at h
    obtain ⟨chars, hdecode, rfl⟩ := h
    have hsome : bytes.toByteArray.utf8Decode?.isSome = true := by rw [hdecode]; rfl
    obtain ⟨text, hvalid⟩ := ByteArray.isSome_utf8Decode?_iff.mp hsome
    rw [hvalid, List.utf8Decode?_utf8Encode, Option.some.injEq] at hdecode
    rw [← hdecode]
    exact List.toByteArray_inj.mp hvalid
  · intro h
    rw [h, readUtf8_utf8]

theorem utf8_injective : Function.Injective utf8 := by
  intro xs ys h
  have hread := readUtf8_utf8 xs
  rw [h, readUtf8_utf8] at hread
  exact (Option.some.inj hread).symm

theorem utf8_eq_nil {text : List Char} : utf8 text = [] ↔ text = [] :=
  utf8_injective.eq_iff (b := [])

/-- No character's bytes begin those of another. -/
theorem utf8EncodeChar_append_inj {c d : Char} {xs ys : List UInt8}
    (h : String.utf8EncodeChar c ++ xs = String.utf8EncodeChar d ++ ys) : c = d := by
  have hdecode := ByteArray.utf8DecodeChar?_utf8EncodeChar_append (b := xs.toByteArray) (c := c)
  rw [← List.toByteArray_append, h, List.toByteArray_append,
    ByteArray.utf8DecodeChar?_utf8EncodeChar_append] at hdecode
  exact (Option.some.inj hdecode).symm

def StartsChar (bytes : List UInt8) : Prop := ∀ b ∈ bytes.head?, b.IsUTF8FirstByte

theorem startsChar_encode (c : Char) (n : ℕ) (rest : List UInt8) (h : n ≠ 0) :
    StartsChar ((String.utf8EncodeChar c).take n ++ rest) := by
  intro b hb
  have hlen : 0 < (String.utf8EncodeChar c).length := by
    rw [String.length_utf8EncodeChar]
    exact c.utf8Size_pos
  have hfirst : (String.utf8EncodeChar c)[0].IsUTF8FirstByte :=
    UInt8.isUTF8FirstByte_getElem_utf8EncodeChar.mpr rfl
  have hcons := List.drop_eq_getElem_cons hlen
  rw [List.drop_zero] at hcons
  rw [hcons] at hb
  obtain ⟨k, rfl⟩ := Nat.exists_eq_succ_of_ne_zero h
  simp only [List.take_succ_cons, List.cons_append, List.head?_cons, Option.mem_def,
    Option.some.injEq] at hb
  rwa [← hb]

theorem startsChar_utf8 (text : List Char) : StartsChar (utf8 text) := by
  cases text with
  | nil => intro b hb; cases hb
  | cons c text =>
      have hall := startsChar_encode c (String.utf8EncodeChar c).length (utf8 text) (by
        rw [String.length_utf8EncodeChar]
        exact c.utf8Size_pos.ne')
      rwa [List.take_length] at hall

theorem eq_append_of_utf8 {bytes rest : List UInt8} {text : List Char} (hrest : StartsChar rest)
    (h : bytes ++ rest = utf8 text) (hne : rest ≠ []) :
    ∃ before after, text = before ++ after ∧ bytes = utf8 before ∧ rest = utf8 after := by
  induction text generalizing bytes with
  | nil => exact absurd (List.append_eq_nil_iff.mp h).2 hne
  | cons c text ih =>
      rw [utf8_cons] at h
      cases bytes with
      | nil => exact ⟨[], c :: text, rfl, rfl, h⟩
      | cons b bytes =>
          cases List.append_eq_append_iff.mp h with
          | inl hshort =>
              obtain ⟨more, hchar, hsplit⟩ := hshort
              cases more with
              | nil =>
                  rw [List.append_nil] at hchar
                  refine ⟨[c], text, rfl, ?_, hsplit⟩
                  rw [utf8_cons, utf8_nil, List.append_nil, hchar]
              | cons b' more =>
                  -- The rest would start inside the character.
                  have hfirst : b'.IsUTF8FirstByte := hrest b' (by rw [hsplit]; rfl)
                  have hlen : (b :: bytes).length < (String.utf8EncodeChar c).length := by
                    rw [hchar]
                    simp
                  have hat : (String.utf8EncodeChar c)[(b :: bytes).length] = b' := by
                    simp [hchar]
                  rw [← hat] at hfirst
                  exact absurd (UInt8.isUTF8FirstByte_getElem_utf8EncodeChar.mp hfirst)
                    (Nat.succ_ne_zero _)
          | inr hlong =>
              obtain ⟨more, hbytes, hsplit⟩ := hlong
              obtain ⟨before, after, rfl, hbefore, hafter⟩ := ih hsplit.symm
              refine ⟨c :: before, after, rfl, ?_, hafter⟩
              rw [hbytes, hbefore, utf8_cons]

/-- Bytes that end inside a character are no text. -/
theorem readUtf8_cut {bytes : List UInt8} {c : Char} {n : ℕ} (hpos : n ≠ 0)
    (hn : n < (String.utf8EncodeChar c).length) :
    readUtf8 (bytes ++ (String.utf8EncodeChar c).take n) = none := by
  cases hread : readUtf8 (bytes ++ (String.utf8EncodeChar c).take n) with
  | none => rfl
  | some text =>
      have hstart := startsChar_encode c n [] hpos
      rw [List.append_nil] at hstart
      have hne : (String.utf8EncodeChar c).take n ≠ [] := by
        rw [ne_eq, List.take_eq_nil_iff]
        exact not_or.mpr ⟨hpos, String.utf8EncodeChar_ne_nil⟩
      obtain ⟨before, after, -, -, hafter⟩ :=
        eq_append_of_utf8 hstart (readUtf8_eq_some.mp hread) hne
      cases after with
      | nil => exact absurd hafter hne
      | cons d after =>
          have hcut := List.take_append_drop n (String.utf8EncodeChar c)
          rw [hafter, utf8_cons, List.append_assoc, ← List.append_nil (String.utf8EncodeChar c)]
            at hcut
          have hsame := utf8EncodeChar_append_inj hcut
          have hlen := congrArg List.length hafter
          rw [hsame, utf8_cons, List.length_append, List.length_take] at hlen
          omega

theorem readUtf8_append {bytes : List UInt8} {text read : List Char}
    (h : readUtf8 (bytes ++ utf8 text) = some read) :
    ∃ before, readUtf8 bytes = some before ∧ read = before ++ text := by
  by_cases hempty : text = []
  · rw [hempty, utf8_nil, List.append_nil] at h
    exact ⟨read, h, by rw [hempty, List.append_nil]⟩
  · obtain ⟨before, after, rfl, hbytes, hafter⟩ := eq_append_of_utf8 (startsChar_utf8 text)
      (readUtf8_eq_some.mp h) (mt utf8_eq_nil.mp hempty)
    exact ⟨before, readUtf8_eq_some.mpr hbytes, by rw [utf8_injective hafter]⟩

/-- A cut text that is readable was cut between characters, after a readable file. -/
theorem readUtf8_append_take {bytes : List UInt8} {text read : List Char} {n : ℕ}
    (h : readUtf8 (bytes ++ (utf8 text).take n) = some read) :
    ∃ before k, readUtf8 bytes = some before ∧ read = before ++ text.take k
      ∧ (utf8 text).take n = utf8 (text.take k) := by
  obtain ⟨tail, htake, htail⟩ := Framing.take_flatten (text.map String.utf8EncodeChar) n
  have hutf8 : (text.map String.utf8EncodeChar).flatten = utf8 text := rfl
  have hchars : ∀ k, ((text.map String.utf8EncodeChar).take k).flatten = utf8 (text.take k) := by
    intro k
    rw [← List.map_take]
    rfl
  rw [hutf8, hchars] at htake
  have hwhole : tail = [] := by
    cases htail with
    | inl hnil => exact hnil
    | inr hcut =>
        obtain ⟨piece, hpiece, m, hm, rfl⟩ := hcut
        obtain ⟨c, -, rfl⟩ := List.mem_map.mp hpiece
        by_cases hpos : m = 0
        · rw [hpos, List.take_zero]
        · rw [htake, ← List.append_assoc, readUtf8_cut hpos hm] at h
          cases h
  rw [hwhole, List.append_nil] at htake
  rw [htake] at h
  obtain ⟨before, hread, hsplit⟩ := readUtf8_append h
  exact ⟨before, _, hread, hsplit, htake⟩

/-! ## Lines -/

/-- Drop a final carriage return. -/
def stripCr (line : List Char) : List Char :=
  if line.getLast? = some '\r' then line.dropLast else line

/-- The lines of a text, the first of which continues `line`. -/
def linesFrom (line : List Char) : List Char → List (List Char)
  | [] => if line = [] then [] else [line]
  | c :: text =>
      if c = '\n' then stripCr line :: linesFrom [] text else linesFrom (line ++ [c]) text

/-- The lines of a text, without their line ends. -/
def lines (text : List Char) : List (List Char) := linesFrom [] text

def WholeLines (text : List Char) : Prop := text = [] ∨ text.getLast? = some '\n'

/-- What is written after whole lines is read as further lines. -/
theorem lines_append {text : List Char} (h : WholeLines text) (rest : List Char) :
    lines (text ++ rest) = lines text ++ lines rest := by
  have hgen : ∀ line, text.getLast? = some '\n' →
      linesFrom line (text ++ rest) = linesFrom line text ++ linesFrom [] rest := by
    clear h
    induction text with
    | nil => intro line hlast; cases hlast
    | cons c text ih =>
        intro line hlast
        cases text with
        | nil =>
            rw [List.getLast?_singleton, Option.some.injEq] at hlast
            simp [linesFrom, hlast]
        | cons d text =>
            have htail : (d :: text).getLast? = some '\n' := by
              rwa [List.getLast?_cons_cons] at hlast
            rw [List.cons_append, linesFrom, linesFrom]
            by_cases hc : c = '\n'
            · rw [if_pos hc, if_pos hc, ih [] htail, List.cons_append]
            · rw [if_neg hc, if_neg hc, ih (line ++ [c]) htail]
  cases h with
  | inl hempty => rw [hempty]; rfl
  | inr hlast => exact hgen [] hlast

/-- A text without a line end is one line, if it is not empty. -/
theorem lines_of_notMem {text : List Char} (h : '\n' ∉ text) :
    lines text = if text = [] then [] else [text] := by
  have hgen : ∀ line, linesFrom line text = if line ++ text = [] then [] else [line ++ text] := by
    induction text with
    | nil => intro line; rw [linesFrom, List.append_nil]
    | cons c text ih =>
        intro line
        rw [List.mem_cons, not_or] at h
        rw [linesFrom, if_neg (Ne.symm h.1), ih h.2, List.append_assoc]
        rfl
  exact hgen []

theorem lines_snoc {text : List Char} (h : '\n' ∉ text) :
    lines (text ++ ['\n']) = [stripCr text] := by
  have hgen : ∀ line, linesFrom line (text ++ ['\n']) = [stripCr (line ++ text)] := by
    induction text with
    | nil => intro line; simp [linesFrom]
    | cons c text ih =>
        intro line
        rw [List.mem_cons, not_or] at h
        rw [List.cons_append, linesFrom, if_neg (Ne.symm h.1), ih h.2, List.append_assoc]
        rfl
  exact hgen []

/-! ## White space -/

/-- The Unicode property `White_Space`. -/
def isWhiteSpace (c : Char) : Bool :=
  (9 ≤ c.toNat && c.toNat ≤ 13) || c.toNat == 0x20 || c.toNat == 0x85 || c.toNat == 0xa0
    || c.toNat == 0x1680 || (0x2000 ≤ c.toNat && c.toNat ≤ 0x200a) || c.toNat == 0x2028
    || c.toNat == 0x2029 || c.toNat == 0x202f || c.toNat == 0x205f || c.toNat == 0x3000

def isBlank (line : List Char) : Bool := line.all isWhiteSpace

end Cawala.Library.TextFile
