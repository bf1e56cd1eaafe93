import Mathlib.Data.List.Nodup
import Mathlib.Tactic.NormNum
import Cawala.Model.Mnemonic

/-! # Recovery phrases round-trip

Bytes regrouped into words and back, the checksum on both sides, and the texts that normalize to
a phrase. The validator accepts exactly the texts that normalize to the phrase of some entropy,
and it rebuilds that entropy. -/

namespace Cawala.Mnemonic

open Library.BitString

/-! ## Bytes and bits -/

private def orBit (byte : UInt8) (bit : Bool) (i : ℕ) : UInt8 :=
  if bit then byte ||| UInt8.ofNat (1 <<< (7 - i)) else byte

theorem setBit_head {i : ℕ} (byte : UInt8) (out : List UInt8) (bit : Bool) (h : i < 8) :
    setBit (byte :: out) (bit, i) = orBit byte bit i :: out := by
  have hshift : i >>> 3 = 0 := by
    rw [Nat.shiftRight_eq_div_pow]
    omega
  have hand : i &&& 7 = i := by
    rw [Nat.and_two_pow_sub_one_eq_mod i 3]
    omega
  cases bit <;> simp [setBit, orBit, hshift, hand]

theorem setBit_tail (byte : UInt8) (out : List UInt8) (bit : Bool) (i : ℕ) :
    setBit (byte :: out) (bit, i + 8) = byte :: setBit out (bit, i) := by
  have hshift : (i + 8) >>> 3 = i >>> 3 + 1 := by
    simp only [Nat.shiftRight_eq_div_pow]
    omega
  have hand : (i + 8) &&& 7 = i &&& 7 := by
    rw [Nat.and_two_pow_sub_one_eq_mod _ 3, Nat.and_two_pow_sub_one_eq_mod _ 3]
    omega
  cases bit <;> simp [setBit, hshift, hand]

theorem foldl_setBit_tail (byte : UInt8) (out : List UInt8) (bits : List Bool) (i : ℕ) :
    (bits.zipIdx (i + 8)).foldl setBit (byte :: out)
      = byte :: (bits.zipIdx i).foldl setBit out := by
  induction bits generalizing out i with
  | nil => rfl
  | cons bit bits ih =>
    rw [List.zipIdx_cons, List.zipIdx_cons, List.foldl_cons, List.foldl_cons, setBit_tail,
      Nat.add_right_comm, ih]

private theorem orBit_byte : ∀ b₀ b₁ b₂ b₃ b₄ b₅ b₆ b₇ : Bool,
    orBit (orBit (orBit (orBit (orBit (orBit (orBit (orBit 0 b₀ 0) b₁ 1) b₂ 2) b₃ 3) b₄ 4) b₅ 5)
      b₆ 6) b₇ 7 = UInt8.ofNat (ofBits [b₀, b₁, b₂, b₃, b₄, b₅, b₆, b₇]) := by
  decide +kernel

theorem foldl_setBit_byte {byte : List Bool} (out : List UInt8) (h : byte.length = 8) :
    (byte.zipIdx 0).foldl setBit (0 :: out) = UInt8.ofNat (ofBits byte) :: out := by
  match byte, h with
  | [b₀, b₁, b₂, b₃, b₄, b₅, b₆, b₇], _ =>
    simp only [List.zipIdx_cons, List.zipIdx_nil, List.foldl_cons, List.foldl_nil, Nat.zero_add]
    simp only [Nat.reduceAdd, setBit_head _ _ _ (show (0 : ℕ) < 8 by decide),
      setBit_head _ _ _ (show 1 < 8 by decide), setBit_head _ _ _ (show 2 < 8 by decide),
      setBit_head _ _ _ (show 3 < 8 by decide), setBit_head _ _ _ (show 4 < 8 by decide),
      setBit_head _ _ _ (show 5 < 8 by decide), setBit_head _ _ _ (show 6 < 8 by decide),
      setBit_head _ _ _ (show 7 < 8 by decide), orBit_byte]

theorem bitsToBytes_append {byte : List Bool} (bits : List Bool) (h : byte.length = 8) :
    bitsToBytes (byte ++ bits) = UInt8.ofNat (ofBits byte) :: bitsToBytes bits := by
  have hsize : (byte ++ bits).length / 8 = bits.length / 8 + 1 := by
    rw [List.length_append, h]
    omega
  rw [bitsToBytes, hsize, List.replicate_succ, List.zipIdx_append, List.foldl_append,
    foldl_setBit_byte _ h, h, Nat.zero_add, ← Nat.zero_add 8, foldl_setBit_tail, bitsToBytes]

theorem bitsToBytes_eq_groups {count : ℕ} {bits : List Bool} (h : bits.length = 8 * count) :
    bitsToBytes bits = (groups 8 count bits).map UInt8.ofNat := by
  induction count generalizing bits with
  | zero =>
    have hnil : bits = [] := List.eq_nil_of_length_eq_zero (by simpa using h)
    rw [hnil]
    rfl
  | succ count ih =>
    rw [Nat.mul_succ] at h
    have htake : (bits.take 8).length = 8 := by
      rw [List.length_take]
      omega
    have hdrop : (bits.drop 8).length = 8 * count := by
      rw [List.length_drop]
      omega
    have hsplit := bitsToBytes_append (bits.drop 8) htake
    rw [List.take_append_drop] at hsplit
    rw [hsplit, ih hdrop, groups, List.map_cons]

def bytesToBits (bytes : List UInt8) : List Bool :=
  bytes.flatMap fun byte => toBits 8 byte.toNat

theorem bytesToBits_eq (bytes : List UInt8) :
    bytesToBits bytes = (bytes.map UInt8.toNat).flatMap (toBits 8) := by
  rw [List.flatMap_map]
  rfl

@[simp] theorem length_bytesToBits (bytes : List UInt8) :
    (bytesToBits bytes).length = 8 * bytes.length := by
  rw [bytesToBits_eq, length_flatMap_toBits, List.length_map]

theorem bitsToBytes_bytesToBits (bytes : List UInt8) : bitsToBytes (bytesToBits bytes) = bytes := by
  have hfit : ∀ n ∈ bytes.map UInt8.toNat, n < 2 ^ 8 := by
    intro n hn
    obtain ⟨byte, -, rfl⟩ := List.mem_map.mp hn
    exact byte.toNat_lt
  have hgroups := groups_flatMap hfit
  rw [List.length_map, ← bytesToBits_eq] at hgroups
  rw [bitsToBytes_eq_groups (length_bytesToBits bytes), hgroups, List.map_map]
  simp [Function.comp_def]

theorem bytesToBits_bitsToBytes {count : ℕ} {bits : List Bool} (h : bits.length = 8 * count) :
    bytesToBits (bitsToBytes bits) = bits := by
  have hback : ∀ n ∈ groups 8 count bits, (UInt8.toNat ∘ UInt8.ofNat) n = id n :=
    fun n hn => UInt8.toNat_ofNat_of_lt' (groups_lt h n hn)
  rw [bytesToBits_eq, bitsToBytes_eq_groups h, List.map_map, List.map_congr_left hback, List.map_id,
    flatMap_groups h]

theorem length_bitsToBytes {count : ℕ} {bits : List Bool} (h : bits.length = 8 * count) :
    (bitsToBytes bits).length = count := by
  rw [bitsToBytes_eq_groups h, List.length_map, length_groups]

/-! ## Entropy -/

/-- An entropy of one of the lengths that phrases are made of. -/
structure Entropy where
  bytes : List UInt8
  size : bytes.length ∈ [16, 20, 24, 28, 32]

/-- The array that `getRandomValues` has filled. -/
def Entropy.array (entropy : Entropy) : Vector UInt8 (8 * entropy.bytes.length / 8) :=
  ⟨entropy.bytes.toArray, by simp⟩

theorem Entropy.ext_bytes {entropy entropy' : Entropy} (h : entropy.bytes = entropy'.bytes) :
    entropy = entropy' := by
  cases entropy
  cases entropy'
  cases h
  rfl

theorem Entropy.counts (entropy : Entropy) : ∃ checksumBits count : ℕ,
    entropy.bytes.length = 4 * checksumBits ∧ count = 3 * checksumBits
      ∧ count ∈ validWordCounts := by
  have hsize := entropy.size
  simp only [List.mem_cons, List.not_mem_nil, or_false] at hsize
  rcases hsize with h | h | h | h | h
  · exact ⟨4, 12, h, rfl, by decide⟩
  · exact ⟨5, 15, h, rfl, by decide⟩
  · exact ⟨6, 18, h, rfl, by decide⟩
  · exact ⟨7, 21, h, rfl, by decide⟩
  · exact ⟨8, 24, h, rfl, by decide⟩

/-- The word count is found by the division, which leaves no remainder. -/
theorem find_wordCount {checksumBits count : ℕ} (h : count = 3 * checksumBits)
    (hvalid : count ∈ validWordCounts) :
    (validWordCounts.find? fun c : ℕ =>
      decide ((c : ℚ) = (((32 * checksumBits : ℕ) : ℚ) + ((32 * checksumBits : ℕ) : ℚ) / 32) / 11))
      = some count := by
  have hquotient :
      (((32 * checksumBits : ℕ) : ℚ) + ((32 * checksumBits : ℕ) : ℚ) / 32) / 11 = (count : ℚ) := by
    rw [h]
    push_cast
    ring
  simp only [hquotient, Nat.cast_inj]
  simp only [validWordCounts, List.mem_cons, List.not_mem_nil, or_false] at hvalid
  rcases hvalid with rfl | rfl | rfl | rfl | rfl <;> rfl

/-! ## Words and indices -/

section
variable [Primitives]

def wordsOf (indices : List ℕ) : List Text := indices.map fun i => bip39Wordlist.getD i []

theorem bip39WordIndex_getD {i : ℕ} (h : i < 2048) :
    bip39WordIndex (bip39Wordlist.getD i []) = some i := by
  have hi : i < bip39Wordlist.length := by rwa [bip39Wordlist, Primitives.wordlist.size]
  rw [bip39WordIndex, List.getD_eq_getElem _ _ hi, List.idxOf?_eq_some_iff]
  refine ⟨hi, by simp, fun j hj heq => ?_⟩
  have hnodup : bip39Wordlist.Nodup := Primitives.wordlist.nodup
  have hij := (List.getElem_inj hnodup).mp heq
  omega

theorem getD_of_bip39WordIndex {word : Text} {i : ℕ} (h : bip39WordIndex word = some i) :
    i < 2048 ∧ bip39Wordlist.getD i [] = word := by
  obtain ⟨hi, hword, -⟩ := List.idxOf?_eq_some_iff.mp h
  refine ⟨?_, by rw [List.getD_eq_getElem _ _ hi, hword]⟩
  rwa [bip39Wordlist, Primitives.wordlist.size] at hi

theorem mem_bip39Wordlist {i : ℕ} (h : i < 2048) : bip39Wordlist.getD i [] ∈ bip39Wordlist := by
  have hi : i < bip39Wordlist.length := by rwa [bip39Wordlist, Primitives.wordlist.size]
  rw [List.getD_eq_getElem _ _ hi]
  exact List.getElem_mem hi

theorem wordsToBits_wordsOf {indices : List ℕ} (h : ∀ i ∈ indices, i < 2048) :
    wordsToBits (wordsOf indices) = indices.flatMap (toBits 11) := by
  rw [wordsToBits, wordsOf, List.flatMap_map]
  refine List.flatMap_congr fun i hi => ?_
  rw [bip39WordIndex_getD (h i hi), Option.getD_some]

theorem exists_indices {words : List Text} (h : ∀ word ∈ words, (bip39WordIndex word).isSome) :
    ∃ indices : List ℕ, (∀ i ∈ indices, i < 2048) ∧ wordsOf indices = words := by
  induction words with
  | nil => exact ⟨[], by simp, rfl⟩
  | cons word words ih =>
    obtain ⟨indices, hlt, hwords⟩ := ih fun w hw => h w (List.mem_cons_of_mem word hw)
    obtain ⟨i, hi⟩ := Option.isSome_iff_exists.mp (h word List.mem_cons_self)
    obtain ⟨hlt', hword⟩ := getD_of_bip39WordIndex hi
    refine ⟨i :: indices, List.forall_mem_cons.mpr ⟨hlt', hlt⟩, ?_⟩
    rw [wordsOf, List.map_cons, hword]
    exact congrArg _ hwords

/-! ## Phrases and their bits -/

def phraseWords (count : ℕ) (bits : List Bool) : List Text := wordsOf (groups 11 count bits)

theorem map_wordAt {count : ℕ} {bits : List Bool} (h : bits.length = 11 * count) :
    (List.range count).map (wordAt bits) = phraseWords count bits := by
  rw [phraseWords, wordsOf, groups_eq_map_range, List.map_map]
  refine List.map_congr_left fun w hw => ?_
  have hw := List.mem_range.mp hw
  rw [wordAt, ofBits_range 11 (w * 11) (by omega), Function.comp_apply]

theorem wordsToBits_phraseWords {count : ℕ} {bits : List Bool} (h : bits.length = 11 * count) :
    wordsToBits (phraseWords count bits) = bits := by
  rw [phraseWords, wordsToBits_wordsOf (groups_lt h), flatMap_groups h]

theorem length_phraseWords (count : ℕ) (bits : List Bool) :
    (phraseWords count bits).length = count := by
  rw [phraseWords, wordsOf, List.length_map, length_groups]

theorem phraseWords_mem {count : ℕ} {bits : List Bool} (h : bits.length = 11 * count) :
    ∀ word ∈ phraseWords count bits, word ∈ bip39Wordlist := by
  intro word hword
  obtain ⟨i, hi, rfl⟩ := List.mem_map.mp hword
  exact mem_bip39Wordlist (groups_lt h i hi)

theorem phraseWords_wordsToBits {words : List Text}
    (h : ∀ word ∈ words, (bip39WordIndex word).isSome) :
    phraseWords words.length (wordsToBits words) = words := by
  obtain ⟨indices, hlt, rfl⟩ := exists_indices h
  have hlength : (wordsOf indices).length = indices.length := List.length_map _
  rw [wordsToBits_wordsOf hlt, hlength, phraseWords, groups_flatMap hlt]

@[simp] theorem length_wordsToBits (words : List Text) :
    (wordsToBits words).length = 11 * words.length := by
  induction words with
  | nil => rfl
  | cons word words ih =>
    rw [wordsToBits, List.flatMap_cons, List.length_append, length_toBits, List.length_cons,
      ← wordsToBits, ih]
    omega

/-! ## The checksum -/

theorem mnemonicBits_eq (entropy : List UInt8) (checksumBits : ℕ) :
    mnemonicBits entropy checksumBits
      = bytesToBits entropy
        ++ (List.range checksumBits).map (hashBit (Primitives.sha256 entropy)) := rfl

/-- The bits of an entropy with one checksum bit for each 32 of its own: the checksum has the
length that the validator expects, and the entropy is read back. -/
theorem entropyOf_mnemonicBits {entropy : List UInt8} {checksumBits : ℕ}
    (h : entropy.length = 4 * checksumBits) :
    checksumLength (mnemonicBits entropy checksumBits) = checksumBits
      ∧ entropyOf (mnemonicBits entropy checksumBits) = entropy := by
  have hentropy : (bytesToBits entropy).length = 32 * checksumBits := by
    rw [length_bytesToBits, h]
    omega
  have hlength : (mnemonicBits entropy checksumBits).length = 33 * checksumBits := by
    rw [mnemonicBits_eq, List.length_append, hentropy, List.length_map, List.length_range]
    omega
  have hchecksum : checksumLength (mnemonicBits entropy checksumBits) = checksumBits := by
    rw [checksumLength, hlength]
    omega
  have htake : 33 * checksumBits - checksumBits = (bytesToBits entropy).length := by omega
  refine ⟨hchecksum, ?_⟩
  rw [entropyOf, hchecksum, hlength, htake, mnemonicBits_eq, List.take_left,
    bitsToBytes_bytesToBits]

theorem checksumMatches_mnemonicBits {entropy : List UInt8} {checksumBits : ℕ}
    (h : entropy.length = 4 * checksumBits) :
    checksumMatches (mnemonicBits entropy checksumBits) = true := by
  obtain ⟨hchecksum, hentropy⟩ := entropyOf_mnemonicBits h
  rw [checksumMatches, hchecksum, hentropy, List.all_eq_true]
  intro i hi
  have hi := List.mem_range.mp hi
  have hlength : (mnemonicBits entropy checksumBits).length - checksumBits
      = (bytesToBits entropy).length := by
    rw [mnemonicBits_eq, List.length_append, List.length_map, List.length_range,
      Nat.add_sub_cancel]
  rw [hlength, mnemonicBits_eq, beq_iff_eq, List.getD_append_right _ _ _ _ (Nat.le_add_right _ i),
    Nat.add_sub_cancel_left, List.getD_eq_getElem _ _ (by simpa using hi), List.getElem_map,
    List.getElem_range]

theorem mnemonicBits_entropyOf {bits : List Bool} {checksumBits : ℕ}
    (h : bits.length = 33 * checksumBits) (hmatches : checksumMatches bits = true) :
    (entropyOf bits).length = 4 * checksumBits
      ∧ mnemonicBits (entropyOf bits) checksumBits = bits := by
  have hchecksum : checksumLength bits = checksumBits := by
    rw [checksumLength, h]
    omega
  have hstart : bits.length - checksumBits = 32 * checksumBits := by omega
  have htake : (bits.take (32 * checksumBits)).length = 8 * (4 * checksumBits) := by
    rw [List.length_take]
    omega
  have hentropy : entropyOf bits = bitsToBytes (bits.take (32 * checksumBits)) := by
    rw [entropyOf, hchecksum, hstart]
  rw [checksumMatches, hchecksum, hstart, List.all_eq_true] at hmatches
  have htail : (List.range checksumBits).map (hashBit (Primitives.sha256 (entropyOf bits)))
      = bits.drop (32 * checksumBits) := by
    refine List.ext_getElem (by simp; omega) fun i hi hi' => ?_
    have hlt : i < checksumBits := by simpa using hi
    have hbit := beq_iff_eq.mp (hmatches i (List.mem_range.mpr hlt))
    rw [List.getElem_map, List.getElem_range, List.getElem_drop, hbit, List.getD_eq_getElem]
  refine ⟨by rw [hentropy, length_bitsToBytes htake], ?_⟩
  rw [mnemonicBits_eq, htail, hentropy, bytesToBits_bitsToBytes htake, List.take_append_drop]

/-! ## The generator -/

def entropyWords (entropy : List UInt8) : List Text :=
  phraseWords (3 * (entropy.length / 4)) (mnemonicBits entropy (entropy.length / 4))

theorem length_mnemonicBits {entropy : List UInt8} {checksumBits : ℕ}
    (h : entropy.length = 4 * checksumBits) :
    (mnemonicBits entropy checksumBits).length = 11 * (3 * checksumBits) := by
  rw [mnemonicBits_eq, List.length_append, length_bytesToBits, h, List.length_map,
    List.length_range]
  omega

theorem generateMnemonic_eq (entropy : Entropy) :
    generateMnemonic (8 * entropy.bytes.length) entropy.array
      = .ok (join (entropyWords entropy.bytes)) := by
  obtain ⟨checksumBits, count, hlength, hcount, hvalid⟩ := entropy.counts
  have hstrength : 8 * entropy.bytes.length = 32 * checksumBits := by omega
  have hbytes : entropy.array.toList = entropy.bytes := by simp [Entropy.array, Vector.toList]
  have hquarter : 8 * entropy.bytes.length / 8 / 4 = checksumBits := by omega
  have hquarter' : entropy.bytes.length / 4 = checksumBits := by omega
  have hbits := length_mnemonicBits hlength
  rw [generateMnemonic]
  simp only [hbytes, hquarter]
  simp only [hstrength]
  rw [find_wordCount hcount hvalid, entropyWords, hquarter', ← map_wordAt hbits, hcount]

/-! ## The validator on words -/

theorem mnemonicError_eq_none (words : List Text) :
    mnemonicError words = none ↔ words.length ∈ validWordCounts
      ∧ (∀ word ∈ words, (bip39WordIndex word).isSome)
      ∧ checksumMatches (wordsToBits words) = true := by
  have hzero : words.length ∈ validWordCounts → words.length ≠ 0 := by
    intro h h0
    rw [h0] at h
    exact absurd h (by decide)
  unfold mnemonicError
  by_cases h0 : words.length = 0
  · simp only [if_pos h0, reduceCtorEq, false_iff]
    exact fun h => hzero h.1 h0
  by_cases hcount : words.length ∈ validWordCounts
  · rw [if_neg h0, if_neg (not_not_intro hcount)]
    cases hunknown : words.findIdx? fun word => (bip39WordIndex word).isNone with
    | some i =>
      obtain ⟨hi, hnone, -⟩ := List.findIdx?_eq_some_iff_getElem.mp hunknown
      have hnot : ¬ (bip39WordIndex words[i]).isSome := by
        rw [Option.isNone_iff_eq_none.mp hnone]
        decide
      simp only [reduceCtorEq, false_iff]
      exact fun h => hnot (h.2.1 words[i] (List.getElem_mem hi))
    | none =>
      have hlisted : ∀ word ∈ words, (bip39WordIndex word).isSome := by
        intro word hword
        have hsome := List.findIdx?_eq_none_iff.mp hunknown word hword
        rwa [← Option.not_isSome, Bool.not_eq_false'] at hsome
      dsimp only
      by_cases hmatches : checksumMatches (wordsToBits words) = true
      · rw [if_pos hmatches]
        exact iff_of_true rfl ⟨hcount, hlisted, hmatches⟩
      · rw [if_neg hmatches]
        exact iff_of_false (by simp) fun h => hmatches h.2.2
  · simp only [if_neg h0, if_pos hcount, reduceCtorEq, false_iff]
    exact fun h => hcount h.1

/-- The words made of an entropy are accepted, and the entropy is rebuilt. -/
theorem mnemonicError_entropyWords (entropy : Entropy) :
    mnemonicError (entropyWords entropy.bytes) = none
      ∧ entropyOf (wordsToBits (entropyWords entropy.bytes)) = entropy.bytes := by
  obtain ⟨checksumBits, count, hlength, hcount, hvalid⟩ := entropy.counts
  have hquarter : entropy.bytes.length / 4 = checksumBits := by omega
  have hbits := wordsToBits_phraseWords (length_mnemonicBits hlength)
  rw [entropyWords, hquarter, mnemonicError_eq_none, length_phraseWords, ← hcount, hcount, hbits]
  refine ⟨⟨hcount ▸ hvalid, fun word hword => ?_, checksumMatches_mnemonicBits hlength⟩,
    (entropyOf_mnemonicBits hlength).2⟩
  exact List.isSome_idxOf?.mpr (phraseWords_mem (length_mnemonicBits hlength) word hword)

/-- Accepted words are those made of the entropy that is rebuilt from them. -/
theorem exists_entropy_of_mnemonicError {words : List Text} (h : mnemonicError words = none) :
    ∃ entropy : Entropy, entropyWords entropy.bytes = words
      ∧ entropy.bytes = entropyOf (wordsToBits words) := by
  obtain ⟨hvalid, hlisted, hmatches⟩ := (mnemonicError_eq_none words).mp h
  obtain ⟨checksumBits, hcount, hsize⟩ : ∃ checksumBits : ℕ, words.length = 3 * checksumBits
      ∧ 4 * checksumBits ∈ [16, 20, 24, 28, 32] := by
    simp only [validWordCounts, List.mem_cons, List.not_mem_nil, or_false] at hvalid
    rcases hvalid with hv | hv | hv | hv | hv
    · exact ⟨4, hv, by decide⟩
    · exact ⟨5, hv, by decide⟩
    · exact ⟨6, hv, by decide⟩
    · exact ⟨7, hv, by decide⟩
    · exact ⟨8, hv, by decide⟩
  have hlength : (wordsToBits words).length = 33 * checksumBits := by
    rw [length_wordsToBits]
    omega
  obtain ⟨hentropy, hbits⟩ := mnemonicBits_entropyOf hlength hmatches
  refine ⟨⟨entropyOf (wordsToBits words), hentropy ▸ hsize⟩, ?_, rfl⟩
  have hquarter : 4 * checksumBits / 4 = checksumBits := by omega
  show entropyWords (entropyOf (wordsToBits words)) = words
  rw [entropyWords, hentropy, hquarter, hbits, ← hcount, phraseWords_wordsToBits hlisted]

end

/-! ## Text -/

/-- The lower case of the letters whose lower case is one of a–z: A–Z and the Kelvin sign. -/
def lowerUnit (unit : UInt16) : UInt16 :=
  if 65 ≤ unit ∧ unit ≤ 90 then unit + 32 else if unit = 0x212A then 107 else unit

/-- On letters and white space `toLowerCase` goes by the unit. -/
def LowersLetters (toLowerCase : Text → Text) : Prop :=
  ∀ t : Text, (∀ unit ∈ t, isSpace unit ∨ IsLetter (lowerUnit unit)) →
    toLowerCase t = t.map lowerUnit

/-- Words in any letter case, with white space between one and the next. -/
inductive Typed : List Text → Text → Prop
  | single {word typed : Text} (letters : typed.map lowerUnit = word) : Typed [word] typed
  | cons {word typed gap rest : Text} {words : List Text} (letters : typed.map lowerUnit = word)
      (apart : gap ≠ []) (blank : ∀ unit ∈ gap, isSpace unit) (tail : Typed words rest) :
      Typed (word :: words) (typed ++ (gap ++ rest))

/-- A text that differs from a phrase in letter case and in the white space between and around
the words. -/
def Respelled (phrase t : Text) : Prop :=
  ∃ before typed after, t = before ++ (typed ++ after) ∧ (∀ unit ∈ before, isSpace unit)
    ∧ (∀ unit ∈ after, isSpace unit) ∧ Typed (phrase.splitOn 0x0020) typed

/-- White space lies apart from the letters of either case. -/
theorem toNat_of_isSpace {unit : UInt16} (h : isSpace unit = true) :
    unit.toNat < 65 ∨ (90 < unit.toNat ∧ unit.toNat ≠ 0x212A
      ∧ (unit.toNat < 97 ∨ 122 < unit.toNat)) := by
  simp only [isSpace, Bool.or_eq_true, Bool.and_eq_true, decide_eq_true_eq, beq_iff_eq,
    UInt16.le_iff_toNat_le, ← UInt16.toNat_inj, UInt16.reduceToNat] at h
  omega

theorem lowerUnit_of_isSpace {unit : UInt16} (h : isSpace unit = true) :
    lowerUnit unit = unit := by
  have h := toNat_of_isSpace h
  rw [lowerUnit, if_neg, if_neg]
  · simp only [← UInt16.toNat_inj, UInt16.reduceToNat]
    omega
  · simp only [UInt16.le_iff_toNat_le, UInt16.reduceToNat]
    omega

theorem not_isSpace_of_isLetter {unit : UInt16} (h : IsLetter (lowerUnit unit)) :
    isSpace unit = false := by
  rw [Bool.eq_false_iff]
  intro hspace
  rw [lowerUnit_of_isSpace hspace] at h
  have hspace := toNat_of_isSpace hspace
  simp only [IsLetter, UInt16.le_iff_toNat_le, UInt16.reduceToNat] at h
  omega

theorem not_isSpace_of_letter {unit : UInt16} (h : IsLetter unit) : isSpace unit = false := by
  rw [Bool.eq_false_iff]
  intro hspace
  rw [← lowerUnit_of_isSpace hspace] at h
  rw [not_isSpace_of_isLetter h] at hspace
  cases hspace

/-! ### Trimming -/

theorem trim_append {before core after : Text} (hbefore : ∀ unit ∈ before, isSpace unit)
    (hafter : ∀ unit ∈ after, isSpace unit)
    (hhead : ∃ unit rest, core = unit :: rest ∧ isSpace unit = false)
    (hlast : ∃ rest unit, core = rest ++ [unit] ∧ isSpace unit = false) :
    trim (before ++ (core ++ after)) = core := by
  have hdrop : (core ++ after).dropWhile isSpace = core ++ after := by
    obtain ⟨unit, rest, rfl, hunit⟩ := hhead
    rw [List.cons_append, List.dropWhile_cons_of_neg (by simp [hunit])]
  rw [trim, List.dropWhile_append_of_pos hbefore, hdrop, List.rdropWhile, List.reverse_append,
    List.dropWhile_append_of_pos fun unit hunit => hafter unit (List.mem_reverse.mp hunit)]
  obtain ⟨rest, unit, rfl, hunit⟩ := hlast
  rw [List.reverse_append, List.reverse_singleton, List.singleton_append,
    List.dropWhile_cons_of_neg (by simp [hunit]), List.reverse_cons, List.reverse_reverse]

/-! ### Collapsing white space -/

theorem collapseRuns_word {word : Text} (inRun : Bool) (rest : Text) (hword : word ≠ [])
    (h : ∀ unit ∈ word, isSpace unit = false) :
    collapseRuns inRun (word ++ rest) = word ++ collapseRuns false rest := by
  induction word generalizing inRun with
  | nil => exact absurd rfl hword
  | cons unit word ih =>
    have hunit := h unit List.mem_cons_self
    rw [List.cons_append, collapseRuns, hunit, if_neg Bool.false_ne_true, List.cons_append]
    cases word with
    | nil => rfl
    | cons next word =>
      rw [ih false (List.cons_ne_nil _ _) fun u hu => h u (List.mem_cons_of_mem unit hu)]

theorem collapseRuns_inRun {gap : Text} (rest : Text) (h : ∀ unit ∈ gap, isSpace unit) :
    collapseRuns true (gap ++ rest) = collapseRuns true rest := by
  induction gap with
  | nil => rfl
  | cons unit gap ih =>
    rw [List.cons_append, collapseRuns, h unit List.mem_cons_self, if_pos rfl, if_pos rfl,
      ih fun u hu => h u (List.mem_cons_of_mem unit hu)]

theorem collapseRuns_gap {gap : Text} (rest : Text) (hgap : gap ≠ [])
    (h : ∀ unit ∈ gap, isSpace unit) :
    collapseRuns false (gap ++ rest) = 0x0020 :: collapseRuns true rest := by
  cases gap with
  | nil => exact absurd rfl hgap
  | cons unit gap =>
    rw [List.cons_append, collapseRuns, h unit List.mem_cons_self, if_pos rfl,
      if_neg Bool.false_ne_true,
      collapseRuns_inRun _ fun u hu => h u (List.mem_cons_of_mem unit hu)]

/-! ### Typed words -/

def Spelled (words : List Text) : Prop :=
  ∀ word ∈ words, word ≠ [] ∧ ∀ unit ∈ word, IsLetter unit

theorem Spelled.tail {word : Text} {words : List Text} (h : Spelled (word :: words)) :
    Spelled words :=
  fun w hw => h w (List.mem_cons_of_mem word hw)

theorem Typed.words_ne_nil {words : List Text} {typed : Text} (h : Typed words typed) :
    words ≠ [] := by
  cases h <;> simp

theorem isLetter_of_typed {word typed : Text} (hletters : typed.map lowerUnit = word)
    (h : ∀ unit ∈ word, IsLetter unit) : ∀ unit ∈ typed, IsLetter (lowerUnit unit) :=
  fun _ hunit => h _ (hletters ▸ List.mem_map_of_mem hunit)

theorem Typed.head {words : List Text} {typed : Text} (h : Typed words typed)
    (hwords : Spelled words) : ∃ unit rest, typed = unit :: rest ∧ isSpace unit = false := by
  have hfirst : ∀ {word spelt : Text} (rest : Text), spelt.map lowerUnit = word →
      (word ≠ [] ∧ ∀ unit ∈ word, IsLetter unit) →
      ∃ unit rest', spelt ++ rest = unit :: rest' ∧ isSpace unit = false := by
    intro word spelt rest hletters hword
    cases spelt with
    | nil => exact absurd hletters.symm hword.1
    | cons unit spelt =>
      exact ⟨unit, spelt ++ rest, rfl,
        not_isSpace_of_isLetter (isLetter_of_typed hletters hword.2 unit List.mem_cons_self)⟩
  cases h with
  | single hletters =>
    obtain ⟨unit, rest, hrest⟩ := hfirst [] hletters (hwords _ List.mem_cons_self)
    exact ⟨unit, rest, by rwa [List.append_nil] at hrest⟩
  | cons hletters _ _ _ => exact hfirst _ hletters (hwords _ List.mem_cons_self)

theorem Typed.last {words : List Text} {typed : Text} (h : Typed words typed)
    (hwords : Spelled words) : ∃ rest unit, typed = rest ++ [unit] ∧ isSpace unit = false := by
  induction h with
  | @single word typed hletters =>
    have hword := hwords word List.mem_cons_self
    have hne : typed ≠ [] := by
      rintro rfl
      exact hword.1 hletters.symm
    refine ⟨typed.dropLast, typed.getLast hne, (List.dropLast_append_getLast hne).symm, ?_⟩
    exact not_isSpace_of_isLetter
      (isLetter_of_typed hletters hword.2 _ (List.getLast_mem hne))
  | @cons word typed gap rest words _ _ _ _ ih =>
    obtain ⟨front, unit, rfl, hunit⟩ := ih hwords.tail
    exact ⟨typed ++ (gap ++ front), unit, by simp, hunit⟩

/-- Typed words consist of letters and white space. -/
theorem Typed.units {words : List Text} {typed : Text} (h : Typed words typed)
    (hwords : Spelled words) : ∀ unit ∈ typed, isSpace unit ∨ IsLetter (lowerUnit unit) := by
  induction h with
  | @single word typed hletters =>
    exact fun unit hunit => .inr
      (isLetter_of_typed hletters (hwords word List.mem_cons_self).2 unit hunit)
  | @cons word typed gap rest words hletters _ hblank _ ih =>
    intro unit hunit
    rcases List.mem_append.mp hunit with hunit | hunit
    · exact .inr (isLetter_of_typed hletters (hwords word List.mem_cons_self).2 unit hunit)
    · rcases List.mem_append.mp hunit with hunit | hunit
      · exact .inl (hblank unit hunit)
      · exact ih hwords.tail unit hunit

/-- In lower case and with each gap collapsed, typed words are the words joined. -/
theorem Typed.collapse {words : List Text} {typed : Text} (h : Typed words typed)
    (hwords : Spelled words) (inRun : Bool) :
    collapseRuns inRun (typed.map lowerUnit) = join words := by
  have hnot : ∀ {word : Text}, (∀ unit ∈ word, IsLetter unit) →
      ∀ unit ∈ word, isSpace unit = false :=
    fun h unit hunit => not_isSpace_of_letter (h unit hunit)
  induction h generalizing inRun with
  | @single word typed hletters =>
    obtain ⟨hne, hword⟩ := hwords word List.mem_cons_self
    rw [hletters]
    have hcollapse := collapseRuns_word inRun [] hne (hnot hword)
    rw [List.append_nil] at hcollapse
    rw [hcollapse, join, List.intercalate_singleton]
    exact List.append_nil word
  | @cons word typed gap rest words hletters hgap hblank htail ih =>
    obtain ⟨hne, hword⟩ := hwords word List.mem_cons_self
    have hlower : gap.map lowerUnit = gap := by
      conv_rhs => rw [← List.map_id gap]
      exact List.map_congr_left fun unit hunit => lowerUnit_of_isSpace (hblank unit hunit)
    have hjoin : join (word :: words) = word ++ 0x0020 :: join words := by
      obtain ⟨next, words, rfl⟩ := List.exists_cons_of_ne_nil htail.words_ne_nil
      rw [join, List.intercalate_cons_cons, join, List.append_assoc, List.singleton_append]
    rw [List.map_append, List.map_append, hletters, hlower,
      collapseRuns_word inRun _ hne (hnot hword), collapseRuns_gap _ hgap hblank,
      ih hwords.tail true, hjoin]

theorem splitOn_join {words : List Text} (hne : words ≠ []) (hwords : Spelled words) :
    (join words).splitOn 0x0020 = words := by
  refine List.splitOn_intercalate _ (fun word hword hmem => ?_) hne
  have hletter := (hwords word hword).2 _ hmem
  exact absurd hletter (by decide)

section
variable [Primitives]

theorem normalizeMnemonic_typed {words : List Text} {before typed after : Text}
    (hlower : LowersLetters Primitives.toLowerCase) (hwords : Spelled words)
    (hbefore : ∀ unit ∈ before, isSpace unit) (hafter : ∀ unit ∈ after, isSpace unit)
    (h : Typed words typed) : normalizeMnemonic (before ++ (typed ++ after)) = join words := by
  rw [normalizeMnemonic, trim_append hbefore hafter (h.head hwords) (h.last hwords),
    hlower typed (h.units hwords), h.collapse hwords]

theorem mnemonicWords_of_normalize {t : Text} {words : List Text} (hne : words ≠ [])
    (hwords : Spelled words) (h : normalizeMnemonic t = join words) : mnemonicWords t = words := by
  have hjoin : join words ≠ [] := by
    intro hnil
    have hsplit := splitOn_join hne hwords
    rw [hnil] at hsplit
    rw [← hsplit] at hwords
    exact (hwords [] (by simp)).1 rfl
  rw [mnemonicWords, h, if_neg hjoin, splitOn_join hne hwords]

theorem join_mnemonicWords {t : Text} (h : mnemonicWords t ≠ []) :
    join (mnemonicWords t) = normalizeMnemonic t := by
  by_cases hnil : normalizeMnemonic t = []
  · rw [mnemonicWords, if_pos hnil] at h
    exact absurd rfl h
  · rw [mnemonicWords, if_neg hnil, join, List.intercalate_splitOn]

/-! ## The round trip -/

theorem entropyWords_spelled (entropy : Entropy) :
    entropyWords entropy.bytes ≠ [] ∧ Spelled (entropyWords entropy.bytes) := by
  obtain ⟨checksumBits, count, hlength, hcount, hvalid⟩ := entropy.counts
  have hquarter : entropy.bytes.length / 4 = checksumBits := by omega
  rw [entropyWords, hquarter]
  refine ⟨fun hnil => ?_, fun word hword => ?_⟩
  · have hlength := congrArg List.length hnil
    rw [length_phraseWords, ← hcount, List.length_nil] at hlength
    rw [hlength] at hvalid
    exact absurd hvalid (by decide)
  · exact Primitives.wordlist.spelled word
      (phraseWords_mem (length_mnemonicBits hlength) word hword)

/-- A text that normalizes to the phrase of an entropy is accepted and gives the entropy. -/
theorem validateMnemonic_of_normalize {t : Text} {entropy : Entropy}
    (h : normalizeMnemonic t = join (entropyWords entropy.bytes)) :
    (validateMnemonic t).ok = true ∧ (validateMnemonic t).error = none
      ∧ rebuiltEntropy t = entropy.bytes := by
  obtain ⟨hne, hspelled⟩ := entropyWords_spelled entropy
  obtain ⟨hnone, hentropy⟩ := mnemonicError_entropyWords entropy
  have hwords := mnemonicWords_of_normalize hne hspelled h
  rw [validateMnemonic, rebuiltEntropy, hwords]
  exact ⟨by rw [hnone, Option.isNone_none], hnone, hentropy⟩

/-- Two entropies with one phrase are equal. -/
theorem entropy_eq_of_join {entropy entropy' : Entropy}
    (h : join (entropyWords entropy.bytes) = join (entropyWords entropy'.bytes)) :
    entropy = entropy' := by
  obtain ⟨hne, hspelled⟩ := entropyWords_spelled entropy
  obtain ⟨hne', hspelled'⟩ := entropyWords_spelled entropy'
  have hwords : entropyWords entropy.bytes = entropyWords entropy'.bytes := by
    rw [← splitOn_join hne hspelled, h, splitOn_join hne' hspelled']
  refine Entropy.ext_bytes ?_
  rw [← (mnemonicError_entropyWords entropy).2, hwords, (mnemonicError_entropyWords entropy').2]

/-- The phrase of every entropy is accepted in any letter case and spacing, and the entropy is
rebuilt; the texts that are accepted are those that normalize to the phrase of exactly one
entropy. -/
theorem phrases_round_trip (hlower : LowersLetters Primitives.toLowerCase) :
    (∀ entropy : Entropy, ∃ phrase,
      generateMnemonic (8 * entropy.bytes.length) entropy.array = .ok phrase
        ∧ ∀ t, Respelled phrase t → (validateMnemonic t).ok = true
          ∧ (validateMnemonic t).error = none ∧ rebuiltEntropy t = entropy.bytes)
    ∧ ∀ t, (validateMnemonic t).ok = true ↔ ∃! entropy : Entropy,
        generateMnemonic (8 * entropy.bytes.length) entropy.array
          = .ok (normalizeMnemonic t) := by
  refine ⟨fun entropy => ⟨_, generateMnemonic_eq entropy, fun t ht => ?_⟩, fun t => ⟨fun h => ?_,
    fun h => ?_⟩⟩
  · obtain ⟨hne, hspelled⟩ := entropyWords_spelled entropy
    obtain ⟨before, typed, after, rfl, hbefore, hafter, htyped⟩ := ht
    rw [splitOn_join hne hspelled] at htyped
    exact validateMnemonic_of_normalize
      (normalizeMnemonic_typed hlower hspelled hbefore hafter htyped)
  · have hnone : mnemonicError (mnemonicWords t) = none := Option.isNone_iff_eq_none.mp h
    obtain ⟨entropy, hwords, -⟩ := exists_entropy_of_mnemonicError hnone
    have hne : mnemonicWords t ≠ [] := hwords ▸ (entropyWords_spelled entropy).1
    have hnormalized := join_mnemonicWords hne
    rw [← hwords] at hnormalized
    refine ⟨entropy, (generateMnemonic_eq entropy).trans (congrArg _ hnormalized), ?_⟩
    intro entropy' h'
    rw [generateMnemonic_eq] at h'
    exact entropy_eq_of_join ((Except.ok.inj h').trans hnormalized.symm)
  · obtain ⟨entropy, hentropy, -⟩ := h
    rw [generateMnemonic_eq] at hentropy
    exact (validateMnemonic_of_normalize (Except.ok.inj hentropy).symm).1

end

/-! ### The phrase of zeros -/

namespace ZeroPhrase

def codeWord (i : ℕ) : Text :=
  [UInt16.ofNat (97 + i / 676), UInt16.ofNat (97 + i / 26 % 26), UInt16.ofNat (97 + i % 26)]

/-- The two words of the phrase at their indices, and codes for the others. -/
def word (i : ℕ) : Text :=
  if i = 0 then text "abandon" else if i = 3 then text "about" else codeWord i

def indexOf (w : Text) : ℕ :=
  if w.length = 7 then 0
  else if w.length = 5 then 3
  else 676 * ((w.getD 0 0).toNat - 97) + 26 * ((w.getD 1 0).toNat - 97) + ((w.getD 2 0).toNat - 97)

theorem toNat_letter {n : ℕ} (h : n < 26) : (UInt16.ofNat (97 + n)).toNat = 97 + n :=
  UInt16.toNat_ofNat_of_lt' (show 97 + n < 65536 by omega)

theorem letter_ofNat {n : ℕ} (h : n < 26) : IsLetter (UInt16.ofNat (97 + n)) := by
  simp only [IsLetter, UInt16.le_iff_toNat_le, toNat_letter h, UInt16.reduceToNat]
  omega

theorem indexOf_word {i : ℕ} (h : i < 2048) : indexOf (word i) = i := by
  unfold word
  split_ifs with h0 h3
  · rw [h0]
    decide +kernel
  · rw [h3]
    decide +kernel
  · simp only [indexOf, codeWord, List.length_cons, List.length_nil, List.getD_cons_zero,
      List.getD_cons_succ, toNat_letter (show i / 676 < 26 by omega),
      toNat_letter (show i / 26 % 26 < 26 by omega), toNat_letter (show i % 26 < 26 by omega)]
    norm_num
    omega

theorem letters_of_all {w : Text} (h : w.all (fun unit => decide (IsLetter unit)) = true) :
    ∀ unit ∈ w, IsLetter unit := fun unit hunit => by simpa using List.all_eq_true.mp h unit hunit

theorem blank_of_all {t : Text} (h : t.all isSpace = true) : ∀ unit ∈ t, isSpace unit :=
  List.all_eq_true.mp h

def wordlist : Wordlist where
  words := (List.range 2048).map word
  size := by rw [List.length_map, List.length_range]
  nodup := by
    refine List.Nodup.map_on (fun i hi j hj hword => ?_) List.nodup_range
    rw [← indexOf_word (List.mem_range.mp hi), hword, indexOf_word (List.mem_range.mp hj)]
  spelled := by
    intro w hw
    obtain ⟨i, hi, rfl⟩ := List.mem_map.mp hw
    have hi := List.mem_range.mp hi
    unfold word
    split_ifs
    · exact ⟨by decide +kernel, letters_of_all (by decide +kernel)⟩
    · exact ⟨by decide +kernel, letters_of_all (by decide +kernel)⟩
    · refine ⟨List.cons_ne_nil _ _, ?_⟩
      simp only [codeWord, List.forall_mem_cons, List.not_mem_nil, IsEmpty.forall_iff,
        implies_true, and_true]
      exact ⟨letter_ofNat (by omega), letter_ofNat (by omega), letter_ofNat (by omega)⟩

def zeroDigest : Vector UInt8 32 :=
  ⟨#[55, 71, 8, 255, 247, 113, 157, 213, 151, 158, 200, 117, 213, 108, 210, 40, 111, 109, 60, 247,
    236, 49, 122, 59, 37, 99, 42, 171, 40, 236, 55, 187], rfl⟩

instance : Primitives where
  wordlist := wordlist
  sha256 bytes := if bytes = List.replicate 16 0 then zeroDigest else Vector.replicate 32 0
  toLowerCase t := t.map lowerUnit

def entropy : Entropy := ⟨List.replicate 16 0, by decide⟩

/-- `n` times the first word and the last word, typed in capitals over several lines. -/
def typed : ℕ → Text
  | 0 => text "About"
  | n + 1 => text "ABANDON" ++ (text " \n " ++ typed n)

theorem typed_words (n : ℕ) :
    Typed (List.replicate n (text "abandon") ++ [text "about"]) (typed n) := by
  induction n with
  | zero => exact .single (by decide +kernel)
  | succ n ih =>
    exact .cons (by decide +kernel) (by decide +kernel) (blank_of_all (by decide +kernel)) ih

end ZeroPhrase

open ZeroPhrase in
theorem phrases_round_trip_zeros :
    (validateMnemonic (text "\t" ++ (typed 11 ++ text " "))).ok = true
      ∧ rebuiltEntropy (text "\t" ++ (typed 11 ++ text " ")) = List.replicate 16 0 := by
  have hlower : LowersLetters Primitives.toLowerCase := fun _ _ => rfl
  obtain ⟨phrase, hphrase, haccepted⟩ := (phrases_round_trip hlower).1 entropy
  have hwords : phrase.splitOn 0x0020 = List.replicate 11 (text "abandon") ++ [text "about"] := by
    have heval : generateMnemonic (8 * entropy.bytes.length) entropy.array
        = .ok (join (List.replicate 11 (text "abandon") ++ [text "about"])) := by
      decide +kernel
    rw [Except.ok.inj (hphrase.symm.trans heval)]
    decide +kernel
  have htyped := typed_words 11
  rw [← hwords] at htyped
  obtain ⟨hok, -, hentropy⟩ := haccepted (text "\t" ++ (typed 11 ++ text " "))
    ⟨_, _, _, rfl, blank_of_all (by decide +kernel), blank_of_all (by decide +kernel), htyped⟩
  exact ⟨hok, hentropy⟩

end Cawala.Mnemonic
