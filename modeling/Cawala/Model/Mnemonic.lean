import Mathlib.Data.List.DropRight
import Mathlib.Data.Rat.Defs
import Cawala.Library.BitString

/-! # Recovery phrases

How the web client forms a mnemonic from entropy and validates the text a user types. -/

namespace Cawala.Mnemonic

open Library.BitString

/-! ## Text -/

/-- A JavaScript string: its UTF-16 code units. -/
abbrev Text := List UInt16

def unitsOf (c : Char) : Text :=
  if c.toNat < 0x10000 then [UInt16.ofNat c.toNat]
  else
    [UInt16.ofNat (0xD800 + (c.toNat - 0x10000) / 0x400),
      UInt16.ofNat (0xDC00 + (c.toNat - 0x10000) % 0x400)]

def text (literal : String) : Text := literal.toList.flatMap unitsOf

/-- White space and line terminators: what `trim` removes and `\s` matches. -/
def isSpace (unit : UInt16) : Bool :=
  (0x0009 ≤ unit && unit ≤ 0x000D) || unit == 0x0020 || unit == 0x00A0 || unit == 0x1680
    || (0x2000 ≤ unit && unit ≤ 0x200A) || unit == 0x2028 || unit == 0x2029 || unit == 0x202F
    || unit == 0x205F || unit == 0x3000 || unit == 0xFEFF

/-- `String.prototype.trim`. -/
def trim (t : Text) : Text := (t.dropWhile isSpace).rdropWhile isSpace

/-- `replace(/\s+/g, ' ')`; the flag tells whether the unit before was white space. -/
def collapseRuns : Bool → Text → Text
  | _, [] => []
  | inRun, unit :: rest =>
      if isSpace unit then
        if inRun then collapseRuns true rest else 0x0020 :: collapseRuns true rest
      else unit :: collapseRuns false rest

def join (words : List Text) : Text := [0x0020].intercalate words

def IsLetter (unit : UInt16) : Prop := 97 ≤ unit ∧ unit ≤ 122

instance : DecidablePred IsLetter :=
  fun unit => inferInstanceAs (Decidable (97 ≤ unit ∧ unit ≤ 122))

/-! ## Word list -/

/-- A word list with the properties of `BIP39_WORDLIST`. -/
structure Wordlist where
  words : List Text
  size : words.length = 2048
  nodup : words.Nodup
  spelled : ∀ word ∈ words, word ≠ [] ∧ ∀ unit ∈ word, IsLetter unit

/-- What the module imports: the word list, the SHA-256 of WebCrypto, and `toLowerCase`. -/
class Primitives where
  wordlist : Wordlist
  sha256 : List UInt8 → Vector UInt8 32
  toLowerCase : Text → Text

def validWordCounts : List ℕ := [12, 15, 18, 21, 24]

inductive MnemonicErrorCode where
  | empty
  | wordCount
  | unknownWord
  | checksum
deriving DecidableEq, Repr

structure MnemonicError where
  code : MnemonicErrorCode
  message : Text
  wordIndex : Option ℕ := none
deriving DecidableEq, Repr

structure Validation where
  ok : Bool
  words : List Text
  normalized : Text
  error : Option MnemonicError
deriving DecidableEq, Repr

section
variable [Primitives]

def bip39Wordlist : List Text := Primitives.wordlist.words

/-- `BIP39_WORD_INDEX`: the own property of a word is its index. -/
def bip39WordIndex (word : Text) : Option ℕ := bip39Wordlist.idxOf? word

/-- Normalize free-typed text into a candidate mnemonic. -/
def normalizeMnemonic (t : Text) : Text :=
  collapseRuns false (Primitives.toLowerCase (trim t))

def mnemonicWords (t : Text) : List Text :=
  if normalizeMnemonic t = [] then [] else (normalizeMnemonic t).splitOn 0x0020

/-! ## Bits -/

/-- 11 bits per word; `undefined >> b` is zero. -/
def wordsToBits (words : List Text) : List Bool :=
  words.flatMap fun word => toBits 11 ((bip39WordIndex word).getD 0)

def setBit (out : List UInt8) (bit : Bool × ℕ) : List UInt8 :=
  if bit.1 then out.modify (bit.2 >>> 3) (· ||| UInt8.ofNat (1 <<< (7 - (bit.2 &&& 7)))) else out

def bitsToBytes (bits : List Bool) : List UInt8 :=
  bits.zipIdx.foldl setBit (List.replicate (bits.length / 8) 0)

def hashBit (hash : Vector UInt8 32) (i : ℕ) : Bool :=
  (hash.toList.getD (i >>> 3) 0).toNat.testBit (7 - (i &&& 7))

/-! ## Validation -/

/-- The number of checksum bits in a phrase's bits. -/
def checksumLength (bits : List Bool) : ℕ := bits.length / 33

/-- The entropy in a phrase's bits. -/
def entropyOf (bits : List Bool) : List UInt8 :=
  bitsToBytes (bits.take (bits.length - checksumLength bits))

/-- Whether the checksum bits that trail the entropy are those of its hash. -/
def checksumMatches (bits : List Bool) : Bool :=
  (List.range (checksumLength bits)).all fun i =>
    hashBit (Primitives.sha256 (entropyOf bits)) i
      == bits.getD (bits.length - checksumLength bits + i) false

def emptyMessage : Text := text "Enter your recovery phrase."

def wordCountMessage (count : ℕ) : Text :=
  text ("A recovery phrase has " ++ ", ".intercalate (validWordCounts.map toString)
    ++ " words. This one has " ++ toString count ++ ".")

def unknownWordMessage (i : ℕ) (word : Text) : Text :=
  text ("Word " ++ toString (i + 1) ++ " (“") ++ word
    ++ text ("”) isn’t in the standard word list. Check the spelling — every word is "
      ++ "lowercase and there are no numbers.")

def checksumMessage : Text :=
  text ("That phrase doesn’t check out — one or more words are wrong or out of order. "
    ++ "A correctly written phrase always passes this check.")

/-- The check a list of words fails. -/
def mnemonicError (words : List Text) : Option MnemonicError :=
  if words.length = 0 then some { code := .empty, message := emptyMessage }
  else if words.length ∉ validWordCounts then
    some { code := .wordCount, message := wordCountMessage words.length }
  else
    match words.findIdx? fun word => (bip39WordIndex word).isNone with
    | some i =>
        some { code := .unknownWord, message := unknownWordMessage i (words.getD i [])
               wordIndex := some i }
    | none =>
        if checksumMatches (wordsToBits words) then none
        else some { code := .checksum, message := checksumMessage }

/-- Validate a mnemonic against the word list and its checksum. -/
def validateMnemonic (t : Text) : Validation where
  ok := (mnemonicError (mnemonicWords t)).isNone
  words := mnemonicWords t
  normalized := normalizeMnemonic t
  error := mnemonicError (mnemonicWords t)

/-- The entropy bytes that the validator rebuilds. -/
def rebuiltEntropy (t : Text) : List UInt8 := entropyOf (wordsToBits (mnemonicWords t))

/-! ## Generation -/

/-- The entropy bits, each byte's from the highest, and `checksumBits` bits of the hash. -/
def mnemonicBits (entropy : List UInt8) (checksumBits : ℕ) : List Bool :=
  (entropy.flatMap fun byte => toBits 8 byte.toNat)
    ++ (List.range checksumBits).map (hashBit (Primitives.sha256 entropy))

/-- The word of the `w`-th 11 bits. -/
def wordAt (bits : List Bool) (w : ℕ) : Text :=
  bip39Wordlist.getD (ofBits ((List.range 11).map fun b => bits.getD (w * 11 + b) false)) []

/-- Generate a mnemonic from the entropy bytes that `getRandomValues` fills in. -/
def generateMnemonic (strengthBits : ℕ) (entropy : Vector UInt8 (strengthBits / 8)) :
    Except String Text :=
  let entropyBytes := strengthBits / 8
  let wordCount : ℚ := ((strengthBits : ℚ) + strengthBits / 32) / 11
  match validWordCounts.find? fun count : ℕ => (count : ℚ) = wordCount with
  | none => .error ("Unsupported mnemonic strength: " ++ toString strengthBits ++ " bits")
  | some count =>
      let bits := mnemonicBits entropy.toList (entropyBytes / 4)
      .ok (join ((List.range count).map (wordAt bits)))

end

end Cawala.Mnemonic
