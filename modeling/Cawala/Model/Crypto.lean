import Mathlib

/-! # Cryptographic primitives

BLAKE3, Ed25519 and the postcard codec are third-party code, so they enter as the
fields of a class. A digest is kept abstract: a byte string that contains a digest
or a key holds it as one atom, never as 32 loose bytes, and this is what lets
collision freedom be assumed without contradiction. -/

namespace Cawala

/-- One atom of a byte string: a plain byte, the 32 bytes of a digest, or the 32
bytes of a public key. -/
inductive Token (Digest Key : Type) where
  | byte (b : UInt8)
  | digest (h : Digest)
  | key (k : Key)
deriving DecidableEq, Repr

/-- The primitives the ledger crate imports. `LedgerPubKey` and `OperatorPubKey` wrap
the same Ed25519 type; they stay apart by the field that holds them. -/
class Crypto where
  Hash : Type
  PubKey : Type
  SecretKey : Type
  Signature : Type
  [hashOrder : LinearOrder Hash]
  [keyOrder : LinearOrder PubKey]
  [signatureDecEq : DecidableEq Signature]
  /-- `Hash::ZERO`. -/
  zero : Hash
  /-- Lowercase hex rendering of a digest. -/
  toHex : Hash → String
  /-- The first eight bytes of a digest as a little-endian `u64`. -/
  digestWord : Hash → UInt64
  /-- BLAKE3 in derive-key mode: context string and message. -/
  blake3 : String → List (Token Hash PubKey) → Hash
  /-- `SigningKey::verifying_key`. -/
  pubKey : SecretKey → PubKey
  /-- Ed25519 signing. -/
  sign : SecretKey → List (Token Hash PubKey) → Signature
  /-- Strict Ed25519 verification. -/
  verify : PubKey → List (Token Hash PubKey) → Signature → Bool

attribute [reducible, instance] Crypto.hashOrder Crypto.keyOrder Crypto.signatureDecEq

variable [Crypto]

abbrev Hash : Type := Crypto.Hash
abbrev LedgerPubKey : Type := Crypto.PubKey
abbrev LedgerId : Type := Crypto.PubKey
abbrev LedgerSecretKey : Type := Crypto.SecretKey
abbrev OperatorPubKey : Type := Crypto.PubKey
abbrev OperatorSecretKey : Type := Crypto.SecretKey
abbrev Signature : Type := Crypto.Signature

/-- A byte string, with digests and keys as atoms. -/
abbrev Bytes : Type := List (Token Hash LedgerPubKey)

namespace Crypto

instance hashTransOrd : Std.TransOrd Hash := inferInstance

/-- Derive-key BLAKE3 has no collisions, also not across context strings. -/
def CollisionFree : Prop :=
  ∀ (c c' : String) (m m' : Bytes), blake3 c m = blake3 c' m' → c = c' ∧ m = m'

/-- A signature made with a key verifies under its public half. -/
def SignCorrect : Prop :=
  ∀ (k : SecretKey) (m : Bytes), verify (pubKey k) m (sign k m) = true

end Crypto

/-! ## Fixed-width encodings -/

/-- The `n` low little-endian bytes of a natural number. -/
def leBytes : ℕ → ℕ → Bytes
  | 0, _ => []
  | n + 1, value => .byte (UInt8.ofNat value) :: leBytes n (value / 256)

@[simp] theorem leBytes_length (n value : ℕ) : (leBytes n value).length = n := by
  induction n generalizing value with
  | zero => rfl
  | succ n ih => simp [leBytes, ih]

/-- Numbers below `256 ^ n` are determined by their `n` low bytes. -/
theorem leBytes_injective {n a b : ℕ} (ha : a < 256 ^ n) (hb : b < 256 ^ n)
    (h : leBytes n a = leBytes n b) : a = b := by
  induction n generalizing a b with
  | zero =>
      simp at ha hb
      omega
  | succ n ih =>
      simp only [leBytes, List.cons.injEq, Token.byte.injEq] at h
      obtain ⟨hhead, htail⟩ := h
      have hlow : a % 256 = b % 256 := by
        have := congrArg UInt8.toNat hhead
        simpa using this
      have hhigh : a / 256 = b / 256 :=
        ih (by rw [Nat.div_lt_iff_lt_mul (by norm_num)]; rwa [pow_succ] at ha)
          (by rw [Nat.div_lt_iff_lt_mul (by norm_num)]; rwa [pow_succ] at hb) htail
      omega

def utf8 (s : String) : Bytes :=
  s.toByteArray.data.toList.map .byte

theorem utf8_injective {s t : String} (h : utf8 s = utf8 t) : s = t := by
  have hlist : s.toByteArray.data.toList = t.toByteArray.data.toList :=
    List.map_injective_iff.mpr (fun _ _ h => Token.byte.inj h) h
  exact String.toByteArray_inj.mp (ByteArray.ext (Array.toList_inj.mp hlist))

end Cawala
