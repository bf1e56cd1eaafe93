import Cawala.Model.Entry

/-! # A concrete choice of primitives

Digests that are numbers from which the preimage can be read back, signatures that name key and
message, and the postcard layout of entries. The assumptions made on the primitives hold of it,
so no result that rests on them is vacuous. -/

namespace Cawala.Concrete

/-- A number behind another one, so that both can be read back: its bits, and their count behind
them. -/
def push (n m : ℕ) : ℕ :=
  let size := Nat.log 2 m + 1
  let width := Nat.log 2 size + 1
  ((n * 2 ^ size + m) * 2 ^ width + size) * 2 ^ (width + 1) + 2 ^ width

def pushToken (n : ℕ) : Token ℕ ℕ → ℕ
  | .byte b => (n * 256 + b.toNat) * 4
  | .digest h => push n h * 4 + 1
  | .key k => push n k * 4 + 2

def encodeBytes (n : ℕ) (bytes : List (Token ℕ ℕ)) : ℕ := bytes.foldl pushToken n

def encodeContext (context : String) : ℕ :=
  context.toByteArray.data.toList.foldl (fun n b => n * 257 + (b.toNat + 1)) 0 * 4 + 3

scoped instance crypto : Crypto where
  Hash := ℕ
  PubKey := ℕ
  SecretKey := ℕ
  Signature := ℕ × ℕ
  zero := (0 : ℕ)
  toHex h := Nat.repr h
  digestWord h := UInt64.ofNat h
  blake3 context m := encodeBytes (encodeContext context) m
  pubKey k := k
  sign k m := (k, encodeBytes 3 m)
  verify key m signature := signature == (key, encodeBytes 3 m)

theorem two_pow_odd_injective {k l m n : ℕ}
    (h : m * 2 ^ (k + 1) + 2 ^ k = n * 2 ^ (l + 1) + 2 ^ l) :
    k = l ∧ m = n := by
  have hfactor : ∀ j i : ℕ, i * 2 ^ (j + 1) + 2 ^ j = 2 ^ j * (2 * i + 1) := by
    intro j i
    ring
  rw [hfactor, hfactor] at h
  wlog hle : k ≤ l generalizing k l m n
  · obtain ⟨hlk, hnm⟩ := this h.symm (by omega)
    exact ⟨hlk.symm, hnm.symm⟩
  obtain ⟨d, rfl⟩ := Nat.exists_eq_add_of_le hle
  rw [pow_add, mul_assoc] at h
  have hodd := Nat.eq_of_mul_eq_mul_left (by positivity) h
  cases d with
  | zero => exact ⟨rfl, by omega⟩
  | succ d =>
      -- an odd number is no multiple of two
      rw [pow_succ, mul_comm _ 2, mul_assoc] at hodd
      omega

theorem mul_two_pow_add_injective {k a b m n : ℕ} (hm : m < 2 ^ k) (hn : n < 2 ^ k)
    (h : a * 2 ^ k + m = b * 2 ^ k + n) : a = b ∧ m = n := by
  have hmod := congrArg (· % 2 ^ k) h
  simp only [Nat.mul_add_mod_self_right, Nat.mod_eq_of_lt hm, Nat.mod_eq_of_lt hn] at hmod
  subst hmod
  exact ⟨Nat.eq_of_mul_eq_mul_right (by positivity) (Nat.add_right_cancel h), rfl⟩

theorem push_injective {a b m n : ℕ} (h : push a m = push b n) : a = b ∧ m = n := by
  have hlog : ∀ k : ℕ, k < 2 ^ (Nat.log 2 k + 1) := Nat.lt_pow_succ_log_self one_lt_two
  obtain ⟨hwidth, hrest⟩ := two_pow_odd_injective h
  rw [hwidth] at hrest
  have hm : Nat.log 2 m + 1 < 2 ^ (Nat.log 2 (Nat.log 2 n + 1) + 1) := hwidth ▸ hlog _
  obtain ⟨hrest, hsize⟩ := mul_two_pow_add_injective hm (hlog _) hrest
  rw [hsize] at hrest
  exact mul_two_pow_add_injective (hsize ▸ hlog _) (hlog _) hrest

theorem pushToken_injective {a b : ℕ} {s t : Token ℕ ℕ} (h : pushToken a s = pushToken b t) :
    a = b ∧ s = t := by
  cases s with
  | byte c =>
      cases t with
      | byte d =>
          have hc := c.toNat_lt
          have hd := d.toNat_lt
          simp only [pushToken] at h
          exact ⟨by omega, congrArg Token.byte (UInt8.toNat_inj.mp (by omega))⟩
      | digest g =>
          simp only [pushToken] at h
          omega
      | key k =>
          simp only [pushToken] at h
          omega
  | digest g =>
      cases t with
      | byte d =>
          simp only [pushToken] at h
          omega
      | digest g' =>
          obtain ⟨rfl, rfl⟩ := push_injective (a := a) (b := b) (by simpa [pushToken] using h)
          exact ⟨rfl, rfl⟩
      | key k =>
          simp only [pushToken] at h
          omega
  | key k =>
      cases t with
      | byte d =>
          simp only [pushToken] at h
          omega
      | digest g =>
          simp only [pushToken] at h
          omega
      | key k' =>
          obtain ⟨rfl, rfl⟩ := push_injective (a := a) (b := b) (by simpa [pushToken] using h)
          exact ⟨rfl, rfl⟩

theorem pushToken_ne {n start : ℕ} (t : Token ℕ ℕ) (h : start % 4 = 3) :
    pushToken n t ≠ start := by
  cases t <;> simp only [pushToken] <;> omega

theorem encodeBytes_injective {a b : ℕ} {s t : List (Token ℕ ℕ)} (ha : a % 4 = 3)
    (hb : b % 4 = 3) (h : encodeBytes a s = encodeBytes b t) : a = b ∧ s = t := by
  induction s using List.reverseRecOn generalizing t with
  | nil =>
      rcases List.eq_nil_or_concat' t with rfl | ⟨t, last, rfl⟩
      · exact ⟨h, rfl⟩
      · simp only [encodeBytes, List.foldl_concat, List.foldl_nil] at h
        exact absurd h.symm (pushToken_ne last ha)
  | append_singleton s tok ih =>
      rcases List.eq_nil_or_concat' t with rfl | ⟨t, last, rfl⟩
      · simp only [encodeBytes, List.foldl_concat, List.foldl_nil] at h
        exact absurd h (pushToken_ne tok hb)
      · simp only [encodeBytes, List.foldl_concat] at h
        obtain ⟨hinit, rfl⟩ := pushToken_injective h
        obtain ⟨rfl, rfl⟩ := ih hinit
        exact ⟨rfl, rfl⟩

theorem encodeContext_injective : Function.Injective encodeContext := by
  intro c d h
  have hfold : ∀ s t : List UInt8, s.foldl (fun n b => n * 257 + (b.toNat + 1)) 0
      = t.foldl (fun n b => n * 257 + (b.toNat + 1)) 0 → s = t := by
    intro s t h
    induction s using List.reverseRecOn generalizing t with
    | nil =>
        rcases List.eq_nil_or_concat' t with rfl | ⟨t, last, rfl⟩
        · rfl
        · simp only [List.foldl_concat, List.foldl_nil] at h
          omega
    | append_singleton s b ih =>
        have hb := b.toNat_lt
        rcases List.eq_nil_or_concat' t with rfl | ⟨t, last, rfl⟩
        · simp only [List.foldl_concat, List.foldl_nil] at h
          omega
        · have hlast := last.toNat_lt
          simp only [List.foldl_concat] at h
          rw [ih t (by omega), UInt8.toNat_inj.mp (by omega : b.toNat = last.toNat)]
  simp only [encodeContext] at h
  have hbytes := hfold _ _ (Nat.eq_of_mul_eq_mul_right (by decide) (Nat.add_right_cancel h))
  exact String.toByteArray_inj.mp (ByteArray.ext (Array.toList_inj.mp hbytes))

theorem collisionFree : Crypto.CollisionFree := by
  intro c c' m m' h
  have hmod : ∀ c : String, encodeContext c % 4 = 3 := by
    intro c
    rw [encodeContext]
    omega
  obtain ⟨hcontext, hmessage⟩ := encodeBytes_injective (hmod c) (hmod c') h
  exact ⟨encodeContext_injective hcontext, hmessage⟩

theorem signCorrect : Crypto.SignCorrect := by
  intro k m
  exact beq_self_eq_true _

/-! ## The postcard layout -/

/-- The base-128 varint of a number of at most ten groups. -/
def varintLoop : ℕ → ℕ → Bytes
  | 0, _ => []
  | fuel + 1, n =>
      if n < 128 then [.byte (UInt8.ofNat n)]
      else .byte (UInt8.ofNat (n % 128 + 128)) :: varintLoop fuel (n / 128)

def varint (n : ℕ) : Bytes := varintLoop 10 n

def string (s : String) : Bytes := varint (utf8 s).length ++ utf8 s

def signature (s : Signature) : Bytes := [.key s.1, .digest s.2]

/-- The zigzag form of an `i64`. -/
def zigzag (n : Int64) : ℕ :=
  if 0 ≤ n.toInt then 2 * n.toInt.toNat else 2 * (-n.toInt).toNat - 1

def account : AccountRef → Bytes
  | .parent => varint 0
  | .child id => varint 1 ++ string id

def kind : ChildKind → Bytes
  | .node => varint 0
  | .user => varint 1

def role : HopRole → Bytes
  | .ascend => varint 0
  | .lca => varint 1
  | .descend => varint 2
  | .direct => varint 3

def body : EntryBody → Bytes
  | .openAccount child k => varint 0 ++ string child ++ kind k
  | .transfer paymentId amount r =>
      varint 1 ++ [.digest paymentId] ++ varint amount.toNat ++ role r
  | .issue child amount => varint 2 ++ string child ++ varint amount.toNat
  | .burn child amount => varint 3 ++ string child ++ varint amount.toNat
  | .rotateLedgerKey newKey operatorSig => varint 4 ++ [.key newKey] ++ signature operatorSig
  | .edgeClose amount => varint 5 ++ varint amount.toNat

def posting (p : Posting) : Bytes := account p.account ++ varint (zigzag p.delta)

def auth : Option AuthRef → Bytes
  | none => varint 0
  | some a =>
      varint 1 ++ [.key a.operator] ++ varint a.nonce.toNat ++ [.digest a.orderHash]
        ++ signature a.signature

def entry (e : Entry) : Bytes :=
  [.key e.ledgerId] ++ varint e.seq.toNat ++ varint e.height.toNat ++ [.digest e.prevHash]
    ++ varint e.issuedAt.toNat ++ body e.body
    ++ varint e.postings.length ++ e.postings.flatMap posting ++ auth e.auth

scoped instance postcard : Postcard where
  toAllocvec e := .ok (entry e)

/-! ## Codecs of a table

A codec of a few values encodes each by its position. -/

section Table

variable {α : Type*} [DecidableEq α]

def encodeAt (table : List α) (a : α) : Option (List UInt8) :=
  (table.idxOf? a).map fun i => [UInt8.ofNat i]

omit [DecidableEq α] in
def decodeAt (table : List α) : List UInt8 → Option α
  | [b] => table[b.toNat]?
  | _ => none

theorem decodeAt_encodeAt {table : List α} (h : table.length ≤ 256) {a : α} {bytes : List UInt8}
    (hbytes : encodeAt table a = some bytes) : decodeAt table bytes = some a := by
  obtain ⟨i, hi, rfl⟩ := Option.map_eq_some_iff.mp hbytes
  obtain ⟨hlt, ha, -⟩ := List.findIdx?_eq_some_iff_getElem.mp hi
  have hvalue : (UInt8.ofNat i).toNat = i := UInt8.toNat_ofNat_of_lt' (hlt.trans_le h)
  rw [decodeAt, hvalue, List.getElem?_eq_getElem hlt, beq_iff_eq.mp ha]

end Table

end Cawala.Concrete
