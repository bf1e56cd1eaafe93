import Cawala.Model.Concrete
import Cawala.Verification.Accounting
import Cawala.Verification.Merkle

/-! # Inclusion proofs and balance attestations

Soundness and completeness of the inclusion proofs, carried over to the attestations and
entry proofs that commitments back. -/

namespace Cawala

open Std (ExtTreeMap)
open Library Library.Merkle

section

variable [Crypto]

/-! ## State leaves -/

def NodeHashInjective : Prop :=
  ∀ a b c d : Hash, nodeHash a b = nodeHash c d → a = c ∧ b = d

def StateLeavesApart : Prop :=
  ∀ (account : AccountRef) (balance : ℤ) (a b : Hash), stateLeafHash account balance ≠ nodeHash a b

def StateHashInjective : Prop :=
  ∀ m m' : Bytes, Crypto.blake3 "cawala-ledger/state/v1" m
    = Crypto.blake3 "cawala-ledger/state/v1" m' → m = m'

theorem nodeHashInjective_of_collisionFree (h : Crypto.CollisionFree) : NodeHashInjective := by
  intro a b c d heq
  have := (h _ _ _ _ heq).2
  simpa using this

theorem stateLeavesApart_of_collisionFree (h : Crypto.CollisionFree) : StateLeavesApart := by
  intro account balance a b heq
  have := (h _ _ _ _ heq).1
  simp at this

theorem stateHashInjective_of_collisionFree (h : Crypto.CollisionFree) : StateHashInjective :=
  fun m m' heq => (h _ _ m m' heq).2

/-- Balances that fit sixteen bytes are determined by them. -/
theorem leBytes_balance_injective {x y : ℤ} (hx : 0 ≤ x ∧ x < 2 ^ 64) (hy : 0 ≤ y ∧ y < 2 ^ 64)
    (h : leBytes 16 (x.emod (2 ^ 128)).toNat = leBytes 16 (y.emod (2 ^ 128)).toNat) : x = y := by
  have hmod : ∀ z : ℤ, 0 ≤ z ∧ z < 2 ^ 64 → z.emod (2 ^ 128) = z := fun z hz =>
    Int.emod_eq_of_lt hz.1 (by omega)
  rw [hmod x hx, hmod y hy] at h
  have := leBytes_injective (n := 16) (by norm_num; omega) (by norm_num; omega) h
  omega

/-- A state leaf message determines its account and balance. The length field alone would
not, since it is cut to 32 bits; the length of the whole message does. -/
theorem stateLeafBytes_injective {account account' : AccountRef} {x y : ℤ}
    (hx : 0 ≤ x ∧ x < 2 ^ 64) (hy : 0 ≤ y ∧ y < 2 ^ 64)
    (h : stateLeafBytes account x = stateLeafBytes account' y) : account = account' ∧ x = y := by
  cases account with
  | parent =>
      cases account' with
      | parent =>
          simp only [stateLeafBytes, List.append_cancel_left_eq] at h
          exact ⟨rfl, leBytes_balance_injective hx hy h⟩
      | child id' => simp [stateLeafBytes] at h
  | child id =>
      cases account' with
      | parent => simp [stateLeafBytes] at h
      | child id' =>
          have hlen : (utf8 id).length = (utf8 id').length := by
            have := congrArg List.length h
            simpa [stateLeafBytes] using this
          simp only [stateLeafBytes, List.append_assoc] at h
          obtain ⟨-, h⟩ := List.append_inj h rfl
          obtain ⟨-, h⟩ := List.append_inj h (by simp)
          obtain ⟨hid, hbal⟩ := List.append_inj h hlen
          exact ⟨by rw [utf8_injective hid], leBytes_balance_injective hx hy hbal⟩

theorem stateLeafHash_injective (hstate : StateHashInjective) {account account' : AccountRef}
    {x y : ℤ} (hx : 0 ≤ x ∧ x < 2 ^ 64) (hy : 0 ≤ y ∧ y < 2 ^ 64)
    (h : stateLeafHash account x = stateLeafHash account' y) : account = account' ∧ x = y := by
  have := hstate _ _ h
  simp only [List.flatten_cons, List.flatten_nil, List.append_nil] at this
  exact stateLeafBytes_injective hx hy this

/-! ## Soundness -/

/-- An accepted attestation passed all its checks, the inclusion proof last. -/
theorem verifyBalanceAttestation_ok {target : Target} {a : BalanceAttestation}
    {commitment : SignedCommitment} {expected : LedgerPubKey}
    (h : verifyBalanceAttestation target a commitment expected = some (.ok ())) :
    checkAttestation a commitment expected = .ok ()
      ∧ verifyStateInclusion target (.child a.edge.child) a.balance.toNat a.index a.treeSize
          a.proof commitment.commitment.stateRoot = some true := by
  unfold verifyBalanceAttestation at h
  split at h
  · cases h
  · rename_i hcheck
    refine ⟨hcheck, ?_⟩
    split at h
    · cases h
    · assumption
    · cases h

theorem mem_stateLeaves {balances : Balances} {leaf : Hash} :
    leaf ∈ stateLeaves balances ↔ ∃ account balance, (account, balance) ∈ balances.accounts
      ∧ stateLeafHash account balance = leaf := by
  simp [stateLeaves]

omit [Crypto] in
theorem mem_accounts_child {balances : Balances} {id : NodeId} {x : ℤ} :
    (.child id, x) ∈ balances.accounts
      ↔ ∃ v, balances.children[id]? = some v ∧ (v.toNat : ℤ) = x := by
  simp [Balances.accounts, ExtTreeMap.mem_toList_iff_getElem?_eq_some]

omit [Crypto] in
theorem accounts_balance_range {balances : Balances} {account : AccountRef} {x : ℤ}
    (h : (account, x) ∈ balances.accounts) : 0 ≤ x ∧ x < 2 ^ 64 := by
  simp only [Balances.accounts, List.mem_cons, Prod.mk.injEq, List.mem_map] at h
  rcases h with ⟨-, rfl⟩ | ⟨e, -, -, rfl⟩
  · exact ⟨by omega, by exact_mod_cast balances.parent.toNat_lt⟩
  · exact ⟨by omega, by exact_mod_cast e.2.toNat_lt⟩

/-- Against the root of a list and its true size, only the leaf at the claimed index is
accepted. -/
theorem getElem?_of_verifyInclusion (hnode : NodeHashInjective) {target : Target}
    {leaves : List Hash} {index : ℕ} {leaf : Hash} {proof : List Hash}
    (h : verifyInclusion target leaf index leaves.length proof (root leaves) = some true) :
    index < leaves.length ∧ leaves[index]? = some leaf := by
  obtain ⟨hmax, hindex, hlen, hclimb⟩ := (verifyInclusion_iff ..).mp h
  have hbits : leaves.length ≤ 2 ^ 63 := by
    refine hmax.trans (Nat.pow_le_pow_right (by norm_num) ?_)
    have := target.usizeBits_le
    omega
  refine ⟨hindex, root_isTreeHash.getElem?_of_climb hnode hbits hindex ?_ hclimb⟩
  rw [List.map_fst_zip (by rw [List.length_reverse, hlen])]

/-- Inclusion soundness. Against the root of a list and its true size, only the leaf at
the claimed index is accepted. Against a state root, with index and size taken from the
attestation itself, only an open account with its exact balance is accepted. -/
theorem inclusion_sound (hnode : NodeHashInjective) (hleaf : StateLeavesApart)
    (hstate : StateHashInjective) :
    (∀ (target : Target) (leaves : List Hash) (index : ℕ) (leaf : Hash) (proof : List Hash),
      verifyInclusion target leaf index leaves.length proof (root leaves) = some true →
        index < leaves.length ∧ leaves[index]? = some leaf)
    ∧ ∀ (target : Target) (balances : Balances) (a : BalanceAttestation)
        (commitment : SignedCommitment) (expected : LedgerPubKey),
        commitment.commitment.stateRoot = stateRoot balances →
        verifyBalanceAttestation target a commitment expected = some (.ok ()) →
          balances.children[a.edge.child]? = some a.balance := by
  constructor
  · intro target leaves index leaf proof h
    exact getElem?_of_verifyInclusion hnode h
  · intro target balances a commitment expected hroot h
    obtain ⟨-, hincl⟩ := verifyBalanceAttestation_ok h
    obtain ⟨-, -, -, hclimb⟩ := (verifyInclusion_iff ..).mp hincl
    rw [hroot] at hclimb
    have hne : stateLeaves balances ≠ [] := by simp [stateLeaves, Balances.accounts]
    have hmem := root_isBranching.mem_of_climb hnode hne
      (fun y hy => by
        obtain ⟨account, balance, -, rfl⟩ := mem_stateLeaves.mp hy
        exact hleaf account balance)
      (hleaf _ _) hclimb
    obtain ⟨account, balance, hin, heq⟩ := mem_stateLeaves.mp hmem
    obtain ⟨rfl, rfl⟩ := stateLeafHash_injective hstate (accounts_balance_range hin)
      ⟨by omega, by exact_mod_cast a.balance.toNat_lt⟩ heq
    obtain ⟨v, hv, hval⟩ := mem_accounts_child.mp hin
    have hveq : v = a.balance := UInt64.toNat_inj.mp (by exact_mod_cast hval)
    rw [hv, hveq]

end

section

variable [Crypto]

/-! ## Completeness -/

/-- A slice of digests on a target: it spans at most `isize::MAX` bytes. -/
structure Leaves (target : Target) where
  hashes : List Hash
  fits : hashes.length * 32 < 2 ^ (target.usizeBits - 1)

variable [Postcard]

structure Dense (l : Ledger) : Prop where
  seq : ∀ (i : ℕ) (s : SignedEntry), l.log.entries[i]? = some s → s.entry.seq = UInt64.ofNat i
  hashed : ∀ s ∈ l.log.entries, ∃ hash, entryHash s.entry = .ok hash
  accounts : l.balances.children.size ≤ l.len
  identity : l.ledgerId = l.ledgerPubkey

omit [Postcard] in
/-- An accepted entry opens at most one account. -/
theorem size_children_le {b b' : Balances} {e : Entry} (h : EntryEffect b b' e) :
    b'.children.size ≤ b.children.size + 1 := by
  have hsub : ∃ id, b'.children.keys ⊆ id :: b.children.keys := by
    by_cases hopen : ∃ id, e.opens id
    · obtain ⟨id, kind, hbody⟩ := hopen
      refine ⟨id, fun id' hid' => ?_⟩
      rw [ExtTreeMap.mem_keys, h.children] at hid'
      rcases hid' with hid' | ⟨kind', hbody'⟩
      · exact List.mem_cons_of_mem _ (ExtTreeMap.mem_keys.mpr hid')
      · rw [hbody] at hbody'
        cases hbody'
        exact List.mem_cons_self
    · refine ⟨"", fun id' hid' => ?_⟩
      rw [ExtTreeMap.mem_keys, h.children] at hid'
      rcases hid' with hid' | hid'
      · exact List.mem_cons_of_mem _ (ExtTreeMap.mem_keys.mpr hid')
      · exact absurd ⟨id', hid'⟩ hopen
  obtain ⟨id, hsub⟩ := hsub
  have hlen := (List.subperm_of_subset ExtTreeMap.nodup_keys hsub).length_le
  simpa [ExtTreeMap.length_keys] using hlen

theorem Dense.append {l l' : Ledger} {s : SignedEntry} (h : Dense l)
    (happend : l.append s = .ok l') : Dense l' := by
  have hspec := append_spec happend
  refine ⟨?_, ?_, ?_, ?_⟩
  · intro i s' hi
    rw [hspec.entries] at hi
    rcases getElem?_snoc hi with hi | ⟨rfl, rfl⟩
    · exact h.seq i s' hi
    · exact hspec.seq
  · intro s' hs'
    rw [hspec.entries, List.mem_append, List.mem_singleton] at hs'
    rcases hs' with hs' | rfl
    · exact h.hashed s' hs'
    · exact ⟨_, hspec.head⟩
  · have := size_children_le hspec.effect
    have := h.accounts
    simp only [Ledger.len, hspec.entries, List.length_append, List.length_singleton] at *
    omega
  · rw [hspec.sameId, hspec.sameKey, h.identity]

theorem dense_run (key : LedgerPubKey) (attempts : List SignedEntry) :
    Dense ((Ledger.new key).run attempts) := by
  refine run_induction (fun l l' s h happend => h.append happend) ?_ attempts
  exact ⟨by simp [Ledger.new, MemLog.new], by simp [Ledger.new, MemLog.new],
    by simp [Ledger.new, Balances.newNonRoot], rfl⟩

theorem ledgerPubkey_run (key : LedgerPubKey) (attempts : List SignedEntry) :
    ((Ledger.new key).run attempts).ledgerPubkey = key := by
  refine run_induction (P := fun l => l.ledgerPubkey = key) ?_ rfl attempts
  intro l l' s h happend
  rw [(append_spec happend).sameKey, h]

/-- The ledgers built by append attempts, small enough to be held in memory: a `Vec` of
entries spans at most `isize::MAX` bytes. -/
structure BuiltLedger (target : Target) where
  key : LedgerPubKey
  attempts : List SignedEntry
  fits : ((Ledger.new key).run attempts).len < 2 ^ (target.usizeBits - 1)

def BuiltLedger.ledger {target : Target} (b : BuiltLedger target) : Ledger :=
  (Ledger.new b.key).run b.attempts

theorem entryLeaves_eq {entries : List SignedEntry}
    (h : ∀ s ∈ entries, ∃ hash, entryHash s.entry = .ok hash) :
    ∃ leaves, entryLeaves entries = .ok leaves ∧ leaves.length = entries.length
      ∧ ∀ (i : ℕ) (s : SignedEntry) (hash : Hash), entries[i]? = some s →
          entryHash s.entry = .ok hash → leaves[i]? = some (leafHash hash) := by
  induction entries with
  | nil => exact ⟨[], rfl, rfl, by simp⟩
  | cons s entries ih =>
      obtain ⟨hash, hhash⟩ := h s (by simp)
      obtain ⟨leaves, hleaves, hlen, hget⟩ := ih (fun s' hs' => h s' (List.mem_cons_of_mem _ hs'))
      refine ⟨leafHash hash :: leaves, ?_, by simp [hlen], ?_⟩
      · rw [entryLeaves, mapM_cons_eq_ok]
        exact ⟨_, leaves, by simp [hhash], hleaves, rfl⟩
      · intro i s' hash' hi hhash'
        cases i with
        | zero =>
            simp only [List.getElem?_cons_zero, Option.some.injEq] at hi ⊢
            subst hi
            rw [hhash] at hhash'
            cases hhash'
            rfl
        | succ i => exact hget i s' hash' hi hhash'

theorem buildCommitment_ok {target : Target} (b : BuiltLedger target) (prev : Hash)
    (issuedAt : UInt64) :
    ∃ commitment, buildCommitment b.ledger prev issuedAt = .ok commitment := by
  obtain ⟨leaves, hleaves, -, -⟩ := entryLeaves_eq (dense_run b.key b.attempts).hashed
  simp only [buildCommitment, entryRoot, bind_eq_ok, pure_eq_ok]
  exact ⟨_, _, ⟨leaves, hleaves, rfl⟩, rfl⟩

theorem buildCommitment_spec {l : Ledger} {prev : Hash} {issuedAt : UInt64} {c : Commitment}
    (h : buildCommitment l prev issuedAt = .ok c) :
    entryRoot l.log.entries = .ok c.entryRoot ∧ c.stateRoot = stateRoot l.balances
      ∧ c.height = UInt64.ofNat l.len ∧ c.ledgerId = l.ledgerId
      ∧ c.ledgerPubkey = l.ledgerPubkey := by
  simp only [buildCommitment, bind_eq_ok, pure_eq_ok] at h
  obtain ⟨root, hroot, rfl⟩ := h
  exact ⟨hroot, rfl, rfl, rfl, rfl⟩

/-- The entry proof of an append-built ledger verifies against its commitment. -/
theorem entryInclusionProof_verifies {target : Target} (b : BuiltLedger target) (seq : UInt64)
    (hseq : seq.toNat < b.ledger.len) (hu32 : b.ledger.len < 2 ^ 32) :
    ∃ proof s, entryInclusionProof b.ledger seq = .ok proof ∧ b.ledger.get? seq.toNat = some s
      ∧ ∀ root, entryRoot b.ledger.log.entries = .ok root →
          verifyEntryInclusion target s proof root = some true := by
  have hdense : Dense b.ledger := dense_run b.key b.attempts
  have hmax : b.ledger.len ≤ 2 ^ (target.usizeBits - 1) := b.fits.le
  obtain ⟨s, hs⟩ : ∃ s, b.ledger.get? seq.toNat = some s :=
    ⟨_, List.getElem?_eq_getElem hseq⟩
  obtain ⟨hash, hhash⟩ := hdense.hashed s (List.mem_of_getElem? hs)
  obtain ⟨leaves, hleaves, hlen, hget⟩ := entryLeaves_eq hdense.hashed
  have hleaf : leaves[seq.toNat]? = some (leafHash hash) := hget _ _ _ hs hhash
  have hlen' : leaves.length = b.ledger.len := hlen
  have hfits : leaves.length ≤ 2 ^ (target.usizeBits - 1) := hlen'.le.trans hmax
  obtain ⟨proof, hproof, hproofLen, hverify⟩ := inclusionProof_verifies target hfits hleaf
  have hshort : proof.length ≤ maxEntryProof := by
    rw [proofLen_eq target hfits, Option.some.injEq] at hproofLen
    rw [← hproofLen]
    have hle := length_sides_le (i := seq.toNat) hfits
    have := target.usizeBits_le
    simp only [maxEntryProof]
    omega
  have hsize : (UInt32.ofNat b.ledger.len).toNat = b.ledger.len := UInt32.toNat_ofNat_of_lt' hu32
  have hindex : (UInt32.ofNat seq.toNat).toNat = seq.toNat := by
    have hlt : seq.toNat < 2 ^ 32 := by omega
    exact UInt32.toNat_ofNat_of_lt' hlt
  refine ⟨{ index := UInt32.ofNat seq.toNat, treeSize := UInt32.ofNat b.ledger.len, proof }, s,
    ?_, hs, ?_⟩
  · have hdenseSeq : s.entry.seq = seq := by
      rw [hdense.seq _ _ hs, UInt64.ofNat_toNat]
    simp only [entryInclusionProof, hs, hdenseSeq]
    rw [if_neg (by omega), if_neg (by omega), if_neg (by simp)]
    simp only [bind_eq_ok, pure_eq_ok]
    exact ⟨leaves, hleaves, proof, hproof, rfl⟩
  · intro root' hroot
    have hrootEq : root' = root leaves := by
      simp only [entryRoot, bind_eq_ok, pure_eq_ok] at hroot
      obtain ⟨leaves', hleaves', rfl⟩ := hroot
      rw [hleaves] at hleaves'
      cases hleaves'
      rfl
    rw [verifyEntryInclusion, if_neg (by simp only; omega), if_neg, hhash]
    · simp only [hsize, hindex, hrootEq]
      rw [← hlen']
      exact hverify
    · rw [ge_iff_le, UInt32.le_iff_toNat_le, hsize, hindex]
      omega

omit [Postcard] in
/-- The attestation of an open child carries its balance and a proof of it. -/
theorem attestBalance_verifies {target : Target} {l : Ledger}
    (hmax : l.balances.children.size < 2 ^ (target.usizeBits - 1)) (parent child : NodeId)
    (hchild : child ∈ l.balances.children) :
    ∃ a, attestBalance l parent child = .ok a ∧ a.ledgerPubkey = l.ledgerPubkey
      ∧ a.height = UInt64.ofNat l.len ∧ a.stateRoot = stateRoot l.balances
      ∧ verifyStateInclusion target (.child a.edge.child) a.balance.toNat a.index a.treeSize a.proof
          (stateRoot l.balances) = some true := by
  obtain ⟨v, hv⟩ := Option.isSome_iff_exists.mp (ExtTreeMap.mem_iff_isSome_getElem?.mp hchild)
  have hmem : (.child child, (v.toNat : ℤ)) ∈ l.balances.accounts :=
    mem_accounts_child.mpr ⟨v, hv, rfl⟩
  have hbalance : l.balances.childBalance child = v := by
    simp [Balances.childBalance, ExtTreeMap.getD_eq_getD_getElem?, hv]
  -- the position of the account, which fixes its balance
  obtain ⟨i, hi⟩ : ∃ i, l.balances.accounts.findIdx?
      (fun candidate => candidate.1 = .child child) = some i := by
    rw [← Option.isSome_iff_exists, List.findIdx?_isSome, List.any_eq_true]
    exact ⟨_, hmem, by simp⟩
  obtain ⟨hlt, hacc, -⟩ := List.findIdx?_eq_some_iff_getElem.mp hi
  obtain ⟨x, hx⟩ : ∃ x, l.balances.accounts[i] = (.child child, x) :=
    ⟨_, Prod.ext (by simpa using hacc) rfl⟩
  have hxv : x = v.toNat := by
    obtain ⟨w, hw, rfl⟩ := mem_accounts_child.mp (hx ▸ List.getElem_mem hlt)
    rw [hv] at hw
    cases hw
    rfl
  have hleaf : (stateLeaves l.balances)[i]? = some (stateLeafHash (.child child) v.toNat) := by
    simp [stateLeaves, List.getElem?_eq_getElem hlt, hx, hxv]
  have hlen : (stateLeaves l.balances).length = l.balances.accounts.length := by
    simp [stateLeaves]
  have hsize : l.balances.accounts.length = l.balances.children.size + 1 := by
    simp [Balances.accounts, ExtTreeMap.length_toList]
  obtain ⟨proof, hproof, -, hverify⟩ := inclusionProof_verifies target (by omega) hleaf
  refine ⟨{ edge := { parent, child }
            ledgerPubkey := l.ledgerPubkey
            balance := l.balances.childBalance child
            height := UInt64.ofNat l.len
            stateRoot := stateRoot l.balances
            index := i
            treeSize := l.balances.accounts.length
            proof }, ?_, rfl, rfl, rfl, ?_⟩
  · simp only [attestBalance, stateInclusionProof, hi, bind_eq_ok, pure_eq_ok]
    exact ⟨_, ⟨proof, hproof, rfl⟩, rfl⟩
  · simp only [hbalance]
    rw [← hlen]
    exact hverify

/-- Inclusion completeness. -/
theorem inclusion_complete (hsign : Crypto.SignCorrect) :
    (∀ (target : Target) (leaves : Leaves target) (index : ℕ) (leaf : Hash),
      leaves.hashes[index]? = some leaf →
        ∃ proof, inclusionProof leaves.hashes index = .ok proof
          ∧ proofLen target index leaves.hashes.length = some proof.length
          ∧ verifyInclusion target leaf index leaves.hashes.length proof (root leaves.hashes)
              = some true)
    ∧ (∀ (target : Target) (b : BuiltLedger target) (seq : UInt64) (prev : Hash)
        (issuedAt : UInt64), seq.toNat < b.ledger.len → b.ledger.len < 2 ^ 32 →
        ∃ proof commitment s, entryInclusionProof b.ledger seq = .ok proof
          ∧ buildCommitment b.ledger prev issuedAt = .ok commitment
          ∧ b.ledger.get? seq.toNat = some s
          ∧ verifyEntryInclusion target s proof commitment.entryRoot = some true)
    ∧ ∀ (target : Target) (b : BuiltLedger target) (key : LedgerSecretKey)
        (parent child : NodeId) (prev : Hash) (issuedAt : UInt64),
        b.key = Crypto.pubKey key → child ∈ b.ledger.balances.children →
        ∃ attestation commitment signed, attestBalance b.ledger parent child = .ok attestation
          ∧ buildCommitment b.ledger prev issuedAt = .ok commitment
          ∧ SignedCommitment.sign commitment key = .ok signed
          ∧ verifyBalanceAttestation target attestation signed b.key = some (.ok ()) := by
  refine ⟨?_, ?_, ?_⟩
  · intro target leaves index leaf hleaf
    have := leaves.fits
    exact inclusionProof_verifies target (by omega) hleaf
  · intro target b seq prev issuedAt hseq hu32
    obtain ⟨proof, s, hproof, hs, hverify⟩ := entryInclusionProof_verifies b seq hseq hu32
    obtain ⟨commitment, hcommitment⟩ := buildCommitment_ok b prev issuedAt
    exact ⟨proof, commitment, s, hproof, hcommitment, hs,
      hverify _ (buildCommitment_spec hcommitment).1⟩
  · intro target b key parent child prev issuedAt hkey hchild
    have hdense : Dense b.ledger := dense_run b.key b.attempts
    have hpub : b.ledger.ledgerPubkey = b.key := ledgerPubkey_run b.key b.attempts
    have hmax : b.ledger.balances.children.size < 2 ^ (target.usizeBits - 1) :=
      lt_of_le_of_lt hdense.accounts b.fits
    obtain ⟨attestation, hattest, hapub, haheight, haroot, hincl⟩ :=
      attestBalance_verifies hmax parent child hchild
    obtain ⟨commitment, hcommitment⟩ := buildCommitment_ok b prev issuedAt
    obtain ⟨-, hroot, hheight, hid, hcpub⟩ := buildCommitment_spec hcommitment
    rw [hdense.identity, hpub] at hid
    rw [hpub] at hcpub hapub
    have hsignOk : SignedCommitment.sign commitment key
        = .ok { commitment, signature := Crypto.sign key commitment.canonicalBytes } := by
      rw [SignedCommitment.sign, if_neg (by rw [hid, hcpub, hkey]; simp)]
    refine ⟨attestation, commitment, _, hattest, hcommitment, hsignOk, ?_⟩
    have hcheck : checkAttestation attestation
        { commitment, signature := Crypto.sign key commitment.canonicalBytes } b.key = .ok () := by
      simp only [checkAttestation, SignedCommitment.verify, hid, hcpub, hapub, haheight, hheight,
        haroot, hroot, ne_eq, not_true_eq_false, or_self, ↓reduceIte]
      rw [hkey, hsign]
      rfl
    rw [verifyBalanceAttestation, hcheck]
    simp only [hroot, hincl]

end

section

open Concrete

def openEntry : SignedEntry :=
  let e : Entry :=
    { ledgerId := (7 : ℕ), seq := 0, height := 0, prevHash := (0 : ℕ), issuedAt := 1
      body := .openAccount "a" .user, postings := [], auth := none }
  { entry := e, signature := Crypto.sign (7 : ℕ) (.byte 4 :: Concrete.entry e) }

def followEntry : SignedEntry :=
  let e : Entry :=
    { ledgerId := (7 : ℕ), seq := 1, height := 1
      prevHash := derive "cawala-ledger/entry/v1" [.byte 4 :: Concrete.entry openEntry.entry]
      issuedAt := 1, body := .openAccount "b" .user, postings := [], auth := none }
  { entry := e, signature := Crypto.sign (7 : ℕ) (.byte 4 :: Concrete.entry e) }

def oneAccount : BuiltLedger .native64 where
  key := (7 : ℕ)
  attempts := [openEntry]
  fits := by decide +kernel

theorem mem_oneAccount : "a" ∈ oneAccount.ledger.balances.children := by decide +kernel

def oneAccountCommitment : SignedCommitment :=
  let c : Commitment :=
    { ledgerId := (7 : ℕ), ledgerPubkey := (7 : ℕ), height := 1, entryCount := 1
      entryRoot := leafHash (0 : ℕ), stateRoot := stateRoot oneAccount.ledger.balances
      prevCommitmentHash := (0 : ℕ), issuedAt := 1 }
  { commitment := c, signature := Crypto.sign (7 : ℕ) c.canonicalBytes }

def oneAccountAttestation : BalanceAttestation where
  edge := { parent := "p", child := "a" }
  ledgerPubkey := (7 : ℕ)
  balance := 0
  height := 1
  stateRoot := stateRoot oneAccount.ledger.balances
  index := 1
  treeSize := 2
  proof := [stateLeafHash .parent 0]

/-- Soundness at a proof of the last of three leaves, and at the attestation of the one
open account. -/
theorem inclusion_sound_three :
    (verifyInclusion .native64 (3 : ℕ) 2 3 [nodeHash (1 : ℕ) (2 : ℕ)] (root ([1, 2, 3] : List ℕ))
        = some true
      ∧ ([1, 2, 3] : List ℕ)[2]? = some 3)
    ∧ verifyBalanceAttestation .native64 oneAccountAttestation oneAccountCommitment (7 : ℕ)
        = some (.ok ())
    ∧ oneAccount.ledger.balances.children["a"]? = some 0 := by
  have hsound := inclusion_sound (nodeHashInjective_of_collisionFree collisionFree)
    (stateLeavesApart_of_collisionFree collisionFree)
    (stateHashInjective_of_collisionFree collisionFree)
  have haccept : verifyInclusion .native64 (3 : ℕ) 2 3 [nodeHash (1 : ℕ) (2 : ℕ)]
      (root ([1, 2, 3] : List ℕ)) = some true := by decide +kernel
  have hattest : verifyBalanceAttestation .native64 oneAccountAttestation oneAccountCommitment
      (7 : ℕ) = some (.ok ()) := by decide +kernel
  exact ⟨⟨haccept, (hsound.1 .native64 ([1, 2, 3] : List ℕ) 2 (3 : ℕ) _ haccept).2⟩, hattest,
    hsound.2 .native64 oneAccount.ledger.balances oneAccountAttestation oneAccountCommitment _
      rfl hattest⟩

/-- The three parts at a list of three leaves and at the ledger with one open account. -/
theorem inclusion_complete_three :
    (∃ proof, inclusionProof ([1, 2, 3] : List ℕ) 2 = .ok proof
      ∧ proofLen .native64 2 3 = some proof.length
      ∧ verifyInclusion .native64 (3 : ℕ) 2 3 proof (root ([1, 2, 3] : List ℕ)) = some true)
    ∧ (∃ proof commitment s, entryInclusionProof oneAccount.ledger 0 = .ok proof
      ∧ buildCommitment oneAccount.ledger (0 : ℕ) 1 = .ok commitment
      ∧ oneAccount.ledger.get? 0 = some s
      ∧ verifyEntryInclusion .native64 s proof commitment.entryRoot = some true)
    ∧ ∃ attestation commitment signed, attestBalance oneAccount.ledger "p" "a" = .ok attestation
      ∧ buildCommitment oneAccount.ledger (0 : ℕ) 1 = .ok commitment
      ∧ SignedCommitment.sign commitment (7 : ℕ) = .ok signed
      ∧ verifyBalanceAttestation .native64 attestation signed oneAccount.key = some (.ok ()) := by
  obtain ⟨hlist, hentry, hattest⟩ := inclusion_complete signCorrect
  exact ⟨hlist .native64 ⟨([1, 2, 3] : List ℕ), by decide⟩ 2 (3 : ℕ) rfl,
    hentry .native64 oneAccount 0 (0 : ℕ) 1 (by decide +kernel) (by decide +kernel),
    hattest .native64 oneAccount (7 : ℕ) "p" "a" (0 : ℕ) 1 rfl mem_oneAccount⟩

end

end Cawala
