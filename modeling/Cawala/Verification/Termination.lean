import Cawala.Model.Claim
import Cawala.Model.MerkleRounds
import Cawala.Verification.Inclusion

/-! # When proof verification ends

The size of a proof comes from the wire. Up to half the range of `usize` every loop ends and
every operation stays in range; beyond, the search for a split point shifts its candidate out
of the word and goes on for ever. -/

namespace Cawala

open Library Library.Merkle Library.Rounds

/-! ## The power-of-two loop -/

theorem powerRun_eq (target : Target) (rounds n k : ℕ) :
    powerRun target rounds n k
      = (powerLoop target.usizeBits rounds n k).elim .running .done := by
  induction rounds generalizing k with
  | zero => rfl
  | succ rounds ih =>
      rw [powerRun, powerLoop]
      split
      · exact ih _
      · rfl

/-- Whatever the rounds, the loop can only return the split point. -/
theorem powerLoop_some {bits fuel n j k : ℕ} (hn : n ≤ 2 ^ (bits - 1)) (hj : 2 ^ j < n)
    (h : powerLoop bits fuel n (2 ^ j) = some k) : k = split n := by
  have hlt : j < bits - 1 := (Nat.pow_lt_pow_iff_right (a := 2) (by norm_num)).mp (by omega)
  have hmod : 2 ^ j * 2 % 2 ^ bits = 2 ^ (j + 1) := by
    rw [← pow_succ]
    exact Nat.mod_eq_of_lt (Nat.pow_lt_pow_right (by norm_num) (by omega))
  induction fuel generalizing j with
  | zero => cases h
  | succ fuel ih =>
      rw [powerLoop, hmod] at h
      by_cases hnext : 2 ^ (j + 1) < n
      · have hlt' : j + 1 < bits - 1 :=
          (Nat.pow_lt_pow_iff_right (a := 2) (by norm_num)).mp (by omega)
        rw [if_pos hnext] at h
        refine ih hnext h hlt' ?_
        rw [← pow_succ]
        exact Nat.mod_eq_of_lt (Nat.pow_lt_pow_right (by norm_num) (by omega))
      · rw [if_neg hnext, Option.some.injEq] at h
        rw [← h, split_eq hj (by omega)]

/-- Beyond half the range of `usize` no number of rounds is enough. -/
theorem powerRun_running (target : Target) {n : ℕ} (hn : 2 ^ (target.usizeBits - 1) < n)
    (rounds : ℕ) : powerRun target rounds n 1 = .running := by
  have hbits := target.one_lt_usizeBits
  have hnone : powerLoop target.usizeBits rounds n 1 = none :=
    powerLoop_none (by omega) hn (Or.inr ⟨0, by omega, rfl⟩)
  rw [powerRun_eq, hnone]
  rfl

/-- Up to there the loop returns the split point, in as many rounds as `usize` has bits. -/
theorem powerRun_cases (target : Target) {n : ℕ} (h2 : 2 ≤ n)
    (hn : n ≤ 2 ^ (target.usizeBits - 1)) (rounds : ℕ) :
    powerRun target rounds n 1 = .done (split n)
      ∨ powerRun target rounds n 1 = .running ∧ rounds < target.usizeBits := by
  rw [powerRun_eq]
  by_cases hrounds : target.usizeBits ≤ rounds
  · left
    rw [show (1 : ℕ) = 2 ^ 0 from rfl, powerLoop_eq hn (by omega) (by omega)]
    rfl
  · cases h : powerLoop target.usizeBits rounds n 1 with
    | none => exact Or.inr ⟨rfl, by omega⟩
    | some k =>
        left
        rw [← powerLoop_some (j := 0) hn (by omega) h]
        rfl

/-! ## Path lengths -/

theorem split_le_pow {n j : ℕ} (h2 : 2 ≤ n) (hn : n ≤ 2 ^ (j + 1)) : split n ≤ 2 ^ j := by
  have hlt := split_lt h2
  obtain ⟨m, hm⟩ : ∃ m, split n = 2 ^ m := ⟨_, rfl⟩
  rw [hm] at hlt ⊢
  have : m < j + 1 := (Nat.pow_lt_pow_iff_right (a := 2) (by norm_num)).mp (by omega)
  exact Nat.pow_le_pow_right (by norm_num) (by omega)

/-- One round of `proof_len` that finds a split point stays in range. -/
theorem proofLenFrom_succ (target : Target) {inner rounds lo hi idx depth : ℕ} (hle : lo ≤ hi)
    (hhi : hi < 2 ^ target.usizeBits) (hdepth : depth + 1 < 2 ^ target.usizeBits)
    (htwo : hi - lo > 1) (hk : powerRun target inner (hi - lo) 1 = .done (split (hi - lo))) :
    proofLenFrom target inner (rounds + 1) lo hi idx depth
      = if idx < split (hi - lo) then
          proofLenFrom target inner rounds lo (lo + split (hi - lo)) idx (depth + 1)
        else
          proofLenFrom target inner rounds (lo + split (hi - lo)) hi (idx - split (hi - lo))
            (depth + 1) := by
  have hlt := split_lt (n := hi - lo) (by omega)
  rw [proofLenFrom, checkedSub_eq hle, done_bind, if_pos htwo, hk, done_bind]
  rw [checkedAdd_eq (show lo + split (hi - lo) < 2 ^ target.usizeBits by omega),
    checkedAdd_eq hdepth]
  by_cases hside : idx < split (hi - lo)
  · rw [if_pos hside, if_pos hside]
    rfl
  · rw [if_neg hside, if_neg hside, checkedSub_eq (by omega)]
    rfl

/-- A round that finds none does not end. -/
theorem proofLenFrom_stuck (target : Target) {inner rounds lo hi idx depth : ℕ} (hle : lo ≤ hi)
    (htwo : hi - lo > 1) (hk : powerRun target inner (hi - lo) 1 = .running) :
    proofLenFrom target inner (rounds + 1) lo hi idx depth = .running := by
  rw [proofLenFrom, checkedSub_eq hle, done_bind, if_pos htwo, hk]
  rfl

/-- After any number of rounds the loop has returned the length of the path or is still
running, and with enough rounds it has returned. -/
theorem proofLenFrom_cases (target : Target) {inner rounds lo hi idx depth j : ℕ}
    (hle : lo ≤ hi) (hhi : hi < 2 ^ target.usizeBits) (hj : hi - lo ≤ 2 ^ j)
    (hdepth : depth + j < 2 ^ target.usizeBits)
    (hmax : hi - lo ≤ 2 ^ (target.usizeBits - 1)) :
    proofLenFrom target inner rounds lo hi idx depth
        = .done (depth + (sides (hi - lo) idx).length)
      ∨ proofLenFrom target inner rounds lo hi idx depth = .running
        ∧ (inner < target.usizeBits ∨ rounds ≤ j) := by
  induction rounds generalizing lo hi idx depth j with
  | zero => exact Or.inr ⟨rfl, Or.inr (Nat.zero_le j)⟩
  | succ rounds ih =>
      by_cases htwo : hi - lo > 1
      · rcases powerRun_cases target (n := hi - lo) (by omega) hmax inner with hk | ⟨hk, hinner⟩
        · cases j with
          | zero => omega
          | succ j =>
              have hlt := split_lt (n := hi - lo) (by omega)
              have hhalf := le_two_mul_split (n := hi - lo) (by omega)
              have hpow := split_le_pow (n := hi - lo) (by omega) hj
              rw [proofLenFrom_succ target hle hhi (by omega) htwo hk]
              by_cases hside : idx < split (hi - lo)
              · have hwidth : lo + split (hi - lo) - lo = split (hi - lo) := by omega
                have hrec := @ih lo (lo + split (hi - lo)) idx (depth + 1) j (by omega) (by omega)
                  (by omega) (by omega) (by omega)
                rw [hwidth, Nat.add_right_comm, Nat.add_assoc] at hrec
                rw [if_pos hside, sides_left (by omega) hside, List.length_cons]
                exact hrec.imp id fun h => ⟨h.1, h.2.imp id (by omega)⟩
              · have hwidth : hi - (lo + split (hi - lo)) = hi - lo - split (hi - lo) := by omega
                have hrec := @ih (lo + split (hi - lo)) hi (idx - split (hi - lo)) (depth + 1) j
                  (by omega) hhi (by omega) (by omega) (by omega)
                rw [hwidth, Nat.add_right_comm, Nat.add_assoc] at hrec
                rw [if_neg hside, sides_right (by omega) (by omega), List.length_cons]
                exact hrec.imp id fun h => ⟨h.1, h.2.imp id (by omega)⟩
        · exact Or.inr ⟨proofLenFrom_stuck target hle htwo hk, Or.inl hinner⟩
      · left
        rw [proofLenFrom, checkedSub_eq hle, done_bind, if_neg htwo, sides_of_lt (by omega)]
        rfl

theorem proofLenRun_cases (target : Target) {index treeSize : ℕ}
    (hmax : treeSize ≤ 2 ^ (target.usizeBits - 1)) (rounds : ℕ) :
    proofLenRun target index treeSize rounds = .done (sides treeSize index).length
      ∨ proofLenRun target index treeSize rounds = .running ∧ rounds < target.usizeBits := by
  have hbits := target.one_lt_usizeBits
  have hpow : 2 ^ (target.usizeBits - 1) < 2 ^ target.usizeBits :=
    Nat.pow_lt_pow_right (by norm_num) (by omega)
  have hdepth : target.usizeBits - 1 < 2 ^ target.usizeBits :=
    (Nat.lt_two_pow_self).trans hpow
  have h := @proofLenFrom_cases target rounds rounds 0 treeSize index 0 (target.usizeBits - 1)
    (Nat.zero_le treeSize) (by omega) (by omega) (by omega) (by omega)
  rw [Nat.sub_zero, Nat.zero_add] at h
  exact h.imp id fun h => ⟨h.1, by omega⟩

/-- On larger ones it never ends. -/
theorem proofLenRun_running (target : Target) {index treeSize : ℕ}
    (hmax : 2 ^ (target.usizeBits - 1) < treeSize) (rounds : ℕ) :
    proofLenRun target index treeSize rounds = .running := by
  have htwo : 1 < 2 ^ (target.usizeBits - 1) :=
    Nat.one_lt_two_pow (by have := target.one_lt_usizeBits; omega)
  cases rounds with
  | zero => rfl
  | succ rounds =>
      exact proofLenFrom_stuck target (Nat.zero_le treeSize) (by omega)
        (powerRun_running target (by omega) _)

/-- `proof_len` never leaves the word, and it returns for half of the sizes. -/
theorem proofLenRun_returns_iff (target : Target) (index treeSize : ℕ) :
    Returns (proofLenRun target index treeSize) ↔ treeSize ≤ 2 ^ (target.usizeBits - 1) := by
  constructor
  · intro h
    by_contra hmax
    obtain ⟨rounds, value, hrun⟩ := h
    rw [proofLenRun_running target (by omega)] at hrun
    cases hrun
  · intro hmax
    rcases @proofLenRun_cases target index treeSize hmax target.usizeBits with h | ⟨-, h⟩
    · exact ⟨_, _, h⟩
    · omega

theorem proofLenRun_staysInRange (target : Target) (index treeSize : ℕ) :
    StaysInRange (proofLenRun target index treeSize) := by
  intro rounds
  by_cases hmax : treeSize ≤ 2 ^ (target.usizeBits - 1)
  · rcases @proofLenRun_cases target index treeSize hmax rounds with h | ⟨h, -⟩ <;> simp [h]
  · simp [proofLenRun_running target (by omega : 2 ^ (target.usizeBits - 1) < treeSize)]

/-! ## The walk -/

/-- The shifts end once there are more rounds than the position is large. -/
theorem shiftRun_cases {rounds fuel fn sn : ℕ} (hfuel : fn ≤ fuel) :
    shiftRun rounds fn sn = .done (shiftLoop fuel fn sn)
      ∨ shiftRun rounds fn sn = .running ∧ rounds ≤ fn := by
  induction rounds generalizing fuel fn sn with
  | zero => exact Or.inr ⟨rfl, Nat.zero_le fn⟩
  | succ rounds ih =>
      rw [shiftRun]
      by_cases heven : fn % 2 = 0 ∧ fn ≠ 0
      · cases fuel with
        | zero => omega
        | succ fuel =>
            rw [if_pos heven, shiftLoop, if_pos heven]
            exact (@ih fuel (fn / 2) (sn / 2) (by omega)).imp id fun h => ⟨h.1, by omega⟩
      · left
        rw [if_neg heven]
        cases fuel with
        | zero => rfl
        | succ fuel => rw [shiftLoop, if_neg heven]; rfl

theorem shiftLoop_le (fuel fn sn : ℕ) : (shiftLoop fuel fn sn).1 ≤ fn := by
  induction fuel generalizing fn sn with
  | zero => exact le_rfl
  | succ fuel ih =>
      rw [shiftLoop]
      split
      · exact (ih _ _).trans (Nat.div_le_self fn 2)
      · exact le_rfl

section

variable [Crypto]

theorem walkRun_cases (rounds : ℕ) (root : Hash) (proof : List Hash) (x : Hash) (fn sn : ℕ) :
    walkRun rounds root proof x fn sn = .done (walkPath root proof x fn sn)
      ∨ walkRun rounds root proof x fn sn = .running ∧ rounds ≤ fn := by
  induction proof generalizing x fn sn with
  | nil => exact Or.inl rfl
  | cons sibling rest ih =>
      rw [walkRun, walkPath]
      by_cases hzero : sn = 0
      · rw [if_pos hzero, if_pos hzero]
        exact Or.inl rfl
      · rw [if_neg hzero, if_neg hzero]
        by_cases hright : fn % 2 = 1 ∨ fn = sn
        · rw [if_pos hright, if_pos hright]
          by_cases heven : fn % 2 = 0
          · rw [if_pos heven, if_pos heven]
            rcases @shiftRun_cases rounds fn fn sn le_rfl with hshift | ⟨hshift, hrounds⟩
            · rw [hshift]
              refine (ih _ _ _).imp id fun h => ⟨h.1, ?_⟩
              have hle := shiftLoop_le fn fn sn
              omega
            · rw [hshift]
              exact Or.inr ⟨rfl, hrounds⟩
          · rw [if_neg heven, if_neg heven]
            exact (ih _ _ _).imp id fun h => ⟨h.1, by omega⟩
        · rw [if_neg hright, if_neg hright]
          exact (ih _ _ _).imp id fun h => ⟨h.1, by omega⟩

theorem verifyInclusionRun_cases (target : Target) (leaf : Hash) {index treeSize : ℕ}
    (proof : List Hash) (root : Hash)
    (hsize : treeSize ≤ index ∨ treeSize ≤ 2 ^ (target.usizeBits - 1)) (rounds : ℕ) :
    ∃ b, verifyInclusion target leaf index treeSize proof root = some b
      ∧ (verifyInclusionRun target leaf index treeSize proof root rounds = .done b
        ∨ verifyInclusionRun target leaf index treeSize proof root rounds = .running
          ∧ (rounds < target.usizeBits ∨ rounds ≤ index)) := by
  rw [verifyInclusion, verifyInclusionRun]
  by_cases hrange : treeSize = 0 ∨ index ≥ treeSize
  · rw [if_pos hrange, if_pos hrange]
    exact ⟨false, rfl, Or.inl rfl⟩
  · have hmax : treeSize ≤ 2 ^ (target.usizeBits - 1) := by omega
    rw [if_neg hrange, if_neg hrange, proofLen_eq target hmax]
    by_cases hlen : proof.length ≠ (sides treeSize index).length
    · refine ⟨false, if_pos hlen, ?_⟩
      rcases @proofLenRun_cases target index treeSize hmax rounds with h | ⟨h, hrounds⟩
      · rw [h, done_bind, if_pos hlen]
        exact Or.inl rfl
      · rw [h]
        exact Or.inr ⟨rfl, Or.inl hrounds⟩
    · refine ⟨_, if_neg hlen, ?_⟩
      rcases @proofLenRun_cases target index treeSize hmax rounds with h | ⟨h, hrounds⟩
      · rw [h, done_bind, if_neg hlen, checkedSub_eq (by omega), done_bind]
        exact (walkRun_cases rounds root proof leaf index (treeSize - 1)).imp id
          fun h => ⟨h.1, Or.inr h.2⟩
      · rw [h]
        exact Or.inr ⟨rfl, Or.inl hrounds⟩

/-- On larger ones it never ends. -/
theorem verifyInclusionRun_running (target : Target) (leaf : Hash) {index treeSize : ℕ}
    (proof : List Hash) (root : Hash) (hindex : index < treeSize)
    (hmax : 2 ^ (target.usizeBits - 1) < treeSize) :
    verifyInclusion target leaf index treeSize proof root = none
      ∧ ∀ rounds, verifyInclusionRun target leaf index treeSize proof root rounds = .running := by
  have hrange : ¬ (treeSize = 0 ∨ index ≥ treeSize) := by omega
  constructor
  · rw [verifyInclusion, if_neg hrange, proofLen_none target hmax]
  · intro rounds
    rw [verifyInclusionRun, if_neg hrange, proofLenRun_running target hmax]
    rfl

/-- The verifier of the model returns what the loops return once they have ended, and none
for loops that never end. -/
theorem verifyInclusion_eq_some_iff (target : Target) (leaf : Hash) (index treeSize : ℕ)
    (proof : List Hash) (root : Hash) (b : Bool) :
    verifyInclusion target leaf index treeSize proof root = some b
      ↔ ∃ rounds, verifyInclusionRun target leaf index treeSize proof root rounds = .done b := by
  by_cases hsize : treeSize ≤ index ∨ treeSize ≤ 2 ^ (target.usizeBits - 1)
  · constructor
    · intro h
      obtain ⟨b', hb', hrun⟩ := verifyInclusionRun_cases target leaf proof root hsize
        (target.usizeBits + index + 1)
      obtain rfl : b' = b := Option.some.inj (hb'.symm.trans h)
      refine ⟨_, hrun.resolve_right ?_⟩
      intro hstuck
      omega
    · intro h
      obtain ⟨rounds, hrounds⟩ := h
      obtain ⟨b', hb', hrun⟩ := verifyInclusionRun_cases target leaf proof root hsize rounds
      rcases hrun with hrun | ⟨hrun, -⟩
      · rw [hrun, Rounds.done.injEq] at hrounds
        rw [hb', hrounds]
      · rw [hrun] at hrounds
        cases hrounds
  · obtain ⟨hnone, hrunning⟩ :=
      @verifyInclusionRun_running _ target leaf index treeSize proof root (by omega) (by omega)
    simp [hnone, hrunning]

theorem verifyInclusionRun_staysInRange (target : Target) (leaf : Hash) (index treeSize : ℕ)
    (proof : List Hash) (root : Hash) :
    StaysInRange (verifyInclusionRun target leaf index treeSize proof root) := by
  intro rounds
  by_cases hsize : treeSize ≤ index ∨ treeSize ≤ 2 ^ (target.usizeBits - 1)
  · obtain ⟨b, -, h⟩ := verifyInclusionRun_cases target leaf proof root hsize rounds
    rcases h with h | ⟨h, -⟩ <;> simp [h]
  · have h := (@verifyInclusionRun_running _ target leaf index treeSize proof root (by omega)
      (by omega)).2 rounds
    simp [h]

/-! ## The verifiers -/

/-- A position whose path can be measured: outside of the tree, where the verifier refuses it
at once, or in a tree of at most half the range of `usize`. -/
def Measurable (target : Target) (index treeSize : ℕ) : Prop :=
  treeSize ≤ index ∨ treeSize ≤ 2 ^ (target.usizeBits - 1)

theorem verifyInclusion_isSome_iff (target : Target) (leaf : Hash) (index treeSize : ℕ)
    (proof : List Hash) (root : Hash) :
    (verifyInclusion target leaf index treeSize proof root).isSome
      ↔ Measurable target index treeSize := by
  by_cases hsize : Measurable target index treeSize
  · obtain ⟨b, hb, -⟩ := verifyInclusionRun_cases target leaf proof root hsize 0
    simp [hb, hsize]
  · have hlarge : ¬ (treeSize ≤ index ∨ treeSize ≤ 2 ^ (target.usizeBits - 1)) := hsize
    have h := (@verifyInclusionRun_running _ target leaf index treeSize proof root (by omega)
      (by omega)).1
    simp [h, hsize]

theorem verifyInclusionRun_returns_iff (target : Target) (leaf : Hash) (index treeSize : ℕ)
    (proof : List Hash) (root : Hash) :
    Returns (verifyInclusionRun target leaf index treeSize proof root)
      ↔ Measurable target index treeSize := by
  rw [← verifyInclusion_isSome_iff target leaf index treeSize proof root, Option.isSome_iff_exists]
  simp only [verifyInclusion_eq_some_iff, Returns]
  exact exists_comm

theorem verifyBalanceAttestation_isSome_iff (target : Target) (a : BalanceAttestation)
    (commitment : SignedCommitment) (expected : LedgerPubKey) :
    (verifyBalanceAttestation target a commitment expected).isSome
      ↔ checkAttestation a commitment expected ≠ .ok () ∨ Measurable target a.index a.treeSize := by
  rw [verifyBalanceAttestation]
  cases hcheck : checkAttestation a commitment expected with
  | error e => simp
  | ok u =>
      have h := verifyInclusion_isSome_iff target
        (stateLeafHash (.child a.edge.child) a.balance.toNat) a.index a.treeSize a.proof
        commitment.commitment.stateRoot
      simp only [ne_eq, not_true_eq_false, false_or, ← h, verifyStateInclusion]
      split <;> simp_all

theorem verifyEntryInclusion_isSome_iff [Postcard] (target : Target) (signed : SignedEntry)
    (proof : EntryInclusionProof) (entryRoot : Hash) :
    (verifyEntryInclusion target signed proof entryRoot).isSome
      ↔ maxEntryProof < proof.proof.length ∨ (∀ hash, entryHash signed.entry ≠ .ok hash)
        ∨ Measurable target proof.index.toNat proof.treeSize.toNat := by
  rw [verifyEntryInclusion]
  by_cases hlen : proof.proof.length > maxEntryProof
  · simp [hlen]
  · by_cases hindex : proof.index ≥ proof.treeSize
    · have : proof.treeSize.toNat ≤ proof.index.toNat := hindex
      simp [hlen, hindex, Measurable, this]
    · rw [if_neg hlen, if_neg hindex]
      cases hhash : entryHash signed.entry with
      | error e => simp
      | ok hash => simp [verifyInclusion_isSome_iff, hlen]

theorem verifyBundle_isSome_iff [ClaimPrimitives] (target : Target) (b : StrandedClaimBundle)
    (now : UInt64) :
    (b.verifyBundle target now).isSome
      ↔ b.checkBundle now ≠ .ok ()
        ∨ ∀ proof ∈ b.parentProof, Measurable target proof.index proof.treeSize := by
  rw [StrandedClaimBundle.verifyBundle]
  cases hcheck : b.checkBundle now with
  | error e => simp
  | ok u =>
      cases hproof : b.parentProof with
      | none =>
          by_cases hbalance : b.parentBalance ≠ 0 <;> simp [hbalance]
      | some proof =>
          have h := verifyInclusion_isSome_iff target (stateLeafHash .parent b.parentBalance)
            proof.index proof.treeSize proof.proof b.commitment.commitment.stateRoot
          simp only [ne_eq, not_true_eq_false, false_or, Option.mem_some_iff, forall_eq', ← h,
            verifyStateInclusion]
          split <;> simp_all

/-- Where the verification of a proof ends. No arithmetic ever leaves the word, but the search
for a split point does not end above half the range of `usize`: the verifiers return exactly
where an earlier check refuses, or where the claimed size is within that half. -/
theorem proof_verification_returns_iff [Postcard] [ClaimPrimitives] (target : Target) :
    (∀ index treeSize, (Returns (proofLenRun target index treeSize)
        ↔ treeSize ≤ 2 ^ (target.usizeBits - 1))
      ∧ StaysInRange (proofLenRun target index treeSize))
    ∧ (∀ leaf index treeSize proof root,
        (Returns (verifyInclusionRun target leaf index treeSize proof root)
          ↔ Measurable target index treeSize)
        ∧ StaysInRange (verifyInclusionRun target leaf index treeSize proof root))
    ∧ (∀ account balance index treeSize proof root,
        (verifyStateInclusion target account balance index treeSize proof root).isSome
          ↔ Measurable target index treeSize)
    ∧ (∀ a commitment expected, (verifyBalanceAttestation target a commitment expected).isSome
        ↔ checkAttestation a commitment expected ≠ .ok ()
          ∨ Measurable target a.index a.treeSize)
    ∧ (∀ signed proof root, (verifyEntryInclusion target signed proof root).isSome
        ↔ maxEntryProof < proof.proof.length ∨ (∀ hash, entryHash signed.entry ≠ .ok hash)
          ∨ Measurable target proof.index.toNat proof.treeSize.toNat)
    ∧ ∀ (b : StrandedClaimBundle) now, (b.verifyBundle target now).isSome
        ↔ b.checkBundle now ≠ .ok ()
          ∨ ∀ proof ∈ b.parentProof, Measurable target proof.index proof.treeSize := by
  refine ⟨?_, ?_, ?_, ?_, ?_, ?_⟩
  · intro index treeSize
    exact ⟨proofLenRun_returns_iff target index treeSize,
      proofLenRun_staysInRange target index treeSize⟩
  · intro leaf index treeSize proof root
    exact ⟨verifyInclusionRun_returns_iff target leaf index treeSize proof root,
      verifyInclusionRun_staysInRange target leaf index treeSize proof root⟩
  · intro account balance index treeSize proof root
    exact verifyInclusion_isSome_iff target _ index treeSize proof root
  · exact verifyBalanceAttestation_isSome_iff target
  · exact verifyEntryInclusion_isSome_iff target
  · exact verifyBundle_isSome_iff target

end

section Concrete

open Concrete

/-- The smallest sizes beyond half the range, for the first leaf, and an attestation of one of
them against an honestly signed commitment: none of the calls returns. -/
theorem proof_verification_runs_forever :
    ¬ Returns (proofLenRun .native64 0 (2 ^ 63 + 1))
    ∧ ¬ Returns (proofLenRun .wasm32 0 (2 ^ 31 + 1))
    ∧ ¬ Returns (verifyInclusionRun .native64 (3 : ℕ) 0 (2 ^ 63 + 1) [] (4 : ℕ))
    ∧ verifyBalanceAttestation .native64
        { oneAccountAttestation with index := 0, treeSize := 2 ^ 63 + 1 }
        oneAccountCommitment (7 : ℕ) = none := by
  refine ⟨?_, ?_, ?_, ?_⟩
  · rw [proofLenRun_returns_iff]
    decide
  · rw [proofLenRun_returns_iff]
    decide
  · rw [verifyInclusionRun_returns_iff, Measurable]
    decide
  · rw [← Option.not_isSome_iff_eq_none, verifyBalanceAttestation_isSome_iff, Measurable]
    decide +kernel

end Concrete

end Cawala
