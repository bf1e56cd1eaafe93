import Cawala.Model.Claim
import Cawala.Verification.CommitmentChain

/-! # The ancestor chain of a claim

The walk over an ancestor chain that does not reach genesis, against the rules of a full
chain. -/

namespace Cawala

open Library

section

variable [Crypto]

/-! ## The rules of a suffix -/

/-- The rules of a chain, without the anchor. -/
structure SuffixOf (key : LedgerPubKey) (chain : List SignedCommitment) : Prop where
  signed : ∀ s ∈ chain, s.verify key = .ok ()
  consistent : ∀ s ∈ chain, s.commitment.height = s.commitment.entryCount
  rising : chain.Pairwise fun a b => a.commitment.height < b.commitment.height
  linked : chain.IsChain fun a b => b.commitment.prevCommitmentHash = commitmentHash a.commitment

def Follows (a b : SignedCommitment) : Prop :=
  a.commitment.height < b.commitment.height
    ∧ b.commitment.prevCommitmentHash = commitmentHash a.commitment

/-- The rules of a suffix, the consistency of its last commitment aside. -/
structure SuffixButHead (key : LedgerPubKey) (chain : List SignedCommitment)
    (head : SignedCommitment) : Prop where
  ancestors : ∀ s ∈ chain, s.verify key = .ok () ∧ s.commitment.height = s.commitment.entryCount
  verified : head.verify key = .ok ()
  follows : (chain ++ [head]).IsChain Follows

variable {key : LedgerPubKey} {chain : List SignedCommitment} {head : SignedCommitment}

theorem isChain_follows_iff :
    chain.IsChain Follows
      ↔ chain.Pairwise (fun a b => a.commitment.height < b.commitment.height)
        ∧ chain.IsChain
            (fun a b => b.commitment.prevCommitmentHash = commitmentHash a.commitment) := by
  rw [← List.isChain_iff_pairwise]
  induction chain with
  | nil => simp
  | cons a rest ih =>
      cases rest with
      | nil => simp
      | cons b rest =>
          simp only [List.isChain_cons_cons, ih, Follows]
          exact and_and_and_comm

theorem suffixOf_iff :
    SuffixOf key chain ↔
      (∀ s ∈ chain, s.verify key = .ok () ∧ s.commitment.height = s.commitment.entryCount)
      ∧ chain.IsChain Follows := by
  rw [isChain_follows_iff]
  constructor
  · intro h
    exact ⟨fun s hs => ⟨h.signed s hs, h.consistent s hs⟩, h.rising, h.linked⟩
  · intro h
    exact ⟨fun s hs => (h.1 s hs).1, fun s hs => (h.1 s hs).2, h.2.1, h.2.2⟩

/-- The consistency of the head is all that is set aside. -/
theorem suffixOf_snoc_iff :
    SuffixOf key (chain ++ [head]) ↔
      SuffixButHead key chain head ∧ head.commitment.height = head.commitment.entryCount := by
  rw [suffixOf_iff, List.forall_mem_append]
  simp only [List.mem_singleton, forall_eq]
  constructor
  · intro h
    exact ⟨⟨h.1.1, h.1.2.1, h.2⟩, h.1.2.2⟩
  · intro h
    exact ⟨⟨h.1.ancestors, h.1.verified, h.2⟩, h.1.follows⟩

/-- A full chain is a suffix that starts at the anchor. -/
theorem chainOf_iff_suffixOf :
    ChainOf key chain ↔ SuffixOf key chain
      ∧ ∀ s ∈ chain.head?, s.commitment.prevCommitmentHash = Crypto.zero := by
  constructor
  · intro h
    exact ⟨⟨h.signed, h.consistent, h.rising, h.linked⟩, h.anchored⟩
  · intro h
    exact ⟨h.1.signed, h.1.consistent, h.1.rising, h.2, h.1.linked⟩

theorem SuffixOf.of_append {front : List SignedCommitment} (h : SuffixOf key (front ++ chain)) :
    SuffixOf key chain where
  signed := fun s hs => h.signed s (List.mem_append_right front hs)
  consistent := fun s hs => h.consistent s (List.mem_append_right front hs)
  rising := (List.pairwise_append.mp h.rising).2.1
  linked := (List.isChain_append.mp h.linked).2.1

/-! ## What the walk accepts -/

theorem checkElements_eq_ok {u : Unit} :
    checkElements key chain = .ok u ↔
      ∀ s ∈ chain, s.verify key = .ok () ∧ s.commitment.height = s.commitment.entryCount := by
  induction chain with
  | nil => simp [checkElements]
  | cons element rest ih =>
      simp only [checkElements, bind_eq_ok, mapError_eq_ok, ite_error_eq_ok, not_not, ih,
        List.forall_mem_cons, and_assoc]
      constructor
      · intro h
        obtain ⟨_, hall⟩ := h
        exact hall
      · intro hall
        exact ⟨(), hall⟩

theorem checkLink_eq_ok {prev current : SignedCommitment} {u : Unit} :
    checkLink prev current = .ok u ↔ Follows prev current := by
  simp only [checkLink, ite_error_eq_ok, not_or, not_not, UInt64.not_le, and_true, Follows]

theorem walkLinks_eq_ok {prev last : SignedCommitment} {rest : List SignedCommitment} :
    walkLinks prev rest = .ok last ↔
      (prev :: rest).IsChain Follows ∧ (prev :: rest).getLast? = some last := by
  induction rest generalizing prev with
  | nil => simp [walkLinks]
  | cons current rest ih =>
      simp only [walkLinks, bind_eq_ok, checkLink_eq_ok, ih, List.isChain_cons_cons,
        List.getLast?_cons_cons, and_assoc]
      constructor
      · intro h
        obtain ⟨_, hall⟩ := h
        exact hall
      · intro hall
        exact ⟨(), hall⟩

/-- What is accepted of a chain and a head that verifies: a chain from genesis satisfies all
rules, any other all but the consistency of the head. -/
theorem verifyChainContinuity_iff (key : LedgerPubKey) (first : SignedCommitment)
    (rest : List SignedCommitment) (head : SignedCommitment) :
    (verifyChainContinuity (first :: rest) head key = .ok () ∧ head.verify key = .ok ())
      ↔ SuffixButHead key (first :: rest) head
        ∧ (first.commitment.prevCommitmentHash = Crypto.zero →
            head.commitment.height = head.commitment.entryCount) := by
  have hchecked : verifyChainContinuity (first :: rest) head key = .ok () ↔
      (∀ s ∈ first :: rest,
        s.verify key = .ok () ∧ s.commitment.height = s.commitment.entryCount)
      ∧ if first.commitment.prevCommitmentHash = Crypto.zero then
          ChainOf key (first :: rest ++ [head])
        else (first :: rest ++ [head]).IsChain Follows := by
    rw [verifyChainContinuity]
    by_cases hzero : first.commitment.prevCommitmentHash = Crypto.zero
    · simp only [bind_eq_ok, checkElements_eq_ok, if_pos hzero, mapError_eq_ok, verifyChain_eq_ok]
      constructor
      · intro h
        obtain ⟨_, hall⟩ := h
        exact hall
      · intro hall
        exact ⟨(), hall⟩
    · simp only [bind_eq_ok, checkElements_eq_ok, if_neg hzero, walkLinks_eq_ok, checkLink_eq_ok,
        List.isChain_append]
      constructor
      · intro h
        obtain ⟨-, hall, last, ⟨hchain, hlast⟩, hhead⟩ := h
        refine ⟨hall, hchain, .singleton head, ?_⟩
        intro a ha b hb
        obtain rfl : last = a := by simpa [hlast] using ha
        obtain rfl : head = b := by simpa using hb
        exact hhead
      · intro h
        obtain ⟨hall, hchain, -, hhead⟩ := h
        obtain ⟨last, hlast⟩ : ∃ last, (first :: rest).getLast? = some last :=
          ⟨_, List.getLast?_eq_some_getLast (List.cons_ne_nil first rest)⟩
        exact ⟨(), hall, last, ⟨hchain, hlast⟩, hhead last hlast head rfl⟩
  rw [hchecked]
  by_cases hzero : first.commitment.prevCommitmentHash = Crypto.zero
  · simp only [hzero, ↓reduceIte, forall_const, chainOf_iff_suffixOf, suffixOf_snoc_iff]
    constructor
    · intro h
      exact h.1.2.1
    · intro h
      exact ⟨⟨h.1.ancestors, h, by simpa using hzero⟩, h.1.verified⟩
  · simp only [hzero, ↓reduceIte, false_imp_iff, and_true]
    constructor
    · intro h
      exact ⟨h.1.1, h.2, h.1.2⟩
    · intro h
      exact ⟨⟨h.ancestors, h.follows⟩, h.verified⟩

/-! ## Where a suffix obeys the rules of a full chain -/

/-- A suffix is accepted exactly when it obeys the rules of a full chain, unless its head is
the only commitment whose height is not its entry count and the chain does not reach genesis.
A full chain stays accepted without its first commitments. An accepted suffix stays accepted
behind its ancestors, unless they reach genesis and its head is such a commitment. -/
theorem verifyChainContinuity_suffix (key : LedgerPubKey) (first : SignedCommitment)
    (rest : List SignedCommitment) (head : SignedCommitment) :
    (((verifyChainContinuity (first :: rest) head key = .ok () ∧ head.verify key = .ok ())
        ↔ SuffixOf key (first :: rest ++ [head]))
      ↔ (head.commitment.height = head.commitment.entryCount
        ∨ first.commitment.prevCommitmentHash = Crypto.zero
        ∨ ¬ SuffixButHead key (first :: rest) head))
    ∧ (∀ front, verifyChain (front ++ (first :: rest ++ [head])) key = .ok () →
        verifyChainContinuity (first :: rest) head key = .ok () ∧ head.verify key = .ok ())
    ∧ ∀ oldest ancestors, SuffixOf key (oldest :: ancestors ++ first :: rest) →
        verifyChainContinuity (first :: rest) head key = .ok () → head.verify key = .ok () →
        (verifyChainContinuity (oldest :: ancestors ++ first :: rest) head key = .ok ()
          ↔ head.commitment.height = head.commitment.entryCount
            ∨ oldest.commitment.prevCommitmentHash ≠ Crypto.zero) := by
  refine ⟨?_, ?_, ?_⟩
  · rw [verifyChainContinuity_iff, suffixOf_snoc_iff]
    tauto
  · intro front h
    rw [verifyChainContinuity_iff]
    have hsuffix := (chainOf_iff_suffixOf.mp (verifyChain_eq_ok.mp h)).1.of_append
    obtain ⟨hrules, hconsistent⟩ := suffixOf_snoc_iff.mp hsuffix
    exact ⟨hrules, fun _ => hconsistent⟩
  · intro oldest ancestors hancestors hok hhead
    have hrules := ((verifyChainContinuity_iff key first rest head).mp ⟨hok, hhead⟩).1
    have hlonger : SuffixButHead key (oldest :: (ancestors ++ first :: rest)) head := by
      obtain ⟨hall, hlinked⟩ := suffixOf_iff.mp hancestors
      refine ⟨hall, hhead, ?_⟩
      have hends := (List.isChain_append.mp hrules.follows).2.2
      refine List.isChain_append.mpr ⟨hlinked, .singleton head, ?_⟩
      intro a ha
      refine hends a ?_
      rwa [← List.cons_append, List.getLast?_append_of_ne_nil _ (List.cons_ne_nil _ _)] at ha
    have hiff := verifyChainContinuity_iff key oldest (ancestors ++ first :: rest) head
    rw [List.cons_append]
    tauto

end

section Concrete

open Concrete

def linkedCommitment (height entryCount : UInt64) (prev : Hash) : SignedCommitment :=
  let c : Commitment :=
    { ledgerId := (7 : ℕ), ledgerPubkey := (7 : ℕ), height, entryCount
      entryRoot := (0 : ℕ), stateRoot := (0 : ℕ), prevCommitmentHash := prev
      issuedAt := 1 }
  { commitment := c, signature := Crypto.sign (7 : ℕ) c.canonicalBytes }

def genesisCommitment : SignedCommitment := linkedCommitment 1 1 Crypto.zero

def middleCommitment : SignedCommitment :=
  linkedCommitment 2 2 (commitmentHash genesisCommitment.commitment)

/-- A head that claims height three over five entries. -/
def unevenHead : SignedCommitment :=
  linkedCommitment 3 5 (commitmentHash middleCommitment.commitment)

/-- The uneven head is accepted behind its predecessor and rejected once the genesis
commitment is put in front. -/
theorem verifyChainContinuity_uneven :
    verifyChainContinuity [middleCommitment] unevenHead (7 : ℕ) = .ok ()
    ∧ unevenHead.verify (7 : ℕ) = .ok ()
    ∧ ¬ SuffixOf (7 : ℕ) ([middleCommitment] ++ [unevenHead])
    ∧ verifyChain [genesisCommitment, middleCommitment] (7 : ℕ) = .ok ()
    ∧ verifyChainContinuity [genesisCommitment, middleCommitment] unevenHead (7 : ℕ)
        = .error .brokenChain := by
  refine ⟨by decide +kernel, by decide +kernel, ?_, by decide +kernel, by decide +kernel⟩
  intro h
  exact absurd (suffixOf_snoc_iff.mp h).2 (by decide)

end Concrete

end Cawala
