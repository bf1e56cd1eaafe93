import Cawala.Model.Concrete
import Cawala.Verification.CommitmentChain
import Cawala.Verification.Netting

/-! # Equivocation is reported, honesty is not

Two signed commitments of one height with different roots are a fork and an invalid chain
wherever they stand in the supplied list; a list that `verify_chain` accepts is neither. -/

namespace Cawala

open Std (ExtTreeMap ExtTreeSet)
open Library

section

variable [Crypto]
variable {registry : PeerRegistry} {key : LedgerPubKey} {node : NodeId}
variable {chain : List SignedCommitment} {height : UInt64}

/-! ## The groups of a chain -/

def SignedCommitment.headAt (registry : PeerRegistry) (key : LedgerPubKey) (height : UInt64)
    (s : SignedCommitment) : Bool :=
  (registry.verifyCommitment s).isOk && s.commitment.ledgerId == key
    && s.commitment.height == height

/-- The group of a height holds its heads, in the order of the list. -/
theorem chainGroups_getD :
    (chainGroups registry key chain).getD height []
      = (chain.filter (SignedCommitment.headAt registry key height)).map (·.commitment) := by
  induction chain using List.reverseRecOn with
  | nil => simp [chainGroups]
  | append_singleton chain s ih =>
      rw [List.filter_append, List.map_append, ← ih]
      simp only [chainGroups, List.foldl_append, List.foldl_cons, List.foldl_nil]
      cases hverify : registry.verifyCommitment s with
      | error e => simp [SignedCommitment.headAt, hverify, Except.isOk, Except.toBool]
      | ok peer =>
          simp only [List.filter_cons, List.filter_nil, SignedCommitment.headAt, hverify,
            Except.isOk, Except.toBool, Bool.true_and, Bool.and_eq_true, beq_iff_eq]
          by_cases hkey : s.commitment.ledgerId = key
          · rw [if_neg (not_not.mpr hkey), ExtTreeMap.getD_insert]
            by_cases hheight : s.commitment.height = height
            · simp [hkey, hheight]
            · simp [hheight]
          · simp [hkey]

theorem mem_chainGroups {group : List Commitment}
    (h : (height, group) ∈ (chainGroups registry key chain).toList) :
    group = (chain.filter (SignedCommitment.headAt registry key height)).map (·.commitment) := by
  rw [ExtTreeMap.mem_toList_iff_getElem?_eq_some] at h
  rw [← chainGroups_getD, ExtTreeMap.getD_eq_getD_getElem?, h]
  rfl

theorem exists_mem_chainGroups {s : SignedCommitment} (hs : s ∈ chain)
    (hhead : s.headAt registry key height) :
    (height, (chain.filter (SignedCommitment.headAt registry key height)).map (·.commitment))
      ∈ (chainGroups registry key chain).toList := by
  rw [ExtTreeMap.mem_toList_iff_getElem?_eq_some]
  have hgroup : (chainGroups registry key chain).getD height [] = _ := chainGroups_getD
  rw [ExtTreeMap.getD_eq_getD_getElem?] at hgroup
  cases hget : (chainGroups registry key chain)[height]? with
  | some group =>
      rw [hget] at hgroup
      exact congrArg some hgroup
  | none =>
      rw [hget] at hgroup
      have hmem := List.mem_map_of_mem (f := (·.commitment)) (List.mem_filter.mpr ⟨hs, hhead⟩)
      rw [← hgroup] at hmem
      cases hmem

theorem verifyCommitment_isOk (hkey : registry.ledgerOf node = some key) {s : SignedCommitment}
    (hs : s.verify key = .ok ()) : (registry.verifyCommitment s).isOk = true := by
  have hpubkey : s.commitment.ledgerPubkey = key := by
    simp only [SignedCommitment.verify, ite_error_eq_ok, not_or, not_not] at hs
    exact hs.1.2
  obtain ⟨row, hrow, hledger⟩ := PeerRegistry.ledgerOf_eq_some.mp hkey
  cases hfind : registry.peerByLedger key with
  | none =>
      have hno := List.find?_eq_none.mp hfind row (PeerRegistry.mem_rows_iff.mpr ⟨_, hrow⟩)
      simp [hledger] at hno
  | some peer =>
      have hpeer : peer.ledger = some key := by simpa using List.find?_some hfind
      simp [PeerRegistry.verifyCommitment, hpubkey, hfind, hpeer, hs, Except.isOk, Except.toBool]

theorem headAt_of_verify (hkey : registry.ledgerOf node = some key) {s : SignedCommitment}
    (hs : s.verify key = .ok ()) : s.headAt registry key s.commitment.height = true := by
  have hids := hs
  simp only [SignedCommitment.verify, ite_error_eq_ok, not_or, not_not] at hids
  simp [SignedCommitment.headAt, verifyCommitment_isOk hkey hs, hids.1.1, hids.1.2]

/-! ## One chain -/

/-- Two commitments that a key signed for one height with different roots. -/
structure Equivocal (key : LedgerPubKey) (a b : SignedCommitment) : Prop where
  left : a.verify key = .ok ()
  right : b.verify key = .ok ()
  height : a.commitment.height = b.commitment.height
  roots : (a.commitment.entryRoot, a.commitment.stateRoot)
    ≠ (b.commitment.entryRoot, b.commitment.stateRoot)

theorem fork_mem_auditChain (hkey : registry.ledgerOf node = some key) {a b : SignedCommitment}
    (ha : a ∈ chain) (hb : b ∈ chain) (h : Equivocal key a b) :
    ∃ heads, .fork key a.commitment.height heads ∈ auditChain registry node chain
      ∧ commitmentHash a.commitment ∈ heads ∧ commitmentHash b.commitment ∈ heads := by
  let group := (chain.filter (SignedCommitment.headAt registry key a.commitment.height)).map
    (·.commitment)
  have hheadA := headAt_of_verify hkey h.left
  have hheadB : b.headAt registry key a.commitment.height = true :=
    h.height ▸ headAt_of_verify hkey h.right
  have hmemA : a.commitment ∈ group := List.mem_map_of_mem (List.mem_filter.mpr ⟨ha, hheadA⟩)
  have hmemB : b.commitment ∈ group := List.mem_map_of_mem (List.mem_filter.mpr ⟨hb, hheadB⟩)
  have hroots : 1 < (group.map fun c => (c.entryRoot, c.stateRoot)).dedup.length := by
    rw [← List.card_toFinset, Finset.one_lt_card]
    exact ⟨_, List.mem_toFinset.mpr (List.mem_map_of_mem hmemA), _,
      List.mem_toFinset.mpr (List.mem_map_of_mem hmemB), h.roots⟩
  refine ⟨(ExtTreeSet.ofList (group.map commitmentHash) compare).toList, ?_, ?_, ?_⟩
  · rw [auditChain, hkey]
    refine List.mem_append_right _ (List.mem_flatMap.mpr ⟨_, exists_mem_chainGroups ha hheadA, ?_⟩)
    simp only
    rw [if_pos hroots]
    exact List.mem_singleton_self _
  · exact ExtTreeSet.mem_toList.mpr
      (ExtTreeSet.mem_ofList.mpr (List.contains_iff_mem.mpr (List.mem_map_of_mem hmemA)))
  · exact ExtTreeSet.mem_toList.mpr
      (ExtTreeSet.mem_ofList.mpr (List.contains_iff_mem.mpr (List.mem_map_of_mem hmemB)))

/-- Heights that rise differ, so a chain that equivocates is not accepted. -/
theorem chainInvalid_mem_auditChain (hkey : registry.ledgerOf node = some key)
    {a b : SignedCommitment} (ha : a ∈ chain) (hb : b ∈ chain) (h : Equivocal key a b) :
    ∃ reason, .chainInvalid node reason ∈ auditChain registry node chain := by
  have hne : a ≠ b := fun heq => h.roots (by rw [heq])
  cases hverify : verifyChain chain key with
  | ok u =>
      have hrising := (verifyChain_eq_ok.mp hverify).rising
      have hdiffer : chain.Pairwise fun a b => a.commitment.height ≠ b.commitment.height :=
        hrising.imp UInt64.ne_of_lt
      have hsymm : Std.Symm fun a b : SignedCommitment =>
          a.commitment.height ≠ b.commitment.height := ⟨fun _ _ h => h.symm⟩
      exact absurd h.height (hdiffer.forall ha hb hne)
  | error e =>
      refine ⟨e.message, ?_⟩
      rw [auditChain, hkey]
      simp [hverify]

theorem length_heads_le (hrising : chain.Pairwise fun a b =>
    a.commitment.height < b.commitment.height) :
    (chain.filter (SignedCommitment.headAt registry key height)).length ≤ 1 := by
  have hfiltered := hrising.filter (SignedCommitment.headAt registry key height)
  match hlist : chain.filter (SignedCommitment.headAt registry key height) with
  | [] => simp
  | [s] => simp
  | a :: b :: rest =>
      have hmem : ∀ s ∈ a :: b :: rest, s.commitment.height = height := by
        intro s hs
        rw [← hlist] at hs
        have hhead := (List.mem_filter.mp hs).2
        simp only [SignedCommitment.headAt, Bool.and_eq_true, beq_iff_eq] at hhead
        exact hhead.2
      rw [hlist] at hfiltered
      have hlt := List.rel_of_pairwise_cons hfiltered (List.mem_cons_self (a := b))
      rw [hmem a (by simp), hmem b (by simp)] at hlt
      exact absurd hlt (UInt64.lt_irrefl _)

/-- An accepted chain is audited without a finding. -/
theorem auditChain_eq_nil (hkey : registry.ledgerOf node = some key)
    (hverify : verifyChain chain key = .ok ()) : auditChain registry node chain = [] := by
  rw [auditChain, hkey]
  simp only [hverify, List.nil_append, List.flatMap_eq_nil_iff]
  rintro ⟨height, group⟩ hgroup
  have hlen : ((group.map fun c => (c.entryRoot, c.stateRoot)).dedup).length ≤ 1 := by
    refine (List.dedup_sublist _).length_le.trans ?_
    rw [List.length_map, mem_chainGroups hgroup, List.length_map]
    exact length_heads_le (verifyChain_eq_ok.mp hverify).rising
  exact if_neg (Nat.not_lt.mpr hlen)

theorem ledgerOf_of_fork_mem {heads : List Hash}
    (h : .fork key height heads ∈ auditChain registry node chain) :
    registry.ledgerOf node = some key := by
  unfold auditChain at h
  split at h
  · cases h
  · rename_i expected hexpected
    rcases List.mem_append.mp h with h | h
    · split at h
      · cases h
      · cases List.mem_singleton.mp h
    · obtain ⟨⟨height', group⟩, -, h⟩ := List.mem_flatMap.mp h
      simp only at h
      split at h
      · cases List.mem_singleton.mp h
        exact hexpected
      · cases h

theorem node_of_chainInvalid_mem {node' : NodeId} {reason : String}
    (h : .chainInvalid node reason ∈ auditChain registry node' chain) : node' = node := by
  unfold auditChain at h
  split at h
  · cases h
  · rcases List.mem_append.mp h with h | h
    · split at h
      · cases h
      · cases List.mem_singleton.mp h
        rfl
    · obtain ⟨⟨height', group⟩, -, h⟩ := List.mem_flatMap.mp h
      simp only at h
      split at h
      · cases List.mem_singleton.mp h
      · cases h

/-! ## The whole pass -/

variable [Postcard] {components : List NetComponent} {ledgers : LedgerSet}
variable {orders : List PaymentOrder} {commitments : ExtTreeMap NodeId (List SignedCommitment)}

omit [Postcard] in
theorem step_auditComponent {index : ℕ} {component : NetComponent} {f : Finding}
    (h : f ∈ auditComponent ledgers index component) : f.step ≠ .chains := by
  rcases List.mem_append.mp h with h | h
  · rw [step_auditMirrors h]
    exact AuditStep.noConfusion
  · split at h
    · rw [List.mem_singleton.mp h]
      exact AuditStep.noConfusion
    · cases h

theorem mem_netPartition_iff {f : Finding} (hstep : f.step = .chains) :
    f ∈ (netPartition components ledgers registry orders commitments).findings
      ↔ ∃ node chain, commitments[node]? = some chain ∧ f ∈ auditChain registry node chain := by
  have hoverdraw : f ∉ auditOverdraw ledgers := by
    intro h
    rw [step_auditOverdraw h] at hstep
    cases hstep
  have hroutes : f ∉ auditRoutesPartition orders components ledgers registry := by
    intro h
    obtain ⟨order, -, h⟩ := List.mem_flatMap.mp h
    rw [step_auditRoute h] at hstep
    cases hstep
  have hcomponents : ∀ component index, f ∉ auditComponent ledgers index component :=
    fun component index h => step_auditComponent h hstep
  simp only [netPartition]
  split
  · simp only [List.mem_append, List.mem_flatMap, Prod.exists, hoverdraw, or_false,
      ExtTreeMap.mem_toList_iff_getElem?_eq_some]
  · simp only [List.mem_append, List.mem_flatMap, Prod.exists, hoverdraw, hroutes, hcomponents,
      and_false, exists_false, or_false, ExtTreeMap.mem_toList_iff_getElem?_eq_some]

/-- Over any registry and any other commitments, in any order: two signed commitments of one
height with different roots are reported as a fork of that height and as an invalid chain, and a
list that `verify_chain` accepts is reported as neither. -/
theorem equivocation_reported {t : Topology} (hchain : commitments[node]? = some chain) :
    (∀ key, registry.ledgerOf node = some key → ∀ a ∈ chain, ∀ b ∈ chain, Equivocal key a b →
      (∃ heads, .fork key a.commitment.height heads
          ∈ (net t ledgers registry orders commitments).findings
        ∧ commitmentHash a.commitment ∈ heads ∧ commitmentHash b.commitment ∈ heads)
      ∧ ∃ reason, .chainInvalid node reason
          ∈ (net t ledgers registry orders commitments).findings)
    ∧ (registry.Built →
      (∀ key, registry.ledgerOf node = some key → verifyChain chain key = .ok ()) →
      (∀ key, registry.ledgerOf node = some key → ∀ height heads, .fork key height heads
          ∉ (net t ledgers registry orders commitments).findings)
      ∧ ∀ reason, .chainInvalid node reason
          ∉ (net t ledgers registry orders commitments).findings) := by
  constructor
  · intro key hkey a ha b hb h
    obtain ⟨heads, hfork, hheads⟩ := fork_mem_auditChain hkey ha hb h
    obtain ⟨reason, hinvalid⟩ := chainInvalid_mem_auditChain hkey ha hb h
    exact ⟨⟨heads, (mem_netPartition_iff rfl).mpr ⟨node, chain, hchain, hfork⟩, hheads⟩, reason,
      (mem_netPartition_iff rfl).mpr ⟨node, chain, hchain, hinvalid⟩⟩
  · intro hbuilt hverify
    -- A finding of this node's own list would stand in an empty audit.
    have hclean : ∀ {f : Finding} {key}, registry.ledgerOf node = some key →
        ∀ {chain'}, commitments[node]? = some chain' → f ∉ auditChain registry node chain' := by
      intro f key hkey chain' hchain' h
      obtain rfl : chain = chain' := Option.some.inj (hchain.symm.trans hchain')
      rw [auditChain_eq_nil hkey (hverify key hkey)] at h
      cases h
    constructor
    · intro key hkey height heads h
      obtain ⟨node', chain', hchain', hmem⟩ := (mem_netPartition_iff rfl).mp h
      obtain rfl := PeerRegistry.ledgerOf_injective (PeerRegistry.registered_of_built hbuilt) hkey
        (ledgerOf_of_fork_mem hmem)
      exact hclean hkey hchain' hmem
    · intro reason h
      obtain ⟨node', chain', hchain', hmem⟩ := (mem_netPartition_iff rfl).mp h
      obtain rfl := node_of_chainInvalid_mem hmem
      cases hkey : registry.ledgerOf node' with
      | none =>
          rw [auditChain, hkey] at hmem
          cases hmem
      | some key => exact hclean hkey hchain' hmem

end

section

open Concrete

/-- A second commitment for the height of `emptySigned`. -/
def rivalCommitment : Commitment := { emptyCommitment with entryRoot := Crypto.zero }

def rivalSigned : SignedCommitment where
  commitment := rivalCommitment
  signature := Crypto.sign (7 : ℕ) rivalCommitment.canonicalBytes

def loneRow : PeerKeys where
  nodeId := "n"
  role := .node
  operator := (1 : ℕ)
  ledger := some (7 : ℕ)

def loneRegistry : PeerRegistry where
  peers := (∅ : ExtTreeMap NodeId PeerKeys).insert "n" loneRow

theorem loneRegistry_built : loneRegistry.Built := by
  have h : PeerRegistry.new.insert loneRow = .ok loneRegistry := rfl
  exact .insert .new h

theorem equivocation_reported_lone :
    (∃ heads, .fork (7 : ℕ) 0 heads
        ∈ (net ⟨∅, "n"⟩ LedgerSet.new loneRegistry []
          ((∅ : ExtTreeMap NodeId (List SignedCommitment)).insert "n"
            [rivalSigned, emptySigned])).findings)
      ∧ ∀ reason, .chainInvalid "n" reason
        ∉ (net ⟨∅, "n"⟩ LedgerSet.new loneRegistry []
          ((∅ : ExtTreeMap NodeId (List SignedCommitment)).insert "n" [emptySigned])).findings := by
  have hkey : loneRegistry.ledgerOf "n" = some (7 : ℕ) := rfl
  have hverify : verifyChain [emptySigned] (7 : ℕ) = .ok () := by decide +kernel
  have hequivocal : Equivocal (7 : ℕ) rivalSigned emptySigned :=
    ⟨by decide +kernel, by decide +kernel, rfl, by decide +kernel⟩
  constructor
  · obtain ⟨⟨heads, hfork, -⟩, -⟩ := (equivocation_reported ExtTreeMap.getElem?_insert_self).1
      (7 : ℕ) hkey rivalSigned List.mem_cons_self emptySigned
      (List.mem_cons_of_mem _ (List.mem_singleton_self _)) hequivocal
    exact ⟨heads, hfork⟩
  · refine ((equivocation_reported ExtTreeMap.getElem?_insert_self).2 loneRegistry_built ?_).2
    intro key hkey'
    obtain rfl : (7 : ℕ) = key := Option.some.inj (hkey.symm.trans hkey')
    exact hverify

end

end Cawala
