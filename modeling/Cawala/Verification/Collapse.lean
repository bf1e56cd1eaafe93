import Cawala.Library.Tally
import Cawala.Verification.Audit

/-! # The collapse of opposing flows

The flows between two children are summed exactly: no ledger in memory is long enough to reach
the bound of the sums. So each pair of children keeps one net transfer, of the net amount up to
the largest one an `Amount` can hold. -/

namespace Cawala

open Std (ExtTreeMap)
open Library

section

variable [Crypto]

/-! ## What the transfers of a ledger move -/

def SignedEntry.lateral (s : SignedEntry) : Option Amount :=
  match s.entry.body with
  | .transfer _ amount role => if role = .lca ∨ role = .direct then some amount else none
  | _ => none

def SignedEntry.movedBetween (s : SignedEntry) (a b : NodeId) : ℤ :=
  match s.lateral with
  | some amount =>
      if postedDelta s.entry.postings (.child a) = -(amount.toNat : ℤ)
        ∧ postedDelta s.entry.postings (.child b) = amount.toNat then amount.toNat else 0
  | none => 0

/-- What the transfers of a ledger move from one child to another, less what they move back. -/
def netFlow (entries : List SignedEntry) (a b : NodeId) : ℤ :=
  (entries.map fun s => s.movedBetween a b).sum - (entries.map fun s => s.movedBetween b a).sum

/-- What the transfers between children do to the position of one child. -/
def transferred (entries : List SignedEntry) (c : NodeId) : ℤ :=
  (entries.map fun s => if s.lateral.isSome then postedDelta s.entry.postings (.child c)
    else 0).sum

/-! ## What net transfers do -/

def NetTransfer.Joins (n : NetTransfer) (a b : NodeId) : Prop :=
  (n.from_ = a ∧ n.to_ = b) ∨ (n.from_ = b ∧ n.to_ = a)

instance (n : NetTransfer) (a b : NodeId) : Decidable (n.Joins a b) :=
  inferInstanceAs (Decidable ((n.from_ = a ∧ n.to_ = b) ∨ (n.from_ = b ∧ n.to_ = a)))

def NetTransfer.change (n : NetTransfer) (c : NodeId) : ℤ :=
  (if n.to_ = c then (n.amount.toNat : ℤ) else 0) - if n.from_ = c then (n.amount.toNat : ℤ) else 0

/-- The transfers that a net flow from `a` to `b` collapses to: none if it is zero, else one. -/
def CollapsesTo (parent a b : NodeId) (net : ℤ) (nets : List NetTransfer) : Prop :=
  if net = 0 then nets = []
  else ∃ amount : Amount, (amount.toNat : ℤ) = min |net| (2 ^ 64 - 1)
    ∧ nets = [if 0 < net then { parent, from_ := a, to_ := b, amount }
        else { parent, from_ := b, to_ := a, amount }]

/-! ## The flow of an entry -/

/-- An entry as a signed amount under its pair of children. -/
def flowOf (s : SignedEntry) : Option ((NodeId ×ₗ NodeId) × ℤ) :=
  (entryFlow s).map fun flow => (toLex (flow.1, flow.2.1), flow.2.2)

/-- What the flow of an entry says about it. -/
structure FlowSpec (s : SignedEntry) (a b : NodeId) (amount : Amount) : Prop where
  lateral : s.lateral = some amount
  flow : entryFlow s = some (a, b, (amount.toNat : ℤ))
  distinct : a ≠ b
  positive : 0 < amount.toNat
  moves : ∀ c, postedDelta s.entry.postings (.child c)
    = (amount.toNat : ℤ) * ((if b = c then 1 else 0) - if a = c then 1 else 0)

theorem flowSpec_of_transfer {s : SignedEntry} (hcons : s.entry.checkConservation = .ok ())
    {amount : Amount} (hlateral : s.lateral = some amount) :
    ∃ a b, FlowSpec s a b amount := by
  unfold SignedEntry.lateral at hlateral
  cases hbody : s.entry.body with
  | transfer paymentId amount' role =>
      simp only [hbody] at hlateral
      split_ifs at hlateral with hrole
      obtain rfl := Option.some.inj hlateral
      obtain ⟨first, second, haccounts, hnames, hne, hpos, hmoves⟩ :=
        entryHopAccounts_spec hcons hbody
      obtain ⟨deltas, hagg, -⟩ := checkConservation_spec hcons
      have hchildren : (∃ a, first = .child a) ∧ (∃ b, second = .child b)
          ∧ role.signs = (-1, 1) := by
        rcases hrole with rfl | rfl
        · exact ⟨hnames.1, hnames.2, rfl⟩
        · exact ⟨hnames.1, hnames.2, rfl⟩
      obtain ⟨⟨a, rfl⟩, ⟨b, rfl⟩, hsigns⟩ := hchildren
      have hdistinct : a ≠ b := fun h => hne (h ▸ rfl)
      have hdelta : deltas.getD (.child a) 0 = -(amount'.toNat : ℤ) := by
        rw [(aggregateDeltas_spec hagg).getD, hmoves, roleMove, hsigns]
        simp [hdistinct.symm]
      have habs : saturatingAbsI128 (-(amount'.toNat : ℤ)) = amount'.toNat := by
        have hlt := amount'.toNat_lt
        rw [saturatingAbsI128, abs_neg, abs_of_nonneg (Int.natCast_nonneg _), i128Max]
        apply min_eq_right
        omega
      refine ⟨a, b, ⟨by rw [SignedEntry.lateral, hbody]; simp only [if_pos hrole], ?_, hdistinct,
        by omega, ?_⟩⟩
      · simp only [entryFlow, hbody, if_pos hrole, haccounts, hagg, hdelta, habs]
        rw [if_neg (by omega)]
      · intro c
        rw [hmoves, roleMove, hsigns]
        by_cases ha : a = c
        · subst ha
          simp [hdistinct.symm]
        · by_cases hb : b = c
          · subst hb
            simp [ha]
          · simp [ha, hb]
  | _ => simp [hbody] at hlateral

theorem entryFlow_eq_none {s : SignedEntry} (h : s.lateral = none) : entryFlow s = none := by
  unfold SignedEntry.lateral at h
  unfold entryFlow
  cases hbody : s.entry.body with
  | transfer paymentId amount role =>
      simp only [hbody] at h ⊢
      by_cases hrole : role = .lca ∨ role = .direct
      · rw [if_pos hrole] at h
        cases h
      · rw [if_neg hrole]
  | _ => rfl

theorem FlowSpec.movedBetween {s : SignedEntry} {a b : NodeId} {amount : Amount}
    (h : FlowSpec s a b amount) (a' b' : NodeId) :
    s.movedBetween a' b' = if toLex (a, b) = toLex (a', b') then (amount.toNat : ℤ) else 0 := by
  have hpos := h.positive
  have hdebited : postedDelta s.entry.postings (.child a') = -(amount.toNat : ℤ) ↔ a = a' := by
    rw [h.moves]
    by_cases ha : a = a'
    · subst ha
      simp [h.distinct.symm]
    · by_cases hb : b = a' <;> simp [ha, hb] <;> omega
  have hcredited : postedDelta s.entry.postings (.child b') = amount.toNat ↔ b = b' := by
    rw [h.moves]
    by_cases hb : b = b'
    · subst hb
      simp [h.distinct]
    · by_cases ha : a = b' <;> simp [ha, hb] <;> omega
  rw [SignedEntry.movedBetween, h.lateral]
  simp only [hdebited, hcredited, EmbeddingLike.apply_eq_iff_eq, Prod.mk.injEq]

/-- The flows of a ledger, as signed amounts under pairs of children. -/
def flows (entries : List SignedEntry) : List ((NodeId ×ₗ NodeId) × ℤ) := entries.filterMap flowOf

variable {entries : List SignedEntry}

theorem flowOf_eq_some (hcons : ∀ s ∈ entries, s.entry.checkConservation = .ok ())
    {e : (NodeId ×ₗ NodeId) × ℤ} (he : e ∈ flows entries) :
    ∃ s ∈ entries, ∃ a b amount, FlowSpec s a b amount
      ∧ e = (toLex (a, b), (amount.toNat : ℤ)) := by
  obtain ⟨s, hs, hflow⟩ := List.mem_filterMap.mp he
  cases hlateral : s.lateral with
  | none =>
      rw [flowOf, entryFlow_eq_none hlateral] at hflow
      cases hflow
  | some amount =>
      obtain ⟨a, b, hspec⟩ := flowSpec_of_transfer (hcons s hs) hlateral
      rw [flowOf, hspec.flow] at hflow
      exact ⟨s, hs, a, b, amount, hspec, (Option.some.inj hflow).symm⟩

theorem sum_map_flows (hcons : ∀ s ∈ entries, s.entry.checkConservation = .ok ())
    {f : SignedEntry → ℤ} {g : (NodeId ×ₗ NodeId) × ℤ → ℤ}
    (hnone : ∀ s ∈ entries, s.lateral = none → f s = 0)
    (hsome : ∀ s a b amount, FlowSpec s a b amount →
      f s = g (toLex (a, b), (amount.toNat : ℤ))) :
    (entries.map f).sum = ((flows entries).map g).sum := by
  induction entries with
  | nil => rfl
  | cons s entries ih =>
      have htail := ih (fun s' hs' => hcons s' (List.mem_cons_of_mem s hs'))
        (fun s' hs' => hnone s' (List.mem_cons_of_mem s hs'))
      rw [List.map_cons, List.sum_cons, htail]
      cases hlateral : s.lateral with
      | none =>
          have hflow : flowOf s = none := by rw [flowOf, entryFlow_eq_none hlateral]; rfl
          rw [hnone s List.mem_cons_self hlateral, flows, flows, List.filterMap_cons_none hflow,
            zero_add]
      | some amount =>
          obtain ⟨a, b, hspec⟩ := flowSpec_of_transfer (hcons s List.mem_cons_self) hlateral
          have hflow : flowOf s = some (toLex (a, b), (amount.toNat : ℤ)) := by
            rw [flowOf, hspec.flow]
            rfl
          rw [hsome s a b amount hspec, flows, flows, List.filterMap_cons_some hflow, List.map_cons,
            List.sum_cons]

theorem sum_movedBetween (hcons : ∀ s ∈ entries, s.entry.checkConservation = .ok ())
    (a b : NodeId) :
    (entries.map fun s => s.movedBetween a b).sum = sumAt (flows entries) (toLex (a, b)) := by
  rw [sumAt]
  apply sum_map_flows hcons
  · intro s _ hlateral
    rw [SignedEntry.movedBetween, hlateral]
  · intro s a' b' amount hspec
    exact hspec.movedBetween a b

def flowWeight (c : NodeId) (key : NodeId ×ₗ NodeId) : ℤ :=
  (if (ofLex key).2 = c then 1 else 0) - if (ofLex key).1 = c then 1 else 0

theorem transferred_eq (hcons : ∀ s ∈ entries, s.entry.checkConservation = .ok ()) (c : NodeId) :
    transferred entries c = ((flows entries).map fun e => e.2 * flowWeight c e.1).sum := by
  rw [transferred]
  apply sum_map_flows hcons
  · intro s _ hlateral
    simp [hlateral]
  · intro s a b amount hspec
    rw [hspec.lateral, hspec.moves]
    rfl

/-! ## The sums of the collapse -/

omit [Crypto] in
theorem saturatingAddI128_eq (x y : ℤ) (h : |x| + |y| ≤ i128Max) :
    saturatingAddI128 x y = x + y := by
  have hx := abs_le.mp (le_refl |x|)
  have hy := abs_le.mp (le_refl |y|)
  rw [i128Max] at h
  rw [saturatingAddI128, i128Min, i128Max, min_eq_right (by omega), max_eq_right (by omega)]

theorem grossFlows_eq_tallyFrom :
    grossFlows entries = tallyFrom saturatingAddI128 ∅ (flows entries) := by
  rw [grossFlows, tallyFrom, flows, List.foldl_filterMap]
  congr 1
  funext gross s
  rw [flowOf]
  cases entryFlow s <;> rfl

/-- The gross flow of each pair, from the smaller id. -/
def signedFlow (e : (NodeId ×ₗ NodeId) × ℤ) : (NodeId ×ₗ NodeId) × ℤ :=
  if (ofLex e.1).1 ≤ (ofLex e.1).2 then e
  else (toLex ((ofLex e.1).2, (ofLex e.1).1), -e.2)

omit [Crypto] in
theorem netPairs_eq_tallyFrom (gross : ExtTreeMap (NodeId ×ₗ NodeId) ℤ) :
    netPairs gross = tallyFrom saturatingAddI128 ∅ (gross.toList.map signedFlow) := by
  rw [netPairs, tallyFrom, List.foldl_map]
  congr 1
  funext pairs e
  obtain ⟨flow, amount⟩ := e
  simp only [signedFlow]
  by_cases hle : (ofLex flow).1 ≤ (ofLex flow).2
  · simp only [if_pos hle]
    rfl
  · have hne : (ofLex flow).1 ≠ (ofLex flow).2 := fun h => hle h.le
    simp only [if_neg hle, if_neg hne]

/-- A ledger whose entries fit in memory, with the 64 bytes of a signature for each. -/
def InMemory (entries : List SignedEntry) : Prop := entries.length * 64 < 2 ^ 63

theorem sum_abs_flows (hcons : ∀ s ∈ entries, s.entry.checkConservation = .ok ())
    (hlen : InMemory entries) : ((flows entries).map fun e => |e.2|).sum ≤ 2 ^ 121 := by
  have hamount : ∀ x ∈ (flows entries).map (fun e => |e.2|), x ≤ 2 ^ 64 := by
    intro x hx
    obtain ⟨e, he, rfl⟩ := List.mem_map.mp hx
    obtain ⟨s, -, a, b, amount, -, rfl⟩ := flowOf_eq_some hcons he
    have hlt := amount.toNat_lt
    rw [abs_of_nonneg (Int.natCast_nonneg _)]
    omega
  have hsum := List.sum_le_card_nsmul _ _ hamount
  have hcount : (flows entries).length ≤ entries.length := List.length_filterMap_le _ _
  rw [List.length_map, nsmul_eq_mul] at hsum
  rw [InMemory] at hlen
  have hfew : ((flows entries).length : ℤ) ≤ 2 ^ 57 := by omega
  refine hsum.trans ?_
  calc ((flows entries).length : ℤ) * 2 ^ 64 ≤ 2 ^ 57 * 2 ^ 64 := by gcongr
    _ = 2 ^ 121 := by norm_num

theorem grossFlows_eq (hcons : ∀ s ∈ entries, s.entry.checkConservation = .ok ())
    (hlen : InMemory entries) : grossFlows entries = tally (flows entries) := by
  rw [grossFlows_eq_tallyFrom]
  apply tally_eq_of_bounded saturatingAddI128_eq
  exact (sum_abs_flows hcons hlen).trans (by norm_num [i128Max])

theorem gross_nonneg (hcons : ∀ s ∈ entries, s.entry.checkConservation = .ok ())
    {e : (NodeId ×ₗ NodeId) × ℤ} (he : e ∈ (tally (flows entries)).toList) : 0 ≤ e.2 := by
  rw [← (mem_of_mem_toList he).2, getD_tally]
  apply sumAt_nonneg
  intro e' he'
  obtain ⟨s, -, a, b, amount, -, rfl⟩ := flowOf_eq_some hcons he'
  exact Int.natCast_nonneg _

omit [Crypto] in
theorem abs_signedFlow (e : (NodeId ×ₗ NodeId) × ℤ) : |(signedFlow e).2| = |e.2| := by
  rw [signedFlow]
  split_ifs
  · rfl
  · exact abs_neg e.2

omit [Crypto] in
/-- Turning a flow around leaves what it does to positions. -/
theorem signedFlow_weight (c : NodeId) (e : (NodeId ×ₗ NodeId) × ℤ) :
    (signedFlow e).2 * flowWeight c (signedFlow e).1 = e.2 * flowWeight c e.1 := by
  rw [signedFlow]
  split_ifs
  · rfl
  · by_cases hx : (ofLex e.1).1 = c <;> by_cases hy : (ofLex e.1).2 = c <;>
      simp [flowWeight, hx, hy]

omit [Crypto] in
/-- The flows of a pair, from its smaller id: those one way less those the other way. -/
theorem sumAt_signedFlow {a b : NodeId} (hab : a < b) (l : List ((NodeId ×ₗ NodeId) × ℤ)) :
    sumAt (l.map signedFlow) (toLex (a, b)) + sumAt l (toLex (b, a)) = sumAt l (toLex (a, b)) := by
  rw [sumAt, sumAt, sumAt, List.map_map, ← List.sum_map_add]
  congr 1
  apply List.map_congr_left
  intro e _
  obtain ⟨key, v⟩ := e
  have hswap : toLex ((ofLex key).2, (ofLex key).1) = toLex (a, b) ↔ key = toLex (b, a) := by
    rw [EmbeddingLike.apply_eq_iff_eq, Prod.mk.injEq, ← ofLex_inj, ofLex_toLex, Prod.ext_iff]
    exact and_comm
  by_cases hle : (ofLex key).1 ≤ (ofLex key).2
  · have hne : key ≠ toLex (b, a) := by
      intro heq
      rw [heq] at hle
      exact absurd hle (not_le.mpr hab)
    simp [signedFlow, hle, hne]
  · have hne : key ≠ toLex (a, b) := by
      intro heq
      rw [heq] at hle
      exact hle hab.le
    by_cases hrev : key = toLex (b, a)
    · subst hrev
      simp [signedFlow, not_le.mpr hab, hab.ne]
    · simp [signedFlow, hle, hne, hswap, hrev]

theorem sum_abs_gross (hcons : ∀ s ∈ entries, s.entry.checkConservation = .ok ())
    (hlen : InMemory entries) :
    (((tally (flows entries)).toList.map signedFlow).map fun e => |e.2|).sum ≤ 2 ^ 121 := by
  have hsame : ((tally (flows entries)).toList.map signedFlow).map (fun e => |e.2|)
      = (tally (flows entries)).toList.map fun e => e.2 * 1 := by
    rw [List.map_map]
    apply List.map_congr_left
    intro e he
    rw [Function.comp_apply, abs_signedFlow, abs_of_nonneg (gross_nonneg hcons he), mul_one]
  have htotal := total_tally (fun _ => 1) (flows entries)
  rw [total] at htotal
  rw [hsame, htotal]
  refine le_trans (List.sum_le_sum ?_) (sum_abs_flows hcons hlen)
  intro e _
  rw [mul_one]
  exact le_abs_self e.2

theorem netPairs_eq (hcons : ∀ s ∈ entries, s.entry.checkConservation = .ok ())
    (hlen : InMemory entries) :
    netPairs (grossFlows entries) = tally ((tally (flows entries)).toList.map signedFlow) := by
  rw [grossFlows_eq hcons hlen, netPairs_eq_tallyFrom]
  apply tally_eq_of_bounded saturatingAddI128_eq
  exact (sum_abs_gross hcons hlen).trans (by norm_num [i128Max])

theorem getD_netPairs (hcons : ∀ s ∈ entries, s.entry.checkConservation = .ok ())
    (hlen : InMemory entries) {a b : NodeId} (hab : a < b) :
    (netPairs (grossFlows entries)).getD (toLex (a, b)) 0 = netFlow entries a b := by
  have hsplit := sumAt_signedFlow hab (tally (flows entries)).toList
  have hgross : ∀ k, sumAt (tally (flows entries)).toList k = sumAt (flows entries) k := by
    intro k
    rw [sumAt_toList, getD_tally]
  rw [netPairs_eq hcons hlen, getD_tally, netFlow, sum_movedBetween hcons, sum_movedBetween hcons,
    ← hgross, ← hgross]
  omega

theorem lt_of_mem_netPairs (hcons : ∀ s ∈ entries, s.entry.checkConservation = .ok ())
    (hlen : InMemory entries) {e : (NodeId ×ₗ NodeId) × ℤ}
    (he : e ∈ (netPairs (grossFlows entries)).toList) : (ofLex e.1).1 < (ofLex e.1).2 := by
  have hmem := (mem_of_mem_toList he).1
  rw [netPairs_eq hcons hlen, mem_tally, List.map_map] at hmem
  obtain ⟨g, hg, hkey⟩ := List.mem_map.mp hmem
  obtain ⟨flow, hflow, hfst⟩ := List.mem_map.mp (mem_tally.mp (mem_of_mem_toList hg).1)
  obtain ⟨s, -, a, b, amount, hspec, rfl⟩ := flowOf_eq_some hcons hflow
  rw [← hkey, Function.comp_apply, signedFlow, ← hfst]
  split_ifs with hle
  · rw [← hfst]
    exact lt_of_le_of_ne hle hspec.distinct
  · exact lt_of_not_ge hle

/-! ## The net transfers -/

/-- The net transfer of a pair of children of one parent. -/
def netTransfer (parent : NodeId) (e : (NodeId ×ₗ NodeId) × ℤ) : Option NetTransfer :=
  if e.2 = 0 then none
  else if e.2 > 0 then
    some { parent, from_ := (ofLex e.1).1, to_ := (ofLex e.1).2, amount := clampAmount e.2 }
  else
    some {
      parent
      from_ := (ofLex e.1).2
      to_ := (ofLex e.1).1
      amount := clampAmount (saturatingNegI128 e.2) }

def netsOf (parent : NodeId) (entries : List SignedEntry) : List NetTransfer :=
  (netPairs (grossFlows entries)).toList.filterMap (netTransfer parent)

theorem collapseNets_eq (ledgers : LedgerSet) :
    collapseNets ledgers = ledgers.nodeIds.flatMap fun parent =>
      ((ledgers.get parent).map fun l => netsOf parent l.log.entries).getD [] := by
  rw [collapseNets]
  congr 1
  funext parent
  cases ledgers.get parent <;> rfl

omit [Crypto] in
theorem clampAmount_toNat {x : ℤ} (hx : 0 ≤ x) :
    ((clampAmount x).toNat : ℤ) = min x (2 ^ 64 - 1) := by
  rw [clampAmount]
  by_cases hle : x ≤ 2 ^ 64 - 1
  · rw [if_pos ⟨hx, hle⟩, min_eq_left hle, UInt64.toNat_ofNat', Nat.mod_eq_of_lt (by omega)]
    omega
  · rw [if_neg (fun h => hle h.2), min_eq_right (by omega)]
    rfl

omit [Crypto] in
/-- A negative sum above the least `i128` is negated exactly. -/
theorem saturatingNegI128_eq {x : ℤ} (hx : -i128Max ≤ x) (hneg : x ≤ 0) :
    saturatingNegI128 x = -x := by
  rw [i128Max] at hx
  rw [saturatingNegI128, i128Max, i128Min, min_eq_right (by omega), max_eq_right (by omega)]

omit [Crypto] in
theorem netTransfer_spec (parent a b : NodeId) {net : ℤ} (hnet : -i128Max ≤ net) :
    CollapsesTo parent a b net (netTransfer parent (toLex (a, b), net)).toList := by
  rw [CollapsesTo, netTransfer]
  by_cases hzero : net = 0
  · simp [hzero]
  · rw [if_neg hzero, if_neg hzero]
    by_cases hpos : 0 < net
    · refine ⟨clampAmount net, ?_, by simp [hpos]⟩
      rw [clampAmount_toNat hpos.le, abs_of_pos hpos]
    · refine ⟨clampAmount (-net), ?_, by simp [hpos, saturatingNegI128_eq hnet (not_lt.mp hpos)]⟩
      rw [clampAmount_toNat (by omega), abs_of_nonpos (by omega)]

/-- The bound of the net flows, far below that of the sums. -/
theorem netPairs_bounded (hcons : ∀ s ∈ entries, s.entry.checkConservation = .ok ())
    (hlen : InMemory entries) (key : NodeId ×ₗ NodeId) :
    -i128Max ≤ (netPairs (grossFlows entries)).getD key 0 := by
  have habs : |sumAt ((tally (flows entries)).toList.map signedFlow) key| ≤ 2 ^ 121 := by
    refine le_trans ?_ (sum_abs_gross hcons hlen)
    exact abs_sumAt_le _ key
  rw [netPairs_eq hcons hlen, getD_tally, i128Max]
  have hlow := neg_abs_le (sumAt ((tally (flows entries)).toList.map signedFlow) key)
  omega

omit [Crypto] in
theorem netTransfer_amount {parent : NodeId} {e : (NodeId ×ₗ NodeId) × ℤ} {n : NetTransfer}
    (hn : netTransfer parent e = some n) : n.amount ≠ 0 := by
  have hclamp : ∀ x : ℤ, 0 < x → clampAmount x ≠ 0 := by
    intro x hx heq
    have htoNat := clampAmount_toNat hx.le
    rw [heq] at htoNat
    have hmin : 0 < min x (2 ^ 64 - 1) := lt_min hx (by norm_num)
    rw [← htoNat] at hmin
    exact absurd hmin (by decide)
  rw [netTransfer] at hn
  split_ifs at hn with hzero hpos
  · rw [← Option.some.inj hn]
    exact hclamp _ hpos
  · rw [← Option.some.inj hn]
    apply hclamp
    rw [saturatingNegI128, i128Max, i128Min]
    omega

/-- A net transfer of a ledger stands for the net flow of a pair of distinct children. -/
theorem mem_netsOf (hcons : ∀ s ∈ entries, s.entry.checkConservation = .ok ())
    (hlen : InMemory entries) {parent : NodeId} {n : NetTransfer}
    (hn : n ∈ netsOf parent entries) :
    n.parent = parent ∧ ∃ a b, a < b ∧ n.Joins a b
      ∧ netTransfer parent (toLex (a, b), netFlow entries a b) = some n := by
  obtain ⟨e, he, htransfer⟩ := List.mem_filterMap.mp hn
  have hlt := lt_of_mem_netPairs hcons hlen he
  have hvalue := (mem_of_mem_toList he).2
  have hflow : e = (toLex ((ofLex e.1).1, (ofLex e.1).2),
      netFlow entries (ofLex e.1).1 (ofLex e.1).2) := by
    rw [← getD_netPairs hcons hlen hlt]
    exact Prod.ext rfl hvalue.symm
  have hshape : n.parent = parent ∧ n.Joins (ofLex e.1).1 (ofLex e.1).2 := by
    rw [netTransfer] at htransfer
    split_ifs at htransfer
    · rw [← Option.some.inj htransfer]
      exact ⟨rfl, Or.inl ⟨rfl, rfl⟩⟩
    · rw [← Option.some.inj htransfer]
      exact ⟨rfl, Or.inr ⟨rfl, rfl⟩⟩
  refine ⟨hshape.1, (ofLex e.1).1, (ofLex e.1).2, hlt, hshape.2, ?_⟩
  rw [← hflow]
  exact htransfer

theorem filter_netsOf (hcons : ∀ s ∈ entries, s.entry.checkConservation = .ok ())
    (hlen : InMemory entries) (parent : NodeId) {a b : NodeId} (hab : a < b) :
    CollapsesTo parent a b (netFlow entries a b)
      ((netsOf parent entries).filter fun n => decide (n.Joins a b)) := by
  have hkey : ∀ e ∈ (netPairs (grossFlows entries)).toList, ∀ n, netTransfer parent e = some n →
      (n.Joins a b ↔ e.1 = toLex (a, b)) := by
    intro e he n hn
    have hlt := lt_of_mem_netPairs hcons hlen he
    have hpair : e.1 = toLex (a, b) ↔ (ofLex e.1).1 = a ∧ (ofLex e.1).2 = b := by
      rw [← ofLex_inj, ofLex_toLex, Prod.ext_iff]
    have hturned : ¬((ofLex e.1).1 = b ∧ (ofLex e.1).2 = a) := by
      intro h
      rw [h.1, h.2] at hlt
      exact absurd hab (not_lt.mpr hlt.le)
    rw [hpair, NetTransfer.Joins]
    rw [netTransfer] at hn
    split_ifs at hn
    · rw [← Option.some.inj hn]
      tauto
    · rw [← Option.some.inj hn]
      tauto
  have hfilter : (netsOf parent entries).filter (fun n => decide (n.Joins a b))
      = ((netPairs (grossFlows entries)).toList.filter
          fun e => decide (e.1 = toLex (a, b))).filterMap (netTransfer parent) := by
    apply filter_filterMap_of_iff
    intro e he n hn
    exact decide_eq_decide.mpr (hkey e he n hn)
  rw [hfilter, toList_filter_key]
  have hvalue := getD_netPairs hcons hlen hab
  have hbound := netPairs_bounded hcons hlen (toLex (a, b))
  rw [getD_eq_getD_lookup] at hvalue hbound
  cases hlookup : (netPairs (grossFlows entries))[toLex (a, b)]? with
  | none =>
      rw [hlookup, Option.getD_none] at hvalue
      rw [← hvalue, CollapsesTo, if_pos rfl]
      rfl
  | some net =>
      rw [hlookup, Option.getD_some] at hvalue hbound
      rw [← hvalue]
      have hspec := netTransfer_spec parent a b hbound
      cases hn : netTransfer parent (toLex (a, b), net) with
      | none =>
          rw [hn] at hspec
          simpa [hn] using hspec
      | some n =>
          rw [hn] at hspec
          simpa [hn] using hspec

/-! ## What the net transfers of a ledger do -/

omit [Crypto] in
theorem netTransfer_change (parent c : NodeId) {e : (NodeId ×ₗ NodeId) × ℤ}
    (hbound : |e.2| < 2 ^ 64) :
    (((netTransfer parent e).map fun n => n.change c).getD 0) = e.2 * flowWeight c e.1 := by
  have habs := abs_lt.mp hbound
  have hamount : ∀ x : ℤ, 0 ≤ x → x < 2 ^ 64 → ((clampAmount x).toNat : ℤ) = x := by
    intro x hx hlt
    rw [clampAmount_toNat hx, min_eq_left (by omega)]
  rw [netTransfer]
  by_cases hzero : e.2 = 0
  · simp [hzero]
  · rw [if_neg hzero]
    by_cases hpos : e.2 > 0
    · rw [if_pos hpos, Option.map_some, Option.getD_some, NetTransfer.change,
        hamount e.2 hpos.le habs.2, flowWeight]
      by_cases ha : (ofLex e.1).1 = c <;> by_cases hb : (ofLex e.1).2 = c <;> simp [ha, hb]
    · have hneg : saturatingNegI128 e.2 = -e.2 := by
        apply saturatingNegI128_eq _ (not_lt.mp hpos)
        rw [i128Max]
        omega
      rw [if_neg hpos, Option.map_some, Option.getD_some, NetTransfer.change, hneg,
        hamount (-e.2) (by omega) (by omega), flowWeight]
      by_cases ha : (ofLex e.1).1 = c <;> by_cases hb : (ofLex e.1).2 = c <;> simp [ha, hb]

/-- Uncut, the net transfers of a ledger move every position as its transfers did. -/
theorem sum_netsOf (hcons : ∀ s ∈ entries, s.entry.checkConservation = .ok ())
    (hlen : InMemory entries) (hbound : ∀ a b, |netFlow entries a b| < 2 ^ 64)
    (parent c : NodeId) :
    ((netsOf parent entries).map fun n => n.change c).sum = transferred entries c := by
  have hpairs : ((netsOf parent entries).map fun n => n.change c).sum
      = ((netPairs (grossFlows entries)).toList.map fun e => e.2 * flowWeight c e.1).sum := by
    rw [netsOf, sum_filterMap]
    congr 1
    apply List.map_congr_left
    intro e he
    apply netTransfer_change
    have hflow := getD_netPairs hcons hlen (lt_of_mem_netPairs hcons hlen he)
    rw [Prod.mk.eta, toLex_ofLex] at hflow
    rw [← (mem_of_mem_toList he).2, hflow]
    exact hbound _ _
  have hnet := total_tally (flowWeight c) ((tally (flows entries)).toList.map signedFlow)
  have hgross := total_tally (flowWeight c) (flows entries)
  rw [total] at hnet hgross
  rw [hpairs, netPairs_eq hcons hlen, hnet, List.map_map, transferred_eq hcons, ← hgross]
  congr 1
  apply List.map_congr_left
  intro e _
  exact signedFlow_weight c e

/-! ## The collapse -/

omit [Crypto] in
theorem flatMap_of_single {β γ : Type*} [DecidableEq β] {l : List β} (hnodup : l.Nodup) {p : β}
    (hp : p ∈ l) {f : β → List γ} (hother : ∀ q ∈ l, q ≠ p → f q = []) : l.flatMap f = f p := by
  induction l with
  | nil => cases hp
  | cons q l ih =>
      rw [List.flatMap_cons]
      rw [List.nodup_cons] at hnodup
      by_cases hq : q = p
      · subst hq
        have hrest : l.flatMap f = [] := by
          apply List.flatMap_eq_nil_iff.mpr
          intro q' hq'
          exact hother q' (List.mem_cons_of_mem _ hq') fun h => hnodup.1 (h ▸ hq')
        rw [hrest, List.append_nil]
      · have hmem := (List.mem_cons.mp hp).resolve_left fun h => hq h.symm
        rw [hother q List.mem_cons_self hq, List.nil_append]
        exact ih hnodup.2 hmem fun q' hq' => hother q' (List.mem_cons_of_mem _ hq')

variable {ledgers : LedgerSet}

theorem mem_ledgerIds {parent : NodeId} {l : Ledger} (hget : ledgers.get parent = some l) :
    parent ∈ ledgers.nodeIds := by
  rw [LedgerSet.nodeIds, ExtTreeMap.mem_keys]
  exact ExtTreeMap.mem_iff_isSome_getElem?.mpr (Option.isSome_iff_exists.mpr ⟨l, hget⟩)

theorem mem_collapseNets {n : NetTransfer} :
    n ∈ collapseNets ledgers
      ↔ ∃ parent l, ledgers.get parent = some l ∧ n ∈ netsOf parent l.log.entries := by
  rw [collapseNets_eq, List.mem_flatMap]
  constructor
  · intro h
    obtain ⟨parent, -, hn⟩ := h
    cases hget : ledgers.get parent with
    | none => simp [hget] at hn
    | some l => exact ⟨parent, l, hget, by simpa [hget] using hn⟩
  · intro h
    obtain ⟨parent, l, hget, hn⟩ := h
    refine ⟨parent, mem_ledgerIds hget, ?_⟩
    rw [hget]
    exact hn

theorem filter_collapseNets (hsound : ∀ parent l, ledgers.get parent = some l →
      (∀ s ∈ l.log.entries, s.entry.checkConservation = .ok ()) ∧ InMemory l.log.entries)
    {parent : NodeId} {l : Ledger} (hget : ledgers.get parent = some l) :
    (collapseNets ledgers).filter (fun n => decide (n.parent = parent))
      = netsOf parent l.log.entries := by
  have hown : ∀ q l', ledgers.get q = some l' → ∀ n ∈ netsOf q l'.log.entries, n.parent = q := by
    intro q l' hl' n hn
    obtain ⟨hcons, hlen⟩ := hsound q l' hl'
    exact (mem_netsOf hcons hlen hn).1
  have hnodup : ledgers.nodeIds.Nodup := ExtTreeMap.nodup_keys
  rw [collapseNets_eq, List.filter_flatMap]
  refine (flatMap_of_single hnodup (mem_ledgerIds hget) ?_).trans ?_
  · intro q _ hq
    cases hl' : ledgers.get q with
    | none => rfl
    | some l' =>
        rw [Option.map_some, Option.getD_some]
        apply List.filter_eq_nil_iff.mpr
        intro n hn
        rw [hown q l' hl' n hn]
        simpa using hq
  · rw [hget, Option.map_some, Option.getD_some]
    apply List.filter_eq_self.mpr
    intro n hn
    exact decide_eq_true (hown parent l hget n hn)

variable [Postcard]

/-- The ledgers of the set are built by appends and fit in memory. -/
def LedgerSet.Kept (ledgers : LedgerSet) : Prop :=
  ∀ parent l, ledgers.get parent = some l → l.Built ∧ InMemory l.log.entries

theorem LedgerSet.Kept.sound (hkept : ledgers.Kept) : ∀ parent l, ledgers.get parent = some l →
    (∀ s ∈ l.log.entries, s.entry.checkConservation = .ok ()) ∧ InMemory l.log.entries := by
  intro parent l hget
  obtain ⟨hbuilt, hlen⟩ := hkept parent l hget
  exact ⟨hbuilt.conserved, hlen⟩

/-- A pair of children keeps the one transfer of its net flow. -/
theorem LedgerSet.Kept.collapsesTo (hkept : ledgers.Kept) {parent : NodeId} {l : Ledger}
    (hget : ledgers.get parent = some l) {a b : NodeId} (hab : a < b) :
    CollapsesTo parent a b (netFlow l.log.entries a b)
      ((collapseNets ledgers).filter fun n => decide (n.parent = parent ∧ n.Joins a b)) := by
  obtain ⟨hcons, hlen⟩ := hkept.sound parent l hget
  have hsplit : (collapseNets ledgers).filter
        (fun n => decide (n.parent = parent ∧ n.Joins a b))
      = (netsOf parent l.log.entries).filter fun n => decide (n.Joins a b) := by
    rw [← filter_collapseNets hkept.sound hget, List.filter_filter]
    congr 1
    funext n
    rw [Bool.decide_and, Bool.and_comm]
  rw [hsplit]
  exact filter_netsOf hcons hlen parent hab

/-- The netting collapse of a set of ledgers. Every net transfer joins two distinct children of
its parent; each pair of them keeps the one transfer of its net flow, up to the largest amount,
and none if nothing is left of it; and where no net flow exceeds that amount, the net transfers
of a parent move the position of every child by what the transfers of its ledger moved it. -/
theorem netting_collapse (hkept : ledgers.Kept) :
    (∀ n ∈ collapseNets ledgers, ∃ l, ledgers.get n.parent = some l
      ∧ ∃ a b, a < b ∧ n.Joins a b ∧ n.amount ≠ 0)
    ∧ ∀ parent l, ledgers.get parent = some l →
      (∀ a b, a < b → CollapsesTo parent a b (netFlow l.log.entries a b)
        ((collapseNets ledgers).filter fun n => decide (n.parent = parent ∧ n.Joins a b)))
      ∧ ((∀ a b, |netFlow l.log.entries a b| < 2 ^ 64) → ∀ c,
        (((collapseNets ledgers).filter fun n => decide (n.parent = parent)).map
          fun n => n.change c).sum = transferred l.log.entries c) := by
  constructor
  · intro n hn
    obtain ⟨parent, l, hget, hmem⟩ := mem_collapseNets.mp hn
    obtain ⟨hcons, hlen⟩ := hkept.sound parent l hget
    obtain ⟨rfl, a, b, hab, hjoin, htransfer⟩ := mem_netsOf hcons hlen hmem
    exact ⟨l, hget, a, b, hab, hjoin, netTransfer_amount htransfer⟩
  · intro parent l hget
    obtain ⟨hcons, hlen⟩ := hkept.sound parent l hget
    constructor
    · intro a b hab
      exact hkept.collapsesTo hget hab
    · intro hbound c
      rw [filter_collapseNets hkept.sound hget]
      exact sum_netsOf hcons hlen hbound parent c

end

section Concrete

open Concrete

theorem length_growLedger (key : ℕ) (l : Ledger) (body : EntryBody × List Posting) :
    (growLedger key l body).log.entries.length ≤ l.log.entries.length + 1 := by
  unfold growLedger
  split
  next s _ =>
    cases h : l.append s with
    | error e => simp [Ledger.appendOrKeep, h]
    | ok next => simp [Ledger.appendOrKeep, h, (append_spec h).entries]
  next => exact Nat.le_succ _

theorem length_buildLedger (key : ℕ) (bodies : List (EntryBody × List Posting)) :
    (buildLedger key bodies).log.entries.length ≤ bodies.length := by
  have hgen : ∀ l : Ledger, (bodies.foldl (growLedger key) l).log.entries.length
      ≤ l.log.entries.length + bodies.length := by
    induction bodies with
    | nil => exact fun l => le_rfl
    | cons body bodies ih =>
        intro l
        have hfirst := length_growLedger key l body
        have hrest := ih (growLedger key l body)
        rw [List.foldl_cons, List.length_cons]
        omega
  have hempty : (Ledger.new key).log.entries.length = 0 := rfl
  have hlen := hgen (Ledger.new key)
  rwa [hempty, Nat.zero_add] at hlen

theorem inMemory_buildLedger (key : ℕ) {bodies : List (EntryBody × List Posting)}
    (h : bodies.length * 64 < 2 ^ 63) : InMemory (buildLedger key bodies).log.entries := by
  have hlen := length_buildLedger key bodies
  unfold InMemory
  omega

/-- The ledger of a root whose children pay 30 one way and 10 the other. -/
def exchangeLedgers : LedgerSet where
  ledgers := (∅ : ExtTreeMap NodeId Ledger).insert "r" (buildLedger 10
    [(.openAccount "a" .node, []), (.openAccount "b" .node, []),
      (.issue "a" 50, [⟨.child "a", 50⟩]),
      (.transfer (0 : ℕ) 30 .direct, [⟨.child "a", -30⟩, ⟨.child "b", 30⟩]),
      (.transfer (0 : ℕ) 10 .direct, [⟨.child "b", -10⟩, ⟨.child "a", 10⟩])])

theorem exchangeLedgers_kept : exchangeLedgers.Kept := by
  intro parent l hget
  simp only [LedgerSet.get, exchangeLedgers, ExtTreeMap.getElem?_insert] at hget
  split at hget
  · rw [← Option.some.inj hget]
    exact ⟨buildLedger_built _ _, inMemory_buildLedger _ (by decide)⟩
  · simp at hget

/-- The two payments leave one net transfer of 20. -/
theorem netting_collapse_exchange : ∃ l, exchangeLedgers.get "r" = some l
    ∧ netFlow l.log.entries "a" "b" = 20
    ∧ CollapsesTo "r" "a" "b" 20 ((collapseNets exchangeLedgers).filter fun n =>
      decide (n.parent = "r" ∧ n.Joins "a" "b")) := by
  obtain ⟨l, hget⟩ : ∃ l, exchangeLedgers.get "r" = some l := ⟨_, ExtTreeMap.getElem?_insert_self⟩
  have hflow : (exchangeLedgers.get "r").map (fun l => netFlow l.log.entries "a" "b")
      = some 20 := by
    decide +kernel
  rw [hget] at hflow
  refine ⟨l, hget, Option.some.inj hflow, ?_⟩
  rw [← Option.some.inj hflow]
  exact ((netting_collapse exchangeLedgers_kept).2 "r" l hget).1 "a" "b" (by decide)

/-- Three payments of the largest amount one way, each issued before and burned after. -/
def heavyLedgers : LedgerSet where
  ledgers := (∅ : ExtTreeMap NodeId Ledger).insert "r" (buildLedger 10
    ([(.openAccount "a" .node, []), (.openAccount "b" .node, [])]
      ++ (List.replicate 3 [(.issue "a" 9223372036854775807, [⟨.child "a", 9223372036854775807⟩]),
        (.transfer (0 : ℕ) 9223372036854775807 .direct,
          [⟨.child "a", -9223372036854775807⟩, ⟨.child "b", 9223372036854775807⟩]),
        (.burn "b" 9223372036854775807, [⟨.child "b", -9223372036854775807⟩])]).flatten))

/-- A net flow beyond the largest amount is not collapsed exactly. -/
theorem netting_collapse_cut : ¬∀ ledgers : LedgerSet, ledgers.Kept →
    ∀ parent l, ledgers.get parent = some l → ∀ n ∈ collapseNets ledgers, n.parent = parent →
      (n.amount.toNat : ℤ) = netFlow l.log.entries n.from_ n.to_ := by
  intro h
  have hkept : heavyLedgers.Kept := by
    intro parent l hget
    simp only [LedgerSet.get, heavyLedgers, ExtTreeMap.getElem?_insert] at hget
    split at hget
    · rw [← Option.some.inj hget]
      exact ⟨buildLedger_built _ _, inMemory_buildLedger _ (by decide)⟩
    · simp at hget
  obtain ⟨l, hget⟩ : ∃ l, heavyLedgers.get "r" = some l := ⟨_, ExtTreeMap.getElem?_insert_self⟩
  have hflow : (heavyLedgers.get "r").map (fun l => netFlow l.log.entries "a" "b")
      = some 27670116110564327421 := by decide +kernel
  rw [hget] at hflow
  have hnet : netFlow l.log.entries "a" "b" = 27670116110564327421 := Option.some.inj hflow
  have hcollapse := hkept.collapsesTo hget (show "a" < "b" by decide)
  rw [hnet, CollapsesTo, if_neg (by decide)] at hcollapse
  obtain ⟨amount, -, hnets⟩ := hcollapse
  rw [if_pos (by decide)] at hnets
  have hmem : ⟨"r", "a", "b", amount⟩ ∈ collapseNets heavyLedgers :=
    List.mem_of_mem_filter (hnets ▸ List.mem_singleton_self _)
  have hexact := h heavyLedgers hkept "r" l hget _ hmem rfl
  dsimp only at hexact
  -- no `Amount` is as large as the net flow
  have hlt : amount.toNat < 2 ^ 64 := amount.toNat_lt
  rw [hnet] at hexact
  omega

end Concrete

end Cawala
