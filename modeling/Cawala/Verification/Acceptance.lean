import Cawala.Verification.Postings

/-! # What the conservation check accepts

The check is a property of the net deltas of the postings, and what it accepts can only fail for
the balances it meets. -/

namespace Cawala

open Std (ExtTreeMap)
open Library Library.Transaction

section

variable [Crypto]

/-! ## What the check accepts -/

/-- The net deltas are exactly some movements. -/
def Nets (net : AccountRef → Option ℤ) (moves : List (AccountRef × ℤ)) : Prop :=
  ∀ a v, net a = some v ↔ (a, v) ∈ moves

/-- The net deltas that a body and its role call for. -/
def EntryBody.Canonical (net : AccountRef → Option ℤ) : EntryBody → Prop
  | .openAccount .. => Nets net []
  | .transfer _ amount .ascend =>
      ∃ c, Nets net [(.parent, -amount.toNat), (.child c, -amount.toNat)]
  | .transfer _ amount .descend =>
      ∃ c, Nets net [(.parent, amount.toNat), (.child c, amount.toNat)]
  | .transfer _ amount .lca | .transfer _ amount .direct =>
      ∃ c d, c ≠ d ∧ Nets net [(.child c, -amount.toNat), (.child d, amount.toNat)]
  | .issue child amount => Nets net [(.child child, amount.toNat)]
  | .burn child amount => Nets net [(.child child, -amount.toNat)]
  | .edgeClose amount => Nets net [(.parent, -amount.toNat)]
  | .rotateLedgerKey .. => False

def EntryBody.Positive : EntryBody → Prop
  | .transfer _ amount _ | .issue _ amount | .burn _ amount | .edgeClose amount => 0 < amount
  | _ => True

/-- The authorisation that a body requires is there, over the payment id of a transfer. -/
def Entry.HasAuth (e : Entry) : Prop :=
  match e.body with
  | .transfer paymentId _ _ => ∃ auth, e.auth = some auth ∧ paymentId = auth.orderHash
  | .issue .. | .burn .. | .edgeClose _ => e.auth ≠ none
  | _ => True

section Shapes

variable {deltas : Deltas} {moves : List (AccountRef × ℤ)} {a : ℤ}

omit [Crypto] in
theorem nets_iff_perm (hnodup : moves.Nodup) :
    Nets (fun x => deltas[x]?) moves ↔ deltas.toList.Perm moves := by
  rw [List.perm_ext_iff_of_nodup (nodup_toList deltas) hnodup]
  simp only [Nets, Prod.forall, ExtTreeMap.mem_toList_iff_getElem?_eq_some]

omit [Crypto] in
theorem nets_one_iff {x : AccountRef} {v : ℤ} :
    (deltas.size == 1 && deltas[x]? == some v) = true ↔ Nets (fun x => deltas[x]?) [(x, v)] := by
  rw [nets_iff_perm (by simp), List.perm_singleton, Bool.and_eq_true, beq_iff_eq, beq_iff_eq]
  constructor
  · intro ⟨hsize, hget⟩
    exact toList_eq_singleton hsize hget
  · intro hlist
    have hmem : (x, v) ∈ deltas.toList := by simp [hlist]
    exact ⟨by rw [← ExtTreeMap.length_toList, hlist]; rfl,
      ExtTreeMap.mem_toList_iff_getElem?_eq_some.mp hmem⟩

omit [Crypto] in
theorem mem_childDeltas {v : ℤ} :
    v ∈ Entry.childDeltas deltas ↔ ∃ id, deltas[AccountRef.child id]? = some v := by
  simp only [Entry.childDeltas, List.mem_filterMap, Prod.exists,
    ExtTreeMap.mem_toList_iff_getElem?_eq_some]
  constructor
  · intro ⟨account, delta, hget, hv⟩
    cases account with
    | parent => cases hv
    | child id =>
        obtain rfl := Option.some.inj hv
        exact ⟨id, hget⟩
  · intro ⟨id, hget⟩
    exact ⟨.child id, v, hget, rfl⟩

omit [Crypto] in
theorem childDeltas_perm (h : deltas.toList.Perm moves) :
    (Entry.childDeltas deltas).Perm (moves.filterMap fun e => match e.1 with
      | .child _ => some e.2
      | .parent => none) := h.filterMap _

omit [Crypto] in
theorem nets_parent_child_iff {v : ℤ} (hv : v ≠ 0) :
    (deltas.size == 2 && deltas.getD .parent 0 == v && (Entry.childDeltas deltas).length == 1
        && (Entry.childDeltas deltas)[0]? == some v) = true
      ↔ ∃ c, Nets (fun x => deltas[x]?) [(.parent, v), (.child c, v)] := by
  simp only [Bool.and_eq_true, beq_iff_eq]
  constructor
  · intro ⟨⟨⟨hsize, hparent⟩, _⟩, hchild⟩
    have hget : deltas[AccountRef.parent]? = some v := by
      rw [ExtTreeMap.getD_eq_getD_getElem?] at hparent
      cases h : deltas[AccountRef.parent]? with
      | none =>
          rw [h] at hparent
          exact absurd hparent.symm hv
      | some w =>
          rw [h] at hparent
          rw [← hparent, Option.getD_some]
    obtain ⟨c, hc⟩ := mem_childDeltas.mp (List.mem_of_getElem? hchild)
    refine ⟨c, (nets_iff_perm (by simp)).mpr (toList_perm_of_lookups (by simp) hsize ?_)⟩
    simp [hget, hc]
  · intro ⟨c, hnets⟩
    have hperm := (nets_iff_perm (by simp)).mp hnets
    have hchildren : Entry.childDeltas deltas = [v] :=
      List.perm_singleton.mp (childDeltas_perm hperm)
    have hparent : deltas[AccountRef.parent]? = some v := (hnets _ _).mpr (by simp)
    refine ⟨⟨⟨?_, ?_⟩, ?_⟩, ?_⟩
    · rw [← ExtTreeMap.length_toList, hperm.length_eq]
      rfl
    · rw [ExtTreeMap.getD_eq_getD_getElem?, hparent, Option.getD_some]
    · rw [hchildren]
      rfl
    · rw [hchildren]
      rfl

omit [Crypto] in
/-- Two legs of different children that cancel out. -/
theorem nets_children_iff (ha : 0 < a) :
    (deltas.size == 2 && (Entry.childDeltas deltas).length == 2
        && deltas.keys.all (fun account => match account with
            | .child _ => true
            | .parent => false)
        && ((Entry.childDeltas deltas).filter (· == a)).length == 1
        && ((Entry.childDeltas deltas).filter (· == -a)).length == 1) = true
      ↔ ∃ c d, c ≠ d ∧ Nets (fun x => deltas[x]?) [(.child c, -a), (.child d, a)] := by
  simp only [Bool.and_eq_true, beq_iff_eq]
  constructor
  · intro ⟨⟨⟨⟨hsize, _⟩, _⟩, hplus⟩, hminus⟩
    have hfind : ∀ v : ℤ, ((Entry.childDeltas deltas).filter (· == v)).length = 1 →
        ∃ id, deltas[AccountRef.child id]? = some v := by
      intro v hlen
      obtain ⟨w, hw⟩ := List.length_eq_one_iff.mp hlen
      have hmem : w ∈ (Entry.childDeltas deltas).filter (· == v) := by simp [hw]
      obtain ⟨hmem, hv⟩ := List.mem_filter.mp hmem
      rw [beq_iff_eq] at hv
      exact mem_childDeltas.mp (hv ▸ hmem)
    obtain ⟨d, hd⟩ := hfind a hplus
    obtain ⟨c, hc⟩ := hfind (-a) hminus
    have hne : c ≠ d := by
      rintro rfl
      rw [hc, Option.some.injEq] at hd
      omega
    refine ⟨c, d, hne, (nets_iff_perm (by simp [hne])).mpr
      (toList_perm_of_lookups (by simp [hne]) hsize ?_)⟩
    simp [hc, hd]
  · intro ⟨c, d, hne, hnets⟩
    have hperm := (nets_iff_perm (by simp [hne])).mp hnets
    have hchildren : (Entry.childDeltas deltas).Perm [-a, a] := childDeltas_perm hperm
    have hapart : (-a == a) = false := by simp; omega
    have hapart' : (a == -a) = false := by simp; omega
    refine ⟨⟨⟨⟨?_, ?_⟩, ?_⟩, ?_⟩, ?_⟩
    · rw [← ExtTreeMap.length_toList, hperm.length_eq]
      rfl
    · rw [hchildren.length_eq]
      rfl
    · rw [List.all_eq_true]
      intro account hmem
      rw [← ExtTreeMap.map_fst_toList_eq_keys, (hperm.map Prod.fst).mem_iff] at hmem
      simp only [List.map_cons, List.map_nil, List.mem_cons, List.not_mem_nil, or_false] at hmem
      obtain rfl | rfl := hmem
      · rfl
      · rfl
    · rw [(hchildren.filter _).length_eq]
      simp [hapart]
    · rw [(hchildren.filter _).length_eq]
      simp [hapart']

end Shapes

theorem checkPostingRule_balanced {postings : List Posting} {deltas : Deltas}
    (hlen : postings.length < 2 ^ 62) (hagg : aggregateDeltas postings = .ok deltas) :
    checkPostingRule deltas .balanced = .ok ()
      ↔ deltaAt deltas.toList .parent = childDelta deltas.toList := by
  obtain ⟨deltas', hagg', ⟨sums, hsums, hfits⟩, -⟩ := noOverflow hlen
  rw [hagg, Except.ok.injEq] at hagg'
  subst hagg'
  obtain ⟨hparent, hchild⟩ := classSums_spec hsums
  rw [checkPostingRule, hsums]
  change postingsConserve sums.1 sums.2 = .ok () ↔ _
  rw [postingsConserve, if_pos hfits, ite_ok_eq_ok, hparent, hchild, sub_eq_zero]
  simp

omit [Crypto] in
theorem deltaAt_perm {moves moves' : List (AccountRef × ℤ)} (h : moves.Perm moves')
    (a : AccountRef) : deltaAt moves a = deltaAt moves' a := ((h.filter _).map _).sum_eq

omit [Crypto] in
theorem childDelta_perm {moves moves' : List (AccountRef × ℤ)} (h : moves.Perm moves') :
    childDelta moves = childDelta moves' := ((h.filter _).map _).sum_eq

/-- Canonical net deltas obey the posting rule of their body. -/
theorem EntryBody.Canonical.rule {body : EntryBody} {postings : List Posting} {deltas : Deltas}
    (h : body.Canonical fun x => deltas[x]?) (hpos : body.Positive)
    (hlen : postings.length < 2 ^ 62) (hagg : aggregateDeltas postings = .ok deltas) :
    checkPostingRule deltas body.postingRule = .ok () := by
  have hsingle : ∀ {x : AccountRef} {v : ℤ}, Nets (fun x => deltas[x]?) [(x, v)] →
      deltas.size = 1 ∧ deltas.toList = [(x, v)] := by
    intro x v hnets
    have hperm := (nets_iff_perm (by simp)).mp hnets
    exact ⟨by rw [← ExtTreeMap.length_toList, hperm.length_eq]; rfl, List.perm_singleton.mp hperm⟩
  have hbalanced : ∀ {moves : List (AccountRef × ℤ)}, moves.Nodup →
      Nets (fun x => deltas[x]?) moves → deltaAt moves .parent = childDelta moves →
      checkPostingRule deltas .balanced = .ok () := by
    intro moves hnodup hnets heq
    have hperm := (nets_iff_perm hnodup).mp hnets
    rw [checkPostingRule_balanced hlen hagg, deltaAt_perm hperm, childDelta_perm hperm, heq]
  have hnat : ∀ {amount : Amount}, 0 < amount → amount.toNat ≠ 0 := by
    intro amount hamount
    have hlt : 0 < amount.toNat := UInt64.lt_iff_toNat_lt.mp hamount
    omega
  cases body with
  | openAccount child kind => exact hbalanced (by simp) h rfl
  | transfer paymentId amount role =>
      cases role with
      | ascend =>
          obtain ⟨c, hnets⟩ := h
          exact hbalanced (by simp) hnets (by simp [deltaAt, childDelta])
      | descend =>
          obtain ⟨c, hnets⟩ := h
          exact hbalanced (by simp) hnets (by simp [deltaAt, childDelta])
      | lca =>
          obtain ⟨c, d, hne, hnets⟩ := h
          exact hbalanced (by simp [hne]) hnets (by simp [deltaAt, childDelta])
      | direct =>
          obtain ⟨c, d, hne, hnets⟩ := h
          exact hbalanced (by simp [hne]) hnets (by simp [deltaAt, childDelta])
  | issue child amount =>
      obtain ⟨hsize, hlist⟩ := hsingle h
      simp [postingRule, checkPostingRule, hsize, hlist, hnat hpos]
  | burn child amount =>
      obtain ⟨hsize, hlist⟩ := hsingle h
      simp [postingRule, checkPostingRule, hsize, hlist, hnat hpos]
  | edgeClose amount =>
      obtain ⟨hsize, hlist⟩ := hsingle h
      simp [postingRule, checkPostingRule, hsize, hlist, hnat hpos]
  | rotateLedgerKey newKey operatorSig => exact h.elim

/-- The shape check accepts the canonical net deltas of a positive amount, and no others. -/
theorem validateShape_iff {e : Entry} {deltas : Deltas}
    (hagg : aggregateDeltas e.postings = .ok deltas) :
    e.validateShape deltas = .ok () ↔ e.body.Positive ∧ e.body.Canonical fun x => deltas[x]? := by
  have hzero : ∀ amount : Amount, ¬ amount = 0 ↔ 0 < amount := by
    intro amount
    rw [UInt64.lt_iff_toNat_lt, ← UInt64.toNat_inj]
    change ¬ amount.toNat = 0 ↔ 0 < amount.toNat
    omega
  have hnat : ∀ {amount : Amount}, 0 < amount → (0 : ℤ) < amount.toNat := by
    intro amount hamount
    exact_mod_cast UInt64.lt_iff_toNat_lt.mp hamount
  cases hbody : e.body with
  | openAccount child kind =>
      simp only [Entry.validateShape, hbody, EntryBody.Positive, EntryBody.Canonical, true_and,
        ite_ok_eq_ok, and_true, List.isEmpty_iff]
      constructor
      · intro hnil x v
        change deltas[x]? = some v ↔ _
        rw [(aggregateDeltas_spec hagg).getElem?_eq, hnil]
        simp [netDelta]
      · intro hnets
        cases hpostings : e.postings with
        | nil => rfl
        | cons p ps =>
            have hmem : p.account ∈ deltas :=
              ((aggregateDeltas_spec hagg).mem _).mpr ⟨p, by simp [hpostings], rfl⟩
            obtain ⟨v, hv⟩ :=
              Option.isSome_iff_exists.mp (ExtTreeMap.mem_iff_isSome_getElem?.mp hmem)
            exact absurd ((hnets _ _).mp hv) (by simp)
  | transfer paymentId amount role =>
      simp only [Entry.validateShape, hbody, EntryBody.Positive, ite_error_eq_ok, hzero,
        ite_ok_eq_ok, and_true]
      apply and_congr_right
      intro hamount
      have hpos := hnat hamount
      cases role with
      | ascend => exact nets_parent_child_iff (by omega)
      | descend => exact nets_parent_child_iff (by omega)
      | lca => exact nets_children_iff hpos
      | direct => exact nets_children_iff hpos
  | issue child amount =>
      simp only [Entry.validateShape, hbody, EntryBody.Positive, ite_error_eq_ok, hzero,
        ite_ok_eq_ok, and_true, EntryBody.Canonical, nets_one_iff]
  | burn child amount =>
      simp only [Entry.validateShape, hbody, EntryBody.Positive, ite_error_eq_ok, hzero,
        ite_ok_eq_ok, and_true, EntryBody.Canonical, nets_one_iff]
  | edgeClose amount =>
      simp only [Entry.validateShape, hbody, EntryBody.Positive, ite_error_eq_ok, hzero,
        ite_ok_eq_ok, and_true, EntryBody.Canonical, nets_one_iff]
  | rotateLedgerKey newKey operatorSig =>
      simp [Entry.validateShape, hbody, EntryBody.Canonical]

/-- The checks ahead of the postings ask for the authorisation. -/
theorem checkConservation_iff_stages {e : Entry} :
    e.checkConservation = .ok () ↔ e.HasAuth ∧ (∀ key sig, e.body ≠ .rotateLedgerKey key sig)
      ∧ ∃ deltas, aggregateDeltas e.postings = .ok deltas
        ∧ checkPostingRule deltas e.body.postingRule = .ok ()
        ∧ e.validateShape deltas = .ok () := by
  have hstages : (do
      let deltas ← aggregateDeltas e.postings
      checkPostingRule deltas e.body.postingRule
      e.validateShape deltas) = Except.ok () ↔ ∃ deltas, aggregateDeltas e.postings = .ok deltas
        ∧ checkPostingRule deltas e.body.postingRule = .ok ()
        ∧ e.validateShape deltas = .ok () := by
    simp only [bind_eq_ok]
    constructor
    · intro h
      obtain ⟨deltas, hagg, u, hrule, hshape⟩ := h
      exact ⟨deltas, hagg, hrule, hshape⟩
    · intro h
      obtain ⟨deltas, hagg, hrule, hshape⟩ := h
      exact ⟨deltas, hagg, (), hrule, hshape⟩
  rw [← hstages]
  cases hbody : e.body with
  | openAccount child kind =>
      simp [Entry.checkConservation, Entry.HasAuth, Entry.requiresAuth, Entry.checkPaymentId, hbody]
  | transfer paymentId amount role =>
      cases hauth : e.auth with
      | none => simp [Entry.checkConservation, Entry.HasAuth, Entry.requiresAuth, hbody, hauth]
      | some auth =>
          by_cases hid : paymentId = auth.orderHash
          · simp [Entry.checkConservation, Entry.HasAuth, Entry.requiresAuth,
              Entry.checkPaymentId, hbody, hauth, hid]
          · simp [Entry.checkConservation, Entry.HasAuth, Entry.requiresAuth,
              Entry.checkPaymentId, hbody, hauth, hid]
  | issue child amount =>
      cases hauth : e.auth with
      | none => simp [Entry.checkConservation, Entry.HasAuth, Entry.requiresAuth, hbody, hauth]
      | some auth =>
          simp [Entry.checkConservation, Entry.HasAuth, Entry.requiresAuth, Entry.checkPaymentId,
            hbody, hauth]
  | burn child amount =>
      cases hauth : e.auth with
      | none => simp [Entry.checkConservation, Entry.HasAuth, Entry.requiresAuth, hbody, hauth]
      | some auth =>
          simp [Entry.checkConservation, Entry.HasAuth, Entry.requiresAuth, Entry.checkPaymentId,
            hbody, hauth]
  | edgeClose amount =>
      cases hauth : e.auth with
      | none => simp [Entry.checkConservation, Entry.HasAuth, Entry.requiresAuth, hbody, hauth]
      | some auth =>
          simp [Entry.checkConservation, Entry.HasAuth, Entry.requiresAuth, Entry.checkPaymentId,
            hbody, hauth]
  | rotateLedgerKey newKey operatorSig => simp [Entry.checkConservation, hbody]

/-! ## Why an accepted entry may fail to apply -/

/-- Why the movement of one account fails. -/
inductive MovementFailure (b : Balances) (account : AccountRef) (delta : ℤ) :
    LedgerError → Prop where
  | notOpen {id : NodeId} (hid : account = .child id) (h : id ∉ b.children) :
      MovementFailure b account delta (.accountNotOpened (.child id))
  | negative (h : b.balance account + delta < 0) :
      MovementFailure b account delta .insufficientBalance
  | exceeds (h : 2 ^ 64 - 1 < b.balance account + delta) : MovementFailure b account delta .overflow

/-- Why the application of an entry fails. -/
inductive ApplyFailure (b : Balances) (e : Entry) : LedgerError → Prop where
  | alreadyOpen {child : NodeId} (hopens : e.opens child) (h : child ∈ b.children) :
      ApplyFailure b e .accountExists
  | movement {account : AccountRef} {delta : ℤ} {err : LedgerError}
      (hnet : netDelta e.postings account = some delta) (h : MovementFailure b account delta err) :
      ApplyFailure b e err

theorem applyDelta_error {current : Amount} {delta : ℤ} {err : LedgerError}
    (hfits : fitsI128 (current.toNat + delta) = true) (h : applyDelta current delta = .error err) :
    (err = .insufficientBalance ∧ current.toNat + delta < 0)
      ∨ err = .overflow ∧ 2 ^ 64 - 1 < current.toNat + delta := by
  rw [applyDelta, wrapI128_of_fits hfits] at h
  split at h
  · exact .inl ⟨(Except.error.inj h).symm, ‹_›⟩
  · split at h
    · exact .inr ⟨(Except.error.inj h).symm, by omega⟩
    · cases h

theorem applyAccountDelta_error {b : Balances} {account : AccountRef} {delta : ℤ}
    {err : LedgerError} (hfits : ∀ current : Amount, fitsI128 (current.toNat + delta) = true)
    (h : b.applyAccountDelta (account, delta) = .error err) :
    MovementFailure b account delta err := by
  cases account with
  | parent =>
      simp only [Balances.applyAccountDelta] at h
      cases happly : applyDelta b.parent delta with
      | ok next =>
          rw [happly] at h
          cases h
      | error e =>
          rw [happly] at h
          obtain rfl := Except.error.inj h
          obtain ⟨rfl, hneg⟩ | ⟨rfl, hmax⟩ := applyDelta_error (hfits b.parent) happly
          · exact .negative hneg
          · exact .exceeds hmax
  | child id =>
      simp only [Balances.applyAccountDelta] at h
      cases hcurrent : b.children[id]? with
      | none =>
          rw [hcurrent] at h
          obtain rfl := Except.error.inj h
          refine .notOpen rfl fun hmem => ?_
          rw [ExtTreeMap.mem_iff_isSome_getElem?, hcurrent] at hmem
          cases hmem
      | some current =>
          rw [hcurrent] at h
          have hbalance : b.balance (.child id) = current.toNat := by
            simp [Balances.balance, Balances.childBalance, ExtTreeMap.getD_eq_getD_getElem?,
              hcurrent]
          cases happly : applyDelta current delta with
          | ok next =>
              simp only [happly] at h
              cases h
          | error e =>
              simp only [happly] at h
              obtain rfl := Except.error.inj h
              obtain ⟨rfl, hneg⟩ | ⟨rfl, hmax⟩ := applyDelta_error (hfits current) happly
              · exact .negative (by rw [hbalance]; exact hneg)
              · exact .exceeds (by rw [hbalance]; exact hmax)

theorem MovementFailure.of_applied {b b' : Balances} {account : AccountRef} {delta : ℤ}
    {err : LedgerError} {e : AccountRef × ℤ} (happlied : Applied b b' [e])
    (hne : e.1 ≠ account) (h : MovementFailure b' account delta err) :
    MovementFailure b account delta err := by
  have hbalance : b'.balance account = b.balance account := by
    rw [happlied.balance, deltaAt_singleton, if_neg hne, add_zero]
  cases h with
  | notOpen hid h => exact .notOpen hid fun hmem => h ((happlied.children _).mpr hmem)
  | negative h => exact .negative (hbalance ▸ h)
  | exceeds h => exact .exceeds (hbalance ▸ h)

theorem foldlM_applyAccountDelta_error {b : Balances} {moves : List (AccountRef × ℤ)}
    {err : LedgerError} (hkeys : (moves.map Prod.fst).Nodup)
    (hfits : ∀ e ∈ moves, ∀ current : Amount, fitsI128 (current.toNat + e.2) = true)
    (h : moves.foldlM Balances.applyAccountDelta b = .error err) :
    ∃ e ∈ moves, MovementFailure b e.1 e.2 err := by
  induction moves generalizing b with
  | nil => cases h
  | cons e moves ih =>
      rw [List.map_cons, List.nodup_cons] at hkeys
      cases hstep : b.applyAccountDelta e with
      | error e' =>
          rw [List.foldlM_cons, hstep] at h
          obtain rfl := Except.error.inj h
          exact ⟨e, List.mem_cons_self,
            applyAccountDelta_error (hfits e List.mem_cons_self) hstep⟩
      | ok next =>
          rw [List.foldlM_cons, hstep] at h
          have hzero : fitsI128 e.2 = true := by
            simpa using hfits e List.mem_cons_self 0
          have happlied := applyAccountDelta_spec hzero hstep
          obtain ⟨m, hm, hfailure⟩ := ih hkeys.2
            (fun m hm => hfits m (List.mem_cons_of_mem _ hm)) h
          refine ⟨m, List.mem_cons_of_mem _ hm, hfailure.of_applied happlied fun heq => ?_⟩
          exact hkeys.1 (heq ▸ List.mem_map_of_mem hm)

theorem applyFailure_of_accepted {b : Balances} {e : Entry} {err : LedgerError}
    (hlen : e.postings.length < 2 ^ 62) (hcons : e.checkConservation = .ok ())
    (h : b.applyEntry e = .error err) : ApplyFailure b e err := by
  obtain ⟨-, -, deltas, hagg, hrule, hshape⟩ := checkConservation_iff_stages.mp hcons
  obtain ⟨deltas', hagg', -, hfits⟩ := noOverflow hlen
  rw [hagg, Except.ok.injEq] at hagg'
  subst hagg'
  have hwith : ∀ mid : Balances,
      mid.applyWith e.body.postingRule e.postings = mid.applyDeltas deltas := by
    intro mid
    rw [Balances.applyWith, hagg]
    change (do checkPostingRule deltas e.body.postingRule; mid.applyDeltas deltas) = _
    rw [hrule]
    rfl
  have hdispatch : ∀ mid : Balances, b.openDeclared e.body = .ok mid →
      b.applyEntry e = mid.applyDeltas deltas := by
    intro mid hopened
    rw [← hwith mid, Balances.applyEntry, hopened]
    cases e.body.postingRule with
    | balanced => rfl
    | boundary => rfl
    | boundaryParent => rfl
  have hmoves : ∀ mid : Balances, mid.applyDeltas deltas = .error err →
      ∃ account delta, netDelta e.postings account = some delta
        ∧ MovementFailure mid account delta err := by
    intro mid herr
    have hkeys : (deltas.toList.map Prod.fst).Nodup := by
      rw [ExtTreeMap.map_fst_toList_eq_keys]
      exact ExtTreeMap.nodup_keys
    obtain ⟨m, hm, hfailure⟩ := foldlM_applyAccountDelta_error hkeys hfits herr
    refine ⟨m.1, m.2, ?_, hfailure⟩
    rw [← (aggregateDeltas_spec hagg).getElem?_eq]
    exact ExtTreeMap.mem_toList_iff_getElem?_eq_some.mp hm
  cases hopened : b.openDeclared e.body with
  | error e' =>
      rw [Balances.applyEntry, hopened] at h
      obtain rfl := Except.error.inj h
      cases hbody : e.body with
      | openAccount child kind =>
          simp only [hbody, Balances.openDeclared, Balances.openAccount] at hopened
          split at hopened
          · obtain rfl := Except.error.inj hopened
            exact .alreadyOpen ⟨kind, hbody⟩ (by simpa using ‹_›)
          · cases hopened
      | _ =>
          simp only [hbody, Balances.openDeclared] at hopened
          cases hopened
  | ok mid =>
      rw [hdispatch mid hopened] at h
      obtain ⟨account, delta, hnet, hfailure⟩ := hmoves mid h
      cases hbody : e.body with
      | openAccount child kind =>
          -- an opening has no postings that could fail
          simp only [Entry.validateShape, hbody, ite_ok_eq_ok, and_true, List.isEmpty_iff] at hshape
          rw [hshape] at hnet
          simp [netDelta] at hnet
      | _ =>
          simp only [hbody, Balances.openDeclared, Except.ok.injEq] at hopened
          subst hopened
          exact .movement hnet hfailure

/-- The check accepts an entry exactly when the required authorisation is there, the amount is
positive and the net deltas are those its body and role call for; what it accepts fails to apply
only for what the balances are. -/
theorem checkConservation_exact {e : Entry} (hlen : e.postings.length * 32 < 2 ^ 63) :
    (e.checkConservation = .ok () ↔ e.HasAuth ∧ e.body.Positive
      ∧ e.body.Canonical (netDelta e.postings))
    ∧ ∀ (b : Balances) (err : LedgerError), e.checkConservation = .ok () →
      b.applyEntry e = .error err → ApplyFailure b e err := by
  have hlt : e.postings.length < 2 ^ 62 := by omega
  refine ⟨?_, fun b err hcons herr => applyFailure_of_accepted hlt hcons herr⟩
  obtain ⟨deltas, hagg, -⟩ := aggregateDeltas_exists hlt
  have hnet : (fun x => deltas[x]?) = netDelta e.postings :=
    funext (aggregateDeltas_spec hagg).getElem?_eq
  rw [checkConservation_iff_stages]
  constructor
  · intro ⟨hauth, _, deltas', hagg', _, hshape⟩
    rw [hagg, Except.ok.injEq] at hagg'
    subst hagg'
    obtain ⟨hpos, hcanonical⟩ := (validateShape_iff hagg).mp hshape
    exact ⟨hauth, hpos, hnet ▸ hcanonical⟩
  · intro ⟨hauth, hpos, hcanonical⟩
    rw [← hnet] at hcanonical
    refine ⟨hauth, ?_, deltas, hagg, hcanonical.rule hpos hlt hagg,
      (validateShape_iff hagg).mpr ⟨hpos, hcanonical⟩⟩
    intro key sig hbody
    rw [hbody] at hcanonical
    exact hcanonical

end

section Concrete

open Concrete

def nettedPayment : Entry where
  ledgerId := (9 : ℕ)
  seq := 0
  height := 0
  prevHash := (0 : ℕ)
  issuedAt := 0
  body := .transfer (1 : ℕ) 5 .direct
  postings := nettedPostings
  auth := some
    { operator := (4 : ℕ), nonce := 1, orderHash := (1 : ℕ)
      signature := ((4 : ℕ), (0 : ℕ)) }

/-- It is accepted, for its net deltas are those of a direct payment. -/
theorem checkConservation_exact_netted :
    nettedPayment.checkConservation = .ok ()
      ∧ nettedPayment.body.Canonical (netDelta nettedPayment.postings) := by
  have hexact := (checkConservation_exact (e := nettedPayment) (by decide)).1
  have hcons : nettedPayment.checkConservation = .ok () := by decide
  exact ⟨hcons, (hexact.mp hcons).2.2⟩

end Concrete

end Cawala
