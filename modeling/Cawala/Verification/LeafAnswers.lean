import Cawala.Verification.RouteAgreement
import Cawala.Verification.SettleOrigin

/-! # What a leaf tells its users

Every answer that reports an order as booked names an entry of the leaf's own log, or a proof
that is known to be good. The settlements in flight and the remembered outcomes follow the
log. -/

namespace Cawala

open Std (ExtTreeMap)
open Library Library.Transaction

variable [Crypto] [Postcard]

/-- What is known of a proven success: the order, the position and the hash of its last entry,
and the proof of that entry. -/
abbrev Evidence : Type := Hash → UInt64 → Hash → EntryProofV1 → Prop

def Evidence.Within (known known' : Evidence) : Prop :=
  ∀ orderHash seq hash proof, known orderHash seq hash proof → known' orderHash seq hash proof

/-! ## Truthful answers -/

/-- What a status says is so: an applied order is in the log of the leaf as the direct transfer
that is named, or there is evidence of the entry that is named; a retry names the first entry of
the order, or one there is evidence of. -/
def SettlementStatusV2.Truthful (known : Evidence) (frames : List SignedEntry) (orderHash : Hash)
    (proof : Option EntryProofV1) : SettlementStatusV2 → Prop
  | .applied seq hash =>
      (∃ order, order.hash = orderHash ∧ HoldsHop frames order order.directHop seq hash)
        ∨ orderHash ∈ payments frames ∧ ∃ p, proof = some p ∧ known orderHash seq hash p
  | .duplicate seq hash =>
      NamesFirst frames orderHash seq hash
        ∨ orderHash ∈ payments frames ∧ ∃ p, proof = some p ∧ known orderHash seq hash p
  | .partially _ _ | .indeterminate _ => orderHash ∈ payments frames
  | .rejected _ => True

def VersionedLedgerPayload.Truthful (known : Evidence) (frames : List SignedEntry) :
    VersionedLedgerPayload → Prop
  | .orderResultV1 r => r.status ≠ .rejected → ∃ seq hash, r.entrySeq = some seq
      ∧ r.entryHash = some hash ∧ NamesFirst frames r.orderHash seq hash
      ∧ (r.status = .applied → ∃ order, order.hash = r.orderHash
        ∧ HoldsHop frames order order.directHop seq hash)
  | .orderResultV2 r => r.status.Truthful known frames r.orderHash none
  | .orderResultV3 r => r.status.Truthful known frames r.orderHash r.proof
  | _ => True

def NodeOutput.Truthful (known : Evidence) (frames : List SignedEntry) : NodeOutput → Prop
  | .journal order => order.hash ∈ payments frames
  | .ledger message => message.payload.Truthful known frames
  | _ => True

/-- An output that stays at the node or goes to a browser. -/
def NodeOutput.Plain : NodeOutput → Prop
  | .settle _ _ | .relay _ => False
  | _ => True

section Truthful

variable {known known' : Evidence} {frames frames' : List SignedEntry} {orderHash : Hash}

omit [Postcard] in
theorem payments_mono (hgrown : frames <+: frames') (h : orderHash ∈ payments frames) :
    orderHash ∈ payments frames' := (hgrown.filterMap SignedEntry.payment).subset h

theorem NamesFirst.mem {seq : UInt64} {hash : Hash} (h : NamesFirst frames orderHash seq hash) :
    orderHash ∈ payments frames := by
  obtain ⟨s, hfirst, -⟩ := h
  obtain ⟨before, after, rfl, -⟩ := hfirst.split
  exact List.mem_filterMap.mpr ⟨s, by simp, hfirst.payment⟩

/-- What was said stays so while the log and the evidence grow. -/
theorem SettlementStatusV2.Truthful.imp {proof : Option EntryProofV1}
    {status : SettlementStatusV2} (h : status.Truthful known frames orderHash proof)
    (hgrown : frames <+: frames') (hknown : known.Within known') :
    status.Truthful known' frames' orderHash proof := by
  have hevidence : ∀ seq hash, orderHash ∈ payments frames
      ∧ (∃ p, proof = some p ∧ known orderHash seq hash p) →
      orderHash ∈ payments frames' ∧ ∃ p, proof = some p ∧ known' orderHash seq hash p := by
    intro seq hash hknows
    obtain ⟨hmem, p, hp, hp'⟩ := hknows
    exact ⟨payments_mono hgrown hmem, p, hp, hknown _ _ _ _ hp'⟩
  cases status with
  | applied seq hash =>
      refine Or.imp (fun hdirect => ?_) (hevidence seq hash) h
      obtain ⟨order, horder, hholds⟩ := hdirect
      exact ⟨order, horder, hholds.mono hgrown⟩
  | duplicate seq hash => exact Or.imp (·.mono hgrown) (hevidence seq hash) h
  | partially failedAt reason => exact payments_mono hgrown h
  | rejected reason => trivial
  | indeterminate reason => exact payments_mono hgrown h

theorem NodeOutput.Truthful.imp {out : NodeOutput} (h : out.Truthful known frames)
    (hgrown : frames <+: frames') (hknown : known.Within known') :
    out.Truthful known' frames' := by
  cases out with
  | journal order => exact payments_mono hgrown h
  | ledger message =>
      obtain ⟨dst, replyTo, queryId, payload⟩ := message
      cases payload with
      | orderResultV1 r =>
          intro hstatus
          obtain ⟨seq, hash, hseq, hhash, hnames, happlied⟩ := h hstatus
          refine ⟨seq, hash, hseq, hhash, hnames.mono hgrown, ?_⟩
          intro hst
          obtain ⟨order, horder, hholds⟩ := happlied hst
          exact ⟨order, horder, hholds.mono hgrown⟩
      | orderResultV2 r => exact SettlementStatusV2.Truthful.imp h hgrown hknown
      | orderResultV3 r => exact SettlementStatusV2.Truthful.imp h hgrown hknown
      | balanceReceiptV1 receipt => trivial
      | other => trivial
  | audit paymentId hop check => trivial
  | settle dst payload => trivial
  | relay e => trivial

theorem NodeOutput.Truthful.mono {out : NodeOutput} (h : out.Truthful known frames)
    (hgrown : frames <+: frames') : out.Truthful known frames' :=
  h.imp hgrown fun _ _ _ _ hknows => hknows

theorem settlementReply_truthful {browser : PeerRef} {replyTo : MsgId}
    {status : SettlementStatusV2} {balance : Option BalanceReceiptV1}
    {proof : Option EntryProofV1} (h : status.Truthful known frames orderHash proof) :
    (settlementReply browser replyTo orderHash status balance proof).Truthful known frames := by
  cases status <;> exact h

end Truthful

/-! ## The invariant of a leaf -/

def TerminalRecord.Sound (known : Evidence) (paymentId : Hash) (t : TerminalRecord) : Prop :=
  match t.outcome with
  | .applied seq hash _ _ => ∃ p, t.proof = some p ∧ known paymentId seq hash p
  | .rejected _ => True

/-- What holds of a settlement in flight: it is the one its key says, and its reservation is the
first entry of its order. -/
structure PendingSettlement.Reserved (frames : List SignedEntry) (paymentId : Hash)
    (p : PendingSettlement) : Prop where
  id : p.order.hash = paymentId
  replyV2 : p.replyV2 = true
  names : NamesFirst frames paymentId p.localSeq p.localHash

/-- What holds of a leaf between its dispatches. -/
structure LeafSound (key : LedgerSecretKey) (known : Evidence) (node : LedgerNode) : Prop where
  desk : DeskSound key node.desk
  pending : ∀ (id : Hash) (p : PendingSettlement), node.manager.pending[id]? = some p →
    p.Reserved node.desk.frames id
  terminal : ∀ (id : Hash) (t : TerminalRecord), node.manager.terminal[id]? = some t →
    id ∈ payments node.desk.frames ∧ t.Sound known id

/-- What every dispatch does: the leaf stays sound, its log grows, and all it says is so. -/
structure LeafStep (key : LedgerSecretKey) (known : Evidence) (node : LedgerNode)
    (outputs : List NodeOutput) (after : LedgerNode) : Prop where
  sound : LeafSound key known after
  grown : node.desk.frames <+: after.desk.frames
  truthful : ∀ out ∈ outputs, out.Truthful known after.desk.frames

section Invariant

variable {key : LedgerSecretKey} {known : Evidence} {node : LedgerNode} {desk after : Desk}
  {frames frames' : List SignedEntry}

theorem PendingSettlement.Reserved.mono {id : Hash} {p : PendingSettlement}
    (h : p.Reserved frames id) (hgrown : frames <+: frames') : p.Reserved frames' id :=
  ⟨h.id, h.replyV2, h.names.mono hgrown⟩

/-- A leaf stays sound when its log grows and its settlements stay. -/
theorem LeafSound.withDesk (h : LeafSound key known node) (hdesk : DeskSound key desk)
    (hgrown : node.desk.frames <+: desk.frames) : LeafSound key known { node with desk } where
  desk := hdesk
  pending id p hp := (h.pending id p hp).mono hgrown
  terminal id t ht := ⟨payments_mono hgrown (h.terminal id t ht).1, (h.terminal id t ht).2⟩

theorem Reread.grown (h : Reread key desk after) : desk.frames <+: after.frames := by
  rw [h.frames]

theorem LeafSound.reread (h : LeafSound key known node) (hdesk : Reread key node.desk desk) :
    LeafSound key known { node with desk } := h.withDesk hdesk.sound hdesk.grown

theorem LeafSound.reserve (h : LeafSound key known node) {p : PendingSettlement}
    (hp : p.Reserved node.desk.frames p.order.hash) :
    LeafSound key known { node with manager := (node.manager.reserve p).2 }
      ∧ ∀ evicted, (node.manager.reserve p).1 = some evicted →
          ∃ id, evicted.Reserved node.desk.frames id := by
  obtain ⟨hentries, hevicted⟩ := LazyQueue.put_every (q := node.manager.pendingQueue)
    (P := fun id p => PendingSettlement.Reserved node.desk.frames id p) h.pending maxPending hp
  exact ⟨⟨h.desk, hentries, h.terminal⟩, hevicted⟩

theorem LeafSound.takePending (h : LeafSound key known node) (paymentId : Hash) :
    LeafSound key known { node with manager := (node.manager.takePending paymentId).2 } where
  desk := h.desk
  pending id p hp := by
    rw [SettlementManager.takePending, ExtTreeMap.getElem?_erase] at hp
    split at hp
    · cases hp
    · exact h.pending id p hp
  terminal := h.terminal

theorem LeafSound.sweepExpired (h : LeafSound key known node) (now : UInt64) :
    LeafSound key known { node with manager := (node.manager.sweepExpired now).2 }
      ∧ ∀ p ∈ (node.manager.sweepExpired now).1, ∃ id, p.Reserved node.desk.frames id := by
  obtain ⟨hentries, hswept⟩ := LazyQueue.removeAll_every
    (P := fun id p => PendingSettlement.Reserved node.desk.frames id p) h.pending
    (node.manager.expired now)
  exact ⟨⟨h.desk, hentries, h.terminal⟩, hswept⟩

theorem LeafSound.recordTerminal (h : LeafSound key known node) {paymentId : Hash}
    {t : TerminalRecord} (hmem : paymentId ∈ payments node.desk.frames)
    (ht : t.Sound known paymentId) :
    LeafSound key known { node with manager := node.manager.recordTerminal paymentId t } where
  desk := h.desk
  pending := h.pending
  terminal := (LazyQueue.put_every (q := node.manager.terminalQueue)
    (P := fun id t => id ∈ payments node.desk.frames ∧ TerminalRecord.Sound known id t) h.terminal
    maxTerminal ⟨hmem, ht⟩).1

theorem LeafSound.known_mono {known' : Evidence} (h : LeafSound key known node)
    (hknown : known.Within known') : LeafSound key known' node where
  desk := h.desk
  pending := h.pending
  terminal id t ht := by
    obtain ⟨hmem, hsound⟩ := h.terminal id t ht
    refine ⟨hmem, ?_⟩
    unfold TerminalRecord.Sound at hsound ⊢
    cases houtcome : t.outcome with
    | applied seq hash proof intermediates =>
        simp only [houtcome] at hsound ⊢
        obtain ⟨p, hp, hevidence⟩ := hsound
        exact ⟨p, hp, hknown _ _ _ _ hevidence⟩
    | rejected reason => trivial

theorem LeafStep.of_reread (h : LeafSound key known node) (hdesk : Reread key node.desk desk)
    {outputs : List NodeOutput} (hout : ∀ out ∈ outputs, out.Truthful known desk.frames) :
    LeafStep key known node outputs { node with desk } := ⟨h.reread hdesk, hdesk.grown, hout⟩

theorem LeafStep.quiet (h : LeafSound key known node) : LeafStep key known node [] node :=
  .of_reread h h.desk.reread fun _ hout => absurd hout List.not_mem_nil

theorem settlementReject_truthful (e : LedgerEnvelope) (orderHash : Hash) (reason : OrderReject) :
    (settlementReject e orderHash reason).Truthful known frames := trivial

theorem LeafStep.reject (h : LeafSound key known node) (e : LedgerEnvelope) (orderHash : Hash)
    (reason : OrderReject) :
    LeafStep key known node [settlementReject e orderHash reason] node :=
  .of_reread h h.desk.reread fun out hout => by
    rw [List.mem_singleton.mp hout]
    exact settlementReject_truthful e orderHash reason

end Invariant

/-! ## Timeouts -/

section Timeouts

variable {key : LedgerSecretKey} {known : Evidence} {node : LedgerNode} {desk : Desk}

variable (known) in
/-- The answer for a settlement that ran out of time says only that its order is in the log. -/
theorem timeoutResult_spec (hdesk : DeskSound key desk) (env : TxEnv) (record : Option NodeRecord)
    {p : PendingSettlement} {id : Hash} (hp : p.Reserved desk.frames id) :
    (timeoutResult env record p desk).1.Truthful known desk.frames
      ∧ (timeoutResult env record p desk).1.Plain
      ∧ Reread key desk (timeoutResult env record p desk).2 := by
  have hstatus : (SettlementStatusV2.indeterminate .internal).Truthful known desk.frames
      p.order.hash none := hp.id.symm ▸ hp.names.mem
  unfold timeoutResult
  rw [if_pos hp.replyV2]
  cases record with
  | none =>
      exact ⟨settlementReply_truthful hstatus, trivial, hdesk.reread⟩
  | some record =>
      exact ⟨settlementReply_truthful hstatus, trivial,
        payerReceipt_reread hdesk⟩

variable (known) in
theorem timeoutResults_spec (hdesk : DeskSound key desk) (record : Option NodeRecord)
    (receipts : ℕ → TxEnv) {expired : List (PendingSettlement × ℕ)}
    (hexpired : ∀ p ∈ expired, ∃ id, p.1.Reserved desk.frames id) :
    (∀ out ∈ (timeoutResults record receipts expired desk).1,
        out.Truthful known desk.frames ∧ out.Plain)
      ∧ Reread key desk (timeoutResults record receipts expired desk).2 := by
  induction expired generalizing desk with
  | nil => exact ⟨fun _ hout => absurd hout List.not_mem_nil, hdesk.reread⟩
  | cons head rest ih =>
      obtain ⟨pending, index⟩ := head
      obtain ⟨id, hid⟩ := hexpired (pending, index) List.mem_cons_self
      obtain ⟨htruthful, hplain, hreread⟩ : _ ∧ _ ∧ Reread key desk
          (timeoutResult (receipts index) record pending desk).2 :=
        timeoutResult_spec known hdesk (receipts index) record hid
      have hrest : ∀ p ∈ rest, ∃ id, p.1.Reserved
          (timeoutResult (receipts index) record pending desk).2.frames id := by
        intro p hp
        rw [hreread.frames]
        exact hexpired p (List.mem_cons_of_mem _ hp)
      obtain ⟨htail, hlast⟩ := ih hreread.sound hrest
      rw [hreread.frames] at htail
      refine ⟨?_, hreread.trans hlast⟩
      intro out hout
      rcases List.mem_cons.mp hout with rfl | hout
      · exact ⟨htruthful, hplain⟩
      · exact htail out hout

/-- A sweep appends nothing, and its answers are plain. -/
theorem sweepSettlements_step (h : LeafSound key known node) (env : DispatchEnv) :
    LeafStep key known node (sweepSettlements env node).1 (sweepSettlements env node).2
      ∧ (∀ out ∈ (sweepSettlements env node).1, out.Plain)
      ∧ (sweepSettlements env node).2.desk.frames = node.desk.frames := by
  obtain ⟨hsound, hswept⟩ := h.sweepExpired env.now
  have hexpired : ∀ p ∈ (node.manager.sweepExpired env.now).1.zipIdx,
      ∃ id, p.1.Reserved node.desk.frames id := by
    intro p hp
    exact hswept p.1 (List.fst_mem_of_mem_zipIdx hp)
  obtain ⟨hout, hreread⟩ := timeoutResults_spec known h.desk env.record env.receipts hexpired
  refine ⟨⟨hsound.reread hreread, hreread.grown, ?_⟩, fun out hmem => (hout out hmem).2,
    hreread.frames⟩
  intro out hmem
  exact (hout out hmem).1.mono hreread.grown

end Timeouts

/-! ## Orders -/

/-- A reservation: the payer's hop is entered, and a forward to the second signer of the route
carries it. -/
structure Reservation (key : LedgerSecretKey) (env : DispatchEnv) (sender : NodeId)
    (node : LedgerNode) (forward : SettleForwardV3) (s : SignedEntry) (mid : Desk) : Prop where
  payerRow : ∃ rows, node.desk.service.effectiveRegistry env.lookup = .ok rows
    ∧ rows.get forward.order.from_ = some forward.payerKey
  hop : ∃ record this derived signers registry seq hash carried, env.record = some record
    ∧ record.address = some this ∧ userChildAddress record sender = some forward.payerAddr
    ∧ routeSigners forward.payerAddr forward.payeeAddr = some signers
    ∧ deriveHop record this forward.payerAddr forward.payeeAddr = .ok derived
    ∧ assembleSettlementRegistry node.desk.service env.assembly forward.payerKey forward.order
        forward.auth = .ok registry
    ∧ Booking key forward.order forward.auth derived.role derived.first derived.second
        (fun _ => .ok registry) env.now node.desk mid seq hash s
    ∧ forward.hops = [{ signerAddr := this, entry := carried, proof := none }]

/-- What an order does to its leaf: nothing is appended, a transfer between two users of the leaf
is, or a reservation. -/
inductive OrderEffect (key : LedgerSecretKey) (known : Evidence) (env : DispatchEnv)
    (e : LedgerEnvelope) (node : LedgerNode) : List NodeOutput → LedgerNode → Prop where
  | answered (outputs after) (step : LeafStep key known node outputs after)
      (plain : ∀ out ∈ outputs, out.Plain) (frames : after.desk.frames = node.desk.frames) :
      OrderEffect key known env e node outputs after
  | direct (order auth record seq hash s mid outputs after)
      (step : LeafStep key known node outputs after)
      (plain : ∀ out ∈ outputs, out.Plain) (frames : after.desk.frames = mid.frames)
      (asked : e.payload.order? = some order) (sender : order.from_ = e.src.node)
      (record_eq : env.record = some record)
      (payer : childKind record order.from_ = some .user)
      (payee : childKind record order.to_ = some .user)
      (entered : Booking key order auth .direct (.child order.from_) (.child order.to_)
        (·.effectiveRegistry env.apply) env.now node.desk mid seq hash s) :
      OrderEffect key known env e node outputs after
  | reserved (forward s mid outputs after) (step : LeafStep key known node outputs after)
      (sends : ∀ out ∈ outputs, out.Plain ∨ ∃ next, out = .settle next (.forward forward))
      (sent : ∃ next, .settle next (.forward forward) ∈ outputs)
      (frames : after.desk.frames = mid.frames) (asked : e.payload.order? = some forward.order)
      (addressed : e.payload.payeeAddr? = some forward.payeeAddr)
      (reservation : Reservation key env e.src.node node forward s mid) :
      OrderEffect key known env e node outputs after

section Orders

variable {key : LedgerSecretKey} {known : Evidence} {env : DispatchEnv} {e : LedgerEnvelope}
  {node : LedgerNode}

theorem OrderEffect.reject (h : LeafSound key known node) (orderHash : Hash)
    (reason : OrderReject) :
    OrderEffect key known env e node [settlementReject e orderHash reason] node := by
  refine .answered _ _ (.reject h e orderHash reason) ?_ rfl
  intro out hout
  rw [List.mem_singleton.mp hout]
  exact trivial

theorem OrderEffect.quiet (h : LeafSound key known node) :
    OrderEffect key known env e node [] node :=
  .answered _ _ (.quiet h) (fun _ hout => absurd hout List.not_mem_nil) rfl

theorem OrderEffect.step {outputs : List NodeOutput} {after : LedgerNode}
    (h : OrderEffect key known env e node outputs after) :
    LeafStep key known node outputs after := by
  cases h with
  | answered _ _ step _ _ => exact step
  | direct _ _ _ _ _ _ _ _ _ step => exact step
  | reserved _ _ _ _ _ step => exact step

variable (env) in
theorem sameLeafOutcome_refused (sender : NodeId) (record : NodeRecord) (order : PaymentOrder)
    (auth : AuthRef) (recovered : Option EthAddress) {desk : Desk} (h : DeskSound key desk) :
    (∃ reason after, sameLeafOutcome env sender record order auth recovered desk
        = (.rejected reason, after) ∧ Reread key desk after)
      ∨ sameLeafOutcome env sender record order auth recovered desk
        = applyOrder env.apply order auth sender record env.now desk := by
  unfold sameLeafOutcome
  by_cases huser : isUserChild record sender = true
  · rw [if_neg (by simp [huser])]
    cases hgate : anchorGate record sender recovered with
    | error reason => exact Or.inl ⟨reason, desk, rfl, h.reread⟩
    | ok _ => exact Or.inr rfl
  · rw [if_pos (by simp [huser])]
    exact Or.inl ⟨.notAChild, desk, rfl, h.reread⟩

theorem applySameLeafOrder_booked (h : LeafSound key known node) (replyV2 : Bool)
    {record : NodeRecord} {order : PaymentOrder} {auth : AuthRef} {recovered : Option EthAddress}
    {outcome : ApplyOutcome} {mid : Desk} {seq : UInt64} {hash : Hash}
    (hsame : sameLeafOutcome env e.src.node record order auth recovered node.desk
      = (outcome, mid))
    (hstatus : outcome.status ≠ .rejected) (hseq : outcome.entrySeq = some seq)
    (hhash : outcome.entryHash = some hash) (hmid : DeskSound key mid)
    (hgrown : node.desk.frames <+: mid.frames) (hnames : NamesFirst mid.frames order.hash seq hash)
    (hdirect : outcome.status = .applied → HoldsHop mid.frames order order.directHop seq hash) :
    ∃ outputs after, applySameLeafOrder env e record order auth replyV2 recovered node
        = (outputs, after)
      ∧ LeafStep key known node outputs after ∧ (∀ out ∈ outputs, out.Plain)
      ∧ after.desk.frames = mid.frames := by
  have hreread : Reread key mid (payerReceipt (env.receipts 0) record order.from_ mid).2 :=
    payerReceipt_reread hmid
  have hgoes : node.desk.frames
      <+: (payerReceipt (env.receipts 0) record order.from_ mid).2.frames :=
    hreread.frames ▸ hgrown
  have hbooked : ∀ proof, outcome.settlementStatus.Truthful known mid.frames order.hash proof := by
    intro proof
    unfold ApplyOutcome.settlementStatus
    rw [hseq, hhash]
    cases hout : outcome.status with
    | applied => exact Or.inl ⟨order, rfl, hdirect hout⟩
    | duplicate => exact Or.inl hnames
    | rejected => exact absurd hout hstatus
  unfold applySameLeafOrder
  simp only [hsame, if_neg hstatus]
  refine ⟨_, _, rfl, ⟨h.withDesk hreread.sound hgoes, hgoes, ?_⟩, ?_, hreread.frames⟩
  · intro out hout
    rw [hreread.frames]
    rcases List.mem_cons.mp hout with rfl | hout
    · exact hnames.mem
    · rw [List.mem_singleton.mp hout]
      by_cases hv2 : replyV2 = true
      · simp only [if_pos hv2]
        apply settlementReply_truthful
        by_cases hproof : (sameLeafProof env record outcome mid).isNone = true
        · rw [if_pos hproof]
          exact hnames.mem
        · rw [if_neg hproof]
          exact hbooked _
      · simp only [if_neg hv2]
        intro _
        exact ⟨seq, hash, hseq, hhash, hnames, fun hst => ⟨order, rfl, hdirect hst⟩⟩
  · intro out hout
    rcases List.mem_cons.mp hout with rfl | hout
    · trivial
    · rw [List.mem_singleton.mp hout]
      by_cases hv2 : replyV2 = true
      · simp only [if_pos hv2]
        trivial
      · simp only [if_neg hv2]
        trivial

theorem applySameLeafOrder_effect (h : LeafSound key known node) {record : NodeRecord}
    (hrecord : env.record = some record) {order : PaymentOrder}
    (hasked : e.payload.order? = some order) (auth : AuthRef) (replyV2 : Bool)
    (recovered : Option EthAddress) :
    OrderEffect key known env e node
      (applySameLeafOrder env e record order auth replyV2 recovered node).1
      (applySameLeafOrder env e record order auth replyV2 recovered node).2 := by
  have hrefused : ∀ reason after, sameLeafOutcome env e.src.node record order auth recovered
      node.desk = (.rejected reason, after) → Reread key node.desk after →
      OrderEffect key known env e node
        (applySameLeafOrder env e record order auth replyV2 recovered node).1
        (applySameLeafOrder env e record order auth replyV2 recovered node).2 := by
    intro reason after hsame hreread
    unfold applySameLeafOrder
    simp only [hsame]
    refine .answered _ _ (.of_reread h hreread ?_) ?_ hreread.frames
    · intro out hout
      rw [List.mem_singleton.mp hout]
      by_cases hv2 : replyV2 = true
      · simp only [if_pos hv2]
        exact settlementReply_truthful trivial
      · simp only [if_neg hv2]
        intro hstatus
        exact absurd rfl hstatus
    · intro out hout
      rw [List.mem_singleton.mp hout]
      by_cases hv2 : replyV2 = true
      · simp only [if_pos hv2]
        trivial
      · simp only [if_neg hv2]
        trivial
  rcases sameLeafOutcome_refused env e.src.node record order auth recovered h.desk with
    ⟨reason, after, hsame, hreread⟩ | hsame
  · exact hrefused reason after hsame hreread
  · obtain ⟨outcome, hshape, happlying⟩ := applyOrder_applying env.apply h.desk order auth
      e.src.node record env.now
    have hsender : (applyOrder env.apply order auth e.src.node record env.now node.desk).1.status
        ≠ .rejected → order.from_ = e.src.node ∧ childKind record order.from_ = some .user
          ∧ childKind record order.to_ = some .user := applyOrder_sender
    generalize hmid : (applyOrder env.apply order auth e.src.node record env.now node.desk).2 = mid
      at happlying
    have hboth : sameLeafOutcome env e.src.node record order auth recovered node.desk
        = (outcome.toApply, mid) := by rw [hsame, ← hshape, ← hmid]
    cases happlying with
    | rejected reason _ hreread => exact hrefused reason mid hboth hreread
    | duplicate seq hash _ hsynced hframes hnames =>
        obtain ⟨outputs, after, heq, hstep, hplain, hlog⟩ := applySameLeafOrder_booked h
          replyV2 hboth (by simp [HopOutcome.toApply]) rfl rfl hsynced.deskSound
          hsynced.grown (hframes ▸ hnames) fun heq => (by cases heq)
        rw [heq]
        exact .answered _ _ hstep hplain (hlog.trans hframes)
    | applied seq hash s _ hentered =>
        obtain ⟨outputs, after, heq, hstep, hplain, hlog⟩ := applySameLeafOrder_booked h
          replyV2 hboth (by simp [HopOutcome.toApply]) rfl rfl
          hentered.synced.deskSound hentered.synced.grown hentered.namesFirst fun _ =>
            Booking.holdsHop hentered
        rw [heq]
        have husers := hsender (by rw [hshape]; simp [HopOutcome.toApply])
        exact .direct order auth record seq hash s mid _ _ hstep hplain hlog hasked husers.1 hrecord
          husers.2.1 husers.2.2 hentered

variable (env e) in
/-- A retry is answered from what is remembered, and nothing is appended. -/
theorem answerDuplicate_effect (h : LeafSound key known node) (record : NodeRecord)
    {order : PaymentOrder} {seq : UInt64} {hash : Hash}
    (hnames : NamesFirst node.desk.frames order.hash seq hash) :
    LeafStep key known node (answerDuplicate env e record order seq hash node).1
        (answerDuplicate env e record order seq hash node).2
      ∧ (∀ out ∈ (answerDuplicate env e record order seq hash node).1, out.Plain)
      ∧ (answerDuplicate env e record order seq hash node).2.desk.frames = node.desk.frames := by
  unfold answerDuplicate
  by_cases hflight : node.manager.terminal[order.hash]?.isNone
      ∧ node.manager.pending[order.hash]?.isSome
  · simp only [if_pos hflight]
    exact ⟨.quiet h, fun _ hout => absurd hout List.not_mem_nil, trivial⟩
  · simp only [if_neg hflight]
    have hreread : Reread key node.desk
        (payerReceipt (env.receipts 0) record order.from_ node.desk).2 := payerReceipt_reread h.desk
    have hstatus : (duplicateStatus node.manager.terminal[order.hash]? seq hash).Truthful known
        node.desk.frames order.hash (node.manager.terminal[order.hash]?.bind (·.proof)) := by
      cases hterminal : node.manager.terminal[order.hash]? with
      | none => exact Or.inl hnames
      | some term =>
          obtain ⟨hmem, hsound⟩ := h.terminal _ term hterminal
          cases houtcome : term.outcome with
          | applied terminalSeq terminalHash proof intermediates =>
              simp only [TerminalRecord.Sound, houtcome] at hsound
              simp only [duplicateStatus, houtcome]
              exact Or.inr ⟨hmem, hsound⟩
          | rejected reason =>
              simp only [duplicateStatus, houtcome]
              cases reason with
              | intermediateRejected failedAt reason => exact hmem
              | malformed => exact hmem
              | payerRejected => trivial
              | routeTooDeep => trivial
    refine ⟨.of_reread h hreread ?_, ?_, hreread.frames⟩
    · intro out hout
      rw [List.mem_singleton.mp hout, hreread.frames]
      exact settlementReply_truthful hstatus
    · intro out hout
      rw [List.mem_singleton.mp hout]
      trivial

variable (env) in
theorem reserveHop_cases (hdesk : DeskSound key node.desk) (order : PaymentOrder) (auth : AuthRef)
    (derived : DerivedHop) :
    (∃ reason row entry after, reserveHop env order auth derived node.desk
        = (.rejected reason, row, entry, after) ∧ Reread key node.desk after)
      ∨ (∃ seq hash row entry after, reserveHop env order auth derived node.desk
          = (.duplicate seq hash, row, entry, after)
        ∧ Reread key node.desk after ∧ NamesFirst node.desk.frames order.hash seq hash)
      ∨ ∃ rows payerKey registry seq hash s carried after,
          reserveHop env order auth derived node.desk
            = (.applied seq hash, some payerKey, some carried, after)
          ∧ node.desk.service.effectiveRegistry env.lookup = .ok rows
          ∧ rows.get order.from_ = some payerKey
          ∧ assembleSettlementRegistry node.desk.service env.assembly payerKey order auth
            = .ok registry
          ∧ Booking key order auth derived.role derived.first derived.second
              (fun _ => .ok registry) env.now node.desk after seq hash s := by
  unfold reserveHop
  cases hregistry : node.desk.service.effectiveRegistry env.lookup with
  | error e => exact Or.inl ⟨_, _, _, _, rfl, hdesk.reread⟩
  | ok rows =>
    cases hget : rows.get order.from_ with
    | none =>
        refine Or.inl ⟨.unauthorized, none, none, node.desk, ?_, hdesk.reread⟩
        simp only [Except.toOption, Option.bind_some, hget]
    | some payerKey =>
      cases hassembly : assembleSettlementRegistry node.desk.service env.assembly payerKey order
          auth with
      | error reason =>
          refine Or.inl ⟨reason, none, none, node.desk, ?_, hdesk.reread⟩
          simp only [Except.toOption, Option.bind_some, hget, hassembly]
      | ok registry =>
        have happlying := applyHop_applying env.apply hdesk order auth derived.role derived.first
          derived.second registry env.now
        cases hhop : applyHop env.apply order auth derived.role derived.first derived.second
            registry env.now node.desk with
        | mk outcome after =>
          rw [hhop] at happlying
          simp only [Except.toOption, Option.bind_some, hget, hassembly, hhop]
          cases happlying with
          | rejected reason _ hreread => exact Or.inl ⟨_, _, _, _, rfl, hreread⟩
          | duplicate seq hash _ hsynced hframes hnames =>
              exact Or.inr (Or.inl ⟨_, _, _, _, _, rfl, ⟨hframes, hsynced.deskSound⟩, hnames⟩)
          | applied seq hash s _ hentered =>
              obtain ⟨carried, hcarried⟩ := hentered.entryAt
              refine Or.inr (Or.inr ⟨rows, payerKey, registry, seq, hash, s, carried, after, ?_,
                rfl, hget, hassembly, hentered⟩)
              simp only [hcarried]

variable (env e) in
/-- A reservation that was entered is remembered and sent on. -/
theorem startSettlement_effect (h : LeafSound key known node) (record : NodeRecord)
    (p : PendingSettlement) (hp : p.Reserved node.desk.frames p.order.hash)
    (forward : SettleForwardV3) (hbound : forward.hopsWithinBound = true)
    {signers : List OctAddr} {next : OctAddr} (hnext : signers[1]? = some next) :
    LeafStep key known node (startSettlement env e record p forward signers node).1
        (startSettlement env e record p forward signers node).2
      ∧ (∀ out ∈ (startSettlement env e record p forward signers node).1,
          out.Plain ∨ ∃ next, out = .settle next (.forward forward))
      ∧ .settle next (.forward forward) ∈ (startSettlement env e record p forward signers node).1
      ∧ (startSettlement env e record p forward signers node).2.desk.frames
          = node.desk.frames := by
  obtain ⟨hsound, hevicted⟩ := h.reserve hp
  have hmem : p.order.hash ∈ payments node.desk.frames := hp.names.mem
  unfold startSettlement
  simp only [hbound, Bool.not_true, Bool.false_eq_true, if_false, hnext, Option.map_some,
    Option.toList_some]
  generalize node.manager.reserve p = result at hsound hevicted ⊢
  obtain ⟨evicted, manager⟩ := result
  cases evicted with
  | none =>
      refine ⟨⟨hsound, List.prefix_rfl, ?_⟩, ?_, by simp, rfl⟩
      · intro out hout
        rcases List.mem_cons.mp hout with rfl | hout
        · exact hmem
        · rw [List.mem_singleton.mp hout]
          trivial
      · intro out hout
        rcases List.mem_cons.mp hout with rfl | hout
        · exact Or.inl trivial
        · exact Or.inr ⟨next, List.mem_singleton.mp hout⟩
  | some evicted =>
      obtain ⟨id, hid⟩ := hevicted evicted rfl
      obtain ⟨htruthful, hplain, hreread⟩ := timeoutResult_spec known h.desk
        (env.receipts 0) (some record) hid
      refine ⟨⟨hsound.reread hreread, hreread.grown, ?_⟩, ?_, by simp, hreread.frames⟩
      · intro out hout
        rw [hreread.frames]
        simp only [List.mem_cons, List.mem_append, List.not_mem_nil, or_false] at hout
        rcases hout with rfl | rfl | rfl
        · exact hmem
        · exact htruthful
        · trivial
      · intro out hout
        simp only [List.mem_cons, List.mem_append, List.not_mem_nil, or_false] at hout
        rcases hout with rfl | rfl | rfl
        · exact Or.inl trivial
        · exact Or.inl hplain
        · exact Or.inr ⟨next, rfl⟩

theorem handleSettlementOrder_effect (h : LeafSound key known node) {record : NodeRecord}
    (hrecord : env.record = some record) {order : PaymentOrder}
    (hasked : e.payload.order? = some order) (auth : AuthRef) {payeeAddr : OctAddr}
    (haddressed : e.payload.payeeAddr? = some payeeAddr) (recovered : Option EthAddress) :
    OrderEffect key known env e node
      (handleSettlementOrder env e record order auth payeeAddr recovered node).1
      (handleSettlementOrder env e record order auth payeeAddr recovered node).2 := by
  unfold handleSettlementOrder
  cases hgate : anchorGate record e.src.node recovered with
  | error reason => exact .reject h _ _
  | ok _ =>
  cases hpayer : userChildAddress record e.src.node with
  | none => exact .quiet h
  | some payerAddr =>
  cases hthis : record.address with
  | none => exact .quiet h
  | some this =>
  dsimp only
  cases hleaf : payeeAddr.parent with
  | none => exact .reject h _ _
  | some payeeLeafAddr =>
  cases hsigners : routeSigners payerAddr payeeAddr with
  | none => exact .reject h _ _
  | some signers =>
  by_cases hdeep : signers.length > maxSettleHops
  · simp only [if_pos hdeep]
    exact .reject h _ _
  · simp only [if_neg hdeep]
    cases hderived : deriveHop record this payerAddr payeeAddr with
    | error reason => exact .reject h _ _
    | ok derived =>
      dsimp only
      rcases reserveHop_cases env h.desk order auth derived with
        ⟨reason, row, entry, after, heq, hreread⟩
        | ⟨seq, hash, row, entry, after, heq, hreread, hnames⟩
        | ⟨rows, payerKey, registry, seq, hash, s, carried, after, heq, hrows, hget, hassembly,
            hentered⟩
      · rw [heq]
        refine .answered _ _ (.of_reread h hreread ?_) ?_ hreread.frames
        · intro out hout
          rw [List.mem_singleton.mp hout]
          trivial
        · intro out hout
          rw [List.mem_singleton.mp hout]
          trivial
      · rw [heq]
        obtain ⟨hstep, hplain, hframes⟩ := answerDuplicate_effect env e (h.reread hreread)
          record (by rw [hreread.frames]; exact hnames)
        refine .answered _ _ ⟨hstep.sound, ?_, hstep.truthful⟩ hplain
          (hframes.trans hreread.frames)
        exact hreread.grown.trans hstep.grown
      · rw [heq]
        have hgrown := hentered.synced.grown
        have hsound := h.withDesk hentered.synced.deskSound hgrown
        obtain ⟨srcLeaf, dstLeaf, hroute⟩ := routeSigners_route hsigners
        have htwo : 1 < signers.length := hroute.two_le
        have hnext : signers[1]? = some signers[1] := List.getElem?_eq_getElem htwo
        obtain ⟨hstep, hsends, hsent, hframes⟩ := startSettlement_effect env e hsound record
          { browser := e.src, browserMsgId := e.msgId, order, auth, payerAddr
            payeeAddr, payeeLeafAddr, localSeq := seq, localHash := hash
            deadlineSecs := env.now + settleTimeoutSecs, replyV2 := true }
          ⟨rfl, rfl, hentered.namesFirst⟩
          { order, auth, payerKey, payerAddr, payeeAddr
            hops := [{ signerAddr := this, entry := carried, proof := none }] }
          rfl hnext
        refine .reserved _ s after _ _ ⟨hstep.sound, hgrown.trans hstep.grown, hstep.truthful⟩
          hsends ⟨_, hsent⟩ hframes hasked haddressed ⟨⟨rows, hrows, hget⟩, ?_⟩
        exact ⟨record, this, derived, signers, registry, seq, hash, carried, hrecord, hthis,
          hpayer, hsigners, hderived, hassembly, hentered, rfl⟩

theorem answerBalanceQuery_effect (h : LeafSound key known node) (queryId : UInt64) :
    OrderEffect key known env e node (answerBalanceQuery env e queryId node).1
      (answerBalanceQuery env e queryId node).2 := by
  unfold answerBalanceQuery
  cases hrecord : env.record with
  | none => exact .quiet h
  | some record =>
      by_cases haddr : userChildAddress record e.src.node ≠ some e.src.addr
      · simp only [if_pos haddr]
        exact .quiet h
      · simp only [if_neg haddr]
        have hreread : Reread key node.desk
            (freshReceipt (env.receipts 0) record e.src.node none node.desk).2 :=
          freshReceipt_reread h.desk
        refine .answered _ _ (.of_reread h hreread ?_) ?_ hreread.frames
        · intro out hout
          obtain ⟨receipt, -, rfl⟩ := List.mem_map.mp hout
          trivial
        · intro out hout
          obtain ⟨receipt, -, rfl⟩ := List.mem_map.mp hout
          trivial

theorem dispatchAddressedOrder_effect (h : LeafSound key known node) {order : PaymentOrder}
    (hasked : e.payload.order? = some order) (auth : AuthRef) {payeeAddr : OctAddr}
    (haddressed : e.payload.payeeAddr? = some payeeAddr) (recovered : Option EthAddress) :
    OrderEffect key known env e node
      (dispatchAddressedOrder env e order auth payeeAddr recovered node).1
      (dispatchAddressedOrder env e order auth payeeAddr recovered node).2 := by
  unfold dispatchAddressedOrder
  cases hrecord : env.record with
  | none => exact .quiet h
  | some record =>
      by_cases haddr : userChildAddress record e.src.node ≠ some e.src.addr
      · simp only [if_pos haddr]
        exact .reject h _ _
      · by_cases hlocal : isUserChild record order.to_ = true
        · simp only [if_neg haddr, if_pos hlocal]
          exact applySameLeafOrder_effect h hrecord hasked auth true recovered
        · simp only [if_neg haddr, if_neg hlocal]
          exact handleSettlementOrder_effect h hrecord hasked auth haddressed recovered

variable [EthPrimitives] [HashBytes]

/-- One ledger envelope: nothing is appended, a direct transfer is, or a reservation; and all
that is said is so. -/
theorem dispatchLedgerEnvelope_effect (h : LeafSound key known node) (env : DispatchEnv)
    (e : LedgerEnvelope) :
    OrderEffect key known env e node (dispatchLedgerEnvelope env e node).1
      (dispatchLedgerEnvelope env e node).2 := by
  unfold dispatchLedgerEnvelope
  cases hpayload : e.payload with
  | order payload =>
      have hasked : e.payload.order? = some payload.order := by rw [hpayload]; rfl
      cases payload with
      | v1 order auth =>
          cases hrecord : env.record with
          | none => exact .quiet h
          | some record => exact applySameLeafOrder_effect h hrecord hasked auth false none
      | v2 order auth payeeAddr =>
          have haddressed : e.payload.payeeAddr? = some payeeAddr := by rw [hpayload]; rfl
          exact dispatchAddressedOrder_effect h hasked auth haddressed none
      | v4 order auth payeeAddr eth =>
          dsimp only
          cases hrecovered : v4RecoveredAddress order payeeAddr eth with
          | none => exact .reject h _ _
          | some recovered =>
              have haddressed : e.payload.payeeAddr? = some payeeAddr := by rw [hpayload]; rfl
              exact dispatchAddressedOrder_effect h hasked auth haddressed (some recovered)
  | balanceQuery queryId => exact answerBalanceQuery_effect h queryId
  | other => exact .quiet h

end Orders

/-! ## Results -/

section Results

variable {key : LedgerSecretKey} {known : Evidence} {target : Target} {env : DispatchEnv}
  {src : PeerRef} {result : SettleResultV3} {node after : LedgerNode} {outputs : List NodeOutput}

variable (known) in
/-- A verdict that is remembered has a proof that was verified, and only such a verdict reports a
success. -/
theorem judgeResult_cases {pending : PendingSettlement} {service : LedgerService}
    {outcome : SettleOutcomeV3} {verdict : Verdict}
    (h : judgeResult target env pending service outcome = some verdict) :
    (∀ out ∈ verdict.notes, out.Plain ∧ ∀ frames, out.Truthful known frames)
      ∧ ((∃ seq hash proof intermediates, outcome = .applied seq hash proof intermediates
            ∧ verifyTerminalProof target proof pending.order pending.payeeLeafAddr seq hash
              = some true
            ∧ verdict.status = .applied seq hash ∧ verdict.proof = some proof)
          ∨ (verdict.resolved = false ∧ verdict.status = .indeterminate .internal)
          ∨ ∃ reason, outcome = .rejected reason
            ∧ verdict.status = settleRejectToStatus reason) := by
  cases outcome with
  | rejected reason =>
      obtain rfl := Option.some.inj h
      exact ⟨fun _ hout => absurd hout List.not_mem_nil, Or.inr (Or.inr ⟨reason, rfl, rfl⟩)⟩
  | applied seq hash proof intermediates =>
      simp only [judgeResult, Option.bind_eq_bind, Option.bind_eq_some_iff] at h
      obtain ⟨verified, hverified, h⟩ := h
      cases verified with
      | false =>
          obtain rfl := Option.some.inj h
          exact ⟨fun _ hout => absurd hout List.not_mem_nil, Or.inr (Or.inl ⟨rfl, rfl⟩)⟩
      | true =>
          simp only [if_true, Option.bind_eq_some_iff] at h
          obtain ⟨audited, haudit, h⟩ := h
          obtain rfl := Option.some.inj h
          refine ⟨?_, Or.inl ⟨seq, hash, proof, intermediates, rfl, hverified, rfl, rfl⟩⟩
          intro out hout
          have hnote : ∃ id hop check, out = .audit id hop check := by
            unfold auditIntermediates at haudit
            cases hregistry : service.effectiveRegistry env.lookup with
            | error e =>
                rw [hregistry] at haudit
                obtain rfl := Option.some.inj haudit
                exact ⟨_, _, _, List.mem_singleton.mp hout⟩
            | ok registry =>
                simp only [hregistry, Option.bind_eq_bind, Option.bind_eq_some_iff] at haudit
                obtain ⟨checked, -, haudit⟩ := haudit
                cases checked with
                | ok _ =>
                    obtain rfl := Option.some.inj haudit
                    exact absurd hout List.not_mem_nil
                | error check =>
                    obtain rfl := Option.some.inj haudit
                    exact ⟨_, _, _, List.mem_singleton.mp hout⟩
          obtain ⟨id, hop, check, rfl⟩ := hnote
          exact ⟨trivial, fun _ => trivial⟩

theorem resultReceipt_reread {pending : PendingSettlement} {status : SettlementStatusV2}
    {desk : Desk} (h : DeskSound key desk) :
    Reread key desk (resultReceipt env pending status desk).2 := by
  unfold resultReceipt
  split
  · exact h.reread
  · exact h.reread
  · exact payerReceipt_reread h

/-- A result changes no log. Its answer is so if a proof that is verified here is evidence. -/
theorem handleSettleResult_step (h : LeafSound key known node)
    (hknown : ∀ seq hash proof intermediates order leaf,
      result.outcome = .applied seq hash proof intermediates → order.hash = result.paymentId →
      verifyTerminalProof target proof order leaf seq hash = some true →
      known result.paymentId seq hash proof)
    (hresult : handleSettleResult target env src result node = some (outputs, after)) :
    LeafStep key known node outputs after ∧ (∀ out ∈ outputs, out.Plain)
      ∧ after.desk.frames = node.desk.frames := by
  have hquiet : some (([] : List NodeOutput), node) = some (outputs, after) →
      LeafStep key known node outputs after ∧ (∀ out ∈ outputs, out.Plain)
        ∧ after.desk.frames = node.desk.frames := by
    intro heq
    cases heq
    exact ⟨.quiet h, fun _ hout => absurd hout List.not_mem_nil, rfl⟩
  unfold handleSettleResult at hresult
  by_cases hbound : result.intermediatesWithinBound = true
  · simp only [hbound, Bool.not_true, Bool.false_eq_true, if_false] at hresult
    cases hpending : node.manager.pending[result.paymentId]? with
    | none =>
        rw [hpending] at hresult
        exact hquiet hresult
    | some pending =>
      rw [hpending] at hresult
      dsimp only at hresult
      by_cases hexpected : resultExpected src.addr pending result.outcome = true
      · simp only [hexpected, Bool.not_true, Bool.false_eq_true, if_false, Option.bind_eq_bind,
          Option.bind_eq_some_iff] at hresult
        obtain ⟨verdict, hverdict, heq⟩ := hresult
        cases heq
        obtain ⟨hnotes, hcases⟩ := judgeResult_cases known hverdict
        have hp := h.pending _ pending hpending
        have hmem : result.paymentId ∈ payments node.desk.frames := hp.names.mem
        have hreread : Reread key node.desk
            (resultReceipt env pending verdict.status node.desk).2 := resultReceipt_reread h.desk
        have htaken := h.takePending result.paymentId
        have hmanager : LeafSound key known { node with
            manager := if verdict.resolved then
              (node.manager.takePending result.paymentId).2.recordTerminal result.paymentId
                (terminalRecord pending result.outcome verdict)
              else (node.manager.takePending result.paymentId).2 } := by
          by_cases hresolved : verdict.resolved = true
          · simp only [if_pos hresolved]
            refine htaken.recordTerminal hmem ?_
            rcases hcases with ⟨seq, hash, proof, intermediates, hout, hverified, -, hproof⟩
              | ⟨hnot, -⟩ | ⟨reason, hout, -⟩
            · simp only [TerminalRecord.Sound, terminalRecord, hout]
              exact ⟨proof, hproof, hknown _ _ _ _ _ _ hout hp.id hverified⟩
            · rw [hnot] at hresolved
              cases hresolved
            · simp only [TerminalRecord.Sound, terminalRecord, hout]
          · simp only [if_neg hresolved]
            exact htaken
        have hstatus : verdict.status.Truthful known node.desk.frames pending.order.hash
            verdict.proof := by
          rw [hp.id]
          rcases hcases with ⟨seq, hash, proof, intermediates, hout, hverified, hstatus, hproof⟩
            | ⟨-, hstatus⟩ | ⟨reason, -, hstatus⟩
          · rw [hstatus, hproof]
            exact Or.inr ⟨hmem, proof, rfl, hknown _ _ _ _ _ _ hout hp.id hverified⟩
          · rw [hstatus]
            exact hmem
          · rw [hstatus]
            cases reason with
            | intermediateRejected failedAt reason => exact hmem
            | malformed => exact hmem
            | payerRejected => trivial
            | routeTooDeep => trivial
        have hanswer : ∀ balance, (answerSettlement pending verdict balance).Plain
            ∧ (answerSettlement pending verdict balance).Truthful known node.desk.frames := by
          intro balance
          unfold answerSettlement
          rw [if_pos hp.replyV2]
          exact ⟨trivial, settlementReply_truthful hstatus⟩
        refine ⟨⟨hmanager.reread hreread, hreread.grown, ?_⟩, ?_, hreread.frames⟩
        · intro out hout
          rw [hreread.frames]
          rcases List.mem_append.mp hout with hout | hout
          · exact (hnotes out hout).2 _
          · rw [List.mem_singleton.mp hout]
            exact (hanswer _).2
        · intro out hout
          rcases List.mem_append.mp hout with hout | hout
          · exact (hnotes out hout).1
          · rw [List.mem_singleton.mp hout]
            exact (hanswer _).1
      · simp only [hexpected, Bool.not_false, if_true] at hresult
        exact hquiet hresult
  · simp only [hbound, Bool.not_false, if_true] at hresult
    exact hquiet hresult

end Results

end Cawala
