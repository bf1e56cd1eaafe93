import Cawala.Model.SettleSigner
import Cawala.Verification.LeafAnswers
import Cawala.Verification.Settlement

/-! # Signers of a cascade

A forward moves value at a node only if it is this node's turn on the route, and what is sent on
carries at most one hop more. -/

namespace Cawala

open Library Library.Transaction

variable [Crypto] [Postcard]

/-! ## Places on a route -/

section Place

variable {this : OctAddr} {e : Envelope} {forward : SettleForwardV3} {place : SignerPlace}

/-- It is a node's turn: the route leads over it, and the envelope came along the signers before
it. -/
structure InTurn (this : OctAddr) (e : Envelope) (forward : SettleForwardV3)
    (place : SignerPlace) : Prop where
  route : routeSigners forward.payerAddr forward.payeeAddr = some place.signers
  bound : place.signers.length ≤ maxSettleHops
  index : place.index = forward.hops.length
  turn : place.signers[place.index]? = some this
  chain : e.hopChain.map (·.addr) = place.signers.take place.index
  later : 0 < place.index

omit [Postcard] in
theorem admitForward_eq_some (h : admitForward this e forward = some place) :
    InTurn this e forward place := by
  unfold admitForward at h
  split at h
  · cases h
  · split at h
    · cases h
    · next signers hsigners =>
        simp only [Option.ite_none_left_eq_some, not_not, Bool.not_eq_true, gt_iff_lt, not_lt]
          at h
        obtain ⟨hbound, hturn, hlength, hchain, hstarted, heq⟩ := h
        obtain rfl := Option.some.inj heq
        refine ⟨hsigners, hbound, rfl, hturn, hchain, ?_⟩
        have hne : e.hopChain ≠ [] := by simpa using hstarted
        exact hlength ▸ List.length_pos_iff.mpr hne

end Place

/-! ## Replays -/

section Replays

variable {key : LedgerSecretKey} {order : PaymentOrder} {derived : DerivedHop}
  {s t : SignedEntry} {frames : List SignedEntry} {seq : UInt64} {hash : Hash}

omit [Postcard] in
theorem entryMatchesHop_iff :
    entryMatchesHop s order derived = true ↔ HopBooked order derived s := by
  unfold entryMatchesHop
  constructor
  · intro h
    split at h
    next paymentId amount role m hbody hm =>
      simp only [Bool.and_eq_true, decide_eq_true_eq] at h
      obtain ⟨⟨⟨rfl, rfl⟩, rfl⟩, hpostings⟩ := h
      exact ⟨hbody, m, hm, hpostings⟩
    next => cases h
  · intro h
    obtain ⟨m, hm, hpostings⟩ := h.postings
    simp [h.body, hm, hpostings]

theorem holdsHop_of_duplicate {desk after : Desk} (hsynced : Synced key desk.frames after)
    (hnames : NamesFirst after.frames order.hash seq hash)
    (hread : after.service.entryAt seq = .ok t) (hmatch : entryMatchesHop t order derived = true) :
    HoldsHop after.frames order derived seq hash := by
  have hhop := entryMatchesHop_iff.mp hmatch
  obtain ⟨s, hfirst, hseq, hhash⟩ := hnames
  have hmem : t ∈ after.frames := by
    rw [← hsynced.entries]
    unfold LedgerService.entryAt Ledger.get? at hread
    split at hread
    next entry hentry =>
      obtain rfl := Except.ok.inj hread
      exact List.mem_of_getElem? hentry
    next => cases hread
  have hpayment : t.payment = some order.hash := by
    rw [SignedEntry.payment, hhop.body]
    rfl
  obtain rfl := hfirst.unique hsynced.once hmem hpayment
  exact ⟨t, hfirst, hseq, hhash, hhop⟩

end Replays

/-! ## One forward -/

/-- What a node checked before it put a hop on its log. -/
structure HopChecked (key : LedgerSecretKey) (env : DispatchEnv) (forward : SettleForwardV3)
    (place : SignerPlace) (derived : DerivedHop) (desk mid : Desk) (seq : UInt64) (hash : Hash)
    (s : SignedEntry) : Prop where
  checked : ∃ registry,
    assembleSettlementRegistry desk.service env.assembly forward.payerKey forward.order
      forward.auth = .ok registry
    ∧ carriedHopsMatch forward.hops place.signers forward.payerAddr forward.payeeAddr
        env.snapshot.this.addr forward.order (Crypto.pubKey desk.service.key)
        env.snapshot.neighborIds registry = true
    ∧ Booking key forward.order forward.auth derived.role derived.first derived.second
        (fun _ => .ok registry) env.now desk mid seq hash s

/-- The hop of a node is on its log: it was there, or has been put there. -/
inductive HopSettled (key : LedgerSecretKey) (env : DispatchEnv) (forward : SettleForwardV3)
    (place : SignerPlace) (derived : DerivedHop) (desk mid : Desk) (seq : UInt64) (hash : Hash) :
    Prop where
  | replayed (frames : mid.frames = desk.frames)
  | entered (s : SignedEntry)
      (checked : HopChecked key env forward place derived desk mid seq hash s)

section Forward

variable {key : LedgerSecretKey} {known : Evidence} {env : DispatchEnv} {e : Envelope}
  {forward : SettleForwardV3} {place : SignerPlace} {derived : DerivedHop} {node : LedgerNode}
  {desk : Desk}

theorem HopSettled.grown {mid : Desk} {seq : UInt64} {hash : Hash}
    (h : HopSettled key env forward place derived desk mid seq hash) :
    desk.frames <+: mid.frames := by
  cases h with
  | replayed frames => rw [frames]
  | entered s checked =>
      obtain ⟨registry, -, -, hentered⟩ := checked.checked
      exact hentered.synced.grown

variable (env forward place derived) in
/-- The own hop of a node is refused, is a replay of another transfer, or is settled. -/
theorem applyForwardHop_cases (hdesk : DeskSound key desk) :
    (∃ reason after, applyForwardHop env forward place derived desk = (.rejected reason, after)
        ∧ Reread key desk after)
      ∨ (∃ seq hash after,
          applyForwardHop env forward place derived desk = (.duplicate seq hash, after)
        ∧ settledHop forward derived after.service (.duplicate seq hash) = none
        ∧ Reread key desk after)
      ∨ ∃ outcome after seq hash, applyForwardHop env forward place derived desk = (outcome, after)
        ∧ (∀ reason, outcome ≠ .rejected reason)
        ∧ settledHop forward derived after.service outcome = some (seq, hash)
        ∧ DeskSound key after ∧ HoldsHop after.frames forward.order derived seq hash
        ∧ HopSettled key env forward place derived desk after seq hash := by
  unfold applyForwardHop
  cases hassembly : assembleSettlementRegistry desk.service env.assembly forward.payerKey
      forward.order forward.auth with
  | error reason => exact Or.inl ⟨reason, desk, rfl, hdesk.reread⟩
  | ok registry =>
    dsimp only
    by_cases hcarried : carriedHopsMatch forward.hops place.signers forward.payerAddr
        forward.payeeAddr env.snapshot.this.addr forward.order (Crypto.pubKey desk.service.key)
        env.snapshot.neighborIds registry = true
    · simp only [hcarried, Bool.not_true, Bool.false_eq_true, if_false]
      have happlying := applyHop_applying env.apply hdesk forward.order forward.auth derived.role
        derived.first derived.second registry env.now
      cases hhop : applyHop env.apply forward.order forward.auth derived.role derived.first
          derived.second registry env.now desk with
      | mk outcome after =>
        rw [hhop] at happlying
        cases happlying with
        | rejected reason _ hreread => exact Or.inl ⟨reason, after, rfl, hreread⟩
        | duplicate seq hash _ hsynced hframes hnames =>
            cases hread : after.service.entryAt seq with
            | error reason =>
                exact Or.inr (Or.inl ⟨seq, hash, after, rfl, by simp only [settledHop, hread],
                  hframes, hsynced.deskSound⟩)
            | ok entry =>
                by_cases hmatch : entryMatchesHop entry forward.order derived = true
                · exact Or.inr (Or.inr ⟨_, after, seq, hash, rfl, fun _ heq => (by cases heq),
                    by simp only [settledHop, hread, if_pos hmatch], hsynced.deskSound,
                    holdsHop_of_duplicate hsynced (hframes ▸ hnames) hread hmatch,
                    .replayed hframes⟩)
                · exact Or.inr (Or.inl ⟨seq, hash, after, rfl,
                    by simp only [settledHop, hread, if_neg hmatch], hframes, hsynced.deskSound⟩)
        | applied seq hash s _ hentered =>
            exact Or.inr (Or.inr ⟨_, after, seq, hash, rfl, fun _ heq => (by cases heq), rfl,
              hentered.synced.deskSound, hentered.holdsHop,
              .entered s ⟨registry, hassembly, hcarried, hentered⟩⟩)
    · simp only [hcarried, Bool.not_false, if_true]
      exact Or.inl ⟨.unauthorized, desk, rfl, hdesk.reread⟩

variable [SettlePostcard]

/-- A forward that hands a cascade on: the same cascade, with at most one hop more. -/
structure HandedOn (forward next : SettleForwardV3) : Prop where
  order : next.order = forward.order
  auth : next.auth = forward.auth
  payerKey : next.payerKey = forward.payerKey
  payerAddr : next.payerAddr = forward.payerAddr
  payeeAddr : next.payeeAddr = forward.payeeAddr
  hops : next.hops = forward.hops ∨ ∃ hop, next.hops = forward.hops ++ [hop]

/-- What a node sends after its hop: the last signer a success with its own position and hash, any
other one the cascade. -/
inductive SentOn (forward : SettleForwardV3) (place : SignerPlace) (seq : UInt64) (hash : Hash) :
    NodeOutput → Prop where
  | result (origin proof intermediates) (terminal : place.isTerminal = true) :
      SentOn forward place seq hash (.settle origin (.result
        { paymentId := forward.order.hash, outcome := .applied seq hash proof intermediates }))
  | relay (next : SettleForwardV3) (e' : Envelope) (inner : place.isTerminal = false)
      (handed : HandedOn forward next)
      (payload : (SettlePayloadV3.forward next).toBytes = some e'.payload) :
      SentOn forward place seq hash (.relay e')

variable (forward) in
omit [Postcard] [SettlePostcard] in
theorem handedOn_withOwnHop (this : OctAddr) (entry : Option SignedEntry)
    (proof : Option EntryProofV1) :
    HandedOn forward { forward with hops := withOwnHop this forward.hops entry proof } := by
  refine ⟨rfl, rfl, rfl, rfl, rfl, ?_⟩
  unfold withOwnHop
  split
  · split
    · exact Or.inl rfl
    · exact Or.inr ⟨_, rfl⟩
  · exact Or.inl rfl

omit [Crypto] [Postcard] [SettlePostcard] in
theorem relaySettleForward_payload {this : PeerRef} {next : OctAddr} {payload : List UInt8}
    {out : Envelope} (h : relaySettleForward this e next payload = some out) :
    out.payload = payload := by
  unfold relaySettleForward Envelope.appendHop at h
  split at h
  · cases h
  next appended happend =>
    obtain rfl := Option.some.inj h
    have hsame : appended.payload = payload := by
      repeat' split at happend
      all_goals cases happend
      rfl
    exact hsame

variable (known env forward) in
omit [SettlePostcard] in
theorem pushPayeeReceipt_spec (hdesk : DeskSound key desk) (record : NodeRecord)
    (seq : UInt64) (hash : Hash) :
    (∀ out ∈ (pushPayeeReceipt env record forward seq hash desk).1,
        out.Plain ∧ ∀ frames, out.Truthful known frames)
      ∧ Reread key desk (pushPayeeReceipt env record forward seq hash desk).2 := by
  refine ⟨?_, freshReceipt_reread hdesk⟩
  intro out hout
  obtain ⟨receipt, -, rfl⟩ := List.mem_map.mp hout
  exact ⟨trivial, fun _ => trivial⟩

variable (known env e forward place) in
theorem passOn_spec (hdesk : DeskSound key desk) (record : NodeRecord) (seq : UInt64)
    (hash : Hash) :
    (∀ out ∈ (passOn env e record forward place seq hash desk).1,
        (out.Plain ∨ SentOn forward place seq hash out) ∧ ∀ frames, out.Truthful known frames)
      ∧ Reread key desk (passOn env e record forward place seq hash desk).2 := by
  unfold passOn
  by_cases hterminal : place.isTerminal = true
  · simp only [if_pos hterminal]
    cases hproof :
        (buildEntryProof desk.service env.evidence seq env.snapshot.this.addr).toOption with
    | none => exact ⟨fun _ hout => absurd hout List.not_mem_nil, hdesk.reread⟩
    | some proof =>
        obtain ⟨hreceipt, hreread⟩ := pushPayeeReceipt_spec known env forward hdesk record seq hash
        refine ⟨?_, hreread⟩
        intro out hout
        rcases List.mem_append.mp hout with hout | hout
        · obtain ⟨origin, -, rfl⟩ := Option.map_eq_some_iff.mp (Option.mem_toList.mp hout)
          exact ⟨Or.inr (.result origin proof _ hterminal), fun _ => trivial⟩
        · exact ⟨Or.inl (hreceipt out hout).1, (hreceipt out hout).2⟩
  · simp only [if_neg hterminal]
    have hhanded := handedOn_withOwnHop forward env.snapshot.this.addr
      (desk.service.entryAt seq).toOption
      (buildEntryProof desk.service env.evidence seq env.snapshot.this.addr).toOption
    refine ⟨?_, hdesk.reread⟩
    intro out hout
    unfold relayForward at hout
    split at hout
    next next payload hnext hbytes =>
      obtain ⟨e', hrelay, rfl⟩ := Option.map_eq_some_iff.mp (Option.mem_toList.mp hout)
      have hpayload := relaySettleForward_payload hrelay
      exact ⟨Or.inr (.relay _ e' (by simpa using hterminal) hhanded (hpayload ▸ hbytes)),
        fun _ => trivial⟩
    next => exact absurd hout List.not_mem_nil

/-- What a forward does to a signer: nothing is appended, or its hop is settled and the cascade
goes on. -/
inductive ForwardEffect (key : LedgerSecretKey) (known : Evidence) (env : DispatchEnv)
    (e : Envelope) (forward : SettleForwardV3) (node : LedgerNode) :
    List NodeOutput → LedgerNode → Prop where
  | refused (outputs after) (step : LeafStep key known node outputs after)
      (frames : after.desk.frames = node.desk.frames)
      (sends : ∀ out ∈ outputs, out.Plain ∨ ∃ origin reason, out = .settle origin (.result
        { paymentId := forward.order.hash, outcome := .rejected reason })) :
      ForwardEffect key known env e forward node outputs after
  | settled (place record derived seq hash mid outputs after)
      (step : LeafStep key known node outputs after)
      (turn : InTurn env.snapshot.this.addr e forward place) (record_eq : env.record = some record)
      (payee : place.isTerminal = true →
        userChildAddress record forward.order.to_ = some forward.payeeAddr)
      (derived_eq : deriveHop record env.snapshot.this.addr forward.payerAddr forward.payeeAddr
        = .ok derived)
      (hop : HopSettled key env forward place derived node.desk mid seq hash)
      (holds : HoldsHop mid.frames forward.order derived seq hash)
      (frames : after.desk.frames = mid.frames)
      (sends : ∀ out ∈ outputs, out.Plain ∨ SentOn forward place seq hash out) :
      ForwardEffect key known env e forward node outputs after

theorem ForwardEffect.step {outputs : List NodeOutput} {after : LedgerNode}
    (h : ForwardEffect key known env e forward node outputs after) :
    LeafStep key known node outputs after := by
  cases h with
  | refused _ _ step => exact step
  | settled _ _ _ _ _ _ _ _ step => exact step

theorem ForwardEffect.quiet (h : LeafSound key known node) :
    ForwardEffect key known env e forward node [] node :=
  .refused _ _ (.quiet h) rfl fun _ hout => absurd hout List.not_mem_nil

/-- A node that refuses a hop appends nothing. -/
theorem ForwardEffect.refuse (h : LeafSound key known node) (hreread : Reread key node.desk desk)
    (reason : SettleReject) :
    ForwardEffect key known env e forward node
      (settleResult place forward.order.hash (.rejected reason)) { node with desk } := by
  have hresult : ∀ out ∈ settleResult place forward.order.hash (.rejected reason),
      ∃ origin, out = .settle origin (.result
        { paymentId := forward.order.hash, outcome := .rejected reason }) := by
    intro out hout
    obtain ⟨origin, -, rfl⟩ := Option.map_eq_some_iff.mp (Option.mem_toList.mp hout)
    exact ⟨origin, rfl⟩
  refine .refused _ _ (.of_reread h hreread ?_) hreread.frames ?_
  · intro out hout
    obtain ⟨origin, rfl⟩ := hresult out hout
    trivial
  · intro out hout
    obtain ⟨origin, rfl⟩ := hresult out hout
    exact Or.inr ⟨origin, reason, rfl⟩

theorem handleSettleForward_effect (h : LeafSound key known node) (env : DispatchEnv)
    (e : Envelope) (forward : SettleForwardV3) :
    ForwardEffect key known env e forward node (handleSettleForward env e forward node).1
      (handleSettleForward env e forward node).2 := by
  unfold handleSettleForward
  dsimp only
  cases hadmit : admitForward env.snapshot.this.addr e forward with
  | none => exact .quiet h
  | some place =>
  cases hrecord : env.record with
  | none => exact .quiet h
  | some record =>
  dsimp only
  split
  · exact .quiet h
  split
  · exact .refuse h h.desk.reread _
  next hpayee =>
  cases hderived : deriveHop record env.snapshot.this.addr forward.payerAddr forward.payeeAddr with
  | error reason => exact .refuse h h.desk.reread _
  | ok derived =>
  dsimp only
  rcases applyForwardHop_cases env forward place derived h.desk with
    ⟨reason, after, heq, hreread⟩ | ⟨seq, hash, after, heq, hnone, hreread⟩
    | ⟨outcome, after, seq, hash, heq, hsome, hsettled, hsound, hholds, hhop⟩
  · rw [heq]
    exact .refuse h hreread _
  · rw [heq]
    dsimp only
    rw [hnone]
    exact .refused _ _ (.of_reread h hreread fun _ hout => absurd hout List.not_mem_nil)
      hreread.frames fun _ hout => absurd hout List.not_mem_nil
  · rw [heq]
    dsimp only
    rw [hsettled]
    obtain ⟨hsends, hreread⟩ := passOn_spec known env e forward place hsound record
      seq hash
    have hgrown : node.desk.frames
        <+: (passOn env e record forward place seq hash after).2.frames :=
      hreread.frames ▸ hhop.grown
    have heffect : ForwardEffect key known env e forward node
        (.journal forward.order :: (passOn env e record forward place seq hash after).1)
        { node with desk := (passOn env e record forward place seq hash after).2 } := by
      refine .settled place record derived seq hash after _ _
        ⟨h.withDesk hreread.sound hgrown, hgrown, ?_⟩ (admitForward_eq_some hadmit) hrecord ?_
        hderived hhop hholds hreread.frames ?_
      · intro out hout
        rcases List.mem_cons.mp hout with rfl | hout
        · exact payments_mono hreread.grown hholds.namesFirst.mem
        · exact (hsends out hout).2 _
      · intro hterminal
        by_contra hne
        exact hpayee ⟨hterminal, hne⟩
      · intro out hout
        rcases List.mem_cons.mp hout with rfl | hout
        · exact Or.inl trivial
        · exact (hsends out hout).1
    cases outcome with
    | rejected reason => exact absurd rfl (hsome reason)
    | applied _ _ => exact heffect
    | duplicate _ _ => exact heffect

end Forward

/-! ## Settlement envelopes -/

inductive SettleEffect [SettlePostcard] (key : LedgerSecretKey) (known : Evidence)
    (env : DispatchEnv) (e : Envelope) (node : LedgerNode) :
    List NodeOutput → LedgerNode → Prop where
  | still (outputs after) (step : LeafStep key known node outputs after)
      (plain : ∀ out ∈ outputs, out.Plain) (frames : after.desk.frames = node.desk.frames) :
      SettleEffect key known env e node outputs after
  | forward (forward outputs after)
      (payload : SettlePayloadV3.fromBytes e.payload = .ok (.forward forward))
      (effect : ForwardEffect key known env e forward node outputs after) :
      SettleEffect key known env e node outputs after

theorem SettleEffect.step [SettlePostcard] {key : LedgerSecretKey} {known : Evidence}
    {env : DispatchEnv} {e : Envelope} {node : LedgerNode} {outputs : List NodeOutput}
    {after : LedgerNode} (h : SettleEffect key known env e node outputs after) :
    LeafStep key known node outputs after := by
  cases h with
  | still _ _ step => exact step
  | forward _ _ _ _ effect => exact effect.step

/-- One settlement envelope: a result changes no log, and a forward settles at most the hop of
this node. A proof that is verified here has to be evidence. -/
theorem dispatchSettleEnvelope_effect [SettlePostcard] {key : LedgerSecretKey} {known : Evidence}
    {target : Target} {env : DispatchEnv} {e : Envelope} {node after : LedgerNode}
    {outputs : List NodeOutput} (h : LeafSound key known node)
    (hknown : ∀ result, SettlePayloadV3.fromBytes e.payload = .ok (.result result) →
      ∀ seq hash proof intermediates order leaf,
        result.outcome = .applied seq hash proof intermediates → order.hash = result.paymentId →
        verifyTerminalProof target proof order leaf seq hash = some true →
        known result.paymentId seq hash proof)
    (hdispatch : dispatchSettleEnvelope target env e node = some (outputs, after)) :
    SettleEffect key known env e node outputs after := by
  unfold dispatchSettleEnvelope at hdispatch
  cases hpayload : SettlePayloadV3.fromBytes e.payload with
  | error error =>
      rw [hpayload] at hdispatch
      cases hdispatch
      exact .still _ _ (.quiet h) (fun _ hout => absurd hout List.not_mem_nil) rfl
  | ok payload =>
      rw [hpayload] at hdispatch
      cases payload with
      | result result =>
          obtain ⟨hstep, hplain, hframes⟩ := handleSettleResult_step h (hknown result hpayload)
            hdispatch
          exact .still _ _ hstep hplain hframes
      | forward forward =>
          have heq := Option.some.inj hdispatch
          have heffect := handleSettleForward_effect h env e forward
          rw [heq] at heffect
          exact .forward forward _ _ hpayload heffect

end Cawala
