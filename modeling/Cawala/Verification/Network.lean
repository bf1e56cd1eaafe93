import Cawala.Verification.SettleSigner

/-! # Runs of a network

Every node has its own ledger, its own settlements and its own processes. Nodes act in any order;
settlement envelopes may come from anyone, and any number of times. -/

namespace Cawala

open Library Library.Transaction

variable [Crypto] [Postcard] [SettlePostcard] [EthPrimitives] [HashBytes]

/-! ## Nodes and networks -/

/-- What happens at a node: a ledger or a settlement envelope is dispatched, the settlements are
swept, the serving process or another one on the same log runs an operation, or the serving
process restarts. -/
inductive NodeAction where
  | ledger (env : DispatchEnv) (e : LedgerEnvelope)
  | settle (env : DispatchEnv) (e : Envelope)
  | sweep (env : DispatchEnv)
  | operate (env : TxEnv) (op : Operation)
  | share (service : LedgerService) (env : TxEnv) (op : Operation)
  | restart (env : TxEnv)

/-- One event of a node. A settlement envelope whose proof is never judged changes nothing, and
neither does a restart that cannot open the ledger. -/
def LedgerNode.step (target : Target) (key : LedgerSecretKey) (node : LedgerNode) :
    NodeAction → List NodeOutput × LedgerNode
  | .ledger env e => dispatchLedgerEnvelope env e node
  | .settle env e => (dispatchSettleEnvelope target env e node).getD ([], node)
  | .sweep env => sweepSettlements env node
  | .operate env op => ([], { node with desk := op.perform env node.desk })
  | .share service env op =>
      let after := op.perform env ⟨node.desk.frames, { service with key }⟩
      ([], { node with desk := { node.desk with frames := after.frames } })
  | .restart env =>
      match LedgerService.open_ env node.desk.service.nodeId key node.desk.frames with
      | .ok service =>
          ([], { desk := ⟨node.desk.frames, service⟩, manager := SettlementManager.new })
      | .error _ => ([], node)

/-- The nodes by address, and what they have put out so far. -/
structure Network where
  node : OctAddr → LedgerNode
  outputs : List (OctAddr × NodeOutput)

structure NetworkEvent where
  place : OctAddr
  event : NodeAction

namespace Network

def new (keys : OctAddr → LedgerSecretKey) (ids : OctAddr → NodeId) : Network where
  node a :=
    { desk :=
        { frames := []
          service :=
            { nodeId := ids a, ledger := Ledger.new (Crypto.pubKey (keys a)), key := keys a
              isRoot := false, consumed := ∅, valueIndex := ∅ } }
      manager := SettlementManager.new }
  outputs := []

def step (target : Target) (keys : OctAddr → LedgerSecretKey) (net : Network)
    (ev : NetworkEvent) : Network :=
  let (outputs, node) := (net.node ev.place).step target (keys ev.place) ev.event
  { node := Function.update net.node ev.place node
    outputs := net.outputs ++ outputs.map fun out => (ev.place, out) }

def run (target : Target) (keys : OctAddr → LedgerSecretKey) (ids : OctAddr → NodeId)
    (events : List NetworkEvent) : Network :=
  events.foldl (step target keys) (.new keys ids)

def log (net : Network) (a : OctAddr) : List SignedEntry := (net.node a).desk.frames

end Network

/-! ## One event -/

section Step

variable {target : Target} {key : LedgerSecretKey} {known : Evidence} {node : LedgerNode}
  {desk : Desk}

omit [SettlePostcard] [EthPrimitives] [HashBytes] in
theorem perform_deskSound (h : DeskSound key desk) (env : TxEnv) (op : Operation) :
    DeskSound key (op.perform env desk) ∧ desk.frames <+: (op.perform env desk).frames := by
  have hconcluded : Concluded key env op.Admitted desk (op.perform env desk) :=
    perform_concluded op h.log h.service.sameKey
  refine ⟨⟨hconcluded.logSound h.log, hconcluded.coherent h.service⟩, ?_⟩
  cases hconcluded with
  | inl hgo => exact hgo.2.2.grown
  | inr hstay => rw [hstay.2]

/-- Every event of a node keeps it sound and lets its log grow, and all that is said is so. -/
theorem LedgerNode.step_leafStep (h : LeafSound key known node) (event : NodeAction)
    (hknown : ∀ env e, event = .settle env e → ∀ result,
      SettlePayloadV3.fromBytes e.payload = .ok (.result result) →
      ∀ seq hash proof intermediates order leaf,
        result.outcome = .applied seq hash proof intermediates → order.hash = result.paymentId →
        verifyTerminalProof target proof order leaf seq hash = some true →
        known result.paymentId seq hash proof) :
    LeafStep key known node (node.step target key event).1 (node.step target key event).2 := by
  cases event with
  | ledger env e => exact (dispatchLedgerEnvelope_effect h env e).step
  | settle env e =>
      change LeafStep key known node ((dispatchSettleEnvelope target env e node).getD ([], node)).1
        ((dispatchSettleEnvelope target env e node).getD ([], node)).2
      cases hdispatch : dispatchSettleEnvelope target env e node with
      | none => exact .quiet h
      | some result =>
          obtain ⟨outputs, after⟩ := result
          exact (dispatchSettleEnvelope_effect h (hknown env e rfl) hdispatch).step
  | sweep env => exact (sweepSettlements_step h env).1
  | operate env op =>
      obtain ⟨hdesk, hgrown⟩ := perform_deskSound h.desk env op
      exact ⟨h.withDesk hdesk hgrown, hgrown, fun _ hout => absurd hout List.not_mem_nil⟩
  | share service env op =>
      have hconcluded : Concluded key env op.Admitted ⟨node.desk.frames, { service with key }⟩
          (op.perform env ⟨node.desk.frames, { service with key }⟩) :=
        perform_concluded op h.desk.log rfl
      have hgrown : node.desk.frames
          <+: (op.perform env ⟨node.desk.frames, { service with key }⟩).frames := by
        cases hconcluded with
        | inl hgo => exact hgo.2.2.grown
        | inr hstay => rw [hstay.2]
      have hdesk : DeskSound key { node.desk with
          frames := (op.perform env ⟨node.desk.frames, { service with key }⟩).frames } :=
        ⟨hconcluded.logSound h.desk.log, h.desk.service⟩
      exact ⟨h.withDesk hdesk hgrown, hgrown, fun _ hout => absurd hout List.not_mem_nil⟩
  | restart env =>
      simp only [LedgerNode.step]
      cases hopen : LedgerService.open_ env node.desk.service.nodeId key node.desk.frames with
      | error error => exact .quiet h
      | ok service =>
          refine ⟨⟨⟨h.desk.log, open_coherent hopen⟩, ?_, ?_⟩, List.prefix_rfl,
            fun _ hout => absurd hout List.not_mem_nil⟩
          · intro id p hp
            simp [SettlementManager.new] at hp
          · intro id t ht
            simp [SettlementManager.new] at ht

end Step

/-! ## Whole runs -/

def VerifiedProof (target : Target) : Evidence := fun orderHash seq hash proof =>
  ∃ order leaf, order.hash = orderHash
    ∧ verifyTerminalProof target proof order leaf seq hash = some true

section Runs

variable {target : Target} {keys : OctAddr → LedgerSecretKey} {ids : OctAddr → NodeId}
  {net : Network}

omit [SettlePostcard] [EthPrimitives] [HashBytes] in
theorem leafSound_new (a : OctAddr) (known : Evidence) :
    LeafSound (keys a) known ((Network.new keys ids).node a) where
  desk := ⟨⟨⟨_, rfl⟩, List.nodup_nil⟩, rfl, rfl⟩
  pending id p hp := by simp [Network.new, SettlementManager.new] at hp
  terminal id t ht := by simp [Network.new, SettlementManager.new] at ht

theorem Network.step_node_self (ev : NetworkEvent) : (net.step target keys ev).node ev.place
    = ((net.node ev.place).step target (keys ev.place) ev.event).2 :=
  Function.update_self ..

theorem Network.step_node_of_ne (ev : NetworkEvent) {a : OctAddr} (h : a ≠ ev.place) :
    (net.step target keys ev).node a = net.node a :=
  Function.update_of_ne h ..

theorem Network.mem_step_outputs (ev : NetworkEvent) {a : OctAddr} {out : NodeOutput} :
    (a, out) ∈ (net.step target keys ev).outputs ↔ (a, out) ∈ net.outputs
      ∨ a = ev.place ∧ out ∈ ((net.node ev.place).step target (keys ev.place) ev.event).1 := by
  simp only [Network.step, List.mem_append, List.mem_map, Prod.mk.injEq]
  constructor
  · intro h
    rcases h with h | h
    · exact Or.inl h
    · obtain ⟨out', hout, rfl, rfl⟩ := h
      exact Or.inr ⟨rfl, hout⟩
  · intro h
    rcases h with h | h
    · exact Or.inl h
    · exact Or.inr ⟨out, h.2, h.1.symm, rfl⟩

theorem Network.run_concat (events : List NetworkEvent) (ev : NetworkEvent) :
    Network.run target keys ids (events ++ [ev])
      = (Network.run target keys ids events).step target keys ev := by
  rw [Network.run, List.foldl_append]
  rfl

theorem Network.step_sound {known : Evidence} (net : Network) {ev : NetworkEvent}
    (h : ∀ a, LeafSound (keys a) known (net.node a))
    (hev : LeafSound (keys ev.place) known
      ((net.node ev.place).step target (keys ev.place) ev.event).2) (a : OctAddr) :
    LeafSound (keys a) known ((net.step target keys ev).node a) := by
  by_cases ha : a = ev.place
  · subst ha
    rw [Network.step_node_self]
    exact hev
  · rw [Network.step_node_of_ne ev ha]
    exact h a

/-- What was said stays so while the logs grow. -/
theorem Network.step_truthful {known : Evidence} (net : Network) {ev : NetworkEvent}
    (h : ∀ a out, (a, out) ∈ net.outputs → out.Truthful known (net.log a))
    (hev : LeafStep (keys ev.place) known (net.node ev.place)
      ((net.node ev.place).step target (keys ev.place) ev.event).1
      ((net.node ev.place).step target (keys ev.place) ev.event).2) (a : OctAddr)
    (out : NodeOutput) (hout : (a, out) ∈ (net.step target keys ev).outputs) :
    out.Truthful known ((net.step target keys ev).log a) := by
  by_cases ha : a = ev.place
  · subst ha
    rw [Network.log, Network.step_node_self]
    rcases (Network.mem_step_outputs ev).mp hout with hold | ⟨-, hnew⟩
    · exact (h _ _ hold).mono hev.grown
    · exact hev.truthful out hnew
  · rw [Network.log, Network.step_node_of_ne ev ha]
    rcases (Network.mem_step_outputs ev).mp hout with hold | ⟨heq, -⟩
    · exact h a out hold
    · exact absurd heq ha

/-- One event keeps a node sound and makes it say only what is so. -/
theorem LedgerNode.step_verified {key : LedgerSecretKey} {node : LedgerNode}
    (h : LeafSound key (VerifiedProof target) node) (action : NodeAction) :
    LeafStep key (VerifiedProof target) node (node.step target key action).1
      (node.step target key action).2 :=
  LedgerNode.step_leafStep h action
    fun _ _ _ _ _ _ _ _ _ order leaf _ horder hverified => ⟨order, leaf, horder, hverified⟩

variable (target keys ids) in
theorem Network.run_leafSound (events : List NetworkEvent) (a : OctAddr) :
    LeafSound (keys a) (VerifiedProof target) ((Network.run target keys ids events).node a) := by
  induction events using List.reverseRecOn generalizing a with
  | nil => exact leafSound_new a _
  | append_singleton events ev ih =>
      rw [Network.run_concat]
      exact Network.step_sound _ ih (LedgerNode.step_verified (ih ev.place) ev.event).sound a

/-- In every run, whatever envelopes come in: each log replays and holds no payment twice, each
settlement in flight stands for the first entry of its order, and whatever a node tells a user of
an order is so. A booked order is in the log, as the entry that is named or with a proof of that
entry that was verified here; an order that ended in part, or without a known outcome, is in the
log; and only orders that are in the log are journaled. -/
theorem answers_truthful (target : Target) (keys : OctAddr → LedgerSecretKey)
    (ids : OctAddr → NodeId) (events : List NetworkEvent) :
    (∀ a, LeafSound (keys a) (VerifiedProof target) ((Network.run target keys ids events).node a))
      ∧ ∀ a out, (a, out) ∈ (Network.run target keys ids events).outputs →
        out.Truthful (VerifiedProof target) ((Network.run target keys ids events).log a) := by
  refine ⟨Network.run_leafSound target keys ids events, ?_⟩
  induction events using List.reverseRecOn with
  | nil => exact fun _ _ hout => absurd hout List.not_mem_nil
  | append_singleton events ev ih =>
      rw [Network.run_concat]
      have hsound := Network.run_leafSound target keys ids events ev.place
      exact Network.step_truthful _ ih (LedgerNode.step_verified hsound ev.event)

end Runs

end Cawala
