import Cawala.Model.MsgHandler
import Cawala.Verification.Routing

/-! # Hop chains

A chain is accepted exactly when it is a first part of the route over distinct nodes; and the
envelopes of honest nodes, forwarded or relayed along a cascade, always carry such a chain. -/

namespace Cawala

open Library

section

variable {src dst : OctAddr} {path : List OctAddr} {hops : List Hop}

/-! ## What the checks accept -/

theorem isNextStep_iff {a b : OctAddr} :
    isNextStep a dst b = true ↔ ∃ step, nextStep a dst = some step ∧ step.addr = b := by
  unfold isNextStep
  cases nextStep a dst <;> simp

/-- Addresses that follow each other toward the destination are a first part of the route. -/
theorem isChain_nextStep_iff {a : OctAddr} {rest : List OctAddr} :
    (a :: rest).IsChain (fun a b => isNextStep a dst b = true)
      ↔ (a :: rest).map (·.digits) <+: route a.digits dst.digits := by
  induction rest generalizing a with
  | nil =>
      obtain ⟨tail, htail⟩ := List.head?_eq_some_iff.mp (head?_route a.digits dst.digits)
      rw [htail]
      simp
  | cons b rest ih =>
      rw [List.isChain_cons_cons, isNextStep_iff, ih]
      obtain ⟨rfl, hnone⟩ | ⟨step, hstep, hroute⟩ := nextStep_cases a dst
      · simp [hnone, route_self]
      · simp only [hroute, List.map_cons, List.cons_prefix_cons, hstep, Option.some.injEq,
          exists_eq_left', true_and]
        constructor
        · rintro ⟨rfl, h⟩
          exact h
        · intro h
          obtain ⟨tail, htail⟩ := List.head?_eq_some_iff.mp
            (head?_route step.addr.digits dst.digits)
          rw [htail, List.cons_prefix_cons] at h
          have heq : step.addr = b := OctAddr.ext h.1.symm
          refine ⟨heq, ?_⟩
          rw [← heq, htail, List.cons_prefix_cons]
          exact ⟨rfl, h.2⟩

theorem checkSteps_eq_ok {index : ℕ} :
    checkSteps dst index hops = .ok ()
      ↔ hops.IsChain fun a b => isNextStep a.addr dst b.addr = true := by
  induction hops generalizing index with
  | nil => simp [checkSteps]
  | cons a rest ih =>
      cases rest with
      | nil => simp [checkSteps]
      | cons b rest => simp [checkSteps, ite_error_eq_ok, ih]

theorem checkRepeats_eq_ok {nodes : List NodeId} {addrs : List OctAddr} {u : Unit} :
    checkRepeats nodes addrs hops = .ok u
      ↔ ((hops.map (·.node)).Nodup ∧ ∀ hop ∈ hops, hop.node ∉ nodes)
        ∧ (hops.map (·.addr)).Nodup ∧ ∀ hop ∈ hops, hop.addr ∉ addrs := by
  induction hops generalizing nodes addrs with
  | nil => simp [checkRepeats]
  | cons hop rest ih =>
      simp only [checkRepeats, ite_error_eq_ok, ih, List.map_cons, List.nodup_cons,
        List.forall_mem_cons]
      simp only [List.mem_map, List.mem_cons, not_or]
      constructor
      · rintro ⟨hnode, haddr, ⟨hnodes, hfresh⟩, haddrs, hfresh'⟩
        refine ⟨⟨⟨?_, hnodes⟩, hnode, fun h hh => (hfresh h hh).2⟩, ⟨?_, haddrs⟩, haddr,
          fun h hh => (hfresh' h hh).2⟩
        · rintro ⟨h, hh, heq⟩
          exact (hfresh h hh).1 heq
        · rintro ⟨h, hh, heq⟩
          exact (hfresh' h hh).1 heq
      · rintro ⟨⟨⟨hnew, hnodes⟩, hnode, hfresh⟩, ⟨hnew', haddrs⟩, haddr, hfresh'⟩
        exact ⟨hnode, haddr, ⟨hnodes, fun h hh => ⟨fun heq => hnew ⟨h, hh, heq⟩, hfresh h hh⟩⟩,
          haddrs, fun h hh => ⟨fun heq => hnew' ⟨h, hh, heq⟩, hfresh' h hh⟩⟩

/-- The addresses of a list are a first part of the route. -/
def OnRoute (src dst : OctAddr) (addrs : List OctAddr) : Prop :=
  addrs.map (·.digits) <+: route src.digits dst.digits

/-- The spec lemma of `validate_hop_chain`. -/
theorem validateHopChain_eq_ok :
    validateHopChain src dst hops = .ok () ↔ hops ≠ [] ∧ hops.length ≤ maxHops
      ∧ OnRoute src dst (hops.map (·.addr)) ∧ (hops.map (·.node)).Nodup := by
  cases hops with
  | nil => simp [validateHopChain]
  | cons first rest =>
      have hchain : (first :: rest).IsChain (fun a b => isNextStep a.addr dst b.addr = true)
          ↔ OnRoute first.addr dst ((first :: rest).map (·.addr)) := by
        rw [OnRoute, List.map_cons, ← isChain_nextStep_iff, ← List.map_cons, List.isChain_map]
      simp only [validateHopChain, ite_error_eq_ok, not_lt, not_not, bind_eq_ok,
        checkRepeats_eq_ok, checkSteps_eq_ok, hchain, ne_eq, reduceCtorEq, not_false_eq_true,
        true_and]
      constructor
      · rintro ⟨hlen, rfl, ⟨⟩, ⟨⟨hnodes, -⟩, -, -⟩, hroute⟩
        exact ⟨hlen, hroute, hnodes⟩
      · rintro ⟨hlen, hroute, hnodes⟩
        obtain ⟨tail, htail⟩ := List.head?_eq_some_iff.mp (head?_route src.digits dst.digits)
        have hfirst : first.addr = src := by
          rw [OnRoute, htail, List.map_cons, List.map_cons, List.cons_prefix_cons] at hroute
          exact OctAddr.ext hroute.1
        -- Positions of a route are distinct, so no address repeats.
        have haddrs : ((first :: rest).map (·.addr)).Nodup :=
          List.Nodup.of_map _ (hroute.sublist.nodup (nodup_route _ _))
        exact ⟨hlen, hfirst, ⟨⟩, ⟨⟨hnodes, by simp⟩, haddrs, by simp⟩, hfirst ▸ hroute⟩

/-- `append_hop` leaves the envelope as it is when it fails. -/
theorem appendHop_of_error {env : Envelope} {this : PeerRef} {e : HopChainError}
    (h : (env.appendHop this).1 = .error e) : (env.appendHop this).2 = env := by
  unfold Envelope.appendHop at h ⊢
  split_ifs
  · rfl
  · rfl
  · rfl
  · split
    · rfl
    · split_ifs
      · rfl
      · simp_all

/-! ## Envelopes of honest nodes -/

theorem OnRoute.head? {addrs : List OctAddr} (h : OnRoute src dst addrs) (hne : addrs ≠ []) :
    addrs.head? = some src := by
  obtain ⟨tail, htail⟩ := List.head?_eq_some_iff.mp (head?_route src.digits dst.digits)
  cases addrs with
  | nil => exact absurd rfl hne
  | cons a rest =>
      rw [OnRoute, htail, List.map_cons, List.cons_prefix_cons] at h
      rw [List.head?_cons, OctAddr.ext h.1]

theorem OnRoute.last_step {trail : List OctAddr} {last next : OctAddr}
    (h : OnRoute src dst (trail ++ [next])) (hlast : trail.getLast? = some last) :
    isNextStep last dst next = true := by
  have hhead := h.head? (by simp)
  obtain ⟨rest, hrest⟩ := List.head?_eq_some_iff.mp hhead
  have hchain : (trail ++ [next]).IsChain fun a b => isNextStep a dst b = true := by
    rw [hrest, isChain_nextStep_iff, ← hrest]
    exact h
  exact (List.isChain_append.mp hchain).2.2 last hlast next (by simp)

theorem OnRoute.nodup {addrs : List OctAddr} (h : OnRoute src dst addrs) : addrs.Nodup :=
  List.Nodup.of_map _ (h.sublist.nodup (nodup_route _ _))

/-- Distinct nodes with ids of bounded length at the addresses of a path. -/
structure HonestPath (ids : OctAddr → NodeId) (path : List OctAddr) : Prop where
  distinct : ∀ a ∈ path, ∀ b ∈ path, ids a = ids b → a = b
  short : ∀ a ∈ path, (ids a).utf8ByteSize ≤ maxNodeIdLen

/-- The envelope has visited the nodes of a trail along its route, one forward for each. -/
structure Travelled (ids : OctAddr → NodeId) (trail : List OctAddr) (env : Envelope) : Prop where
  version : env.version = protocolVersion
  payload : env.payload.length ≤ maxPayload
  src : env.src.node = ids env.src.addr
  chain : env.hopChain = trail.map fun a => { addr := a, node := ids a }
  route : OnRoute env.src.addr env.dst trail
  started : trail ≠ []
  room : trail.length ≤ maxHops
  budget : trail.length + env.ttl.toNat = maxHops + 1

variable {ids : OctAddr → NodeId} {trail : List OctAddr} {env : Envelope}

/-- An envelope that has travelled honestly passes the checks of the next node. -/
theorem Travelled.checked (h : Travelled ids trail env) (hhonest : HonestPath ids trail) :
    env.validate = .ok () ∧ validateHopChain env.src.addr env.dst env.hopChain = .ok () := by
  have hhead := h.route.head? h.started
  have hmem : env.src.addr ∈ trail := List.mem_of_head? hhead
  constructor
  · have hshort : env.hopChain.find? (fun hop => decide (hop.node.utf8ByteSize > maxNodeIdLen))
        = none := by
      rw [List.find?_eq_none, h.chain]
      intro hop hhop
      obtain ⟨a, ha, rfl⟩ := List.mem_map.mp hhop
      simpa using hhonest.short a ha
    have horigin : env.hopChain.head? = some { addr := env.src.addr, node := env.src.node } := by
      rw [h.chain, List.head?_map, hhead, h.src]
      rfl
    have hlen : env.hopChain.length = trail.length := by rw [h.chain, List.length_map]
    have hsrc : ¬ env.src.node.utf8ByteSize > maxNodeIdLen := by
      rw [h.src]
      exact Nat.not_lt.mpr (hhonest.short _ hmem)
    have hpayload := h.payload
    have hroom := h.room
    have hbudget := h.budget
    have hpos := List.length_pos_iff.mpr h.started
    rw [Envelope.validate, if_neg hsrc, hshort]
    simp only
    rw [if_neg (not_not.mpr h.version), if_neg (by omega), horigin]
    simp only [ne_eq, not_true_eq_false, ↓reduceIte, hlen]
    rw [if_neg (by omega), if_neg (by omega), if_neg (by omega)]
  · rw [validateHopChain_eq_ok, h.chain, List.length_map, List.map_map, List.map_map]
    refine ⟨by simpa using h.started, h.room, ?_, ?_⟩
    · simpa [Function.comp_def] using h.route
    · exact List.Nodup.map_on (fun a ha b hb hab => hhonest.distinct a ha b hb hab) h.route.nodup

theorem Travelled.appendHop (h : Travelled ids trail env) {next : OctAddr}
    (hhonest : HonestPath ids (trail ++ [next]))
    (hroute : OnRoute env.src.addr env.dst (trail ++ [next])) (hroom : trail.length < maxHops) :
    env.appendHop { addr := next, node := ids next } = (.ok (), { env with
      hopChain := (trail ++ [next]).map fun a => { addr := a, node := ids a } }) := by
  have hlen : ¬ env.hopChain.length ≥ maxHops := by
    rw [h.chain, List.length_map]
    omega
  have hfresh : ∀ a ∈ trail, a ≠ next := by
    rintro a ha rfl
    exact (List.nodup_append.mp hroute.nodup).2.2 a ha a (List.mem_singleton_self a) rfl
  have hnodes : env.hopChain.any (fun hop => hop.node == ids next) = false := by
    rw [List.any_eq_false, h.chain]
    intro hop hhop
    obtain ⟨a, ha, rfl⟩ := List.mem_map.mp hhop
    have hne : ids a ≠ ids next := fun heq =>
      hfresh a ha (hhonest.distinct a (by simp [ha]) next (by simp) heq)
    simpa using hne
  have haddrs : env.hopChain.any (fun hop => hop.addr == next) = false := by
    rw [List.any_eq_false, h.chain]
    intro hop hhop
    obtain ⟨a, ha, rfl⟩ := List.mem_map.mp hhop
    simpa using hfresh a ha
  obtain ⟨front, last, hsplit⟩ := (List.eq_nil_or_concat' trail).resolve_left h.started
  have hlast : env.hopChain.getLast? = some { addr := last, node := ids last } := by
    rw [h.chain, hsplit]
    simp
  have hstep : isNextStep last env.dst next = true := hroute.last_step (by simp [hsplit])
  simp only [Envelope.appendHop, hlen, ↓reduceIte, hnodes, haddrs, Bool.false_eq_true, hlast,
    hstep, Bool.not_true]
  rw [h.chain, List.map_append, List.map_singleton]

/-- The envelope with one hop more and one forward less has travelled one address further. -/
theorem Travelled.step (h : Travelled ids trail env) {next : OctAddr}
    (hroute : OnRoute env.src.addr env.dst (trail ++ [next])) (hroom : trail.length < maxHops) :
    env.ttl ≠ 0 ∧ Travelled ids (trail ++ [next]) { env with
      hopChain := (trail ++ [next]).map fun a => { addr := a, node := ids a }
      ttl := env.ttl - 1 } := by
  have hbudget := h.budget
  have hone : (1 : UInt8) ≤ env.ttl := by
    rw [UInt8.le_iff_toNat_le]
    change 1 ≤ env.ttl.toNat
    omega
  constructor
  · rintro hzero
    rw [hzero] at hone
    exact absurd hone (by decide)
  · refine ⟨h.version, h.payload, h.src, rfl, hroute, by simp, ?_, ?_⟩
    · simpa using hroom
    · simp only [List.length_append, List.length_singleton, UInt8.toNat_sub_of_le _ _ hone]
      change trail.length + 1 + (env.ttl.toNat - 1) = maxHops + 1
      have : 1 ≤ env.ttl.toNat := by omega
      omega

theorem Travelled.ttl_ne_zero (h : Travelled ids trail env) : env.ttl ≠ 0 := by
  intro hzero
  have hbudget := h.budget
  have hroom := h.room
  rw [hzero] at hbudget
  change trail.length + 0 = maxHops + 1 at hbudget
  omega

theorem HonestPath.mono (h : HonestPath ids path) (hsub : trail ⊆ path) : HonestPath ids trail :=
  ⟨fun a ha b hb => h.distinct a (hsub ha) b (hsub hb), fun a ha => h.short a (hsub ha)⟩

/-- A fresh envelope has visited its origin. -/
theorem travelled_new {a : OctAddr} {msgId : MsgId} {msgType : UInt16} {nonce : UInt64}
    {payload : List UInt8} (hpayload : payload.length ≤ maxPayload) :
    Travelled ids [a]
      (Envelope.new { addr := a, node := ids a } dst msgId msgType nonce payload) := by
  refine ⟨rfl, hpayload, rfl, rfl, ?_, by simp, by simp [maxHops], rfl⟩
  obtain ⟨tail, htail⟩ := List.head?_eq_some_iff.mp (head?_route a.digits dst.digits)
  change [a.digits] <+: route a.digits dst.digits
  rw [htail]
  exact List.cons_prefix_cons.mpr ⟨rfl, List.nil_prefix⟩

/-! ## Transport -/

def Envelope.at_ (env : Envelope) : Option OctAddr := env.hopChain.getLast?.map (·.addr)

/-- An envelope in flight between honest nodes: sent by its origin, and forwarded by each node
that the next step reaches before the destination. -/
inductive Carried (relay : ControlRelay) (ids : OctAddr → NodeId) (src dst : OctAddr) :
    Envelope → Prop where
  | sent (msgId : MsgId) (msgType : UInt16) (nonce : UInt64) (payload : List UInt8)
      (hpayload : payload.length ≤ maxPayload) :
      Carried relay ids src dst
        (Envelope.new { addr := src, node := ids src } dst msgId msgType nonce payload)
  | forwarded {env out : Envelope} {last next : OctAddr} (henv : Carried relay ids src dst env)
      (hlast : env.at_ = some last) (hnext : isNextStep last dst next = true) (hfar : next ≠ dst)
      (hout : forwardHop relay { addr := next, node := ids next } env = .ok out) :
      Carried relay ids src dst out

variable {relay : ControlRelay}

theorem VisitsRoute.map_digits (h : VisitsRoute src dst path) :
    path.map (·.digits) = route src.digits dst.digits := by
  have hlen : (route src.digits dst.digits).length ≤ max path.length
      (route src.digits dst.digits).length := le_max_right _ _
  rw [← nextSteps_digits dst hlen, h.run _ (le_max_left _ _)]

theorem VisitsRoute.onRoute_iff (h : VisitsRoute src dst path) {addrs : List OctAddr} :
    OnRoute src dst addrs ↔ addrs <+: path := by
  rw [OnRoute, ← h.map_digits]
  exact List.prefix_map_iff_of_injective OctAddr.digits_injective

theorem Travelled.at_ (h : Travelled ids trail env) : env.at_ = trail.getLast? := by
  rw [Envelope.at_, h.chain, List.getLast?_map, Option.map_map]
  simp [Function.comp_def]

/-- A next step from the end of a part of the route makes it one longer. -/
theorem OnRoute.snoc {last next : OctAddr} (h : OnRoute src dst trail) (hne : trail ≠ [])
    (hlast : trail.getLast? = some last) (hnext : isNextStep last dst next = true) :
    OnRoute src dst (trail ++ [next]) := by
  obtain ⟨rest, hrest⟩ := List.head?_eq_some_iff.mp (h.head? hne)
  have hchain : trail.IsChain fun a b => isNextStep a dst b = true := by
    rw [hrest, isChain_nextStep_iff, ← hrest]
    exact h
  have hlonger : (trail ++ [next]).IsChain fun a b => isNextStep a dst b = true := by
    refine List.isChain_append.mpr ⟨hchain, .singleton next, ?_⟩
    intro x hx y hy
    obtain rfl : last = x := Option.some.inj (hlast.symm.trans hx)
    obtain rfl : next = y := by simpa using hy
    exact hnext
  rw [hrest, List.cons_append, isChain_nextStep_iff] at hlonger
  rw [OnRoute, hrest, List.cons_append]
  exact hlonger

theorem Carried.travelled (hpath : VisitsRoute src dst path) (hhonest : HonestPath ids path)
    (h : Carried relay ids src dst env) :
    env.src.addr = src ∧ env.dst = dst ∧ ∃ trail, Travelled ids trail env := by
  induction h with
  | sent msgId msgType nonce payload hpayload => exact ⟨rfl, rfl, _, travelled_new hpayload⟩
  | @forwarded env out last next henv hlast hnext hfar hout ih =>
      obtain ⟨rfl, rfl, trail, htrail⟩ := ih
      have hroute := htrail.route.snoc htrail.started (htrail.at_ ▸ hlast) hnext
      have hlen : env.hopChain.length = trail.length := by rw [htrail.chain, List.length_map]
      simp only [forwardHop, ite_error_eq_ok, not_or, hlen, not_le, bind_eq_ok] at hout
      obtain ⟨⟨-, hroom⟩, prepared, hprepared, hout⟩ := hout
      -- The control engine changes nothing but the payload.
      have hprep : ∃ payload, payload.length ≤ maxPayload ∧ prepared = { env with payload } := by
        unfold preparePayload at hprepared
        split at hprepared
        · obtain ⟨payload, -, hpayload⟩ := bind_eq_ok.mp hprepared
          exact ⟨payload.1, payload.2.trans (by decide), (pure_eq_ok.mp hpayload).symm⟩
        · exact ⟨env.payload, htrail.payload, (Except.ok.inj hprepared).symm⟩
      obtain ⟨payload, hpayload, rfl⟩ := hprep
      have htravelled : Travelled ids trail { env with payload } :=
        ⟨htrail.version, hpayload, htrail.src, htrail.chain, htrail.route, htrail.started,
          htrail.room, htrail.budget⟩
      have hhonest' : HonestPath ids (trail ++ [next]) := by
        exact hhonest.mono (hpath.onRoute_iff.mp hroute).subset
      rw [htravelled.appendHop hhonest' hroute hroom] at hout
      obtain rfl := pure_eq_ok.mp hout
      exact ⟨rfl, rfl, _, (htravelled.step hroute hroom).2⟩

/-! ## Cascades -/

/-- A settlement envelope in flight to the signer at an index: sent by the first signer to the
second, and re-addressed by each signer to the one after it. -/
inductive Cascading (ids : OctAddr → NodeId) (signers : List OctAddr) : ℕ → Envelope → Prop where
  | sent {first second : OctAddr} (msgId : MsgId) (msgType : UInt16) (nonce : UInt64)
      (payload : List UInt8) (hpayload : payload.length ≤ maxPayload)
      (hfirst : signers[0]? = some first) (hsecond : signers[1]? = some second) :
      Cascading ids signers 1
        (Envelope.new { addr := first, node := ids first } second msgId msgType nonce payload)
  | relayed {k : ℕ} {env out : Envelope} {this next : OctAddr} {payload : List UInt8}
      (henv : Cascading ids signers k env) (hpayload : payload.length ≤ maxPayload)
      (hthis : signers[k]? = some this) (hnext : signers[k + 1]? = some next)
      (hout : relaySettleForward { addr := this, node := ids this } env next payload = some out) :
      Cascading ids signers (k + 1) out

variable {signers : List OctAddr} {a b : List UInt8}

theorem onRoute_take (hdigits : signers.map (·.digits) = route a b) {first dst : OctAddr}
    (hfirst : signers[0]? = some first) {k j : ℕ} (hdst : signers[k]? = some dst) (hj : j ≤ k + 1) :
    OnRoute first dst (signers.take j) := by
  have ha : first.digits = a := by
    have hhead := head?_route a b
    rw [← hdigits, List.head?_map, List.head?_eq_getElem?, hfirst] at hhead
    exact Option.some.inj hhead
  have hget : (route a b)[k]? = some dst.digits := by
    rw [← hdigits, List.getElem?_map, hdst]
    rfl
  rw [OnRoute, List.map_take, hdigits, ha, route_take hget]
  exact List.take_prefix_take_left hj

/-- A signer relays an envelope that has come through the signers before it. -/
theorem Travelled.relayed (hdigits : signers.map (·.digits) = Library.route a b)
    (hhonest : HonestPath ids signers) (hbound : signers.length ≤ maxHops) {k : ℕ}
    {this next : OctAddr} {payload : List UInt8} (h : Travelled ids (signers.take k) env)
    (hfirst : signers[0]? = some env.src.addr) (hpayload : payload.length ≤ maxPayload)
    (hthis : signers[k]? = some this) (hnext : signers[k + 1]? = some next) :
    ∃ out, relaySettleForward { addr := this, node := ids this } env next payload = some out
      ∧ out.src = env.src ∧ out.dst = next ∧ Travelled ids (signers.take (k + 1)) out := by
  have htake : signers.take k ++ [this] = signers.take (k + 1) := by
    rw [List.take_add_one, hthis]
    rfl
  have hk : k + 1 < signers.length := (List.getElem?_eq_some_iff.mp hnext).1
  have hroom : (signers.take k).length < maxHops := by
    rw [List.length_take]
    omega
  -- Re-addressed, the envelope is on the route to the next signer, and so is this node.
  have hreaddressed : Travelled ids (signers.take k)
      { env with dst := next, msgType := msgSettleV1, payload } :=
    ⟨h.version, hpayload, h.src, h.chain, onRoute_take hdigits hfirst hnext (by omega),
      h.started, h.room, h.budget⟩
  have hroute : OnRoute env.src.addr next (signers.take k ++ [this]) :=
    htake ▸ onRoute_take hdigits hfirst hnext (by omega)
  have hhonest' : HonestPath ids (signers.take k ++ [this]) := by
    rw [htake]
    exact hhonest.mono (List.take_sublist _ _).subset
  obtain ⟨httl, hstep⟩ := hreaddressed.step hroute hroom
  refine ⟨{ env with
    dst := next
    msgType := msgSettleV1
    payload
    hopChain := (signers.take k ++ [this]).map fun a => { addr := a, node := ids a }
    ttl := env.ttl - 1 }, ?_, rfl, rfl, ?_⟩
  · rw [relaySettleForward, hreaddressed.appendHop hhonest' hroute hroom]
    simp only
    rw [if_neg httl]
  · rw [← htake]
    exact hstep

/-- A settlement envelope has travelled from signer to signer. -/
theorem Cascading.travelled (hdigits : signers.map (·.digits) = route a b)
    (hhonest : HonestPath ids signers) (hbound : signers.length ≤ maxHops) {k : ℕ}
    (h : Cascading ids signers k env) :
    signers[0]? = some env.src.addr ∧ signers[k]? = some env.dst
      ∧ Travelled ids (signers.take k) env := by
  induction h with
  | @sent first second msgId msgType nonce payload hpayload hfirst hsecond =>
      have htake : signers.take 1 = [first] := by
        obtain ⟨rest, hrest⟩ := List.head?_eq_some_iff.mp (List.head?_eq_getElem? ▸ hfirst)
        rw [hrest]
        rfl
      exact ⟨hfirst, hsecond, htake ▸ travelled_new hpayload⟩
  | @relayed k env out this next payload henv hpayload hthis hnext hout ih =>
      obtain ⟨hfirst, -, htrail⟩ := ih
      obtain ⟨out', hout', hsrc, hdst, htravelled⟩ :=
        htrail.relayed hdigits hhonest hbound hfirst hpayload hthis hnext
      obtain rfl := Option.some.inj (hout.symm.trans hout')
      exact ⟨hsrc ▸ hfirst, hdst ▸ hnext, htravelled⟩

/-! ## The invariant -/

/-- A chain is accepted exactly when it is a non-empty first part of the route, of at most
`MAX_HOPS` hops, over distinct nodes, and a failed append changes nothing. Every envelope that
honest nodes forward passes the checks of the next node, which can append itself while there is
room, and still has a forward left; so does every envelope that honest signers relay along a
cascade, and each of them but the last can relay it. -/
theorem hop_chain_invariant :
    (∀ src dst path hops, VisitsRoute src dst path →
      (validateHopChain src dst hops = .ok () ↔ hops ≠ [] ∧ hops.length ≤ maxHops
        ∧ hops.map (·.addr) <+: path ∧ (hops.map (·.node)).Nodup))
    ∧ (∀ (env : Envelope) (this : PeerRef) (e : HopChainError),
        (env.appendHop this).1 = .error e → (env.appendHop this).2 = env)
    ∧ (∀ relay ids src dst path env, VisitsRoute src dst path → HonestPath ids path →
        Carried relay ids src dst env →
        env.validate = .ok () ∧ validateHopChain env.src.addr env.dst env.hopChain = .ok ()
        ∧ env.ttl ≠ 0
        ∧ ∀ last next, env.at_ = some last → isNextStep last dst next = true →
            env.hopChain.length < maxHops →
            (env.appendHop { addr := next, node := ids next }).1 = .ok ())
    ∧ ∀ payer payee signers ids k env, routeSigners payer payee = some signers →
        signers.length ≤ maxHops → HonestPath ids signers → Cascading ids signers k env →
        env.validate = .ok () ∧ validateHopChain env.src.addr env.dst env.hopChain = .ok ()
        ∧ env.ttl ≠ 0 ∧ signers[k]? = some env.dst
        ∧ ∀ this next payload, signers[k]? = some this → signers[k + 1]? = some next →
            payload.length ≤ maxPayload →
            ∃ out, relaySettleForward { addr := this, node := ids this } env next payload
              = some out := by
  refine ⟨?_, fun env this e h => appendHop_of_error h, ?_, ?_⟩
  · intro src dst path hops hpath
    rw [validateHopChain_eq_ok, hpath.onRoute_iff]
  · intro relay ids src dst path env hpath hhonest henv
    obtain ⟨rfl, rfl, trail, htrail⟩ := henv.travelled hpath hhonest
    have hsub : trail ⊆ path := (hpath.onRoute_iff.mp htrail.route).subset
    obtain ⟨hvalid, hchain⟩ := htrail.checked (hhonest.mono hsub)
    refine ⟨hvalid, hchain, htrail.ttl_ne_zero, ?_⟩
    intro last next hlast hnext hroom
    have hroute := htrail.route.snoc htrail.started (htrail.at_ ▸ hlast) hnext
    have hsub' := (hpath.onRoute_iff.mp hroute).subset
    rw [htrail.chain, List.length_map] at hroom
    rw [htrail.appendHop (hhonest.mono hsub') hroute hroom]
  · intro payer payee signers ids k env hsigners hbound hhonest henv
    obtain ⟨srcLeaf, dstLeaf, hdigits⟩ := routeSigners_digits hsigners
    obtain ⟨hfirst, hdst, htrail⟩ := henv.travelled hdigits hhonest hbound
    have hsub := (List.take_sublist k signers).subset
    obtain ⟨hvalid, hchain⟩ := htrail.checked (hhonest.mono hsub)
    refine ⟨hvalid, hchain, htrail.ttl_ne_zero, hdst, ?_⟩
    intro this next payload hthis hnext hpayload
    obtain ⟨out, hout, -⟩ :=
      htrail.relayed hdigits hhonest hbound hfirst hpayload hthis hnext
    exact ⟨out, hout⟩

end

section

def firstLeaf : OctAddr := OctAddr.root.child 1 one_le_maxSlot

def secondLeaf : OctAddr := OctAddr.root.child 2 two_le_maxSlot

/-- Each node is named by its address. -/
theorem display_honest :
    HonestPath OctAddr.display [firstLeaf, .root, secondLeaf] := by
  constructor <;> decide +kernel

/-- The fresh envelope from the first leaf to an address. -/
def leafEnvelope (dst : OctAddr) : Envelope :=
  .new { addr := firstLeaf, node := firstLeaf.display } dst (Vector.replicate 16 0) 1 0 []

/-- The leaf's envelope to its sibling can be forwarded, and as the first step of a cascade it
can be relayed; the leaf cannot append itself twice. -/
theorem hop_chain_invariant_siblings :
    ((leafEnvelope secondLeaf).appendHop { addr := .root, node := OctAddr.root.display }).1 = .ok ()
    ∧ ((leafEnvelope secondLeaf).appendHop
        { addr := firstLeaf, node := firstLeaf.display }).2.hopChain.length = 1
    ∧ validateHopChain firstLeaf secondLeaf [⟨firstLeaf, "l"⟩, ⟨.root, "r"⟩] = .ok ()
    ∧ ∃ out, relaySettleForward { addr := .root, node := OctAddr.root.display }
        (leafEnvelope .root) secondLeaf [] = some out := by
  have hpath : VisitsRoute firstLeaf secondLeaf [firstLeaf, .root, secondLeaf] :=
    visitsRoute_of_digits (by decide)
  obtain ⟨hvalidate, hunchanged, hforward, hrelay⟩ := hop_chain_invariant
  refine ⟨?_, ?_, ?_, ?_⟩
  · obtain ⟨-, -, -, happend⟩ := hforward (fun _ => .error .internal) OctAddr.display firstLeaf
      secondLeaf _ (leafEnvelope secondLeaf) hpath display_honest (.sent _ _ _ _ (by decide))
    exact happend firstLeaf .root rfl (by decide) (by decide)
  · have hfails : ((leafEnvelope secondLeaf).appendHop
        { addr := firstLeaf, node := firstLeaf.display }).1
        = .error (.repeatedNode firstLeaf.display) := by decide +kernel
    rw [hunchanged _ _ _ hfails]
    rfl
  · exact (hvalidate _ _ _ _ hpath).mpr (by decide)
  · obtain ⟨-, -, -, -, hout⟩ := hrelay (firstLeaf.child 0 (by decide))
      (secondLeaf.child 0 (by decide)) _ OctAddr.display 1 (leafEnvelope .root) rfl (by decide)
      display_honest (.sent _ _ _ _ (by decide) rfl rfl)
    exact hout _ _ [] rfl rfl (by decide)

end

end Cawala
