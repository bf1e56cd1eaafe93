import Cawala.Model.MsgHandler
import Cawala.Verification.HopChain
import Cawala.Verification.Replay

/-! # Local delivery

The replay mark of a message is what its calls have in common: while it is kept, at most one
call is under way, and no call follows a delivery. Rolling it back opens the message again. -/

namespace Cawala

/-! ## Evictions -/

/-- Observing a message evicts a mark: it was remembered, or just observed, and no longer is. -/
def SeenSet.Evicts {κ : Type} [DecidableEq κ] (s : SeenSet κ) (o : κ) (id : MsgId)
    (key : κ × MsgId) : Prop :=
  (s.holds key.1 key.2 ∨ key = (o, id)) ∧ ¬ (s.observe o id).2.holds key.1 key.2

instance {κ : Type} [DecidableEq κ] (s : SeenSet κ) (o : κ) (id : MsgId) (key : κ × MsgId) :
    Decidable (s.Evicts o id key) :=
  inferInstanceAs (Decidable (_ ∧ _))

/-! ## Calls of a message -/

/-- A call of a message is under way, at a stage before its answer. -/
def Runs (calls : List Call) (key : NodeId × MsgId) (i : ℕ) (stage : CallStage) : Prop :=
  (∃ c, calls[i]? = some c ∧ c.env.seenKey = key ∧ c.stage = stage)
    ∧ ∀ status, stage ≠ .answered status

/-- Every call of a message has ended in a transient failure. -/
def AllTransient (calls : List Call) (key : NodeId × MsgId) : Prop :=
  ∀ c ∈ calls, c.env.seenKey = key →
    ∃ status, c.stage = .answered status ∧ status.isTransient = true

section

variable {calls : List Call} {c c' : Call} {key : NodeId × MsgId} {i k : ℕ} {stage : CallStage}

theorem runs_snoc : Runs (calls ++ [c]) key i stage ↔ Runs calls key i stage
    ∨ (i = calls.length ∧ c.env.seenKey = key ∧ c.stage = stage
      ∧ ∀ status, stage ≠ .answered status) := by
  simp only [Runs]
  obtain hlt | rfl | hgt := lt_trichotomy i calls.length
  · simp [List.getElem?_append_left hlt, hlt.ne]
  · simp [and_assoc]
  · have hnone : calls[i]? = none := List.getElem?_eq_none hgt.le
    have hnone' : (calls ++ [c])[i]? = none := by
      apply List.getElem?_eq_none
      simpa using hgt
    simp [hnone, hnone', hgt.ne']

theorem runs_set (h : calls[k]? = some c) :
    Runs (calls.set k c') key i stage ↔ (i ≠ k ∧ Runs calls key i stage)
      ∨ (i = k ∧ c'.env.seenKey = key ∧ c'.stage = stage ∧ ∀ status, stage ≠ .answered status) := by
  simp only [Runs]
  by_cases hi : i = k
  · subst hi
    have hlt := (List.getElem?_eq_some_iff.mp h).1
    simp [List.getElem?_set_self hlt, and_assoc]
  · simp [List.getElem?_set_ne (Ne.symm hi), hi]

theorem AllTransient.of_snoc (h : AllTransient (calls ++ [c]) key) : AllTransient calls key :=
  fun d hd => h d (List.mem_append_left _ hd)

theorem AllTransient.of_set (h : AllTransient (calls.set k c') key) (hk : calls[k]? = some c)
    (hkey : c.env.seenKey ≠ key) : AllTransient calls key := by
  intro d hd hdkey
  obtain ⟨j, hj⟩ := List.mem_iff_getElem?.mp hd
  have hne : k ≠ j := by
    rintro rfl
    obtain rfl := Option.some.inj (hk.symm.trans hj)
    exact hkey hdkey
  exact h d (List.mem_iff_getElem?.mpr ⟨j, by rw [List.getElem?_set_ne hne, hj]⟩) hdkey

end

def Sink.keys (s : Sink) : List (NodeId × MsgId) := s.handed.map (·.seenKey)

/-! ## Steps of the handler -/

namespace MsgNode

variable [EndpointIds] {n n' m : MsgNode} {remote : NodeId} {snapshot : Routable}
  {env : Envelope} {event : MsgEvent} {events : List MsgEvent} {key : NodeId × MsgId}

theorem receive_cases (n : MsgNode) (remote : NodeId) (snapshot : Routable) (env : Envelope) :
    (∃ reason, n.receive remote snapshot env = { n with
        calls := n.calls ++ [{ env, snapshot, stage := .answered (.rejected reason) }] })
    ∨ (checkEnvelope snapshot remote env = .ok ()
        ∧ (n.seen.observe env.seenKey.1 env.seenKey.2).1 = .duplicate
        ∧ n.receive remote snapshot env = { n with
            seen := (n.seen.observe env.seenKey.1 env.seenKey.2).2
            calls := n.calls ++ [{ env, snapshot, stage := .answered .duplicate }] })
    ∨ (checkEnvelope snapshot remote env = .ok ()
        ∧ (n.seen.observe env.seenKey.1 env.seenKey.2).1 = .fresh
        ∧ n.receive remote snapshot env = { n with
            seen := (n.seen.observe env.seenKey.1 env.seenKey.2).2
            calls := n.calls ++ [{ env, snapshot, stage := .marked }] }) := by
  unfold receive
  split
  · rename_i reason hcheck
    exact .inl ⟨reason, rfl⟩
  · rename_i hcheck
    split
    · rename_i seen hseen
      exact .inr (.inl ⟨hcheck, by rw [hseen], by rw [hseen]⟩)
    · rename_i seen hseen
      exact .inr (.inr ⟨hcheck, by rw [hseen], by rw [hseen]⟩)

theorem step_cases (h : n.step event = some n') :
    (∃ remote snapshot env, event = .receive remote snapshot env
      ∧ n' = n.receive remote snapshot env)
    ∨ (∃ i relay reply call, event = .route i relay reply ∧ n.calls[i]? = some call
      ∧ call.stage = .marked ∧ n' = { n with
        sink := (n.routeCall call relay reply).2
        calls := n.calls.set i { call with stage := .routed (n.routeCall call relay reply).1 } })
    ∨ (∃ i call status, event = .settle i ∧ n.calls[i]? = some call
      ∧ call.stage = .routed status ∧ n' = { n with
        seen := n.settleSeen call status
        calls := n.calls.set i { call with stage := .answered status } })
    ∨ (n'.seen = n.seen ∧ n'.calls = n.calls ∧ n'.sink.handed = n.sink.handed) := by
  cases event with
  | receive remote snapshot env => exact .inl ⟨remote, snapshot, env, rfl, (Option.some.inj h).symm⟩
  | route i relay reply =>
      simp only [step] at h
      split at h
      · rename_i call hcall
        split_ifs at h with hmarked
        exact .inr (.inl ⟨i, relay, reply, call, rfl, hcall, hmarked, (Option.some.inj h).symm⟩)
      · cases h
  | settle i =>
      simp only [step] at h
      split at h
      · rename_i call hcall
        split at h
        · rename_i status hrouted
          exact .inr (.inr (.inl ⟨i, call, status, rfl, hcall, hrouted, (Option.some.inj h).symm⟩))
        · cases h
      · cases h
  | take =>
      obtain rfl := Option.some.inj h
      exact .inr (.inr (.inr ⟨rfl, rfl, rfl⟩))
  | close =>
      obtain rfl := Option.some.inj h
      exact .inr (.inr (.inr ⟨rfl, rfl, rfl⟩))

theorem run_cons :
    n.run (event :: events) = some n' ↔ ∃ m, n.step event = some m ∧ m.run events = some n' :=
  Option.bind_eq_some_iff

/-- What each step of a run preserves holds at its end. -/
theorem run_induction {P : MsgNode → Prop} (hstart : P n)
    (hstep : ∀ before event after m m', events = before ++ event :: after →
      n.run before = some m → m.step event = some m' → P m → P m')
    (h : n.run events = some n') : P n' := by
  induction events generalizing n with
  | nil =>
      obtain rfl := Option.some.inj h
      exact hstart
  | cons event events ih =>
      obtain ⟨m, hm, hrest⟩ := run_cons.mp h
      refine ih (hstep [] event events n m rfl rfl hm hstart) ?_ hrest
      intro before event' after m' m'' hsplit hbefore
      refine hstep (event :: before) event' after m' m'' (by rw [hsplit]; rfl) ?_
      exact run_cons.mpr ⟨m, hm, hbefore⟩

/-- The step takes away the mark of a message to make room. -/
def Evicts (key : NodeId × MsgId) (n : MsgNode) : MsgEvent → Prop
  | .receive remote snapshot env => checkEnvelope snapshot remote env = .ok ()
      ∧ n.seen.Evicts env.seenKey.1 env.seenKey.2 key
  | _ => False

instance (key : NodeId × MsgId) (n : MsgNode) : DecidablePred (Evicts key n)
  | .receive _ _ _ => inferInstanceAs (Decidable (_ ∧ _))
  | .route _ _ _ | .settle _ | .take | .close => isFalse id

/-! ## At most one delivery -/

/-- While its mark is kept, a message has at most one call under way and one delivery, and
nothing under way can roll the mark of a delivery back. -/
structure Once (key : NodeId × MsgId) (n : MsgNode) : Prop where
  valid : n.seen.Valid
  single : ∀ i j a b, Runs n.calls key i a → Runs n.calls key j b → i = j
  kept : ∀ i a, Runs n.calls key i a → n.seen.holds key.1 key.2
  delivered : key ∈ n.sink.keys → n.seen.holds key.1 key.2
    ∧ ∀ i a, Runs n.calls key i a → a = .routed .delivered
  once : n.sink.keys.count key ≤ 1

omit [EndpointIds] in
theorem once_new (config : SeenConfig) (capacity : ℕ) : Once key (.new config capacity) where
  valid := SeenSet.valid_new config
  single := by simp [Runs, new]
  kept := by simp [Runs, new]
  delivered := by simp [Sink.keys, new]
  once := by simp [Sink.keys, new]

omit [EndpointIds] in
/-- A step that keeps the mark, starts no call of the message and delivers nothing keeps the
invariant. -/
theorem Once.mono (hn : Once key n) (hvalid : m.seen.Valid)
    (hholds : n.seen.holds key.1 key.2 → m.seen.holds key.1 key.2)
    (hruns : ∀ i a, Runs m.calls key i a → Runs n.calls key i a)
    (hsink : m.sink.keys = n.sink.keys) : Once key m where
  valid := hvalid
  single i j a b ha hb := hn.single i j a b (hruns i a ha) (hruns j b hb)
  kept i a ha := hholds (hn.kept i a (hruns i a ha))
  delivered h := by
    obtain ⟨hheld, hall⟩ := hn.delivered (hsink ▸ h)
    exact ⟨hholds hheld, fun i a ha => hall i a (hruns i a ha)⟩
  once := by
    rw [hsink]
    exact hn.once

/-- A call begins without eviction. -/
theorem Once.receive (hn : Once key n) (hkeeps : ¬ Evicts key n (.receive remote snapshot env)) :
    Once key (n.receive remote snapshot env) := by
  obtain ⟨hvalid, hdup, -⟩ :=
    SeenSet.observe_spec env.seenKey.1 env.seenKey.2 hn.valid
  have hheld : checkEnvelope snapshot remote env = .ok () →
      n.seen.holds key.1 key.2 ∨ key = env.seenKey →
      (n.seen.observe env.seenKey.1 env.seenKey.2).2.holds key.1 key.2 := by
    intro hcheck hbefore
    by_contra hnot
    exact hkeeps ⟨hcheck, hbefore, hnot⟩
  obtain ⟨reason, h⟩ | ⟨hcheck, -, h⟩ | ⟨hcheck, hfresh, h⟩ :=
    n.receive_cases remote snapshot env
  · rw [h]
    refine hn.mono hn.valid id ?_ rfl
    intro i a ha
    obtain ha | ⟨-, -, rfl, hopen⟩ := runs_snoc.mp ha
    · exact ha
    · exact absurd rfl (hopen _)
  · rw [h]
    refine hn.mono hvalid (fun hb => hheld hcheck (.inl hb)) ?_ rfl
    intro i a ha
    obtain ha | ⟨-, -, rfl, hopen⟩ := runs_snoc.mp ha
    · exact ha
    · exact absurd rfl (hopen _)
  · rw [h]
    by_cases hkey : env.seenKey = key
    · -- A fresh message has no mark, so no call of it is under way and none was delivered.
      have hnone : ¬ n.seen.holds key.1 key.2 := by
        rw [← hkey, ← hdup, hfresh]
        exact Seen.noConfusion
      have hruns : ∀ i a, ¬ Runs n.calls key i a := fun i a ha => hnone (hn.kept i a ha)
      have hsent : key ∉ n.sink.keys := fun hsent => hnone (hn.delivered hsent).1
      refine ⟨hvalid, ?_, fun i a _ => hheld hcheck (.inr hkey.symm), fun hs => absurd hs hsent,
        hn.once⟩
      intro i j a b ha hb
      obtain ha | ⟨rfl, -⟩ := runs_snoc.mp ha
      · exact absurd ha (hruns i a)
      · obtain hb | ⟨rfl, -⟩ := runs_snoc.mp hb
        · exact absurd hb (hruns j b)
        · rfl
    · refine hn.mono hvalid (fun hb => hheld hcheck (.inl hb)) ?_ rfl
      intro i a ha
      obtain ha | ⟨-, hk, -⟩ := runs_snoc.mp ha
      · exact ha
      · exact absurd hk hkey

omit [EndpointIds] in
/-- Routing a call hands over its own envelope, or nothing. -/
theorem routeCall_keys (call : Call) (relay : ControlRelay) (reply : Option AckStatus) :
    (n.routeCall call relay reply).2.keys = n.sink.keys
    ∨ ((n.routeCall call relay reply).1 = .delivered
      ∧ (n.routeCall call relay reply).2.keys = n.sink.keys ++ [call.env.seenKey]) := by
  unfold routeCall
  split
  · unfold Sink.trySend
    split_ifs
    · exact .inl rfl
    · exact .inl rfl
    · exact .inr ⟨rfl, by simp [Sink.keys]⟩
  · split <;> exact .inl rfl
  · exact .inl rfl

omit [EndpointIds] in
theorem Once.routed (hn : Once key n) {i : ℕ} {call : Call} {relay : ControlRelay}
    {reply : Option AckStatus} (hcall : n.calls[i]? = some call) (hmarked : call.stage = .marked) :
    Once key { n with
      sink := (n.routeCall call relay reply).2
      calls := n.calls.set i { call with stage := .routed (n.routeCall call relay reply).1 } } := by
  have hkeys := n.routeCall_keys call relay reply
  generalize n.routeCall call relay reply = result at hkeys ⊢
  have hset : ∀ {j b}, Runs (n.calls.set i { call with stage := .routed result.1 }) key j b →
      (j ≠ i ∧ Runs n.calls key j b)
        ∨ (j = i ∧ call.env.seenKey = key ∧ b = .routed result.1) := by
    intro j b hb
    exact ((runs_set hcall).mp hb).imp_right fun hb => ⟨hb.1, hb.2.1, hb.2.2.1.symm⟩
  by_cases hkey : call.env.seenKey = key
  · -- The one call under way is marked, so nothing of the message has been delivered.
    have hrun : Runs n.calls key i .marked :=
      ⟨⟨call, hcall, hkey, hmarked⟩, fun _ => CallStage.noConfusion⟩
    have hheld := hn.kept i _ hrun
    have hsent : key ∉ n.sink.keys := fun h => CallStage.noConfusion ((hn.delivered h).2 i _ hrun)
    have honly : ∀ {j b}, Runs (n.calls.set i { call with stage := .routed result.1 }) key j b →
        j = i ∧ b = .routed result.1 := by
      intro j b hb
      obtain ⟨hne, hb⟩ | ⟨rfl, -, rfl⟩ := hset hb
      · exact absurd (hn.single _ _ _ _ hb hrun) hne
      · exact ⟨rfl, rfl⟩
    refine ⟨hn.valid, fun j k a b ha hb => (honly ha).1.trans (honly hb).1.symm, fun _ _ _ => hheld,
      ?_, ?_⟩
    · intro h
      refine ⟨hheld, fun j b hb => ?_⟩
      obtain ⟨rfl, rfl⟩ := honly hb
      obtain hsame | ⟨hdelivered, -⟩ := hkeys
      · exact absurd (hsame ▸ h) hsent
      · rw [hdelivered]
    · have hzero : n.sink.keys.count key = 0 := List.count_eq_zero.mpr hsent
      obtain hsame | ⟨-, hmore⟩ := hkeys
      · simp only [hsame, hzero, zero_le]
      · simp only [hmore, hkey, List.count_append, hzero, List.count_singleton_self, le_refl,
          zero_add]
  · -- Another message is routed.
    have hcount : result.2.keys.count key = n.sink.keys.count key
        ∧ (key ∈ result.2.keys ↔ key ∈ n.sink.keys) := by
      obtain hsame | ⟨-, hmore⟩ := hkeys
      · rw [hsame]
        exact ⟨rfl, Iff.rfl⟩
      · rw [hmore, List.count_append, List.count_singleton]
        simp [hkey, Ne.symm hkey]
    have hruns : ∀ {j b}, Runs (n.calls.set i { call with stage := .routed result.1 }) key j b →
        Runs n.calls key j b := by
      intro j b hb
      obtain ⟨-, hb⟩ | ⟨-, hk, -⟩ := hset hb
      · exact hb
      · exact absurd hk hkey
    refine ⟨hn.valid, fun j k a b ha hb => hn.single j k a b (hruns ha) (hruns hb),
      fun j b hb => hn.kept j b (hruns hb), ?_, hcount.1.trans_le hn.once⟩
    intro h
    obtain ⟨hheld, hall⟩ := hn.delivered (hcount.2.mp h)
    exact ⟨hheld, fun j b hb => hall j b (hruns hb)⟩

omit [EndpointIds] in
/-- A call answers, and rolls back a mark that no delivery and no other call of the message
goes by. -/
theorem Once.settled (hn : Once key n) {i : ℕ} {call : Call} {status : AckStatus}
    (hcall : n.calls[i]? = some call) (hrouted : call.stage = .routed status) :
    Once key { n with
      seen := n.settleSeen call status
      calls := n.calls.set i { call with stage := .answered status } } := by
  have hset : ∀ j b, Runs (n.calls.set i { call with stage := .answered status }) key j b →
      j ≠ i ∧ Runs n.calls key j b := by
    intro j b hb
    obtain hb | ⟨-, -, rfl, hopen⟩ := (runs_set hcall).mp hb
    · exact hb
    · exact absurd rfl (hopen _)
  unfold settleSeen
  split_ifs with htransient
  · have hholds := SeenSet.holds_unobserve call.env.seenKey.1 key.1 call.env.seenKey.2 key.2
      hn.valid
    by_cases hkey : call.env.seenKey = key
    · have hrun : Runs n.calls key i (.routed status) :=
        ⟨⟨call, hcall, hkey, hrouted⟩, fun _ => CallStage.noConfusion⟩
      have hnone : ∀ j b, ¬ Runs (n.calls.set i { call with stage := .answered status }) key j b :=
        fun j b hb => (hset j b hb).1 (hn.single _ _ _ _ (hset j b hb).2 hrun)
      have hsent : key ∉ n.sink.keys := by
        intro h
        obtain rfl := CallStage.routed.inj ((hn.delivered h).2 i _ hrun)
        exact absurd htransient (by decide)
      exact ⟨SeenSet.valid_unobserve hn.valid, fun j _ b _ hb => absurd hb (hnone j b),
        fun j b hb => absurd hb (hnone j b), fun h => absurd h hsent, hn.once⟩
    · refine hn.mono (SeenSet.valid_unobserve hn.valid) ?_ (fun j b hb => (hset j b hb).2) rfl
      intro h
      exact hholds.mpr ⟨h, fun heq => hkey heq.symm⟩
  · exact hn.mono hn.valid id (fun j b hb => (hset j b hb).2) rfl

theorem Once.step (hn : Once key n) (hkeeps : ¬ Evicts key n event) (h : n.step event = some n') :
    Once key n' := by
  obtain ⟨remote, snapshot, env, rfl, rfl⟩ | ⟨i, relay, reply, call, rfl, hcall, hmarked, rfl⟩
    | ⟨i, call, status, rfl, hcall, hrouted, rfl⟩ | ⟨hseen, hcalls, hsink⟩ := step_cases h
  · exact hn.receive hkeeps
  · exact hn.routed hcall hmarked
  · exact hn.settled hcall hrouted
  · refine hn.mono (hseen ▸ hn.valid) (fun hb => hseen ▸ hb) (fun i a ha => hcalls ▸ ha) ?_
    rw [Sink.keys, hsink, Sink.keys]

/-! ## Rolled-back messages -/

/-- A message whose calls have all ended in a transient failure has no mark. -/
structure Reopened (key : NodeId × MsgId) (n : MsgNode) : Prop where
  valid : n.seen.Valid
  unmarked : AllTransient n.calls key → ¬ n.seen.holds key.1 key.2

theorem Reopened.step (hn : Reopened key n) (h : n.step event = some n') : Reopened key n' := by
  obtain ⟨remote, snapshot, env, rfl, rfl⟩ | ⟨i, relay, reply, call, rfl, hcall, hmarked, rfl⟩
    | ⟨i, call, status, rfl, hcall, hrouted, rfl⟩ | ⟨hseen, hcalls, hsink⟩ := step_cases h
  · obtain ⟨hvalid, -, hmore⟩ :=
      SeenSet.observe_spec env.seenKey.1 env.seenKey.2 hn.valid
    -- A call that observed the message itself is no transient failure.
    have hobserved : ∀ {stage : CallStage},
        (∀ status, stage = .answered status → status.isTransient = false) →
        AllTransient (n.calls ++ [({ env, snapshot, stage } : Call)]) key →
        ¬ (n.seen.observe env.seenKey.1 env.seenKey.2).2.holds key.1 key.2 := by
      intro stage hstage hall hheld
      obtain hbefore | hkey := hmore _ _ hheld
      · exact hn.unmarked hall.of_snoc hbefore
      · obtain ⟨status, hanswered, htransient⟩ :=
          hall _ (List.mem_append_right _ (List.mem_singleton_self _)) hkey.symm
        rw [hstage status hanswered] at htransient
        exact absurd htransient (by simp)
    obtain ⟨reason, h⟩ | ⟨-, -, h⟩ | ⟨-, -, h⟩ :=
      n.receive_cases remote snapshot env
    · rw [h]
      exact ⟨hn.valid, fun hall => hn.unmarked hall.of_snoc⟩
    · rw [h]
      exact ⟨hvalid, hobserved (by rintro status ⟨⟩; rfl)⟩
    · rw [h]
      exact ⟨hvalid, hobserved (by rintro status ⟨⟩)⟩
  · refine ⟨hn.valid, fun hall => ?_⟩
    by_cases hkey : call.env.seenKey = key
    · have hlt := (List.getElem?_eq_some_iff.mp hcall).1
      obtain ⟨status, hanswered, -⟩ := hall _ (List.mem_set hlt _) hkey
      cases hanswered
    · exact hn.unmarked (hall.of_set hcall hkey)
  · have hlt := (List.getElem?_eq_some_iff.mp hcall).1
    unfold settleSeen
    split_ifs with htransient
    · refine ⟨SeenSet.valid_unobserve hn.valid, fun hall hheld => ?_⟩
      obtain ⟨hbefore, hne⟩ := (SeenSet.holds_unobserve _ _ _ _ hn.valid).mp hheld
      exact hn.unmarked (hall.of_set hcall fun hkey => hne hkey.symm) hbefore
    · refine ⟨hn.valid, fun hall => ?_⟩
      by_cases hkey : call.env.seenKey = key
      · obtain ⟨_, ⟨⟩, htransient'⟩ := hall _ (List.mem_set hlt _) hkey
        exact absurd htransient' htransient
      · exact hn.unmarked (hall.of_set hcall hkey)
  · exact ⟨hseen ▸ hn.valid, hseen ▸ hcalls ▸ hn.unmarked⟩

omit [EndpointIds] in
/-- Only the next hop makes the outcome of a routed envelope a duplicate. -/
theorem routeCall_duplicate {call : Call} {relay : ControlRelay} {reply : Option AckStatus}
    (h : (n.routeCall call relay reply).1 = .duplicate) :
    reply = some .duplicate ∧ ∃ next, call.snapshot.route call.env.dst = .forward next := by
  unfold routeCall at h
  split at h
  · unfold Sink.trySend at h
    split_ifs at h
  · rename_i next hroute
    split at h
    · cases h
    · cases reply with
      | none => cases h
      | some status => exact ⟨congrArg some h, next, hroute⟩
  · cases h

/-- A call that has passed replay defence is a duplicate only where the next hop said so. -/
def AnsweredBelow (events : List MsgEvent) (i : ℕ) (snapshot : Routable) (env : Envelope)
    (n : MsgNode) : Prop :=
  ∃ call, n.calls[i]? = some call ∧ call.env = env ∧ call.snapshot = snapshot
    ∧ (call.stage = .routed .duplicate ∨ call.stage = .answered .duplicate →
      (∃ relay, .route i relay (some .duplicate) ∈ events)
        ∧ ∃ next, snapshot.route env.dst = .forward next)

theorem AnsweredBelow.step {i : ℕ} (hn : AnsweredBelow events i snapshot env n)
    (hevent : event ∈ events) (h : n.step event = some n') :
    AnsweredBelow events i snapshot env n' := by
  obtain ⟨call, hcall, rfl, rfl, hbelow⟩ := hn
  have hlt := (List.getElem?_eq_some_iff.mp hcall).1
  obtain ⟨remote, snapshot, env, rfl, rfl⟩ | ⟨j, relay, reply, other, rfl, hother, hmarked, rfl⟩
    | ⟨j, other, status, rfl, hother, hrouted, rfl⟩ | ⟨-, hcalls, -⟩ := step_cases h
  · refine ⟨call, ?_, rfl, rfl, hbelow⟩
    obtain ⟨reason, h⟩ | ⟨-, -, h⟩ | ⟨-, -, h⟩ :=
      n.receive_cases remote snapshot env
    all_goals
      rw [h]
      simp only
      rw [List.getElem?_append_left hlt, hcall]
  · by_cases hi : j = i
    · subst hi
      obtain rfl := Option.some.inj (hcall.symm.trans hother)
      refine ⟨_, List.getElem?_set_self hlt, rfl, rfl, ?_⟩
      rintro (hdup | ⟨⟨⟩⟩)
      obtain ⟨rfl, hnext⟩ := routeCall_duplicate (CallStage.routed.inj hdup)
      exact ⟨⟨relay, hevent⟩, hnext⟩
    · exact ⟨call, by rw [List.getElem?_set_ne hi, hcall], rfl, rfl, hbelow⟩
  · by_cases hi : j = i
    · subst hi
      obtain rfl := Option.some.inj (hcall.symm.trans hother)
      refine ⟨_, List.getElem?_set_self hlt, rfl, rfl, ?_⟩
      rintro (⟨⟨⟩⟩ | hdup)
      obtain rfl := CallStage.answered.inj hdup
      exact hbelow (.inl hrouted)
    · exact ⟨call, by rw [List.getElem?_set_ne hi, hcall], rfl, rfl, hbelow⟩
  · exact ⟨call, hcalls ▸ hcall, rfl, rfl, hbelow⟩

/-- In every run of the handler's calls, a message whose mark is never evicted is handed to the
application at most once; and one whose calls have all ended in a transient failure passes replay
defence again, so that its next call is answered as a duplicate only where it was forwarded and
the next hop gave that answer. -/
theorem delivered_at_most_once :
    ∀ config capacity events n key, (MsgNode.new config capacity).run events = some n →
      ((∀ before event after m, events = before ++ event :: after →
          (MsgNode.new config capacity).run before = some m → ¬ Evicts key m event) →
        n.sink.keys.count key ≤ 1)
      ∧ (AllTransient n.calls key → ∀ remote snapshot env after n', env.seenKey = key →
          n.run (.receive remote snapshot env :: after) = some n' →
          ∃ call, n'.calls[n.calls.length]? = some call ∧ call.env = env
            ∧ (call.stage = .answered .duplicate →
              (∃ relay, .route n.calls.length relay (some .duplicate) ∈ after)
                ∧ ∃ next, snapshot.route env.dst = .forward next)) := by
  intro config capacity events n key hrun
  constructor
  · intro hkeeps
    have honce : Once key n := by
      refine run_induction (P := Once key) (once_new config capacity) ?_ hrun
      intro before event after m m' hsplit hbefore hstep hm
      exact hm.step (hkeeps before event after m hsplit hbefore) hstep
    exact honce.once
  · intro hall remote snapshot env after n' hkey hafter
    have hreopened : Reopened key n := by
      refine run_induction (P := Reopened key)
        ⟨SeenSet.valid_new config, by simp [SeenSet.holds, new, SeenSet.new]⟩ ?_ hrun
      intro before event after m m' _ _ hstep hm
      exact hm.step hstep
    obtain ⟨m, hm, hafter⟩ := run_cons.mp hafter
    obtain rfl := Option.some.inj hm
    have hstart :
        AnsweredBelow after n.calls.length snapshot env (n.receive remote snapshot env) := by
      obtain ⟨reason, h⟩ | ⟨-, hdup, h⟩ | ⟨-, -, h⟩ :=
        n.receive_cases remote snapshot env
      · rw [h]
        exact ⟨_, List.getElem?_concat_length, rfl, rfl, by simp⟩
      · have hheld := (SeenSet.observe_spec _ _ hreopened.valid).2.1.mp hdup
        rw [hkey] at hheld
        exact absurd hheld (hreopened.unmarked hall)
      · rw [h]
        exact ⟨_, List.getElem?_concat_length, rfl, rfl, by simp⟩
    obtain ⟨call, hcall, henv, -, hbelow⟩ : AnsweredBelow after n.calls.length snapshot env n' := by
      refine run_induction (P := AnsweredBelow after n.calls.length snapshot env) hstart ?_ hafter
      intro before event after' m m' hsplit _ hstep hm
      exact hm.step (hsplit ▸ by simp) hstep
    exact ⟨call, hcall, henv, fun h => hbelow (.inr h)⟩

end MsgNode

section

def rootView : Routable where
  this := { addr := .root, node := OctAddr.root.display }
  parent := none
  children := [firstLeaf, secondLeaf].map fun addr => { addr, node := addr.display, kind := .node }

/-- One call of the root's handler for the first leaf's envelope, from receipt to answer. -/
def attempt (i : ℕ) (dst : OctAddr) (reply : Option AckStatus) : List MsgEvent :=
  [.receive firstLeaf.display rootView (leafEnvelope dst),
    .route i (fun _ => .error .internal) reply, .settle i]

/-- A handler with the default bounds. -/
def spawned : MsgNode := .new { maxPerOrigin := 1024, maxOrigins := 256 } 64

/-- The first attempt times out although the next hop has the message; the second is answered by
the next hop. -/
theorem attempts_stages :
    ((@MsgNode.run plainIds spawned (attempt 0 secondLeaf none)).bind fun n =>
      (@MsgNode.run plainIds n (attempt 1 secondLeaf (some .duplicate))).map fun n' =>
        (n.calls.map (·.stage), n'.calls.map (·.stage)))
    = some ([.answered (.rejected .unreachable)],
        [.answered (.rejected .unreachable), .answered .duplicate]) := by
  decide +kernel

theorem exists_attempts :
    ∃ n n', @MsgNode.run plainIds spawned (attempt 0 secondLeaf none) = some n
      ∧ @MsgNode.run plainIds n (attempt 1 secondLeaf (some .duplicate)) = some n'
      ∧ n.calls.map (·.stage) = [.answered (.rejected .unreachable)]
      ∧ n'.calls.map (·.stage) = [.answered (.rejected .unreachable), .answered .duplicate] := by
  obtain ⟨n, hn, h⟩ := Option.bind_eq_some_iff.mp attempts_stages
  obtain ⟨n', hn', h⟩ := Option.map_eq_some_iff.mp h
  exact ⟨n, n', hn, hn', congrArg Prod.fst h, congrArg Prod.snd h⟩

theorem allTransient_of_stages {calls : List Call} {key : NodeId × MsgId}
    (h : calls.map (·.stage) = [.answered (.rejected .unreachable)]) : AllTransient calls key := by
  intro c hc _
  have hstage : c.stage ∈ calls.map (·.stage) := List.mem_map_of_mem hc
  rw [h, List.mem_singleton] at hstage
  exact ⟨_, hstage, rfl⟩

/-- A next hop whose answer was lost answers the retry as a duplicate, and so does this node. -/
theorem duplicate_after_rollback :
    ¬ ∀ config capacity events n key, @MsgNode.run plainIds (.new config capacity) events = some n →
      AllTransient n.calls key → ∀ remote snapshot env after n' call, env.seenKey = key →
        @MsgNode.run plainIds n (.receive remote snapshot env :: after) = some n' →
        n'.calls[n.calls.length]? = some call → call.stage ≠ .answered .duplicate := by
  intro h
  obtain ⟨n, n', hn, hn', hstages, hstages'⟩ := exists_attempts
  obtain ⟨first, hfirst⟩ := List.length_eq_one_iff.mp (by simpa using congrArg List.length hstages)
  obtain ⟨a, call, hcalls⟩ :=
    List.length_eq_two.mp (by simpa using congrArg List.length hstages' : n'.calls.length = 2)
  have hcall : n'.calls[n.calls.length]? = some call := by simp [hfirst, hcalls]
  refine h _ _ _ _ _ hn (allTransient_of_stages hstages) _ _ _ _ _ call rfl hn' hcall ?_
  rw [hcalls] at hstages'
  exact (List.cons.inj (List.cons.inj hstages').2).1

/-- A handler whose application has room for one envelope. -/
def oneSlot : MsgNode := .new { maxPerOrigin := 1024, maxOrigins := 256 } 1

/-- The first leaf's envelope for the root arrives. -/
def arrival : MsgEvent := .receive firstLeaf.display rootView (leafEnvelope .root)

/-- The sink is full when the first attempt reaches it. The retry arrives twice at once, and again
behind its delivery. -/
def crowdedSink : List MsgEvent :=
  [.receive secondLeaf.display rootView
      (.new { addr := secondLeaf, node := secondLeaf.display } .root (.replicate 16 0) 1 0 []),
    .route 0 (fun _ => .error .internal) none, .settle 0]
  ++ attempt 1 .root none
  ++ [.take, arrival, arrival, .route 2 (fun _ => .error .internal) none, .settle 2, arrival]

theorem crowdedSink_stages : ((@MsgNode.run plainIds oneSlot crowdedSink).map fun n =>
      n.calls.map (·.stage))
    = some [.answered .delivered, .answered (.rejected .busy), .answered .delivered,
        .answered .duplicate, .answered .duplicate] := by
  decide +kernel

/-- The default bounds leave room for the marks of both messages. -/
theorem crowdedSink_keeps {before after : List MsgEvent} {event : MsgEvent} {m : MsgNode}
    (hsplit : crowdedSink = before ++ event :: after)
    (hm : @MsgNode.run plainIds oneSlot before = some m) :
    ¬ @MsgNode.Evicts plainIds (leafEnvelope .root).seenKey m event := by
  have hall : ∀ i < crowdedSink.length,
      (@MsgNode.run plainIds oneSlot (crowdedSink.take i)).all (fun m =>
        crowdedSink[i]?.all fun event =>
          !decide (@MsgNode.Evicts plainIds (leafEnvelope .root).seenKey m event)) = true := by
    decide +kernel
  have hkept := hall before.length (by simp [hsplit])
  simpa [hsplit, hm] using hkept

/-- A message that was refused for a full sink is delivered on its retry and never again, and a
forwarded one is retried. -/
theorem delivered_at_most_once_crowded :
    (∃ n, @MsgNode.run plainIds oneSlot crowdedSink = some n
      ∧ n.calls.map (·.stage) = [.answered .delivered, .answered (.rejected .busy),
          .answered .delivered, .answered .duplicate, .answered .duplicate]
      ∧ n.sink.keys.count (leafEnvelope .root).seenKey ≤ 1)
    ∧ ∃ n n', @MsgNode.run plainIds spawned (attempt 0 secondLeaf none) = some n
      ∧ @MsgNode.run plainIds n (attempt 1 secondLeaf (some .duplicate)) = some n'
      ∧ ∃ call, n'.calls[n.calls.length]? = some call ∧ call.env = leafEnvelope secondLeaf
        ∧ call.stage = .answered .duplicate
        ∧ ∃ next, rootView.route secondLeaf = .forward next := by
  constructor
  · obtain ⟨n, hn, hstages⟩ := Option.map_eq_some_iff.mp crowdedSink_stages
    exact ⟨n, hn, hstages, (@MsgNode.delivered_at_most_once plainIds _ _ _ _ _ hn).1
      fun before event after m hsplit hm => crowdedSink_keeps hsplit hm⟩
  · obtain ⟨n, n', hn, hn', hstages, hstages'⟩ := exists_attempts
    obtain ⟨call, hcall, henv, hbelow⟩ := (@MsgNode.delivered_at_most_once plainIds _ _ _ _
      (leafEnvelope secondLeaf).seenKey hn).2 (allTransient_of_stages hstages) _ _ _ _ _ rfl hn'
    obtain ⟨first, hfirst⟩ :=
      List.length_eq_one_iff.mp (by simpa using congrArg List.length hstages)
    have hanswer : call.stage = .answered .duplicate := by
      have hget := congrArg (·[n.calls.length]?) hstages'
      simp only [List.getElem?_map, hcall] at hget
      simpa [hfirst] using hget
    exact ⟨n, n', hn, hn', call, hcall, henv, hanswer, (hbelow hanswer).2⟩

end

end Cawala
