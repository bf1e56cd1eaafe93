import Cawala.Model.Rotation
import Cawala.Verification.ControlReplay
import Cawala.Verification.Routing

/-! # A rotation seen from both ends

A leaf takes the replay of its frame for proof that an earlier arrival was carried out. The
parent marks a frame before it dispatches it, and keeps the mark when it refuses the frame; so
the two ends agree in the runs whose lost arrivals are carried out, and not in the others. -/

namespace Cawala

open Library Transaction

/-! ## The wire -/

section Wire

variable [Crypto] [ControlPostcard] [EthPrimitives] [ZeroKey] [Postcard]

/-- What happens at the parent before the first attempt that is answered, and that attempt. -/
def firstAnswer : ℕ → List Exchange → Option (List ControlEvent × Io × UInt64)
  | 0, _ => none
  | _, [] => none
  | attempts + 1, attempt :: ahead =>
      match attempt.answer with
      | some (io, now) => some (attempt.meanwhile, io, now)
      | none =>
          (firstAnswer attempts ahead).map fun (events, answer) =>
            (attempt.meanwhile ++ events, answer)

theorem commitAttempts_answer {signed : SignedControl} {attempts : ℕ} {wire wire' : Wire}
    {outcome : CommitOutcome}
    (h : commitAttempts (Wire.exchange signed) attempts wire = (some outcome, wire')) :
    ∃ events io now parent, firstAnswer attempts wire.ahead = some (events, io, now)
      ∧ wire.parent.run events = some parent
      ∧ outcome
          = (receiveAtReply (exec (receiveAtHandled io signed now) parent.host).1).commitOutcome
      ∧ wire'.parent = parent.settle (exec (receiveAtHandled io signed now) parent.host) := by
  induction attempts generalizing wire with
  | zero => cases h
  | succ attempts ih =>
      rw [commitAttempts, Wire.exchange] at h
      cases hahead : wire.ahead with
      | nil =>
          simp only [hahead] at h
          obtain ⟨events, io, now, parent, hanswer, -⟩ := ih h
          rw [hahead] at hanswer
          cases attempts with
          | zero => cases hanswer
          | succ attempts => cases hanswer
      | cons attempt ahead =>
          simp only [hahead] at h
          cases hrun : wire.parent.run attempt.meanwhile with
          | none =>
              -- the parent is gone, and no later attempt is answered
              simp only [hrun] at h
              obtain ⟨events, io, now, parent, hanswer, -⟩ := ih h
              cases attempts with
              | zero => cases hanswer
              | succ attempts => cases hanswer
          | some parent =>
              simp only [hrun] at h
              cases hanswer : attempt.answer with
              | none =>
                  simp only [hanswer] at h
                  obtain ⟨events, io, now, parent', hfirst, hrest, houtcome, hwire⟩ := ih h
                  refine ⟨attempt.meanwhile ++ events, io, now, parent', ?_, ?_, houtcome, hwire⟩
                  · rw [firstAnswer, hanswer]
                    dsimp only
                    rw [hfirst]
                    rfl
                  · rw [ControlHost.run_append, hrun]
                    exact hrest
              | some answer =>
                  obtain ⟨io, now⟩ := answer
                  simp only [hanswer, Prod.mk.injEq, Option.some.injEq] at h
                  refine ⟨attempt.meanwhile, io, now, parent, ?_, hrun, h.1.symm, ?_⟩
                  · rw [firstAnswer, hanswer]
                  · rw [← h.2]

end Wire

section Rotation

variable [Crypto] [ControlPostcard]

/-! ## One arrival -/

/-- The checks that a frame passes before the replay guard. -/
def SignedControl.Passes (signed : SignedControl) (now : UInt64) : Prop :=
  isSupportedControlVersion signed.version = true
    ∧ signed.request.minControlVersion ≤ signed.version
    ∧ signed.verifySignature.toBool = true ∧ now ≤ signed.expiry
    ∧ signed.expiry ≤ saturatingAdd now controlRequestMaxTtlSecs

instance (signed : SignedControl) (now : UInt64) : Decidable (signed.Passes now) :=
  inferInstanceAs (Decidable (_ ∧ _))

/-- A precheck passes exactly what it should, and calls nothing a replay. -/
theorem precheck_cases (io : ReloadIo) (signed : SignedControl) (now : UInt64) (h : NodeHost) :
    (signed.Passes now ∧ exec (precheck io signed now) h = (.ok ⟨⟩, h.reload io))
      ∨ ¬ signed.Passes now
        ∧ ∃ code, code ≠ .replay ∧ exec (precheck io signed now) h = (.error code, h) := by
  rw [precheck, exec_refuseIf_bind]
  by_cases hversion : (!isSupportedControlVersion signed.version) = true
  · rw [if_pos hversion]
    exact .inr ⟨fun hp => by simp [hp.1] at hversion, _, by simp, rfl⟩
  rw [if_neg hversion, exec_refuseIf_bind]
  by_cases hmin : signed.version < signed.request.minControlVersion
  · rw [if_pos hmin]
    exact .inr ⟨fun hp => absurd hmin (UInt8.not_lt.mpr hp.2.1), _, by simp, rfl⟩
  rw [if_neg hmin, exec_refuseIf_bind]
  by_cases hsig : signed.verifySignature.toBool = false
  · rw [if_pos hsig]
    exact .inr ⟨fun hp => by simp [hp.2.2.1] at hsig, _, by simp, rfl⟩
  rw [if_neg hsig, exec_refuseIf_bind]
  by_cases hexpired : now > signed.expiry
  · rw [if_pos hexpired]
    exact .inr ⟨fun hp => absurd hexpired (UInt64.not_lt.mpr hp.2.2.2.1), _, by simp, rfl⟩
  rw [if_neg hexpired, exec_refuseIf_bind]
  by_cases hfar : signed.expiry > saturatingAdd now controlRequestMaxTtlSecs
  · rw [if_pos hfar]
    exact .inr ⟨fun hp => absurd hfar (UInt64.not_lt.mpr hp.2.2.2.2), _, by simp, rfl⟩
  rw [if_neg hfar]
  exact .inl ⟨⟨by simpa using hversion, UInt8.not_lt.mp hmin, by simpa using hsig,
    UInt64.not_lt.mp hexpired, UInt64.not_lt.mp hfar⟩, rfl⟩

variable [EthPrimitives] [ZeroKey]

variable {h : NodeHost} {signed : SignedControl} {register : RegisterEthAddress} {io : Io}
  {now : UInt64}

/-- The parent carries a registration out: the mark and the record can be saved, and the user is
a child whose anchor the proof replaces. -/
structure NodeHost.CarriesOut (h : NodeHost) (io : Io) (signed : SignedControl)
    (register : RegisterEthAddress) : Prop where
  marks : io.seenSaves = true
  peer : (verifyControl signed h.node.peers).toBool = true
  proof : ∃ child, h.node.record.childEntry signed.origin = some child ∧ child.kind = .user
    ∧ (register.verify signed.origin child.ethAddress).toBool = true
  valid : (h.node.record.withAnchor signed.origin register.address).validate.toBool = true
  saves : io.recordSaves = true

/-- The anchor of a user has arrived, in memory and on disk. -/
def NodeHost.Landed (h : NodeHost) (user : NodeId) (address : EthAddress) : Prop :=
  h.anchor user = some address ∧ h.node.record.childEthAddress user = some address

omit [ControlPostcard] [EthPrimitives] [ZeroKey] in
theorem NodeHost.landed_of_saved {child : ChildEntry}
    (hchild : h.node.record.childEntry signed.origin = some child) :
    ((h.withRecord (h.node.record.withAnchor signed.origin register.address)).recordSaved).Landed
      signed.origin register.address := by
  have hnew : (h.node.record.withAnchor signed.origin register.address).childEthAddress
      signed.origin = some register.address := by
    rw [NodeRecord.childEthAddress, NodeRecord.childEntry_withAnchor, hchild]
    rfl
  exact ⟨hnew, hnew⟩

omit [ZeroKey] in
theorem NodeHost.CarriesOut.landed (hcarries : h.CarriesOut io signed register) :
    (exec (handleRegisterEthAddress io signed register) h).2.Landed signed.origin
      register.address := by
  obtain ⟨child, hchild, hkind, hproof⟩ := hcarries.proof
  have hlists : h.node.record.lists signed.origin = true := by
    rw [NodeRecord.lists_eq_isSome, hchild, Option.isSome_some]
  rw [handleRegisterEthAddress, exec_get_bind, exec_refuseIf_bind, if_neg (by simp [hcarries.peer]),
    hchild]
  dsimp only
  rw [exec_refuseIf_bind, if_neg (by simp [hkind]), exec_refuseIf_bind, if_neg (by simp [hproof]),
    exec_bind, exec_mapError, setChildEthAddress_exec hlists]
  dsimp only [Except.mapError]
  rw [exec_bind, saveRecord, exec_get_bind, exec_refuseIf_bind, if_neg]
  · exact NodeHost.landed_of_saved hchild
  · simpa [hcarries.saves, NodeHost.withRecord] using hcarries.valid

/-- What a direct registration is answered: a refusal that leaves the anchors and is no replay, a
replay, or an acceptance once its anchor is on disk. -/
theorem registration_answer (io : Io) (now : UInt64) (h : NodeHost)
    (hrequest : signed.request = .registerEthAddress register) :
    (∃ code, code ≠ .replay ∧ (exec (receiveAtHandled io signed now) h).1 = .error code
        ∧ (∀ user, (exec (receiveAtHandled io signed now) h).2.anchor user = h.anchor user)
        ∧ (signed.Passes now → ¬ h.Replays signed))
    ∨ ((exec (receiveAtHandled io signed now) h).1 = .error .replay ∧ h.Replays signed
        ∧ ∀ user, (exec (receiveAtHandled io signed now) h).2.anchor user = h.anchor user)
    ∨ ((exec (receiveAtHandled io signed now) h).1 = .ok (.reply .accepted)
        ∧ (exec (receiveAtHandled io signed now) h).2.anchor signed.origin
          = some register.address) := by
  have hneeds : ¬ signed.request.needsAuthority = true := by
    rw [hrequest]
    exact Bool.false_ne_true
  rw [receiveAtHandled, exec_bind, admitDirect, exec_bind]
  obtain ⟨-, hrun⟩ | ⟨hfails, code, hcode, hrun⟩ := precheck_cases io.reload signed now h
  · rw [hrun]
    dsimp only
    rw [if_neg hneeds]
    dsimp only [exec_pure]
    rw [dispatchAuthorized, exec_bind]
    have hreplays : (h.reload io.reload).Replays signed ↔ h.Replays signed :=
      (h.reload_sameMarks io.reload).replays
    have hanchor : ∀ user, (h.reload io.reload).anchor user = h.anchor user :=
      fun _ => NodeHost.anchor_reload io.reload h
    obtain ⟨hdup, hguard⟩ | ⟨hfresh, -, hguard⟩ | ⟨hfresh, -, hguard⟩ :=
      replayGuard_cases io signed now (h.reload io.reload)
    · rw [hguard]
      exact .inr (.inl ⟨rfl, hreplays.mp hdup, hanchor⟩)
    · rw [hguard]
      exact .inl ⟨.internal, by simp, rfl, hanchor, fun _ hdup => hfresh (hreplays.mpr hdup)⟩
    · rw [hguard]
      dsimp only
      rw [handleRequest, hrequest, exec_map]
      obtain ⟨code, hcode, hexec⟩ | ⟨child, hchild, -, hexec | hexec⟩ :=
        handleRegisterEthAddress_cases io signed register
          (((h.reload io.reload).observing signed).seenSaved now)
      · rw [hexec]
        exact .inl ⟨code, hcode, rfl, hanchor, fun _ hdup => hfresh (hreplays.mpr hdup)⟩
      · rw [hexec]
        exact .inl ⟨.internal, by simp, rfl, hanchor, fun _ hdup => hfresh (hreplays.mpr hdup)⟩
      · rw [hexec]
        exact .inr (.inr ⟨rfl, (NodeHost.landed_of_saved hchild).1⟩)
  · rw [hrun]
    exact .inl ⟨code, hcode, rfl, fun _ => rfl, fun hpasses => absurd hpasses hfails⟩

/-! ## The run before the answer -/

/-- What the two ends need of an event at the parent: an arrival of the frame that passes the
checks and is no replay is carried out, and the other events reuse neither the mark of the frame
nor touch the user's place and anchor. -/
structure Reconciles (signed : SignedControl) (register : RegisterEthAddress) (h : NodeHost)
    (e : ControlEvent) : Prop where
  carriedOut : ∀ io, e.admitted h = some (io, signed) → ¬ h.Replays signed →
    (e.reloaded h).CarriesOut io signed register
  otherMarks : ∀ io other, e.admitted h = some (io, other) → other ≠ signed →
    other.mark ≠ signed.mark
  attached : ¬ e.Detaches h signed.origin
  unrotated : ∀ d, e.handOff h = some d → d.signed ≠ signed →
    ∀ a b, ¬ d.Rotates signed.origin a b

omit [ControlPostcard] [EthPrimitives] [ZeroKey] in
theorem AnchorAhead.of_landed {user : NodeId} {address : EthAddress}
    (hlanded : h.Landed user address) : AnchorAhead (fun _ _ => False) user h := by
  intro a ha
  refine ⟨a, ?_, .refl⟩
  rw [hlanded.2, ← hlanded.1]
  exact ha

omit [Crypto] [ControlPostcard] [EthPrimitives] [ZeroKey] in
/-- Without a rotation the anchor stays. -/
theorem eq_of_reflTransGen_false {a b : EthAddress}
    (h : Relation.ReflTransGen (fun _ _ => False) a b) : a = b := by
  cases h with
  | refl => rfl
  | tail _ hstep => exact hstep.elim

variable [Postcard]

/-- A step that does not hand off the frame keeps an anchor that has landed. -/
theorem ControlHost.step_landed {c c' : ControlHost} {e : ControlEvent}
    {address : EthAddress} (hstep : c.step e = some c')
    (hlanded : c.host.Landed signed.origin address)
    (hattached : ¬ e.Detaches c.host signed.origin)
    (hunrotated : ∀ d, e.handOff c.host = some d → ∀ a b, ¬ d.Rotates signed.origin a b) :
    c'.host.Landed signed.origin address := by
  obtain ⟨hahead, hmoves⟩ := ControlHost.step_moves (AnchorAhead.of_landed hlanded) hstep
    (fun _ => hattached) (fun a b ⟨d, hd, hrotates⟩ => hunrotated d hd a b hrotates)
  obtain ⟨b, hb, hchain⟩ := hmoves address hlanded.1
  obtain rfl := eq_of_reflTransGen_false hchain
  obtain ⟨b, hmem, hchain⟩ := hahead address hb
  obtain rfl := eq_of_reflTransGen_false hchain
  exact ⟨hb, hmem⟩

/-- A step of a reconciled run keeps the agreement: where the mark of the frame is, its anchor
has landed. -/
theorem ControlHost.step_reconciled {c c' : ControlHost} {e : ControlEvent}
    (hrequest : signed.request = .registerEthAddress register) (hstep : c.step e = some c')
    (hreconciles : Reconciles signed register c.host e)
    (hinv : c.host.Marked signed.mark → c.host.Landed signed.origin register.address) :
    c'.host.Marked signed.mark → c'.host.Landed signed.origin register.address := by
  intro hmarked
  by_cases hours : ∃ d, e.handOff c.host = some d ∧ d.signed = signed
  · -- an arrival that is handed off is carried out
    obtain ⟨d, hd, hsigned⟩ := hours
    obtain ⟨result, hreceived⟩ : ∃ result, e.received c.host = some result := by
      cases e with
      | direct io signed now => exact ⟨_, rfl⟩
      | routed io remote carried now => exact ⟨_, rfl⟩
      | _ => cases hd
    rw [step_received hreceived, Option.some.injEq] at hstep
    subst hstep
    obtain ⟨-, hnone, -⟩
      | ⟨io, other, now, hadmitted, ⟨_, _, _, hnone, -⟩ | ⟨d', hd', rfl, rfl, rfl,
      hguard⟩⟩ := ControlEvent.received_guarded hreceived
    · rw [hnone] at hd
      cases hd
    · rw [hnone] at hd
      cases hd
    · obtain rfl := Option.some.inj (hd'.symm.trans hd)
      obtain rfl := hsigned
      obtain ⟨-, hexec⟩ | ⟨-, -, hexec⟩ | ⟨hfresh, -, hexec⟩ :=
        replayGuard_cases d'.io d'.signed now (e.reloaded c.host)
      · simp [hexec] at hguard
      · simp [hexec] at hguard
      · rw [hexec, Prod.mk.injEq] at hguard
        have hcarries := hreconciles.carriedOut d'.io hadmitted fun hdup =>
          hfresh ((e.reloaded_sameMarks c.host).replays.mpr hdup)
        have hcarries' : d'.host.CarriesOut d'.io d'.signed register := by
          rw [← hguard.2]
          exact { hcarries with }
        have hlanded := hcarries'.landed
        rw [settle, HandOff.handled, handleRequest, hrequest, exec_map]
        exact hlanded
  · have hbefore : c.host.Marked signed.mark := by
      obtain hbefore | ⟨io, other, hadmitted, hmark⟩ := ControlHost.step_marked hstep hmarked
      · exact hbefore
      by_contra hunmarked
      obtain rfl : other = signed := by
        by_contra hne
        exact hreconciles.otherMarks io other hadmitted hne hmark
      have hfresh : ¬ c.host.Replays other := fun hdup =>
        hunmarked (NodeHost.marked_of_replays hdup)
      -- a fresh arrival whose mark is saved is handed off
      have hsaves := (hreconciles.carriedOut io hadmitted hfresh).marks
      obtain ⟨result, hreceived⟩ : ∃ result, e.received c.host = some result := by
        cases e with
        | direct io signed now => exact ⟨_, rfl⟩
        | routed io remote carried now => exact ⟨_, rfl⟩
        | _ => cases hadmitted
      obtain ⟨hnone, -⟩ | ⟨io', other', now, hadmitted', hguarded⟩ :=
        ControlEvent.received_guarded hreceived
      · rw [hnone] at hadmitted
        cases hadmitted
      · rw [hadmitted, Option.some.injEq, Prod.mk.injEq] at hadmitted'
        obtain ⟨rfl, rfl⟩ := hadmitted'
        obtain ⟨code, hguard, -⟩ | ⟨d, hd, -, -, hsigned, -⟩ := hguarded
        · obtain ⟨hdup, -⟩ | ⟨-, hlost, -⟩ | ⟨-, -, hexec⟩ :=
            replayGuard_cases io other now (e.reloaded c.host)
          · exact hfresh ((e.reloaded_sameMarks c.host).replays.mp hdup)
          · rw [hsaves] at hlost
            cases hlost
          · rw [hexec] at hguard
            cases hguard
        · exact hours ⟨d, hd, hsigned⟩
    apply ControlHost.step_landed hstep (hinv hbefore) hreconciles.attached
    intro d hd
    exact hreconciles.unrotated d hd fun hsigned => hours ⟨d, hd, hsigned⟩

/-! ## The answer -/

def ControlEvent.Carries (signed : SignedControl) : ControlEvent → Prop
  | .direct _ frame _ => frame = signed
  | .routed _ _ carried _ => ∃ hop, carried.forwards.getLast? = some ⟨hop, signed⟩
  | _ => False

omit [Postcard] in
theorem ControlEvent.Carries.signed_eq {h : NodeHost} {e : ControlEvent} {d : HandOff}
    (hcarries : e.Carries signed) (hd : e.handOff h = some d) : d.signed = signed := by
  have hshown := ControlEvent.shown_of_handOff hd
  cases e with
  | direct io frame now =>
      obtain ⟨-, hframe, -⟩ := hshown
      exact hframe.trans hcarries
  | routed io remote carried now =>
      obtain ⟨-, -, -, authority, -, hadmitted⟩ := hshown
      obtain ⟨hop, hlast⟩ := hcarries
      obtain ⟨hop', hlast', -⟩ := hadmitted.forward
      rw [hlast, Option.some.injEq, RoutedForward.mk.injEq] at hlast'
      exact hlast'.2.symm
  | _ => exact hcarries.elim

/-- An arrival of the frame that is not handed off leaves the anchors. -/
theorem ControlHost.step_unmoved {c c' : ControlHost} {e : ControlEvent}
    (hstep : c.step e = some c') (hcarries : e.Carries signed) (hnone : e.handOff c.host = none)
    (user : NodeId) : c'.host.anchor user = c.host.anchor user := by
  obtain ⟨result, hreceived⟩ : ∃ result, e.received c.host = some result := by
    cases e with
    | direct io signed now => exact ⟨_, rfl⟩
    | routed io remote carried now => exact ⟨_, rfl⟩
    | _ => exact hcarries.elim
  rw [step_received hreceived, Option.some.injEq] at hstep
  subst hstep
  obtain ⟨-, -, hidle⟩ | ⟨d, hd, -⟩ := ControlEvent.received_cases hreceived
  · exact hidle.anchor
  · rw [hnone] at hd
    cases hd

/-- The events before the answer reconcile the two ends: the mark of the frame is new, each event
is one of a reconciled run, and where an earlier arrival was handed off, the answered one passes
the checks and finds the mark held. -/
structure Reconcilable (c : ControlHost) (signed : SignedControl) (register : RegisterEthAddress)
    (events : List ControlEvent) (now : UInt64) : Prop where
  unmarked : ¬ c.host.Marked signed.mark
  steps : ∀ past e rest mid, events = past ++ e :: rest → c.run past = some mid →
    Reconciles signed register mid.host e
  resend : ∀ past e rest mid d parent, events = past ++ e :: rest → c.run past = some mid →
    e.handOff mid.host = some d → d.signed = signed → c.run events = some parent →
    signed.Passes now ∧ parent.host.Replays signed

/-- In a reconciled run the mark of the frame stands where its anchor has landed. -/
theorem Reconcilable.landed {c parent : ControlHost} {events : List ControlEvent}
    (hrequest : signed.request = .registerEthAddress register)
    (hwhen : Reconcilable c signed register events now) (hrun : c.run events = some parent) :
    parent.host.Marked signed.mark → parent.host.Landed signed.origin register.address := by
  refine ControlHost.run_induction
    (P := fun _ c => c.host.Marked signed.mark → c.host.Landed signed.origin register.address)
    hrun (fun hmarked => absurd hmarked hwhen.unmarked) ?_
  intro past mid e next hmid hfirst ih hstep
  obtain ⟨rest, hrest⟩ := hfirst
  have hsplit : events = past ++ e :: rest := by
    rw [← hrest, List.append_assoc, List.singleton_append]
  exact ControlHost.step_reconciled hrequest hstep (hwhen.steps past e rest mid hsplit hmid) ih

omit [ZeroKey] [Postcard] in
theorem Leaf.rotationFrame_ok [EthSigner] [EndpointIds] {leaf : Leaf} {newKey : EthSigner.Key}
    {nonce now : UInt64} {signed : SignedControl}
    (h : leaf.rotationFrame newKey nonce now = .ok signed) :
    signed.origin = leaf.nodeId ∧ ∃ proof,
      signed.request = .registerEthAddress ⟨addressFromSigningKey newKey, proof⟩ := by
  rw [rotationFrame] at h
  cases hoperator : leaf.operator with
  | none => simp [hoperator] at h
  | some operator =>
      simp only [hoperator, bind_eq_ok] at h
      obtain ⟨⟨_, parent⟩, -, h⟩ := h
      cases hidentity : leaf.userIdentity with
      | none => simp [hidentity] at h
      | some incumbent =>
          simp only [hidentity] at h
          split at h
          · cases h
          · obtain rfl := Except.ok.inj h
            exact ⟨rfl, _, rfl⟩

/-- The two ends agree on a rotation in every run whose events reconcile them: after `applied` the
anchor on disk is the address of the leaf's new key, and after a rejection the leaf keeps its key
and no arrival of the frame has moved the anchor. -/
theorem rotation_agrees [EthSigner] [EndpointIds] {leaf leaf' : Leaf} {newKey : EthSigner.Key}
    {nonce signedAt answeredAt : UInt64} {wire wire' : Wire} {signed : SignedControl}
    {register : RegisterEthAddress} {events : List ControlEvent} {io : Io}
    {outcome : CommitOutcome}
    (hframe : leaf.rotationFrame newKey nonce signedAt = .ok signed)
    (hrequest : signed.request = .registerEthAddress register)
    (hanswer : firstAnswer controlCommitAttempts wire.ahead = some (events, io, answeredAt))
    (hwhen : Reconcilable wire.parent signed register events answeredAt)
    (hrotate : leaf.rotateEthAddress newKey nonce signedAt wire = (.ok outcome, leaf', wire')) :
    (outcome = .applied →
      leaf'.userIdentity = some newKey
        ∧ wire'.parent.host.anchor leaf.nodeId = some (addressFromSigningKey newKey))
    ∧ ∀ code, outcome = .rejected code →
      leaf' = leaf ∧ ∀ past e rest mid next,
        events ++ [.direct io signed answeredAt] = past ++ e :: rest →
        wire.parent.run past = some mid → mid.step e = some next → e.Carries signed →
        next.host.anchor leaf.nodeId = mid.host.anchor leaf.nodeId := by
  obtain ⟨horigin, proof, hregister⟩ := Leaf.rotationFrame_ok hframe
  obtain rfl : register = ⟨addressFromSigningKey newKey, proof⟩ := by
    rw [hregister, ControlRequest.registerEthAddress.injEq] at hrequest
    exact hrequest.symm
  rw [Leaf.rotateEthAddress, hframe] at hrotate
  cases hcommit : commitControlIdempotent (Wire.exchange signed) controlCommitAttempts wire with
  | mk result final =>
  cases result with
  | none => simp [hcommit] at hrotate
  | some decided =>
  obtain ⟨events', io', now', parent, hfirst, hrun, hdecided, hwire⟩ :=
    commitAttempts_answer hcommit
  have hattempts : max controlCommitAttempts 1 = controlCommitAttempts := rfl
  rw [hattempts, hanswer, Option.some.injEq, Prod.mk.injEq, Prod.mk.injEq] at hfirst
  obtain ⟨rfl, rfl, rfl⟩ := hfirst
  -- what the leaf makes of the decision
  have hleaf : outcome = decided ∧ wire' = final
      ∧ leaf' = if decided = .applied then { leaf with userIdentity := some newKey } else leaf := by
    simp only [hcommit] at hrotate
    cases decided with
    | applied => cases hrotate; exact ⟨rfl, rfl, rfl⟩
    | rejected code => cases hrotate; exact ⟨rfl, rfl, rfl⟩
    | unexpected => cases hrotate; exact ⟨rfl, rfl, rfl⟩
  obtain ⟨rfl, rfl, rfl⟩ := hleaf
  have hsettled : wire'.parent.host.anchor signed.origin
      = (exec (receiveAtHandled io signed answeredAt) parent.host).2.anchor signed.origin := by
    rw [hwire]
    rfl
  rw [← horigin]
  obtain ⟨code, hcode, hresult, hsame, hfresh⟩ | ⟨hresult, hreplays, hsame⟩ | ⟨hresult, hmoved⟩ :=
    registration_answer io answeredAt parent.host hregister
  · -- a refusal: no arrival was handed off before
    have hrejected : outcome = .rejected code := by
      rw [hdecided, hresult]
      cases code <;> first | rfl | exact absurd rfl hcode
    subst hrejected
    refine ⟨fun h => absurd h (by simp), fun _ _ => ⟨rfl, ?_⟩⟩
    intro past e rest mid next hsplit hmid hstep hcarries
    obtain ⟨rest, rfl⟩ | ⟨rfl, rfl, rfl⟩ : (∃ rest', events = past ++ e :: rest')
        ∨ (past = events ∧ e = .direct io signed answeredAt ∧ rest = []) := by
      induction rest using List.reverseRecOn with
      | nil =>
          obtain ⟨hpast, he⟩ := List.append_inj' hsplit rfl
          exact .inr ⟨hpast.symm, (List.singleton_inj.mp he).symm, rfl⟩
      | append_singleton rest last =>
          left
          refine ⟨rest, ?_⟩
          rw [← List.cons_append, ← List.append_assoc] at hsplit
          exact (List.append_inj' hsplit rfl).1
    · apply ControlHost.step_unmoved hstep hcarries
      cases hd : e.handOff mid.host with
      | none => rfl
      | some d =>
          obtain ⟨hpasses, hdup⟩ := hwhen.resend past e rest mid d parent rfl hmid hd
            (hcarries.signed_eq hd) hrun
          exact absurd hdup (hfresh hpasses)
    · obtain rfl := Option.some.inj (hmid.symm.trans hrun)
      obtain rfl := Option.some.inj hstep
      exact hsame signed.origin
  · -- a replay: the mark stands where the anchor has landed
    have happlied : outcome = .applied := by
      rw [hdecided, hresult]
      rfl
    subst happlied
    refine ⟨fun _ => ⟨rfl, ?_⟩, fun _ h => by cases h⟩
    rw [hsettled, hsame]
    exact (hwhen.landed hregister hrun (NodeHost.marked_of_replays hreplays)).1
  · have happlied : outcome = .applied := by
      rw [hdecided, hresult]
      rfl
    subst happlied
    refine ⟨fun _ => ⟨rfl, ?_⟩, fun _ h => by cases h⟩
    rw [hsettled]
    exact hmoved

end Rotation

/-! ## Lost replies -/

section Concrete

open Concrete

/-- Signatures as `ethSign` makes them. -/
local instance ethSigner : EthSigner where
  Key := UInt8
  publicKey := ethPublicKey
  signPrehash key digest :=
    (⟨((ethSign key digest).toList.take 64).toArray, by simp⟩, false, false)
  normalizeS signature := signature

local instance ethSignerKey : DecidableEq EthSigner.Key := inferInstanceAs (DecidableEq UInt8)

local instance plainIdsOfLeaves : EndpointIds := plainIds

/-- The user `u` of `userChild`, with a key as its identity. -/
def leafOfUser (key : UInt8) : Leaf where
  nodeId := "u"
  operator := some (4 : ℕ)
  record :=
    { nodeId := "u", address := some (OctAddr.root.child 0 zero_le_maxSlot)
      parent := some { parentId := "n", slot := 0 }, children := [] }
  userIdentity := some key

def rotateToEight (key : UInt8) : SignedControl :=
  frame "u" 4 2 (.registerEthAddress
    { address := addressFromSigningKey (8 : UInt8)
      proof := rotationProof key "u" (addressFromSigningKey (8 : UInt8)) })

theorem rotationFrame_seven :
    (leafOfUser 7).rotationFrame (8 : UInt8) 2 80 = .ok (rotateToEight 7) :=
  rfl

def replyLost (key : UInt8) (resentAt : UInt64) : List Exchange :=
  [{ meanwhile := [.direct io (rotateToEight key) 150], answer := none },
    { meanwhile := [], answer := some (io, resentAt) }]

/-- The rotation of `rotateToEight`, as its frame carries it. -/
def toEight (key : UInt8) : RegisterEthAddress where
  address := addressFromSigningKey (8 : UInt8)
  proof := rotationProof key "u" (addressFromSigningKey (8 : UInt8))

theorem eq_of_toOption {α β γ δ : Type} {out : Except α β × γ × δ} {b : β}
    (h : out.1.toOption = some b) : ∃ c d, out = (.ok b, c, d) ∧ c = out.2.1 ∧ d = out.2.2 := by
  obtain ⟨e | b', c, d⟩ := out
  · cases h
  · rw [Option.some.inj h]
    exact ⟨c, d, rfl, rfl, rfl⟩

/-- A test of the parent where the user has registered its key 7. -/
@[inline]
def registered (test : ControlHost → Bool) : Bool :=
  (started userChild).any fun c₀ => (c₀.run [registerUser]).any test

theorem exists_registered : ∃ c₀ parent : ControlHost, started userChild = some c₀
    ∧ c₀.run [registerUser] = some parent
    ∧ ∀ test, registered test = true → test parent = true := by
  have hrun : registered (fun _ => true) = true := by decide +kernel
  simp only [registered, Option.any_eq_true] at hrun
  obtain ⟨c₀, hstart, parent, hparent, -⟩ := hrun
  refine ⟨c₀, parent, hstart, hparent, ?_⟩
  intro test htest
  simpa [registered, hstart, hparent] using htest

theorem replies_lost :
    registered (fun parent => parent.host.anchor "u" == some userAddress) = true
    ∧ registered (fun parent => !decide (parent.host.Marked (rotateToEight 7).mark)
      && (let h := parent.host.reload io.reload
        (verifyControl (rotateToEight 7) h.node.peers).toBool
          && (h.node.record.childEntry "u").any (fun child =>
            child.kind == .user && ((toEight 7).verify "u" child.ethAddress).toBool)
          && (h.node.record.withAnchor "u" (toEight 7).address).validate.toBool)) = true
    ∧ registered (fun parent => (parent.run [.direct io (rotateToEight 7) 150]).any fun later =>
        decide ((rotateToEight 7).Passes 150)
          && decide (later.host.Replays (rotateToEight 7))) = true
    ∧ registered (fun parent => ((leafOfUser 7).rotateEthAddress (8 : UInt8) 2 80
        { parent, ahead := replyLost 7 150 }).1.toOption == some .applied) = true
    ∧ registered (fun parent =>
        let out := (leafOfUser 9).rotateEthAddress (8 : UInt8) 2 80
          { parent, ahead := replyLost 9 150 }
        out.1.toOption == some .applied && out.2.1.userIdentity == some (8 : UInt8)
          && out.2.2.parent.host.anchor "u" == some userAddress) = true
    ∧ registered (fun parent =>
        let out := (leafOfUser 7).rotateEthAddress (8 : UInt8) 2 80
          { parent, ahead := replyLost 7 201 }
        out.1.toOption == some (.rejected .expired) && out.2.1.userIdentity == some (7 : UInt8)
          && out.2.2.parent.host.anchor "u" == some (addressFromSigningKey (8 : UInt8)))
      = true := by
  refine ⟨?_, ?_, ?_, ?_, ?_, ?_⟩
  · decide +kernel
  · decide +kernel
  · decide +kernel
  · decide +kernel
  · decide +kernel
  · decide +kernel

/-- An arrival that is carried out, its reply lost: the replay is rightly taken for an
acceptance. -/
theorem rotation_agrees_resent :
    ∃ parent : ControlHost, ∃ leaf wire, (leafOfUser 7).rotateEthAddress (8 : UInt8) 2 80
          { parent, ahead := replyLost 7 150 } = (.ok .applied, leaf, wire)
      ∧ leaf.userIdentity = some (8 : UInt8)
      ∧ wire.parent.host.anchor "u" = some (addressFromSigningKey (8 : UInt8)) := by
  obtain ⟨-, parent, -, -, hpasses⟩ := exists_registered
  obtain ⟨-, hfresh, hreplay, happlied, -⟩ := replies_lost
  replace hfresh := hpasses _ hfresh
  replace hreplay := hpasses _ hreplay
  replace happlied := hpasses _ happlied
  simp only [Option.any_eq_true, Bool.and_eq_true, Bool.not_eq_true', decide_eq_false_iff_not,
    decide_eq_true_eq, beq_iff_eq] at hfresh hreplay happlied
  obtain ⟨hunmarked, ⟨hpeer, child, hchild, hkind, hproof⟩, hvalid⟩ := hfresh
  obtain ⟨later, hlater, hunexpired, hreplays⟩ := hreplay
  obtain ⟨leaf, wire, hrotate, -, -⟩ := eq_of_toOption happlied
  have hwhen : Reconcilable parent (rotateToEight 7) (toEight 7)
      [.direct io (rotateToEight 7) 150] 150 := {
    unmarked := hunmarked
    steps := by
      intro past e rest mid hsplit hmid
      obtain ⟨rfl, rfl, rfl⟩ : past = [] ∧ e = .direct io (rotateToEight 7) 150 ∧ rest = [] := by
        cases past with
        | nil => simpa [eq_comm] using hsplit
        | cons _ past => simp at hsplit
      obtain rfl := Option.some.inj hmid
      have hframe : ∀ io' other, ControlEvent.admitted parent.host
          (.direct io (rotateToEight 7) 150) = some (io', other) →
          io' = io ∧ other = rotateToEight 7 := by
        intro io' other hadmitted
        rw [ControlEvent.admitted] at hadmitted
        split at hadmitted
        · cases hadmitted
        · cases hadmitted
          exact ⟨rfl, rfl⟩
      have hcarries : (ControlEvent.direct io (rotateToEight 7) 150).Carries (rotateToEight 7) :=
        rfl
      exact {
        carriedOut := by
          intro io' hadmitted _
          obtain ⟨rfl, -⟩ := hframe io' _ hadmitted
          exact ⟨rfl, hpeer, ⟨child, hchild, hkind, hproof⟩, hvalid, rfl⟩
        otherMarks := fun io' other hadmitted hne => absurd (hframe io' other hadmitted).2 hne
        attached := ControlEvent.not_detaches rfl
        unrotated := fun d hd hne => absurd (hcarries.signed_eq hd) hne }
    resend := by
      intro past e rest mid d last _ _ _ _ hlast
      obtain rfl := Option.some.inj (hlast.symm.trans hlater)
      exact ⟨hunexpired, hreplays⟩ }
  obtain ⟨hidentity, hanchor⟩ := (rotation_agrees rotationFrame_seven rfl rfl hwhen hrotate).1 rfl
  exact ⟨parent, leaf, wire, hrotate, hidentity, hanchor⟩

/-- A leaf whose key is not the anchored one adopts a new key, though its frame was refused; and a
leaf whose rotation was carried out is told that it expired. -/
theorem rotation_disagrees :
    ∃ c₀ parent : ControlHost, started userChild = some c₀
      ∧ c₀.run [registerUser] = some parent ∧ parent.host.anchor "u" = some userAddress
      ∧ (∃ leaf wire, (leafOfUser 9).rotateEthAddress (8 : UInt8) 2 80
            { parent, ahead := replyLost 9 150 } = (.ok .applied, leaf, wire)
          ∧ leaf.userIdentity = some (8 : UInt8)
          ∧ wire.parent.host.anchor "u" = some userAddress
          ∧ userAddress ≠ addressFromSigningKey (8 : UInt8))
      ∧ ∃ leaf wire, (leafOfUser 7).rotateEthAddress (8 : UInt8) 2 80
            { parent, ahead := replyLost 7 201 } = (.ok (.rejected .expired), leaf, wire)
          ∧ leaf.userIdentity = some (7 : UInt8)
          ∧ wire.parent.host.anchor "u" = some (addressFromSigningKey (8 : UInt8)) := by
  obtain ⟨c₀, parent, hstart, hparent, hpasses⟩ := exists_registered
  obtain ⟨hanchored, -, -, -, hnine, hseven⟩ := replies_lost
  replace hanchored := hpasses _ hanchored
  replace hnine := hpasses _ hnine
  replace hseven := hpasses _ hseven
  simp only [Bool.and_eq_true, beq_iff_eq] at hanchored hnine hseven
  obtain ⟨⟨happlied, hadopted⟩, hkept⟩ := hnine
  obtain ⟨⟨hrejected, hidentity⟩, hanchor⟩ := hseven
  refine ⟨c₀, parent, hstart, hparent, hanchored, ?_, ?_⟩
  · obtain ⟨leaf, wire, hrotate, hleaf, hwire⟩ := eq_of_toOption happlied
    rw [← hleaf] at hadopted
    rw [← hwire] at hkept
    exact ⟨leaf, wire, hrotate, hadopted, hkept, by decide +kernel⟩
  · obtain ⟨leaf, wire, hrotate, hleaf, hwire⟩ := eq_of_toOption hrejected
    rw [← hleaf] at hidentity
    rw [← hwire] at hanchor
    exact ⟨leaf, wire, hrotate, hidentity, hanchor⟩

end Concrete

end Cawala
