import Cawala.Verification.ControlAnchors
import Cawala.Verification.Replay

/-! # The marks of the control engine

Only the replay guard leaves marks, and only for a frame that passed the checks before it: the
handlers, the other processes and a restart add none. -/

namespace Cawala

open Library Transaction

variable [Crypto]

/-- The mark that a frame leaves in the replay guard. -/
def SignedControl.mark (signed : SignedControl) : SeenKey × MsgId :=
  (signed.seenKey, nonceMsgId signed.nonce)

def NodeHost.Marked (h : NodeHost) (mark : SeenKey × MsgId) : Prop :=
  h.node.seen.Remembers mark ∨ Persisted mark (h.disk.seen.getD [])

instance (h : NodeHost) (mark : SeenKey × MsgId) : Decidable (h.Marked mark) :=
  inferInstanceAs (Decidable (_ ∨ _))

def NodeHost.SameMarks (h h' : NodeHost) : Prop :=
  h'.node.seen = h.node.seen ∧ h'.disk.seen = h.disk.seen

section Marks

variable {h h' : NodeHost} {mark : SeenKey × MsgId} {signed : SignedControl}

theorem NodeHost.SameMarks.refl (h : NodeHost) : h.SameMarks h := ⟨rfl, rfl⟩

theorem NodeHost.SameMarks.trans {h'' : NodeHost} (hfirst : h.SameMarks h')
    (hthen : h'.SameMarks h'') : h.SameMarks h'' :=
  ⟨hthen.1.trans hfirst.1, hthen.2.trans hfirst.2⟩

theorem NodeHost.SameMarks.marked (hsame : h.SameMarks h') : h'.Marked mark ↔ h.Marked mark := by
  rw [NodeHost.Marked, hsame.1, hsame.2, NodeHost.Marked]

theorem NodeHost.SameMarks.replays (hsame : h.SameMarks h') :
    h'.Replays signed ↔ h.Replays signed := by
  rw [NodeHost.Replays, hsame.1, NodeHost.Replays]

theorem NodeHost.marked_of_replays (hreplays : h.Replays signed) : h.Marked signed.mark :=
  .inl (SeenStore.remembers_of_duplicate hreplays)

theorem NodeHost.marked_of_observing (hmarked : (h.observing signed).Marked mark) :
    h.Marked mark ∨ mark = signed.mark := by
  obtain hmemory | hdisk := hmarked
  · exact (SeenStore.remembers_of_observe hmemory).imp_left .inl
  · exact .inl (.inr hdisk)

theorem NodeHost.marked_of_seenSaved {now : UInt64} (hmarked : (h.seenSaved now).Marked mark) :
    h.Marked mark := by
  obtain hmemory | hdisk := hmarked
  · exact .inl hmemory
  · exact .inl (SeenStore.remembers_of_document hdisk)

theorem replayGuard_marked {io : Io} {now : UInt64}
    (hmarked : (exec (replayGuard io signed now) h).2.Marked mark) :
    h.Marked mark ∨ mark = signed.mark := by
  obtain ⟨-, hguard⟩ | ⟨-, -, hguard⟩ | ⟨-, -, hguard⟩ := replayGuard_cases io signed now h
  · rw [hguard] at hmarked
    exact NodeHost.marked_of_observing hmarked
  · rw [hguard] at hmarked
    exact NodeHost.marked_of_observing hmarked
  · rw [hguard] at hmarked
    exact NodeHost.marked_of_observing (NodeHost.marked_of_seenSaved hmarked)

theorem NodeHost.reload_sameMarks (io : ReloadIo) (h : NodeHost) : h.SameMarks (h.reload io) := by
  rw [reload, reloadAdminState]
  split
  · exact ⟨rfl, rfl⟩
  · refine ⟨rfl, ?_⟩
    dsimp only
    split
    · rfl
    · rfl

theorem ControlEvent.reloaded_sameMarks (e : ControlEvent) (h : NodeHost) :
    h.SameMarks (e.reloaded h) := by
  cases e with
  | direct io signed now => exact h.reload_sameMarks io.reload
  | routed io remote carried now =>
      exact (h.reload_sameMarks io.routedReload).trans (NodeHost.reload_sameMarks io.reload _)
  | _ => exact .refl h

theorem sameMarks_invariant (h₀ : NodeHost) : HandlerInvariant h₀.SameMarks :=
  .of_ignores
    (fun hcore hI =>
      ⟨(congrArg HostCore.seen hcore).trans hI.1, (congrArg HostCore.storedSeen hcore).trans hI.2⟩)
    (fun hI => hI) (fun hI => hI)

end Marks

/-! ## Requests -/

variable [ControlPostcard]

/-- The frame of a request that passes the checks before the replay guard, with what the file
system does for it. -/
def ControlEvent.admitted (h : NodeHost) : ControlEvent → Option (Io × SignedControl)
  | .direct io signed now =>
      match (exec (admitDirect io signed now) h).1 with
      | .error _ => none
      | .ok _ => some (io, signed)
  | .routed io remote carried now =>
      match (exec (admitRouted io remote carried now) h).1 with
      | .error _ => none
      | .ok (_, last) => some (io, last)
  | _ => none

variable [EthPrimitives] [ZeroKey]

theorem HandOff.handled_sameMarks (d : HandOff) : d.host.SameMarks d.handled.2 := by
  have g := sameMarks_invariant d.host
  apply HandOff.handled_keeps g.ordinary (.refl d.host) (fun _ => g.relink)
    fun _ => g.toCoreInvariant.notifies
  · exact fun _ _ => onRecord_keeps fun hI => hI
  · exact fun _ _ => onRecord_keeps fun hI => hI
  · exact fun _ _ => ⟨rfl, rfl⟩

theorem ControlEvent.received_guarded {h : NodeHost} {e : ControlEvent}
    {result : Except RejectCode Handled × NodeHost} (hresult : e.received h = some result) :
    (e.admitted h = none ∧ e.handOff h = none ∧ e.Idle h result.2 ∧ h.SameMarks result.2)
      ∨ ∃ io signed now, e.admitted h = some (io, signed)
        ∧ ((∃ code, exec (replayGuard io signed now) (e.reloaded h) = (.error code, result.2)
            ∧ result.1 = .error code ∧ e.handOff h = none ∧ e.Idle h result.2)
          ∨ ∃ d, e.handOff h = some d ∧ result = d.handled ∧ d.io = io ∧ d.signed = signed
            ∧ exec (replayGuard io signed now) (e.reloaded h) = (.ok ⟨⟩, d.host)) := by
  cases e with
  | direct io signed now =>
      simp only [received, Option.some.injEq] at hresult
      subst hresult
      rw [receiveAtHandled, exec_bind, handOff, admitted]
      obtain ⟨code, hrun⟩ | ⟨code, hrun⟩ | ⟨authority, hrun, -⟩ := admitDirect_exec io signed now h
      · rw [hrun]
        exact .inl ⟨rfl, rfl, .refused, .refl h⟩
      · rw [hrun]
        exact .inl ⟨rfl, rfl, .reloaded, h.reload_sameMarks io.reload⟩
      · rw [hrun]
        dsimp only
        rw [dispatchAuthorized, exec_bind]
        refine .inr ⟨io, signed, now, rfl, ?_⟩
        obtain ⟨seen, stored, hmarks⟩ := replayGuard_marks io signed now (h.reload io.reload)
        simp only [reloaded]
        cases hguard : exec (replayGuard io signed now) (h.reload io.reload) with
        | mk outcome guarded =>
            rw [hguard] at hmarks
            obtain rfl : guarded = _ := hmarks
            cases outcome with
            | error code => exact .inl ⟨code, rfl, rfl, rfl, .marked seen stored⟩
            | ok _ => exact .inr ⟨_, rfl, rfl, rfl, rfl, rfl⟩
  | routed io remote carried now =>
      simp only [received, Option.some.injEq] at hresult
      subst hresult
      rw [receiveRoutedAtHandled, exec_bind, handOff, admitted]
      obtain ⟨code, hrun⟩ | ⟨code, hrun⟩ | ⟨code, hrun⟩ | ⟨authority, last, hrun, -⟩ :=
        admitRouted_exec io remote carried now h
      · rw [hrun]
        exact .inl ⟨rfl, rfl, .refused, .refl h⟩
      · rw [hrun]
        exact .inl ⟨rfl, rfl, .halfway rfl, h.reload_sameMarks io.routedReload⟩
      · rw [hrun]
        exact .inl ⟨rfl, rfl, .reloaded,
          ControlEvent.reloaded_sameMarks (.routed io remote carried now) h⟩
      · rw [hrun]
        dsimp only
        rw [dispatchAuthorized, exec_bind]
        refine .inr ⟨io, last, now, rfl, ?_⟩
        simp only [reloaded]
        set reloaded := (h.reload io.routedReload).reload io.reload
        obtain ⟨seen, stored, hmarks⟩ := replayGuard_marks io last now reloaded
        cases hguard : exec (replayGuard io last now) reloaded with
        | mk outcome guarded =>
            rw [hguard] at hmarks
            obtain rfl : guarded = _ := hmarks
            cases outcome with
            | error code => exact .inl ⟨code, rfl, rfl, rfl, .marked seen stored⟩
            | ok _ => exact .inr ⟨_, rfl, rfl, rfl, rfl, rfl⟩
  | _ => cases hresult

/-- A request leaves no mark but that of its frame, and only if it passes the checks. -/
theorem ControlEvent.received_marked {h : NodeHost} {e : ControlEvent}
    {result : Except RejectCode Handled × NodeHost} {mark : SeenKey × MsgId}
    (hresult : e.received h = some result) (hmarked : result.2.Marked mark) :
    h.Marked mark ∨ ∃ io signed, e.admitted h = some (io, signed) ∧ signed.mark = mark := by
  have hguarded : ∀ {io : Io} {signed : SignedControl} {now : UInt64} {s : NodeHost},
      (exec (replayGuard io signed now) (e.reloaded h)).2 = s → s.Marked mark →
      h.Marked mark ∨ signed.mark = mark := by
    rintro io signed now _ rfl hmark
    obtain hbefore | hnew := replayGuard_marked hmark
    · exact .inl ((e.reloaded_sameMarks h).marked.mp hbefore)
    · exact .inr hnew.symm
  obtain ⟨-, -, -, hsame⟩ | ⟨io, signed, now, hadmitted, hguard⟩ := received_guarded hresult
  · exact .inl (hsame.marked.mp hmarked)
  · have hmark : h.Marked mark ∨ signed.mark = mark := by
      obtain ⟨code, hguard, -⟩ | ⟨d, -, rfl, -, -, hguard⟩ := hguard
      · exact hguarded (congrArg Prod.snd hguard) hmarked
      · exact hguarded (congrArg Prod.snd hguard) (d.handled_sameMarks.marked.mp hmarked)
    exact hmark.imp_right fun hmark => ⟨io, signed, hadmitted, hmark⟩

/-! ## Runs -/

variable [Postcard]

omit [ControlPostcard] [EthPrimitives] [ZeroKey] [Postcard] in
theorem elsewhere_sameMarks {ε α : Type} (c : ControlHost) (opens : OpenIo) (now : UInt64)
    {x : Transaction NodeHost ε α}
    (hx : ∀ {I : NodeHost → Prop}, HandlerInvariant I → Keeps I x) :
    c.host.SameMarks (c.elsewhere opens now x).host := by
  rw [ControlHost.elsewhere]
  split
  · exact .refl c.host
  · rename_i node hnode
    refine ⟨rfl, ?_⟩
    exact ((hx (sameMarks_invariant { c.host with node })).exec (.refl _)).2

omit [ControlPostcard] [EthPrimitives] [ZeroKey] [Postcard] in
theorem marked_of_open {opens : OpenIo} {disk : DataDir} {nodeId : NodeId}
    {operator : OperatorSecretKey} {ledger : Bool} {now : UInt64} {node : ControlNode}
    {mark : SeenKey × MsgId}
    (hopen : ControlNode.open_ opens disk nodeId operator ledger now = some node)
    (h : node.seen.Remembers mark) : Persisted mark (disk.seen.getD []) := by
  simp only [ControlNode.open_, Option.bind_eq_bind, Option.bind_eq_some_iff] at hopen
  obtain ⟨record, -, peers, -, pending, -, hnode⟩ := hopen
  obtain rfl := Option.some.inj hnode
  have hpersisted := SeenStore.persisted_of_open h
  cases hreads : opens.seenReads with
  | true => simpa [hreads] using hpersisted
  | false => simp [hreads, Persisted] at hpersisted

/-- One step leaves no mark but that of a frame which passes the checks. -/
theorem ControlHost.step_marked {c c' : ControlHost} {e : ControlEvent}
    {mark : SeenKey × MsgId} (hstep : c.step e = some c') (hmarked : c'.host.Marked mark) :
    c.host.Marked mark
      ∨ ∃ io signed, e.admitted c.host = some (io, signed) ∧ signed.mark = mark := by
  cases hreceived : e.received c.host with
  | some result =>
      rw [step_received hreceived, Option.some.injEq] at hstep
      subst hstep
      exact ControlEvent.received_marked hreceived hmarked
  | none =>
      left
      cases e with
      | direct io signed now => cases hreceived
      | routed io remote carried now => cases hreceived
      | execute index audited env now =>
          obtain rfl := Option.some.inj hstep
          rw [executeMutation] at hmarked
          split at hmarked
          · exact hmarked
          · exact hmarked
      | approve opens io node slot parentLedger now =>
          obtain rfl := Option.some.inj hstep
          exact (elsewhere_sameMarks c opens now
            fun g => g.ordinary.approvePending io node slot now parentLedger).marked.mp hmarked
      | reject opens io node now =>
          obtain rfl := Option.some.inj hstep
          exact (elsewhere_sameMarks c opens now
            fun g => g.ordinary.rejectPending io node ControlError.persist).marked.mp hmarked
      | adminAdd adminReads recordReads adminSaves node now =>
          obtain rfl := Option.some.inj hstep
          rw [adminAdd] at hmarked
          split at hmarked
          · exact hmarked
          · split at hmarked
            · exact hmarked
            · split at hmarked
              · exact hmarked
              · exact hmarked
      | adminRemove adminReads adminSaves node now =>
          obtain rfl := Option.some.inj hstep
          rw [adminRemove] at hmarked
          split at hmarked
          · exact hmarked
          · exact hmarked
      | restart opens now =>
          obtain ⟨node, hnode, rfl⟩ := Option.map_eq_some_iff.mp hstep
          obtain hmemory | hdisk := hmarked
          · exact .inr (marked_of_open hnode hmemory)
          · exact .inr hdisk

end Cawala
