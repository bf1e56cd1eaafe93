import Cawala.Model.ControlConcrete
import Cawala.Model.NoticeRetry
import Cawala.Verification.RebaseOrder
import Cawala.Verification.RecordStore

/-! # Lost detach notices

The queue of failed notices keeps only notices to children that are listed, and a child that was
detached is not. So its notice is dialed once and never again. -/

namespace Cawala

open Library Transaction

namespace RecordStore

/-- A child that was dropped is listed no more, if it was listed once. -/
theorem lists_dropChild {r : NodeRecord} (child : NodeId)
    (hunique : (r.children.map (·.childId)).Nodup) :
    (dropChild r child).lists child = false := by
  rw [NodeRecord.lists, dropChild, List.any_eq_false]
  intro entry hentry hid
  rcases List.exists_or_eq_self_of_eraseP (fun c : ChildEntry => c.childId == child) r.children with
    hsame | ⟨gone, before, after, hbefore, hgone, hchildren, herased⟩
  · rw [hsame] at hentry
    exact List.eraseP_eq_self_iff.mp hsame entry hentry hid
  · rw [herased] at hentry
    rcases List.mem_append.mp hentry with hmem | hmem
    · exact hbefore entry hmem hid
    · rw [hchildren, List.map_append, List.map_cons] at hunique
      have hnot := (List.nodup_cons.mp (List.nodup_append.mp hunique).2.1).1
      have heq : gone.childId = entry.childId := by
        rw [beq_iff_eq.mp hgone, beq_iff_eq.mp hid]
      exact hnot (heq ▸ List.mem_map_of_mem hmem)

end RecordStore

section

variable [Crypto]

/-! ## The queue -/

theorem mem_requeueOne {r : NodeRecord} {queue : List OutboundControl} {item n : OutboundControl}
    (h : n ∈ requeueOne r queue item) : n ∈ queue ∨ r.lists n.target = true := by
  unfold requeueOne at h
  by_cases hlists : r.lists item.target = true
  · rw [if_pos hlists] at h
    rcases List.mem_append.mp h with hold | hnew
    · exact .inl (List.mem_of_mem_filter hold)
    · rw [List.mem_singleton.mp hnew]
      exact .inr hlists
  · rw [if_neg hlists] at h
    exact .inl h

/-- What is put back was in the queue, or it goes to a listed child. -/
theorem mem_requeuePendingRebase {r : NodeRecord} {queue failed : List OutboundControl}
    {n : OutboundControl} (h : n ∈ requeuePendingRebase r queue failed) :
    n ∈ queue ∨ r.lists n.target = true := by
  have hfold : ∀ (failed queue : List OutboundControl), n ∈ failed.foldl (requeueOne r) queue →
      n ∈ queue ∨ r.lists n.target = true := by
    intro failed
    induction failed with
    | nil => exact fun queue hmem => .inl hmem
    | cons item failed ih =>
        intro queue hmem
        exact (ih (requeueOne r queue item) hmem).elim mem_requeueOne .inr
  exact hfold failed queue (List.mem_of_mem_drop h)

/-! ## Detaching -/

section Detaching

/-- Between two steps no detach notice waits in the engine; and the record, in memory and on disk,
lists no child twice. -/
structure NodeHost.Settled (h : NodeHost) : Prop where
  taken : h.detaches = []
  memory : (h.node.record.children.map (·.childId)).Nodup
  disk : ∀ r, h.disk.record = some r → (r.children.map (·.childId)).Nodup

namespace NodeHost.Settled

variable {h : NodeHost}

theorem reload (io : ReloadIo) (hs : h.Settled) : (h.reload io).Settled where
  taken := by
    have houtbound : (h.reload io).node.outbound = h.node.outbound := by
      rw [NodeHost.reload, reloadAdminState]
      split
      · rfl
      · rfl
    rw [detaches, houtbound]
    exact hs.taken
  memory := by
    obtain hsame | hstored := (h.reload_refreshed io).record
    · rw [hsame]
      exact hs.memory
    · exact hs.disk _ hstored
  disk r hr := by
    rw [(h.reload_refreshed io).stored.1] at hr
    exact hs.disk r hr

theorem reloaded (e : ControlEvent) (hs : h.Settled) : (e.reloaded h).Settled := by
  cases e with
  | direct io signed now => exact hs.reload io.reload
  | routed io remote carried now => exact (hs.reload io.routedReload).reload io.reload
  | _ => exact hs

theorem withMarks (seen : SeenStore SeenKey) (stored : Option (List (SeenEntry SeenKey)))
    (hs : h.Settled) : (h.withMarks seen stored).Settled :=
  ⟨hs.taken, hs.memory, hs.disk⟩

/-- A request that never reaches its handler queues no notice. -/
theorem idle {s : NodeHost} {e : ControlEvent} (hs : h.Settled) (hidle : e.Idle h s) :
    s.Settled := by
  cases hidle with
  | refused => exact hs
  | halfway heq => exact hs.reload _
  | reloaded => exact hs.reloaded e
  | marked seen stored => exact (hs.reloaded e).withMarks seen stored

end NodeHost.Settled

theorem detaches_invariant (nodes : List NodeId) :
    RelinkInvariant (fun h => h.detaches = nodes) where
  still _ hdetaches hI := hdetaches.trans hI
  saved hI := hI
  restored _ hI := hI
  attached _ _ _ _ := onRecord_keeps fun hI => hI
  undone _ _ := onRecord_keeps fun hI => hI
  moved _ _ := onRecord_keeps fun hI => hI
  addressSet _ := onRecord_keeps fun hI => hI
  addressUnset := onRecord_keeps fun hI => hI
  generationSet _ := onRecord_keeps fun hI => hI
  rebased _ _ _ := onRecord_keeps fun hI => hI
  parentSet _ _ := onRecord_keeps fun hI => hI
  rooted := onRecord_keeps fun hI => hI
  unlinked := onRecord_keeps fun hI => hI

/-- The child of every waiting detach notice has left the child list. -/
def NodeHost.Departed (h : NodeHost) : Prop :=
  ∀ child ∈ h.detaches, h.node.record.lists child = false

theorem departed_of_nil {h : NodeHost} (hnone : h.detaches = []) : h.Departed := by
  intro child hchild
  rw [hnone] at hchild
  cases hchild

variable [ControlPostcard]

/-- The notice is queued last, when the child has left the list. -/
theorem applyDetachChild_departed {h : NodeHost} (hs : h.Settled) (io : Io) (child : NodeId)
    (now : UInt64) : (exec (applyDetachChild io child now) h).2.Departed := by
  have g := detaches_invariant []
  have hmeets : Meets (· = h) (applyDetachChild io child now) (fun _ => NodeHost.Departed)
      (fun _ s => s.detaches = []) := by
    refine Meets.bind (Q := fun _ s => s.detaches = [] ∧ s.node.record.lists child = false)
      ?_ fun _ => ?_
    · intro s hsame
      subst hsame
      rw [exec_mapError, onRecord, exec_zoom]
      cases hrun : exec (RecordStore.detachChild child) s.node.record with
      | mk result r =>
          cases result with
          | error e => exact hs.taken
          | ok u =>
              refine ⟨hs.taken, ?_⟩
              rw [RecordStore.detachChild_ok hrun]
              exact RecordStore.lists_dropChild child hs.memory
    · refine Meets.bind (Q := fun _ s => s.detaches = [] ∧ s.node.record.lists child = false)
        ?_ fun _ => ?_
      · intro s hkept
        rcases saveRecord_exec io RejectCode.internal s with hsaved | hrefused
        · rw [hsaved]
          exact hkept
        · rw [hrefused]
          exact hkept.1
      · intro s hkept node hnode
        have hqueued : NodeHost.detaches (exec (queueNotice child .detachNotice
            (.detachNotice child) now) s).2 = s.detaches ++ [child] := by
          change List.map _ (List.filter _ (s.node.outbound ++ [_])) = _
          simp [NodeHost.detaches]
        rw [hkept.1] at hqueued
        obtain rfl : node = child := by
          have hmem := hqueued ▸ hnode
          exact List.mem_singleton.mp hmem
        exact hkept.2
  exact Meets.exec (hmeets.mono (fun _ => id) (fun _ _ => id) fun _ _ => departed_of_nil) rfl

variable [EthPrimitives] [ZeroKey]

/-- Whatever its request, a handler leaves no listed child with a detach notice. -/
theorem HandOff.handled_departed {d : HandOff} (hs : d.host.Settled) : d.handled.2.Departed := by
  cases hrequest : d.signed.request with
  | detachChild child =>
      rw [handled, handleRequest, hrequest, exec_map]
      exact applyDetachChild_departed hs d.io child d.now
  | adminDetachChild child =>
      rw [handled, handleRequest, hrequest, exec_map]
      change (exec (handleAdminDetachChild d.io child d.now) d.host).2.Departed
      rw [handleAdminDetachChild, exec_refuseIf_bind]
      split
      · exact departed_of_nil hs.taken
      · exact applyDetachChild_departed hs d.io child d.now
  | _ =>
      -- the other handlers queue no detach notice
      apply departed_of_nil
      apply HandOff.handled_keeps (detaches_invariant []).toOrdinaryInvariant hs.taken
        (fun _ => detaches_invariant [])
      · intro hnotifies
        rw [hrequest] at hnotifies
        cases hnotifies
      · exact fun _ _ => onRecord_keeps fun hI => hI
      · exact fun _ _ => onRecord_keeps fun hI => hI
      · exact fun _ _ => hs.taken

variable [Postcard]

/-- A step that queues a detach notice leaves its child unlisted. -/
theorem ControlHost.nodeStep_unlisted {c c' : ControlHost} {event : NodeEvent}
    {n : OutboundControl} (hs : c.host.Settled) (hframe : n ∈ event.frames c)
    (hkind : n.kind = .detachNotice) (hstep : c.nodeStep event = some c') :
    c'.host.node.record.lists n.target = false := by
  have hwaits : ∀ {h : NodeHost}, n ∈ h.node.outbound → n.target ∈ h.detaches := by
    intro h hmem
    exact List.mem_map_of_mem (List.mem_filter.mpr ⟨hmem, beq_iff_eq.mpr hkind⟩)
  have hreceived : ∀ {e : ControlEvent} {result}, e.received c.host = some result →
      result.2.Departed := by
    intro e result hresult
    obtain ⟨-, -, hidle⟩ | ⟨d, -, rfl, -, seen, stored, hhost⟩ :=
      ControlEvent.received_cases hresult
    · exact departed_of_nil (hs.idle hidle).taken
    · exact HandOff.handled_departed (hhost ▸ (hs.reloaded e).withMarks seen stored)
  cases event with
  | control e =>
      cases e with
      | direct io signed now =>
          obtain rfl := Option.some.inj hstep
          exact hreceived (e := .direct io signed now) rfl _ (hwaits hframe)
      | routed io remote routed now =>
          obtain rfl := Option.some.inj hstep
          exact hreceived (e := .routed io remote routed now) rfl _ (hwaits hframe)
      | _ => cases hframe
  | pull io snapshot now =>
      have hnone := ((detaches_invariant []).applyPullSnapshot io snapshot now).exec hs.taken
      simp only [NodeEvent.frames] at hframe
      split at hframe
      · rename_i h hexec
        rw [hexec] at hnone
        have hmem := hwaits hframe
        rw [hnone] at hmem
        cases hmem
      · cases hframe
  | exit opens io now => cases hframe

end Detaching

namespace RetryHost

/-- A notice waits in the queue, or the sweep dials it. -/
def Keeps (s : RetryHost) (n : OutboundControl) : Prop :=
  n ∈ s.pendingRebase ∨ ∃ batch, s.sweeping = some batch ∧ n ∈ batch

variable {s t : RetryHost} {n : OutboundControl}

theorem mem_requeued {batch : List OutboundControl} {statuses : List DeliveryStatus}
    (hgone : s.record.lists n.target = false) (h : n ∈ s.requeued batch statuses) :
    n ∈ s.pendingRebase := by
  unfold requeued at h
  dsimp only at h
  split at h
  · exact h
  · refine (mem_requeuePendingRebase h).resolve_right ?_
    rw [hgone]
    exact Bool.false_ne_true

variable [ControlPostcard] [EthPrimitives] [ZeroKey] [Postcard]

/-- A step does not begin to keep a notice to a node that is no child. -/
theorem keeps_of_step {event : RetryEvent} (hgone : s.record.lists n.target = false)
    (hstep : s.step event = some t) (h : t.Keeps n) : s.Keeps n := by
  cases event with
  | node event =>
      obtain ⟨node, -, rfl⟩ := Option.map_eq_some_iff.mp hstep
      split at h
      · rcases h with h | ⟨batch, h, -⟩
        · cases h
        · cases h
      · exact h
  | delivered index statuses =>
      simp only [step] at hstep
      cases hbatch : s.deliveries[index]? with
      | none => simp [hbatch] at hstep
      | some batch =>
          simp only [hbatch, Option.ite_none_right_eq_some, Option.some.injEq] at hstep
          obtain ⟨-, rfl⟩ := hstep
          exact h.imp (mem_requeued hgone) id
  | sweep =>
      simp only [step, Option.ite_none_left_eq_some, Option.some.injEq] at hstep
      obtain ⟨-, rfl⟩ := hstep
      unfold takeForSweep at h
      split at h
      · exact h
      · rcases h with h | ⟨batch, hbatch, h⟩
        · cases h
        · cases hbatch
          exact .inl (List.mem_of_mem_filter h)
  | swept statuses =>
      simp only [step] at hstep
      cases hbatch : s.sweeping with
      | none => simp [hbatch] at hstep
      | some batch =>
          simp only [hbatch, Option.ite_none_right_eq_some, Option.some.injEq] at hstep
          obtain ⟨-, rfl⟩ := hstep
          rcases h with h | ⟨batch', hbatch', -⟩
          · exact .inl (mem_requeued hgone h)
          · cases hbatch'

theorem run_cons (event : RetryEvent) (events : List RetryEvent) :
    s.run (event :: events) = (s.step event).bind fun u => u.run events := rfl

def Gone (s : RetryHost) (events : List RetryEvent) (node : NodeId) : Prop :=
  ∀ before u, before <+: events → s.run before = some u → u.record.lists node = false

theorem Gone.head {events : List RetryEvent} {node : NodeId} (h : s.Gone events node) :
    s.record.lists node = false := h [] s List.nil_prefix rfl

theorem Gone.tail {event : RetryEvent} {events : List RetryEvent} {node : NodeId}
    (h : s.Gone (event :: events) node) (hstep : s.step event = some t) : t.Gone events node := by
  intro before u hbefore hrun
  refine h (event :: before) u (List.cons_prefix_cons.mpr ⟨rfl, hbefore⟩) ?_
  rw [run_cons, hstep]
  exact hrun

theorem gone_nil {node : NodeId} (h : s.record.lists node = false) : s.Gone [] node := by
  intro before u hbefore hrun
  rw [List.prefix_nil.mp hbefore] at hrun
  cases hrun
  exact h

theorem gone_cons {event : RetryEvent} {events : List RetryEvent} {node : NodeId}
    (h : s.record.lists node = false) (hstep : s.step event = some t) (ht : t.Gone events node) :
    s.Gone (event :: events) node := by
  intro before u hbefore hrun
  cases before with
  | nil =>
      cases hrun
      exact h
  | cons first before =>
      obtain ⟨rfl, hrest⟩ := List.cons_prefix_cons.mp hbefore
      rw [run_cons, hstep] at hrun
      exact ht before u hrest hrun

theorem keeps_of_run {events : List RetryEvent} (hgone : s.Gone events n.target)
    (hrun : s.run events = some t) (h : t.Keeps n) : s.Keeps n := by
  induction events generalizing s with
  | nil =>
      cases hrun
      exact h
  | cons event events ih =>
      rw [run_cons] at hrun
      obtain ⟨u, hstep, hrun⟩ := Option.bind_eq_some_iff.mp hrun
      exact keeps_of_step hgone.head hstep (ih (hgone.tail hstep) hrun)

/-- A step queues a new detach notice for delivery. -/
structure Queues (s : RetryHost) (event : NodeEvent) (t : RetryHost) (n : OutboundControl) :
    Prop where
  step : s.step (.node event) = some t
  frame : n ∈ event.frames s.node
  kind : n.kind = .detachNotice
  fresh : ¬ s.Keeps n

theorem Queues.unlisted {s' : RetryHost} {event : NodeEvent} (hqueued : s.Queues event s' n)
    (hs : s.node.host.Settled) : s'.record.lists n.target = false := by
  obtain ⟨node, hstep, rfl⟩ := Option.map_eq_some_iff.mp hqueued.step
  have hunlisted := ControlHost.nodeStep_unlisted hs hqueued.frame hqueued.kind hstep
  split
  · exact hunlisted
  · exact hunlisted

/-- The step that queues a detach notice takes the child off the list. As long as it is not attached
again, the notice is in the queue in no state after that step, and no sweep dials it, whatever its
deliveries end in. -/
theorem detach_notice_not_kept {s s' t : RetryHost} {event : NodeEvent} {n : OutboundControl}
    {events : List RetryEvent} (hqueued : s.Queues event s' n) (hrun : s'.run events = some t) :
    (s.node.host.Settled → s'.record.lists n.target = false)
    ∧ (s'.Gone events n.target → ¬ t.Keeps n) := by
  refine ⟨hqueued.unlisted, ?_⟩
  intro hgone hkept
  have hstart : s'.Keeps n := keeps_of_run hgone hrun hkept
  obtain ⟨node, -, rfl⟩ := Option.map_eq_some_iff.mp hqueued.step
  refine hqueued.fresh ?_
  split at hstart
  · rcases hstart with h | ⟨batch, h, -⟩
    · cases h
    · cases h
  · exact hstart

end RetryHost

end

section

open Concrete

/-- The node `n` with the child `x`, before any notice. -/
def parentOfX : Option RetryHost :=
  (started (directory
    [{ childId := "x", kind := .node, slot := 0, dateJoined := 100, ethAddress := none }]
    [row "x" .node 2] [])).map fun node =>
      { node, pendingRebase := [], deliveries := [], sweeping := none }

def detachOfX : NodeEvent :=
  .control (.direct io (frame "n" (1 : ℕ) 1 (.detachChild "x")) 150)

/-- `x` cannot be reached, and a sweep follows. -/
def unreachableX : List RetryEvent := [.delivered 0 [.unreachable], .sweep]

theorem parentOfX_settled {s : RetryHost} (hs : parentOfX = some s) : s.node.host.Settled := by
  have hall : parentOfX.all (fun s => s.node.host.detaches.isEmpty
      && decide (s.record.children.map (·.childId)).Nodup
      && s.node.host.disk.record.all fun r => decide (r.children.map (·.childId)).Nodup)
      = true := by
    decide +kernel
  simp only [hs, Option.all_some, Bool.and_eq_true, List.isEmpty_iff, decide_eq_true_eq,
    Option.all_eq_true] at hall
  exact ⟨hall.1.1, hall.1.2, hall.2⟩

/-- The notice to `x` is queued and dialed, and the queue is empty afterwards. -/
theorem notice_dialed :
    ∃ s s' t n, parentOfX = some s ∧ s.Queues detachOfX s' n
      ∧ (s'.record.lists n.target = false → s'.Gone unreachableX n.target)
      ∧ s'.run unreachableX = some t ∧ t.pendingRebase = [] ∧ t.sweeping = none := by
  have hrun : parentOfX.any (fun s => s.pendingRebase.isEmpty && s.sweeping.isNone
      && (detachOfX.frames s.node).any (fun n => n.target == "x" && n.kind == .detachNotice)
      && (s.step (.node detachOfX)).any fun s' =>
        (s'.step (.delivered 0 [.unreachable])).any fun u => !u.record.lists "x"
          && (u.step .sweep).any fun t => !t.record.lists "x"
            && t.pendingRebase.isEmpty && t.sweeping.isNone) = true := by
    decide +kernel
  simp only [Option.any_eq_true, List.any_eq_true, Bool.and_eq_true, Bool.not_eq_true',
    beq_iff_eq, List.isEmpty_iff, Option.isNone_iff_eq_none] at hrun
  obtain ⟨s, hs, ⟨⟨hqueue, hsweep⟩, n, hframe, htarget, hkind⟩, s', hstep, u, hdelivered,
    hgone', t, hswept, ⟨hgone'', hempty⟩, hidle⟩ := hrun
  refine ⟨s, s', t, n, hs, ⟨hstep, hframe, hkind, ?_⟩, ?_, ?_, hempty, hidle⟩
  · rintro (h | ⟨batch, h, -⟩)
    · rw [hqueue] at h
      cases h
    · rw [hsweep] at h
      cases h
  · rw [htarget]
    intro hgone
    exact RetryHost.gone_cons hgone hdelivered
      (RetryHost.gone_cons hgone' hswept (RetryHost.gone_nil hgone''))
  · rw [unreachableX, RetryHost.run_cons, hdelivered, Option.bind_some, RetryHost.run_cons, hswept]
    rfl

/-- The notice to `x` is kept neither for a retry nor by a sweep, though `x` has never seen it. -/
theorem detach_notice_lost :
    ∃ s s' t n, parentOfX = some s ∧ s.Queues detachOfX s' n ∧ s'.Gone unreachableX n.target
      ∧ s'.run unreachableX = some t ∧ ¬ t.Keeps n := by
  obtain ⟨s, s', t, n, hs, hqueued, hgone, hrun, hempty, hidle⟩ := notice_dialed
  have hunlisted := hqueued.unlisted (parentOfX_settled hs)
  refine ⟨s, s', t, n, hs, hqueued, hgone hunlisted, hrun, ?_⟩
  rintro (h | ⟨batch, h, -⟩)
  · rw [hempty] at h
    cases h
  · rw [hidle] at h
    cases h

theorem detach_notice_not_kept_unreachable :
    ∃ s s' t n, parentOfX = some s ∧ s.Queues detachOfX s' n ∧ s'.run unreachableX = some t
      ∧ s'.record.lists n.target = false ∧ ¬ t.Keeps n := by
  obtain ⟨s, s', t, n, hs, hqueued, hgone, hrun, -, -⟩ := notice_dialed
  obtain ⟨hunlisted, hlost⟩ := RetryHost.detach_notice_not_kept hqueued hrun
  have hstart := hunlisted (parentOfX_settled hs)
  exact ⟨s, s', t, n, hs, hqueued, hrun, hstart, hlost (hgone hstart)⟩

end

end Cawala
