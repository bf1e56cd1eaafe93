import Cawala.Model.Concrete
import Cawala.Model.SettlementManager
import Cawala.Verification.Encoding

/-! # Settlement bookkeeping

Every reserved settlement is in flight or was returned once, and an eviction takes the one
reserved first. The maps are bounded. The queue of the settlements in flight keeps the keys of those
that were taken or swept until evictions pop them, so it is bounded only where few settlements are
taken between two evictions. -/

namespace Cawala

open Std (ExtTreeMap)
open Library
open LazyQueue (Holds)
open SettlementCall

section

variable [Crypto]

namespace SettlementCall

variable {calls : List SettlementCall} {call : SettlementCall}

theorem reserved_concat (calls : List SettlementCall) (call : SettlementCall) :
    reserved (calls ++ [call]) = reserved calls ++ call.reserved?.toList := by
  rw [reserved, reserved, List.filterMap_append]
  cases h : call.reserved? <;> simp [h]

theorem run_concat (calls : List SettlementCall) (call : SettlementCall) :
    run (calls ++ [call])
      = ((run calls).1 ++ (call.perform (run calls).2).1, (call.perform (run calls).2).2) := by
  simp [run]

/-! ## What the bookkeeping keeps -/

/-- The settlements in flight, and what became of the others. -/
structure Kept (reserved returned : List PendingSettlement) (m : SettlementManager)
    (live : List (Hash × PendingSettlement)) : Prop where
  holds : Holds m.pendingQueue live
  keyed : ∀ e ∈ live, e.1 = e.2.paymentId
  sublist : (live.map Prod.snd).Sublist reserved
  queued : ∀ k ∈ m.pendingOrder, k ∈ reserved.map (·.paymentId)
  accounted : reserved.Perm (returned ++ live.map Prod.snd)
  bounded : live.length ≤ maxPending

def Remembers (m : SettlementManager) : Prop :=
  ∃ outcomes, Holds m.terminalQueue outcomes ∧ m.terminalQueue.stale = 0
    ∧ outcomes.length ≤ maxTerminal

variable {past returned : List PendingSettlement} {m : SettlementManager}
  {live : List (Hash × PendingSettlement)}

theorem Kept.new : Kept [] [] SettlementManager.new [] where
  holds := LazyQueue.holds_empty
  keyed := by simp
  sublist := List.Sublist.refl []
  queued := by simp [SettlementManager.new]
  accounted := List.Perm.refl []
  bounded := by simp

theorem Remembers.new : Remembers SettlementManager.new :=
  ⟨[], LazyQueue.holds_empty, rfl, by simp⟩

def afterEviction (live : List (Hash × PendingSettlement)) : List (Hash × PendingSettlement) :=
  if maxPending ≤ live.length then live.tail else live

def evicted? (live : List (Hash × PendingSettlement)) : Option PendingSettlement :=
  if maxPending ≤ live.length then live.head?.map Prod.snd else none

theorem values_afterEviction (live : List (Hash × PendingSettlement)) :
    live.map Prod.snd = (evicted? live).toList ++ (afterEviction live).map Prod.snd := by
  by_cases hfull : maxPending ≤ live.length
  · cases live with
    | nil => simp [evicted?, afterEviction]
    | cons e live =>
        rw [evicted?, afterEviction, if_pos hfull, if_pos hfull]
        rfl
  · simp [evicted?, afterEviction, hfull]

theorem Kept.fresh (h : Kept past returned m live) {p : PendingSettlement}
    (hp : p.paymentId ∉ past.map (·.paymentId)) : p.paymentId ∉ m.pendingQueue.order :=
  fun hmem => hp (h.queued _ hmem)

/-- Reserving a new id evicts the oldest settlement if there are too many. -/
theorem Kept.reserve_eq (h : Kept past returned m live) {p : PendingSettlement}
    (hp : p.paymentId ∉ past.map (·.paymentId)) : (m.reserve p).1 = evicted? live :=
  (h.holds.put_fresh maxPending p (h.fresh hp)).1

theorem Kept.reserve (h : Kept past returned m live) {p : PendingSettlement}
    (hp : p.paymentId ∉ past.map (·.paymentId)) :
    Kept (past ++ [p]) (returned ++ (m.reserve p).1.toList) (m.reserve p).2
      (afterEviction live ++ [(p.paymentId, p)]) := by
  obtain ⟨-, hholds, horder⟩ := h.holds.put_fresh maxPending p (h.fresh hp)
  have hvalues := values_afterEviction live
  have hkept : (afterEviction live).Sublist live := by
    by_cases hfull : maxPending ≤ live.length
    · simp only [afterEviction, if_pos hfull]
      exact List.tail_sublist live
    · simp only [afterEviction, if_neg hfull]
      exact List.Sublist.refl live
  refine ⟨hholds, ?_, ?_, ?_, ?_, ?_⟩
  · intro e he
    rcases List.mem_append.mp he with he | he
    · exact h.keyed e (hkept.subset he)
    · rw [List.mem_singleton.mp he]
  · rw [List.map_append]
    exact ((hkept.map Prod.snd).trans h.sublist).append (List.Sublist.refl [p])
  · intro k hk
    rw [List.map_append, List.mem_append]
    rcases horder k hk with hk | hk
    · exact Or.inl (h.queued k hk)
    · exact Or.inr (List.mem_singleton.mpr hk)
  · rw [h.reserve_eq hp, List.map_append, List.append_assoc, ← List.append_assoc _ _ (List.map _ _),
      ← hvalues, ← List.append_assoc]
    exact h.accounted.append_right [p]
  · have hbounded := h.bounded
    by_cases hfull : maxPending ≤ live.length
    · simp only [afterEviction, if_pos hfull, List.length_append, List.length_tail,
        List.length_singleton]
      have hpos : 0 < maxPending := by decide
      omega
    · simp only [afterEviction, if_neg hfull, List.length_append, List.length_singleton]
      omega

/-- The settlements that stay in flight and those that are taken out. -/
theorem Kept.remove (h : Kept past returned m live) {m' : SettlementManager}
    {out : List PendingSettlement} (p : Hash × PendingSettlement → Bool)
    (hholds : Holds m'.pendingQueue (live.filter fun e => !p e))
    (horder : m'.pendingOrder = m.pendingOrder) (hout : out.Perm ((live.filter p).map Prod.snd)) :
    Kept past (returned ++ out) m' (live.filter fun e => !p e) where
  holds := hholds
  keyed := fun e he => h.keyed e (List.mem_of_mem_filter he)
  sublist := (List.filter_sublist.map Prod.snd).trans h.sublist
  queued := horder ▸ h.queued
  accounted := by
    have hsplit := (List.filter_append_perm p live).symm.map Prod.snd
    rw [List.map_append] at hsplit
    refine h.accounted.trans ?_
    rw [List.append_assoc]
    exact (hsplit.trans (hout.symm.append_right _)).append_left returned
  bounded := (List.length_filter_le _ _).trans h.bounded

/-- Taking a settlement keeps the books. -/
theorem Kept.takePending (h : Kept past returned m live) (paymentId : Hash) :
    Kept past (returned ++ (m.takePending paymentId).1.toList) (m.takePending paymentId).2
      (live.filter fun e => !decide (e.1 = paymentId)) := by
  have hholds := h.holds.erase paymentId
  simp only [ne_eq, decide_not] at hholds
  exact h.remove (fun e => decide (e.1 = paymentId)) hholds rfl (h.holds.perm_getElem? paymentId)

theorem Kept.sweepExpired (h : Kept past returned m live) (now : UInt64) :
    Kept past (returned ++ (m.sweepExpired now).1) (m.sweepExpired now).2
      (live.filter fun e => !decide (e.1 ∈ m.expired now)) := by
  obtain ⟨hholds, hout⟩ := h.holds.removeAll (m.expired now)
  simp only [decide_not] at hholds
  exact h.remove (fun e => decide (e.1 ∈ m.expired now)) hholds rfl hout

/-- Every call keeps the books, if it reserves a new id. -/
theorem Kept.perform (h : Kept past returned m live)
    (hfresh : ∀ p, call.reserved? = some p → p.paymentId ∉ past.map (·.paymentId)) :
    ∃ live', Kept (past ++ call.reserved?.toList) (returned ++ (call.perform m).1)
      (call.perform m).2 live' := by
  cases call with
  | reserve p => exact ⟨_, h.reserve (hfresh p rfl)⟩
  | takePending paymentId =>
      have hkept := h.takePending paymentId
      refine ⟨live.filter fun e => !decide (e.1 = paymentId), ?_⟩
      simp only [reserved?, Option.toList_none, List.append_nil]
      exact hkept
  | sweepExpired now =>
      have hkept := h.sweepExpired now
      refine ⟨live.filter fun e => !decide (e.1 ∈ m.expired now), ?_⟩
      simp only [reserved?, Option.toList_none, List.append_nil]
      exact hkept
  | recordTerminal paymentId record =>
      refine ⟨live, ?_⟩
      simp only [reserved?, SettlementCall.perform, Option.toList_none, List.append_nil]
      exact ⟨h.holds, h.keyed, h.sublist, h.queued, h.accounted, h.bounded⟩

/-- Only recording an outcome changes the remembered ones. -/
theorem Remembers.perform (h : Remembers m) : Remembers (call.perform m).2 := by
  cases call with
  | reserve p => exact h
  | takePending paymentId => exact h
  | sweepExpired now => exact h
  | recordTerminal paymentId record =>
      obtain ⟨outcomes, hholds, hstale, hlen⟩ := h
      exact hholds.put_exact hstale (by decide) hlen paymentId record

/-- A call that reserves, reserves an id that is new to the run before it. -/
theorem fresh_of_nodup (hids : ((reserved (calls ++ [call])).map (·.paymentId)).Nodup) :
    ((reserved calls).map (·.paymentId)).Nodup
      ∧ ∀ p, call.reserved? = some p → p.paymentId ∉ (reserved calls).map (·.paymentId) := by
  rw [reserved_concat, List.map_append] at hids
  obtain ⟨hpast, -, hdisjoint⟩ := List.nodup_append.mp hids
  refine ⟨hpast, ?_⟩
  intro p hp hmem
  exact hdisjoint _ hmem p.paymentId (by simp [hp]) rfl

theorem kept_run (hids : ((reserved calls).map (·.paymentId)).Nodup) :
    ∃ live, Kept (reserved calls) (run calls).1 (run calls).2 live := by
  induction calls using List.reverseRecOn with
  | nil => exact ⟨[], Kept.new⟩
  | append_singleton calls call ih =>
      obtain ⟨hpast, hfresh⟩ := fresh_of_nodup hids
      obtain ⟨live, hkept⟩ := ih hpast
      rw [reserved_concat, run_concat]
      exact hkept.perform hfresh

theorem remembers_run (calls : List SettlementCall) : Remembers (run calls).2 := by
  induction calls using List.reverseRecOn with
  | nil => exact Remembers.new
  | append_singleton calls call ih =>
      rw [run_concat]
      exact ih.perform

/-! ## The leftover keys -/

def taken (m : SettlementManager) : SettlementCall → ℕ
  | .takePending paymentId => if paymentId ∈ m.pending then 1 else 0
  | .sweepExpired now => (m.expired now).length
  | _ => 0

def evicts (m : SettlementManager) : SettlementCall → Bool
  | .reserve p => decide (p.paymentId ∉ m.pending ∧ maxPending ≤ m.pending.size)
  | _ => false

/-- Count the settlements taken since the last eviction. -/
def count (m : SettlementManager) (recent : ℕ) (call : SettlementCall) : ℕ :=
  if call.evicts m then 0 else recent + call.taken m

/-- The settlements taken or swept since the last eviction of a run. -/
def takenSince (calls : List SettlementCall) : ℕ :=
  (calls.foldl (fun s call => ((call.perform s.1).2, call.count s.1 s.2))
    (SettlementManager.new, 0)).2

theorem takenSince_concat (calls : List SettlementCall) (call : SettlementCall) :
    takenSince (calls ++ [call]) = call.count (run calls).2 (takenSince calls) := by
  have hstate : ∀ (calls : List SettlementCall), (calls.foldl
      (fun s call => ((call.perform s.1).2, call.count s.1 s.2)) (SettlementManager.new, 0)).1
        = (run calls).2 := by
    intro calls
    induction calls using List.reverseRecOn with
    | nil => rfl
    | append_singleton calls call ih => rw [List.foldl_concat, run_concat, ih]
  rw [takenSince, List.foldl_concat, hstate, ← takenSince]

/-- A take or a sweep returns what it takes. -/
theorem length_perform_eq_taken (m : SettlementManager) (call : SettlementCall)
    (h : call.reserved? = none) : (call.perform m).1.length = call.taken m := by
  cases call with
  | reserve p => cases h
  | takePending paymentId =>
      change m.pending[paymentId]?.toList.length = if paymentId ∈ m.pending then 1 else 0
      cases hget : m.pending[paymentId]? with
      | none =>
          have hnot : paymentId ∉ m.pending := by simpa using hget
          rw [if_neg hnot]
          rfl
      | some p =>
          have hin : paymentId ∈ m.pending :=
            ExtTreeMap.mem_iff_isSome_getElem?.mpr (by simp [hget])
          rw [if_pos hin]
          rfl
  | sweepExpired now =>
      refine LazyQueue.length_removeAll ?_ ?_
      · exact (nodup_map_fst_toList m.pending).sublist (List.filter_sublist.map Prod.fst)
      · intro k hk
        obtain ⟨e, he, rfl⟩ := List.mem_map.mp hk
        have hget := ExtTreeMap.mem_toList_iff_getElem?_eq_some.mp (List.mem_of_mem_filter he)
        rw [ExtTreeMap.mem_iff_isSome_getElem?, hget]
        rfl
  | recordTerminal paymentId record => rfl

theorem Kept.evicts_reserve (h : Kept past returned m live) {p : PendingSettlement}
    (hp : p.paymentId ∉ past.map (·.paymentId)) :
    evicts m (.reserve p) = decide (maxPending ≤ live.length) := by
  have hnot : p.paymentId ∉ m.pending := fun hin => h.fresh hp (h.holds.mem_order hin)
  have hsize : m.pending.size = live.length := h.holds.size
  simp [evicts, hnot, hsize]

/-- If few settlements were taken since the last eviction, few keys are left over after it. -/
theorem Kept.within_perform (h : Kept past returned m live)
    (hfresh : ∀ p, call.reserved? = some p → p.paymentId ∉ past.map (·.paymentId)) {K recent : ℕ}
    (hwithin : m.pendingQueue.Within maxPending K recent) (hrecent : recent ≤ K) :
    (call.perform m).2.pendingQueue.Within maxPending K (call.count m recent) := by
  cases call with
  | reserve p =>
      have hp := hfresh p rfl
      have hput := hwithin.put_fresh h.holds (by decide) h.bounded (fun _ => hrecent) p (h.fresh hp)
      rw [count, h.evicts_reserve hp]
      simp only [taken, Nat.add_zero, decide_eq_true_eq]
      exact hput
  | takePending paymentId =>
      have herase := hwithin.erase h.holds.nodup paymentId
      have htaken := length_perform_eq_taken m (.takePending paymentId) rfl
      change LazyQueue.Within maxPending K (recent + taken m (.takePending paymentId)) _
      rw [← htaken]
      exact herase
  | sweepExpired now =>
      have hremoved := hwithin.removeAll h.holds.nodup (m.expired now)
      have htaken := length_perform_eq_taken m (.sweepExpired now) rfl
      change LazyQueue.Within maxPending K (recent + taken m (.sweepExpired now)) _
      rw [← htaken]
      exact hremoved
  | recordTerminal paymentId record => exact hwithin

theorem within_run {K : ℕ} (hids : ((reserved calls).map (·.paymentId)).Nodup)
    (hK : ∀ before, before <+: calls → takenSince before ≤ K) :
    (run calls).2.pendingQueue.Within maxPending K (takenSince calls) := by
  induction calls using List.reverseRecOn with
  | nil => exact LazyQueue.within_empty
  | append_singleton calls call ih =>
      obtain ⟨hpast, hfresh⟩ := fresh_of_nodup hids
      obtain ⟨live, hkept⟩ := kept_run hpast
      have hwithin := ih hpast fun before hbefore =>
        hK before (hbefore.trans (List.prefix_append calls [call]))
      rw [run_concat, takenSince_concat]
      exact hkept.within_perform hfresh hwithin (hK calls (List.prefix_append calls [call]))

/-- A take or a sweep leaves the key of what it takes. -/
theorem order_perform (m : SettlementManager) (h : call.reserved? = none) :
    (call.perform m).2.pendingQueue.order = m.pendingQueue.order := by
  cases call with
  | reserve p => cases h
  | takePending paymentId => rfl
  | sweepExpired now => rfl
  | recordTerminal paymentId record => rfl

/-- Where there is room, a reservation evicts nothing and its id is queued last. -/
theorem Kept.reserve_below (h : Kept past returned m live) {p : PendingSettlement}
    (hp : p.paymentId ∉ past.map (·.paymentId)) (hroom : ¬ maxPending ≤ live.length) :
    (SettlementCall.perform m (.reserve p)).1 = []
      ∧ (SettlementCall.perform m (.reserve p)).2.pendingQueue.order
        = m.pendingQueue.order ++ [p.paymentId] := by
  have hnot : ¬ m.pendingQueue.entries.contains p.paymentId = true := by
    intro hin
    exact h.fresh hp (h.holds.mem_order (by simpa using hin))
  constructor
  · change (m.reserve p).1.toList = []
    rw [h.reserve_eq hp, evicted?, if_neg hroom]
    rfl
  · change (m.pendingQueue.put maxPending p.paymentId p).2.order = _
    rw [LazyQueue.put, if_neg hnot, h.holds.size, if_neg hroom]

/-- What is counted as taken has left its key over. -/
theorem Kept.count_le_stale (h : Kept past returned m live)
    (hfresh : ∀ p, call.reserved? = some p → p.paymentId ∉ past.map (·.paymentId)) {recent : ℕ}
    (hrecent : recent ≤ m.pendingQueue.stale) :
    call.count m recent ≤ (call.perform m).2.pendingQueue.stale := by
  obtain ⟨live', hkept⟩ := h.perform hfresh
  have hbefore := h.holds.length_order
  have hafter := hkept.holds.length_order
  rw [h.holds.size] at hbefore
  rw [hkept.holds.size] at hafter
  have hlive := h.accounted.length_eq
  have hlive' := hkept.accounted.length_eq
  simp only [List.length_append, List.length_map] at hlive hlive'
  cases hcall : call.reserved? with
  | none =>
      have htaken := length_perform_eq_taken m call hcall
      have hcount : call.count m recent ≤ recent + call.taken m := by
        unfold count
        split <;> omega
      rw [order_perform m hcall] at hafter
      simp only [hcall, Option.toList_none, List.length_nil] at hlive'
      omega
  | some p =>
      obtain rfl : call = .reserve p := by
        cases call with
        | reserve q => rw [Option.some.inj hcall]
        | _ => cases hcall
      rw [count, h.evicts_reserve (hfresh p rfl)]
      by_cases hfull : maxPending ≤ live.length
      · simp [hfull]
      · obtain ⟨hnone, horder⟩ := h.reserve_below (hfresh p rfl) hfull
        rw [horder, List.length_append, List.length_singleton] at hafter
        rw [hnone] at hlive'
        simp only [hcall, Option.toList_some, List.length_singleton, List.length_nil] at hlive'
        simp only [hfull, decide_false, Bool.false_eq_true, if_false, taken]
        omega

/-- Every settlement taken since the last eviction has left its key over. -/
theorem takenSince_le_stale (hids : ((reserved calls).map (·.paymentId)).Nodup) :
    takenSince calls ≤ (run calls).2.pendingQueue.stale := by
  induction calls using List.reverseRecOn with
  | nil => exact Nat.zero_le _
  | append_singleton calls call ih =>
      obtain ⟨hpast, hfresh⟩ := fresh_of_nodup hids
      obtain ⟨live, hkept⟩ := kept_run hpast
      rw [run_concat, takenSince_concat]
      exact hkept.count_le_stale hfresh (ih hpast)

/-! ## The settlements in flight, in the order of reservation -/

/-- Those in flight are the reserved ones whose id is still in the map. -/
theorem Kept.live_eq (h : Kept past returned m live)
    (hids : (past.map (·.paymentId)).Nodup) :
    live.map Prod.snd = past.filter fun p => decide (p.paymentId ∈ m.pending) := by
  have hpending : ∀ p ∈ past, p.paymentId ∈ m.pending ↔ p ∈ live.map Prod.snd := by
    intro p hp
    have hmem : p.paymentId ∈ m.pending ↔ p.paymentId ∈ live.map Prod.fst := h.holds.mem_iff
    rw [hmem, List.mem_map, List.mem_map]
    constructor
    · intro hin
      obtain ⟨e, he, hid⟩ := hin
      refine ⟨e, he, ?_⟩
      have hreserved := h.sublist.subset (List.mem_map_of_mem he)
      exact List.inj_on_of_nodup_map hids hreserved hp ((h.keyed e he).symm.trans hid)
    · intro hin
      obtain ⟨e, he, rfl⟩ := hin
      exact ⟨e, he, h.keyed e he⟩
  have hnodup : past.Nodup := List.Nodup.of_map _ hids
  have hsublist := h.sublist
  have hfilter : past.filter (fun p => decide (p.paymentId ∈ m.pending))
      = past.filter fun p => decide (p ∈ live.map Prod.snd) := by
    apply List.filter_congr
    intro p hp
    exact decide_eq_decide.mpr (hpending p hp)
  rw [hfilter]
  have hsub : (live.map Prod.snd).Sublist
      (past.filter fun p => decide (p ∈ live.map Prod.snd)) := by
    have hself := hsublist.filter fun p => decide (p ∈ live.map Prod.snd)
    rwa [List.filter_eq_self.mpr (by simp)] at hself
  apply hsub.eq_of_length
  apply List.Perm.length_eq
  rw [List.perm_ext_iff_of_nodup (hnodup.sublist hsublist) (hnodup.filter _)]
  intro p
  rw [List.mem_filter, decide_eq_true_iff]
  exact ⟨fun hp => ⟨hsublist.subset hp, hp⟩, And.right⟩

/-! ## The books of a run -/

/-- Nothing is lost, an eviction takes the settlement reserved first, and the maps are bounded. -/
theorem books_of_run (hids : ((reserved calls).map (·.paymentId)).Nodup) :
    ((reserved calls).map fun p => (p.paymentId, p)).Perm
        (((run calls).1.map fun p => (p.paymentId, p)) ++ (run calls).2.pending.toList)
      ∧ (∀ p, p.paymentId ∉ (reserved calls).map (·.paymentId) →
        ((run calls).2.reserve p).1
          = if (run calls).2.pending.size < maxPending then none
            else ((reserved calls).filter fun q =>
              decide (q.paymentId ∈ (run calls).2.pending)).head?)
      ∧ (run calls).2.pending.size ≤ maxPending
      ∧ (run calls).2.terminal.size ≤ maxTerminal := by
  obtain ⟨live, hkept⟩ := kept_run hids
  obtain ⟨outcomes, hterminal, -, hlen⟩ := remembers_run calls
  have hsize : (run calls).2.pending.size = live.length := hkept.holds.size
  have hterminalSize : (run calls).2.terminal.size = outcomes.length := hterminal.size
  have hbounded := hkept.bounded
  refine ⟨?_, ?_, by omega, by omega⟩
  · have hlive : live.map (fun e => (e.2.paymentId, e.2)) = live := by
      have hself : ∀ e ∈ live, (e.2.paymentId, e.2) = id e := by
        intro e he
        rw [← hkept.keyed e he]
        rfl
      rw [List.map_congr_left hself, List.map_id]
    have hperm := hkept.accounted.map fun p => (p.paymentId, p)
    rw [List.map_append, List.map_map] at hperm
    have hlive' : live.map ((fun p => (p.paymentId, p)) ∘ Prod.snd) = live := hlive
    rw [hlive'] at hperm
    exact hperm.trans (hkept.holds.perm.symm.append_left _)
  · intro p hp
    rw [hkept.reserve_eq hp, ← hkept.live_eq hids, hsize, evicted?, List.head?_map]
    by_cases hfull : maxPending ≤ live.length
    · rw [if_pos hfull, if_neg (by omega)]
    · rw [if_neg hfull, if_pos (by omega)]

/-- The collections of a run hold what the maps do, twice, and the leftover keys. -/
theorem total_run (hids : ((reserved calls).map (·.paymentId)).Nodup) :
    (run calls).2.total = 2 * (run calls).2.pending.size + 2 * (run calls).2.terminal.size
      + (run calls).2.pendingQueue.stale := by
  obtain ⟨live, hkept⟩ := kept_run hids
  obtain ⟨outcomes, hterminal, hstale, -⟩ := remembers_run calls
  have horder : (run calls).2.pendingOrder.length
      = (run calls).2.pending.size + (run calls).2.pendingQueue.stale := hkept.holds.length_order
  have hterminalOrder : (run calls).2.terminalOrder.length
      = (run calls).2.terminal.size + (run calls).2.terminalQueue.stale := hterminal.length_order
  rw [SettlementManager.total]
  omega

/-- In every run nothing is lost and the maps are bounded. The whole manager is bounded over some
runs and their beginnings exactly when the settlements taken or swept between two evictions are. -/
theorem settlement_bookkeeping (runs : Set (List SettlementCall))
    (hids : ∀ calls ∈ runs, ((reserved calls).map (·.paymentId)).Nodup)
    (hclosed : ∀ calls ∈ runs, ∀ before, before <+: calls → before ∈ runs) :
    (∀ calls ∈ runs,
      ((reserved calls).map fun p => (p.paymentId, p)).Perm
          (((run calls).1.map fun p => (p.paymentId, p)) ++ (run calls).2.pending.toList)
        ∧ (∀ p, p.paymentId ∉ (reserved calls).map (·.paymentId) →
          ((run calls).2.reserve p).1
            = if (run calls).2.pending.size < maxPending then none
              else ((reserved calls).filter fun q =>
                decide (q.paymentId ∈ (run calls).2.pending)).head?)
        ∧ (run calls).2.pending.size ≤ maxPending
        ∧ (run calls).2.terminal.size ≤ maxTerminal)
      ∧ (∀ K, (∀ calls ∈ runs, takenSince calls ≤ K) → ∀ calls ∈ runs,
        (run calls).2.total ≤ 2 * maxPending + 2 * maxTerminal + (K + K * maxPending))
      ∧ ((∃ bound, ∀ calls ∈ runs, (run calls).2.total ≤ bound)
        ↔ ∃ K, ∀ calls ∈ runs, takenSince calls ≤ K) := by
  have hbound : ∀ K, (∀ calls ∈ runs, takenSince calls ≤ K) → ∀ calls ∈ runs,
      (run calls).2.total ≤ 2 * maxPending + 2 * maxTerminal + (K + K * maxPending) := by
    intro K hK calls hcalls
    have hids := hids calls hcalls
    obtain ⟨-, -, hpending, hterminal⟩ := books_of_run hids
    have hstale := (within_run hids fun before hbefore =>
      hK before (hclosed calls hcalls before hbefore)).stale_le
    have hrecent := hK calls hcalls
    rw [total_run hids]
    omega
  refine ⟨fun calls hcalls => books_of_run (hids calls hcalls), hbound, ?_, ?_⟩
  · rintro ⟨bound, hbound⟩
    refine ⟨bound, fun calls hcalls => ?_⟩
    have htotal := hbound calls hcalls
    rw [total_run (hids calls hcalls)] at htotal
    have hstale := takenSince_le_stale (hids calls hcalls)
    omega
  · rintro ⟨K, hK⟩
    exact ⟨_, hbound K hK⟩

end SettlementCall

end

section Concrete

open Concrete

def numberedOrder (n : ℕ) : PaymentOrder where
  from_ := n.repr
  to_ := "payee"
  amount := 1
  nonce := 0
  expiry := 0

def numberedSettlement (n : ℕ) : PendingSettlement where
  browser := { addr := ⟨[0, 0, 0], rfl, by decide +kernel⟩, node := n.repr }
  browserMsgId := Vector.replicate 16 0
  order := numberedOrder n
  auth := { operator := (7 : ℕ), nonce := 0, orderHash := (numberedOrder n).hash,
            signature := ((7 : ℕ), (0 : ℕ)) }
  payerAddr := ⟨[0, 0, 0], rfl, by decide +kernel⟩
  payeeAddr := ⟨[0, 1, 0], rfl, by decide +kernel⟩
  payeeLeafAddr := ⟨[0, 1], rfl, by decide +kernel⟩
  localSeq := 0
  localHash := (0 : ℕ)
  deadlineSecs := 60
  replyV2 := true

theorem numberedOrder_hash_injective : Function.Injective fun n => (numberedOrder n).hash := by
  intro m n h
  obtain ⟨-, hbytes⟩ := collisionFree _ _ _ _ h
  have hencode : (numberedOrder m).encode = (numberedOrder n).encode := by simpa using hbytes
  simp only [numberedOrder, PaymentOrder.encode, encodeRequest, encodeNodeId,
    List.append_assoc] at hencode
  have hlen := congrArg List.length hencode
  simp only [List.length_append, leBytes_length, encodeU64_length] at hlen
  obtain ⟨-, hrest⟩ := List.append_inj hencode (by simp)
  obtain ⟨hutf8, -⟩ := List.append_inj hrest (by omega)
  exact Nat.repr_injective (utf8_injective hutf8)

/-- Runs without sweeps in which every id is reserved once and at most one settlement is taken. -/
def takenOnce : Set (List SettlementCall) :=
  {calls | ((SettlementCall.reserved calls).map (·.paymentId)).Nodup
    ∧ (∀ now, .sweepExpired now ∉ calls)
    ∧ calls.countP (fun call => call matches .takePending _) ≤ 1}

theorem takenSince_le_countP {calls : List SettlementCall}
    (h : ∀ now, .sweepExpired now ∉ calls) : SettlementCall.takenSince calls
      ≤ calls.countP fun call => call matches .takePending _ := by
  induction calls using List.reverseRecOn with
  | nil => exact Nat.zero_le _
  | append_singleton calls call ih =>
      have hbefore := ih fun now hmem => h now (List.mem_append_left _ hmem)
      rw [SettlementCall.takenSince_concat, List.countP_append, SettlementCall.count]
      split
      · exact Nat.zero_le _
      · refine Nat.add_le_add hbefore ?_
        cases call with
        | reserve p => exact Nat.zero_le _
        | takePending paymentId =>
            simp only [SettlementCall.taken]
            split <;> simp
        | sweepExpired now => exact absurd (List.mem_append_right _ List.mem_cons_self) (h now)
        | recordTerminal paymentId record => exact Nat.zero_le _

theorem takenOnce_prefix {calls before : List SettlementCall} (h : calls ∈ takenOnce)
    (hbefore : before <+: calls) : before ∈ takenOnce := by
  obtain ⟨hids, hsweeps, hcount⟩ := h
  refine ⟨?_, fun now hmem => hsweeps now (hbefore.subset hmem), ?_⟩
  · exact hids.sublist ((hbefore.sublist.filterMap _).map _)
  · exact hbefore.sublist.countP_le.trans hcount

def reservations (n : ℕ) : List SettlementCall :=
  (List.range n).map fun i => .reserve (numberedSettlement i)

theorem reserved_reservations (n : ℕ) :
    SettlementCall.reserved (reservations n) = (List.range n).map numberedSettlement := by
  rw [SettlementCall.reserved, reservations, List.filterMap_map]
  exact congrFun List.filterMap_eq_map' (List.range n)

def lastTaken (n : ℕ) : List SettlementCall :=
  reservations (n + 1) ++ [.takePending (numberedSettlement n).paymentId]

theorem reserved_lastTaken (n : ℕ) :
    SettlementCall.reserved (lastTaken n) = (List.range (n + 1)).map numberedSettlement := by
  rw [lastTaken, SettlementCall.reserved_concat, reserved_reservations]
  exact List.append_nil _

theorem lastTaken_mem (n : ℕ) : lastTaken n ∈ takenOnce := by
  refine ⟨?_, ?_, ?_⟩
  · rw [reserved_lastTaken, List.map_map]
    exact List.nodup_range.map numberedOrder_hash_injective
  · intro now hmem
    simp [lastTaken, reservations] at hmem
  · simp [lastTaken, reservations, List.countP_map, Function.comp_def]

theorem takenSince_lastTaken (n : ℕ) : SettlementCall.takenSince (lastTaken n) = 1 := by
  have hnone : SettlementCall.takenSince (reservations (n + 1)) = 0 := by
    refine Nat.le_zero.mp ((takenSince_le_countP ?_).trans_eq ?_)
    · simp [reservations]
    · simp [reservations, List.countP_map, Function.comp_def]
  have hpending : (numberedSettlement n).paymentId
      ∈ (SettlementCall.run (reservations (n + 1))).2.pending := by
    have hsplit : reservations (n + 1) = reservations n ++ [.reserve (numberedSettlement n)] := by
      simp [reservations, List.range_succ]
    rw [hsplit, SettlementCall.run_concat]
    exact LazyQueue.mem_put ..
  rw [lastTaken, SettlementCall.takenSince_concat, hnone]
  simp [SettlementCall.count, SettlementCall.evicts, SettlementCall.taken, hpending]

/-- Where at most one settlement is taken the manager is bounded, however many are evicted. -/
theorem settlement_bookkeeping_takenOnce :
    (∀ calls ∈ takenOnce, (SettlementCall.run calls).2.total
        ≤ 2 * maxPending + 2 * maxTerminal + (1 + 1 * maxPending))
      ∧ ∀ n, ∃ calls ∈ takenOnce, SettlementCall.takenSince calls = 1
          ∧ n ≤ (SettlementCall.run calls).1.length := by
  obtain ⟨hbooks, hbound, -⟩ := SettlementCall.settlement_bookkeeping takenOnce
    (fun calls hcalls => hcalls.1) fun calls hcalls before => takenOnce_prefix hcalls
  refine ⟨hbound 1 fun calls hcalls =>
    (takenSince_le_countP hcalls.2.1).trans hcalls.2.2, ?_⟩
  intro n
  have hmem := lastTaken_mem (n + maxPending)
  refine ⟨_, hmem, takenSince_lastTaken _, ?_⟩
  obtain ⟨hperm, -, hpending, -⟩ := hbooks _ hmem
  have hlength := hperm.length_eq
  rw [reserved_lastTaken] at hlength
  simp only [List.length_map, List.length_range, List.length_append,
    ExtTreeMap.length_toList] at hlength
  omega

/-! ## Leftover keys are not bounded -/

def takenInTurn (n : ℕ) : List SettlementCall :=
  (List.range n).flatMap fun i =>
    [.reserve (numberedSettlement i), .takePending (numberedSettlement i).paymentId]

theorem takenInTurn_succ (n : ℕ) :
    takenInTurn (n + 1) = takenInTurn n
      ++ [.reserve (numberedSettlement n), .takePending (numberedSettlement n).paymentId] := by
  simp [takenInTurn, List.range_succ]

theorem reserved_takenInTurn (n : ℕ) :
    SettlementCall.reserved (takenInTurn n) = (List.range n).map numberedSettlement := by
  induction n with
  | zero => rfl
  | succ n ih =>
      rw [takenInTurn_succ, SettlementCall.reserved, List.filterMap_append,
        ← SettlementCall.reserved, ih, List.range_succ, List.map_append]
      rfl

/-- All their keys stay in the queue. -/
theorem run_takenInTurn (n : ℕ) :
    (SettlementCall.run (takenInTurn n)).2.pending = ∅
      ∧ (SettlementCall.run (takenInTurn n)).2.pendingOrder.length = n := by
  induction n with
  | zero => exact ⟨rfl, rfl⟩
  | succ n ih =>
      obtain ⟨hpending, horder⟩ := ih
      have hsplit : takenInTurn (n + 1) = (takenInTurn n ++ [.reserve (numberedSettlement n)])
          ++ [.takePending (numberedSettlement n).paymentId] := by
        rw [takenInTurn_succ]
        simp
      rw [hsplit, SettlementCall.run_concat, SettlementCall.run_concat]
      simp only [SettlementCall.perform, SettlementManager.takePending, SettlementManager.reserve,
        LazyQueue.put, SettlementManager.pendingQueue, hpending]
      refine ⟨?_, ?_⟩
      · apply ExtTreeMap.ext_getElem?
        intro k
        simp [maxPending]
      · simp [maxPending, horder]

/-- No constant bounds the manager. -/
theorem total_unbounded :
    ¬ ∃ bound, ∀ calls, ((SettlementCall.reserved calls).map (·.paymentId)).Nodup →
      (SettlementCall.run calls).2.total ≤ bound := by
  intro h
  obtain ⟨bound, h⟩ := h
  have hids : ((SettlementCall.reserved (takenInTurn (bound + 1))).map (·.paymentId)).Nodup := by
    rw [reserved_takenInTurn, List.map_map]
    exact List.nodup_range.map numberedOrder_hash_injective
  have hbound := h _ hids
  rw [SettlementManager.total, (run_takenInTurn (bound + 1)).2] at hbound
  omega

end Concrete

end Cawala
