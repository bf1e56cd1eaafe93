import Cawala.Library.TreeMap

/-! # Queues with lazy removal

A bounded map that drops its oldest entry. Its queue holds the keys in the order of insertion;
removing an entry leaves its key in the queue, and an eviction skips such stale keys. The live
entries, in the order of insertion, say what the pair means. -/

namespace Cawala.Library

open Std (ExtTreeMap)

attribute [local instance] transOrd_of_linearOrder

variable {κ β : Type*} [LinearOrder κ]

structure LazyQueue (κ β : Type*) [LinearOrder κ] where
  entries : ExtTreeMap κ β
  order : List κ

namespace LazyQueue

/-- Pop keys up to the first whose entry is still there, and remove it. -/
def evictOldest (entries : ExtTreeMap κ β) : List κ → Option β × LazyQueue κ β
  | [] => (none, ⟨entries, []⟩)
  | k :: order =>
      match entries[k]? with
      | some v => (some v, ⟨entries.erase k, order⟩)
      | none => evictOldest entries order

/-- Insert or replace an entry. A new one evicts the oldest if the map is full. -/
def put (bound : ℕ) (q : LazyQueue κ β) (k : κ) (v : β) : Option β × LazyQueue κ β :=
  if q.entries.contains k then (none, { q with entries := q.entries.insert k v })
  else
    let (evicted, q) :=
      if bound ≤ q.entries.size then evictOldest q.entries q.order else (none, q)
    (evicted, ⟨q.entries.insert k v, q.order ++ [k]⟩)

def removeAll : List κ → ExtTreeMap κ β → List β × ExtTreeMap κ β
  | [], entries => ([], entries)
  | k :: ks, entries =>
      let (removed, rest) := removeAll ks (entries.erase k)
      (entries[k]?.toList ++ removed, rest)

theorem mem_put (bound : ℕ) (q : LazyQueue κ β) (k : κ) (v : β) :
    k ∈ (put bound q k v).2.entries := by
  unfold put
  split <;> simp

/-- The keys in the queue without an entry. -/
def stale (q : LazyQueue κ β) : ℕ := (q.order.filter fun k => decide (k ∉ q.entries)).length

/-- An eviction pops at least one key. -/
theorem evictOldest_length (entries : ExtTreeMap κ β) {order : List κ} (h : order ≠ []) :
    (evictOldest entries order).2.order.length < order.length := by
  induction order with
  | nil => exact absurd rfl h
  | cons k order ih =>
      cases hk : entries[k]? with
      | some v => simp [evictOldest, hk]
      | none =>
          simp only [evictOldest, hk, List.length_cons]
          cases order with
          | nil => simp [evictOldest]
          | cons k' order => exact (ih (List.cons_ne_nil k' order)).trans (Nat.lt_succ_self _)

theorem length_removeAll {entries : ExtTreeMap κ β} {ks : List κ} (hnodup : ks.Nodup)
    (hmem : ∀ k ∈ ks, k ∈ entries) : (removeAll ks entries).1.length = ks.length := by
  induction ks generalizing entries with
  | nil => rfl
  | cons k ks ih =>
      obtain ⟨hk, hks⟩ := List.nodup_cons.mp hnodup
      have hrest : ∀ x ∈ ks, x ∈ entries.erase k := by
        intro x hx
        have hne : k ≠ x := fun heq => hk (heq ▸ hx)
        exact ExtTreeMap.mem_erase.mpr ⟨by simpa using hne, hmem x (List.mem_cons_of_mem k hx)⟩
      obtain ⟨v, hv⟩ := Option.isSome_iff_exists.mp
        (ExtTreeMap.mem_iff_isSome_getElem?.mp (hmem k List.mem_cons_self))
      simp [removeAll, hv, ih hks hrest]

/-! ## What every entry has -/

section Every

variable {P : κ → β → Prop} {entries : ExtTreeMap κ β}

theorem evictOldest_every (h : ∀ k v, entries[k]? = some v → P k v) (order : List κ) :
    (∀ k v, (evictOldest entries order).2.entries[k]? = some v → P k v)
      ∧ ∀ v, (evictOldest entries order).1 = some v → ∃ k, P k v := by
  induction order with
  | nil => exact ⟨h, fun v hv => by cases hv⟩
  | cons k order ih =>
      cases hk : entries[k]? with
      | none => simpa only [evictOldest, hk] using ih
      | some old =>
          simp only [evictOldest, hk]
          refine ⟨?_, ?_⟩
          · intro x v hx
            rw [ExtTreeMap.getElem?_erase] at hx
            split at hx
            · cases hx
            · exact h x v hx
          · intro v hv
            exact ⟨k, h k v (hk.trans hv)⟩

/-- What every entry has and the new one too, every entry has after an insertion; and the evicted
one has it under its key. -/
theorem put_every {q : LazyQueue κ β} (h : ∀ k v, q.entries[k]? = some v → P k v) (bound : ℕ)
    {k : κ} {v : β} (hnew : P k v) :
    (∀ x w, (put bound q k v).2.entries[x]? = some w → P x w)
      ∧ ∀ w, (put bound q k v).1 = some w → ∃ x, P x w := by
  have hinsert : ∀ m : ExtTreeMap κ β, (∀ x w, m[x]? = some w → P x w) →
      ∀ x w, (m.insert k v)[x]? = some w → P x w := by
    intro m hm x w hx
    rw [ExtTreeMap.getElem?_insert] at hx
    by_cases heq : k = x
    · subst heq
      rw [if_pos (compare_eq_iff_eq.mpr rfl), Option.some.injEq] at hx
      exact hx ▸ hnew
    · rw [if_neg (by simpa using heq)] at hx
      exact hm x w hx
  unfold put
  by_cases hcontains : q.entries.contains k = true
  · rw [if_pos hcontains]
    exact ⟨hinsert _ h, fun w hw => by cases hw⟩
  · rw [if_neg hcontains]
    by_cases hfull : bound ≤ q.entries.size
    · simp only [if_pos hfull]
      obtain ⟨hrest, hevicted⟩ := evictOldest_every h q.order
      exact ⟨hinsert _ hrest, hevicted⟩
    · simp only [if_neg hfull]
      exact ⟨hinsert _ h, fun w hw => by cases hw⟩

/-- What every entry has, the removed and the remaining ones have. -/
theorem removeAll_every (h : ∀ k v, entries[k]? = some v → P k v) (ks : List κ) :
    (∀ k v, (removeAll ks entries).2[k]? = some v → P k v)
      ∧ ∀ v ∈ (removeAll ks entries).1, ∃ k, P k v := by
  induction ks generalizing entries with
  | nil => exact ⟨h, fun v hv => by cases hv⟩
  | cons k ks ih =>
      have herase : ∀ x w, (entries.erase k)[x]? = some w → P x w := by
        intro x w hx
        rw [ExtTreeMap.getElem?_erase] at hx
        split at hx
        · cases hx
        · exact h x w hx
      obtain ⟨hrest, hremoved⟩ := ih herase
      refine ⟨hrest, ?_⟩
      intro v hv
      rcases List.mem_append.mp hv with hv | hv
      · exact ⟨k, h k v (Option.mem_toList.mp hv)⟩
      · exact hremoved v hv

end Every

/-! ## What a queue holds -/

/-- The queue holds these entries, in the order of their insertion. -/
structure Holds (q : LazyQueue κ β) (live : List (κ × β)) : Prop where
  keys : q.order.filter (fun k => decide (k ∈ q.entries)) = live.map Prod.fst
  entries : ∀ k v, q.entries[k]? = some v ↔ (k, v) ∈ live
  nodup : q.order.Nodup

theorem holds_empty : Holds (⟨∅, []⟩ : LazyQueue κ β) [] where
  keys := rfl
  entries := by simp
  nodup := List.nodup_nil

variable {q : LazyQueue κ β} {live : List (κ × β)}

namespace Holds

theorem nodup_keys (h : Holds q live) : (live.map Prod.fst).Nodup :=
  h.keys ▸ h.nodup.filter _

theorem mem_iff (h : Holds q live) {k : κ} : k ∈ q.entries ↔ k ∈ live.map Prod.fst := by
  rw [ExtTreeMap.mem_iff_isSome_getElem?, Option.isSome_iff_exists, List.mem_map]
  constructor
  · intro hk
    obtain ⟨v, hv⟩ := hk
    exact ⟨(k, v), (h.entries k v).mp hv, rfl⟩
  · intro hk
    obtain ⟨e, he, rfl⟩ := hk
    exact ⟨e.2, (h.entries e.1 e.2).mpr he⟩

theorem mem_order (h : Holds q live) {k : κ} (hk : k ∈ q.entries) : k ∈ q.order := by
  have hmem := h.mem_iff.mp hk
  rw [← h.keys] at hmem
  exact List.mem_of_mem_filter hmem

theorem perm (h : Holds q live) : q.entries.toList.Perm live := by
  refine (List.perm_ext_iff_of_nodup (nodup_toList _) (List.Nodup.of_map _ h.nodup_keys)).mpr ?_
  intro e
  rw [ExtTreeMap.mem_toList_iff_getElem?_eq_some, h.entries]

theorem size (h : Holds q live) : q.entries.size = live.length := by
  rw [← ExtTreeMap.length_toList, h.perm.length_eq]

/-- The queue is as long as the map, but for its stale keys. -/
theorem length_order (h : Holds q live) : q.order.length = q.entries.size + q.stale := by
  have hlive := congrArg List.length h.keys
  have hsplit := List.length_eq_length_filter_add (l := q.order) fun k => decide (k ∈ q.entries)
  have hstale : (q.order.filter fun k => !decide (k ∈ q.entries)).length = q.stale := by
    simp [stale]
  rw [hstale, hlive, List.length_map, ← h.size] at hsplit
  exact hsplit

/-! ### Removal -/

/-- Removing an entry takes it from the live ones. -/
theorem erase (h : Holds q live) (k : κ) :
    Holds ⟨q.entries.erase k, q.order⟩ (live.filter fun e => decide (e.1 ≠ k)) where
  keys := by
    have hmem : ∀ x, decide (x ∈ q.entries.erase k)
        = (decide (x ∈ q.entries) && decide (x ≠ k)) := by
      intro x
      rw [Bool.eq_iff_iff, Bool.and_eq_true, decide_eq_true_iff, decide_eq_true_iff,
        decide_eq_true_iff, ExtTreeMap.mem_erase, ne_eq, compare_eq_iff_eq, and_comm, eq_comm]
    simp only [hmem]
    rw [← List.filter_filter, List.filter_comm, h.keys, List.filter_map]
    rfl
  entries := by
    intro x v
    rw [ExtTreeMap.getElem?_erase]
    by_cases hx : k = x
    · subst hx
      simp
    · have hx' : x ≠ k := fun heq => hx heq.symm
      simp [hx, hx', h.entries]
  nodup := h.nodup

theorem perm_getElem? (h : Holds q live) (k : κ) :
    q.entries[k]?.toList.Perm ((live.filter fun e => decide (e.1 = k)).map Prod.snd) := by
  have hlive : (live.filter fun e => decide (e.1 = k)).Perm
      (q.entries.toList.filter fun e => decide (e.1 = k)) := (h.perm.filter _).symm
  rw [toList_filter_key] at hlive
  have hvalues := hlive.symm.map Prod.snd
  cases hk : q.entries[k]? with
  | none => simpa [hk] using hvalues
  | some v => simpa [hk] using hvalues

theorem removeAll (h : Holds q live) (ks : List κ) :
    Holds ⟨(removeAll ks q.entries).2, q.order⟩ (live.filter fun e => decide (e.1 ∉ ks))
      ∧ (LazyQueue.removeAll ks q.entries).1.Perm
          ((live.filter fun e => decide (e.1 ∈ ks)).map Prod.snd) := by
  obtain ⟨entries, order⟩ := q
  induction ks generalizing entries live with
  | nil =>
      refine ⟨?_, by simp [LazyQueue.removeAll]⟩
      simpa [LazyQueue.removeAll] using h
  | cons k ks ih =>
      obtain ⟨hrest, hremoved⟩ := ih (entries.erase k) (h.erase k)
      have hkept : (live.filter fun e => decide (e.1 ≠ k)).filter (fun e => decide (e.1 ∉ ks))
          = live.filter fun e => decide (e.1 ∉ k :: ks) := by
        rw [List.filter_filter]
        apply List.filter_congr
        intro e _
        by_cases he : e.1 = k <;> simp [he]
      refine ⟨hkept ▸ hrest, ?_⟩
      have hfirst := h.perm_getElem? k
      have hsplit : ((live.filter fun e => decide (e.1 = k))
          ++ (live.filter fun e => decide (e.1 ≠ k)).filter (fun e => decide (e.1 ∈ ks))).Perm
          (live.filter fun e => decide (e.1 ∈ k :: ks)) := by
        have hperm := List.filter_append_perm (fun e : κ × β => decide (e.1 = k))
          (live.filter fun e => decide (e.1 ∈ k :: ks))
        rw [List.filter_filter, List.filter_filter] at hperm
        rw [List.filter_filter]
        refine (List.Perm.of_eq ?_).trans hperm
        congr 1
        · apply List.filter_congr
          intro e _
          by_cases he : e.1 = k <;> simp [he]
        · apply List.filter_congr
          intro e _
          by_cases he : e.1 = k <;> simp [he]
      have hvalues := hsplit.map Prod.snd
      rw [List.map_append] at hvalues
      exact (hfirst.append hremoved).trans hvalues

/-! ### Eviction -/

theorem evict (h : Holds q live) :
    (evictOldest q.entries q.order).1 = live.head?.map Prod.snd
      ∧ Holds (evictOldest q.entries q.order).2 live.tail
      ∧ (evictOldest q.entries q.order).2.order <:+ q.order := by
  obtain ⟨entries, order⟩ := q
  induction order generalizing live with
  | nil =>
      have hnil : live = [] := by
        have hkeys := h.keys
        simpa using hkeys.symm
      subst hnil
      exact ⟨rfl, h, List.suffix_rfl⟩
  | cons k order ih =>
      cases hk : entries[k]? with
      | none =>
          -- a stale key is skipped
          have hnot : k ∉ entries := by
            rw [ExtTreeMap.mem_iff_isSome_getElem?, hk]
            simp
          have hkeys := h.keys
          simp only [List.filter_cons, hnot, decide_false, Bool.false_eq_true, if_false] at hkeys
          obtain ⟨hout, hrest, hsuffix⟩ := ih ⟨hkeys, h.entries, h.nodup.of_cons⟩
          simp only [evictOldest, hk]
          exact ⟨hout, hrest, hsuffix.trans (List.suffix_cons k order)⟩
      | some v =>
          have hin : k ∈ entries := by
            rw [ExtTreeMap.mem_iff_isSome_getElem?, hk]
            rfl
          have hkeys := h.keys
          simp only [List.filter_cons, hin, decide_true, if_true] at hkeys
          cases live with
          | nil => cases hkeys
          | cons e rest =>
              obtain ⟨hhead, htail⟩ := List.cons.inj hkeys
              have hnodup := List.nodup_cons.mp h.nodup_keys
              have hv : v = e.2 := by
                have hmem := (h.entries k e.2).mpr (by rw [hhead]; exact List.mem_cons_self)
                exact Option.some.inj (hk.symm.trans hmem)
              have herased := h.erase k
              have hkept : (e :: rest).filter (fun x => decide (x.1 ≠ k)) = rest := by
                rw [List.filter_cons_of_neg (by simp [hhead]), List.filter_eq_self]
                intro x hx
                have hne : x.1 ≠ k := by
                  intro heq
                  exact hnodup.1 (hhead ▸ heq ▸ List.mem_map_of_mem hx)
                simpa using hne
              rw [hkept] at herased
              simp only [evictOldest, hk]
              refine ⟨by rw [hv]; rfl, ⟨?_, herased.entries, h.nodup.of_cons⟩,
                List.suffix_cons k order⟩
              have hfiltered := herased.keys
              rwa [List.filter_cons_of_neg (by simp)] at hfiltered

/-- A new entry goes to the end, after an eviction if the map is full. -/
theorem put_fresh (h : Holds q live) (bound : ℕ) {k : κ} (v : β) (hk : k ∉ q.order) :
    (put bound q k v).1 = (if bound ≤ live.length then live.head?.map Prod.snd else none)
      ∧ Holds (put bound q k v).2
          ((if bound ≤ live.length then live.tail else live) ++ [(k, v)])
      ∧ ∀ x ∈ (put bound q k v).2.order, x ∈ q.order ∨ x = k := by
  have hnot : k ∉ q.entries := fun hin => hk (h.mem_order hin)
  have hcontains : ¬ q.entries.contains k = true := by simpa using hnot
  -- appending to a queue that does not know the key
  have happend : ∀ {q' : LazyQueue κ β} {live'}, Holds q' live' → k ∉ q'.order →
      Holds ⟨q'.entries.insert k v, q'.order ++ [k]⟩ (live' ++ [(k, v)]) := by
    intro q' live' h' hk'
    have hnot' : k ∉ q'.entries := fun hin => hk' (h'.mem_order hin)
    refine ⟨?_, ?_, ?_⟩
    · have hsame : q'.order.filter (fun x => decide (x ∈ q'.entries.insert k v))
          = q'.order.filter fun x => decide (x ∈ q'.entries) := by
        apply List.filter_congr
        intro x hx
        have hne : k ≠ x := fun heq => hk' (heq ▸ hx)
        simp [ExtTreeMap.mem_insert, hne]
      rw [List.filter_append, hsame, h'.keys, List.map_append]
      simp
    · intro x w
      rw [List.mem_append, ← h'.entries]
      simp only [ExtTreeMap.getElem?_insert, compare_eq_iff_eq, List.mem_singleton, Prod.mk.injEq]
      by_cases hx : k = x
      · subst hx
        have hnone : q'.entries[k]? = none := by simpa using hnot'
        simp [hnone, eq_comm]
      · have hx' : x ≠ k := fun heq => hx heq.symm
        simp [hx, hx']
    · rw [List.nodup_append]
      refine ⟨h'.nodup, List.nodup_singleton k, ?_⟩
      intro x hx y hy heq
      rw [List.mem_singleton] at hy
      exact hk' (hy ▸ heq ▸ hx)
  rw [put, if_neg hcontains, h.size]
  by_cases hfull : bound ≤ live.length
  · obtain ⟨hout, hrest, hsuffix⟩ := h.evict
    simp only [if_pos hfull]
    refine ⟨hout, happend hrest fun hin => hk (hsuffix.subset hin), ?_⟩
    intro x hx
    rcases List.mem_append.mp hx with hx | hx
    · exact Or.inl (hsuffix.subset hx)
    · exact Or.inr (List.mem_singleton.mp hx)
  · simp only [if_neg hfull]
    refine ⟨trivial, happend h hk, ?_⟩
    intro x hx
    rcases List.mem_append.mp hx with hx | hx
    · exact Or.inl hx
    · exact Or.inr (List.mem_singleton.mp hx)

/-- A known entry is replaced where it stands. -/
theorem put_known (h : Holds q live) (bound : ℕ) {k : κ} (v : β) (hk : k ∈ q.entries) :
    (put bound q k v).2.order = q.order
      ∧ Holds (put bound q k v).2 (live.map fun e => if e.1 = k then (k, v) else e) := by
  have hcontains : q.entries.contains k = true := by simpa using hk
  have hkeep : ∀ x, x ∈ q.entries.insert k v ↔ x ∈ q.entries := by
    intro x
    rw [ExtTreeMap.mem_insert, compare_eq_iff_eq]
    constructor
    · intro hx
      rcases hx with rfl | hx
      · exact hk
      · exact hx
    · exact Or.inr
  rw [put, if_pos hcontains]
  refine ⟨rfl, ?_, ?_, h.nodup⟩
  · simp only [hkeep]
    rw [h.keys, List.map_map]
    apply List.map_congr_left
    intro e _
    by_cases he : e.1 = k <;> simp [he]
  · intro x w
    rw [ExtTreeMap.getElem?_insert, List.mem_map]
    by_cases hx : k = x
    · subst hx
      obtain ⟨e, he, hek⟩ := List.mem_map.mp (h.mem_iff.mp hk)
      rw [if_pos (compare_eq_iff_eq.mpr rfl), Option.some.injEq]
      constructor
      · intro hvw
        exact ⟨e, he, by rw [if_pos hek, hvw]⟩
      · intro hmem
        obtain ⟨e', -, heq⟩ := hmem
        by_cases he' : e'.1 = k
        · rw [if_pos he'] at heq
          exact congrArg Prod.snd heq
        · rw [if_neg he'] at heq
          exact absurd (congrArg Prod.fst heq) he'
    · rw [if_neg (by simpa using hx), h.entries]
      constructor
      · intro hmem
        exact ⟨(x, w), hmem, by rw [if_neg fun heq => hx heq.symm]⟩
      · intro hmem
        obtain ⟨e, he, heq⟩ := hmem
        by_cases hek : e.1 = k
        · rw [if_pos hek] at heq
          exact absurd (congrArg Prod.fst heq) hx
        · rw [if_neg hek] at heq
          exact heq ▸ he

/-- If nothing else removes entries, the queue has no stale key. -/
theorem put_exact (h : Holds q live) (hstale : q.stale = 0) {bound : ℕ} (hpos : 0 < bound)
    (hlen : live.length ≤ bound) (k : κ) (v : β) :
    ∃ live', Holds (put bound q k v).2 live' ∧ (put bound q k v).2.stale = 0
      ∧ live'.length ≤ bound := by
  by_cases hk : k ∈ q.entries
  · obtain ⟨horder, hnext⟩ := h.put_known bound v hk
    have hlength := hnext.length_order
    rw [horder, h.length_order, hstale, hnext.size, h.size, List.length_map] at hlength
    exact ⟨_, hnext, by omega, by simpa using hlen⟩
  · have hfresh : k ∉ q.order := by
      intro hmem
      have hnil := List.length_eq_zero_iff.mp hstale
      exact List.filter_eq_nil_iff.mp hnil k hmem (by simpa using hk)
    obtain ⟨-, hnext, -⟩ := h.put_fresh bound v hfresh
    have hlength := hnext.length_order
    have hqueue : (put bound q k v).2.order.length ≤ (put bound q k v).2.entries.size := by
      have hnot : ¬ q.entries.contains k = true := by simpa using hk
      have horder := h.length_order
      rw [hstale, h.size] at horder
      rw [hnext.size, put, if_neg hnot, h.size]
      by_cases hfull : bound ≤ live.length
      · have hne : q.order ≠ [] := List.ne_nil_of_length_pos (by omega)
        have hpop := evictOldest_length q.entries hne
        simp only [if_pos hfull, List.length_append, List.length_tail, List.length_singleton]
        omega
      · simp only [if_neg hfull, List.length_append, List.length_singleton]
        omega
    refine ⟨_, hnext, by omega, ?_⟩
    by_cases hfull : bound ≤ live.length
    · simp only [if_pos hfull, List.length_append, List.length_tail, List.length_singleton]
      omega
    · simp only [if_neg hfull, List.length_append, List.length_singleton]
      omega

end Holds

/-! ## How many keys grow stale

An eviction pops the oldest live key and all before it. So a stale key leaves the queue with the
last live one that stands before it, if not earlier, and if few keys grow stale between two
evictions, few stale keys are there. -/

/-- The stale keys behind any part of the queue: a few recent ones, and at most `age` for each of
`bound` entries that is not live in that part. -/
def Within (bound age recent : ℕ) (q : LazyQueue κ β) : Prop :=
  ∀ front back, q.order = front ++ back →
    back.countP (fun k => decide (k ∉ q.entries))
        + age * front.countP (fun k => decide (k ∈ q.entries)) ≤ recent + age * bound

section Within

variable {bound age recent : ℕ}

theorem within_empty : Within bound age 0 (⟨∅, []⟩ : LazyQueue κ β) := by
  intro front back horder
  obtain ⟨rfl, rfl⟩ := List.append_eq_nil_iff.mp horder.symm
  simp

theorem Within.stale_le (h : Within bound age recent q) : q.stale ≤ recent + age * bound := by
  have hall := h [] q.order rfl
  rw [List.countP_eq_length_filter] at hall
  exact hall

theorem countP_not_mem_erase {l : List κ} (hnodup : l.Nodup) (entries : ExtTreeMap κ β) (k : κ) :
    l.countP (fun x => decide (x ∉ entries.erase k))
      ≤ l.countP (fun x => decide (x ∉ entries)) + entries[k]?.toList.length := by
  induction l with
  | nil => simp
  | cons a l ih =>
      obtain ⟨ha, hl⟩ := List.nodup_cons.mp hnodup
      have hrest := ih hl
      by_cases hak : a = k
      · subst hak
        -- the key itself is not among the rest
        have hsame : l.countP (fun x => decide (x ∉ entries.erase a))
            = l.countP fun x => decide (x ∉ entries) := by
          refine List.countP_congr ?_
          intro x hx
          have hne : a ≠ x := fun heq => ha (heq ▸ hx)
          simp [ExtTreeMap.mem_erase, hne]
        rw [List.countP_cons, List.countP_cons, hsame]
        cases hget : entries[a]? with
        | none =>
            have hnot : a ∉ entries := by simpa using hget
            simp [hnot]
        | some v =>
            have hin : a ∈ entries := ExtTreeMap.mem_iff_isSome_getElem?.mpr (by simp [hget])
            simp [hin]
      · have hne : k ≠ a := fun heq => hak heq.symm
        have hsame : a ∈ entries.erase k ↔ a ∈ entries := by
          simp [ExtTreeMap.mem_erase, hne]
        rw [List.countP_cons, List.countP_cons]
        simp only [hsame]
        omega

/-- A removal makes at most its key stale. -/
theorem Within.erase (h : Within bound age recent q) (hnodup : q.order.Nodup) (k : κ) :
    Within bound age (recent + q.entries[k]?.toList.length) ⟨q.entries.erase k, q.order⟩ := by
  intro front back horder
  have hold := h front back horder
  have hlive : front.countP (fun x => decide (x ∈ q.entries.erase k))
      ≤ front.countP fun x => decide (x ∈ q.entries) := by
    refine List.countP_mono_left ?_
    intro x _ hx
    exact decide_eq_true (ExtTreeMap.mem_of_mem_erase (of_decide_eq_true hx))
  have hstale : back.countP (fun x => decide (x ∉ q.entries.erase k))
      ≤ back.countP (fun x => decide (x ∉ q.entries)) + q.entries[k]?.toList.length :=
    countP_not_mem_erase (horder ▸ hnodup).of_append_right q.entries k
  have hage := Nat.mul_le_mul_left age hlive
  simp only
  omega

/-- Removals make at most their keys stale. -/
theorem Within.removeAll (h : Within bound age recent q) (hnodup : q.order.Nodup) (ks : List κ) :
    Within bound age (recent + (LazyQueue.removeAll ks q.entries).1.length)
      ⟨(LazyQueue.removeAll ks q.entries).2, q.order⟩ := by
  obtain ⟨entries, order⟩ := q
  induction ks generalizing entries recent with
  | nil => exact h
  | cons k ks ih =>
      have hrest := ih (entries.erase k) (h.erase hnodup k) hnodup
      simpa only [LazyQueue.removeAll, List.length_append, Nat.add_assoc] using hrest

/-- An eviction pops a part of the queue with a live key, and what is left stays as it was. -/
theorem Holds.evict_split (h : Holds q live) (hlive : live ≠ []) :
    ∃ popped, q.order = popped ++ (evictOldest q.entries q.order).2.order
      ∧ 0 < popped.countP (fun k => decide (k ∈ q.entries))
      ∧ ∀ k ∈ (evictOldest q.entries q.order).2.order,
          k ∈ (evictOldest q.entries q.order).2.entries ↔ k ∈ q.entries := by
  obtain ⟨entries, order⟩ := q
  induction order generalizing live with
  | nil =>
      have hkeys := h.keys
      exact absurd (List.map_eq_nil_iff.mp hkeys.symm) hlive
  | cons k order ih =>
      cases hk : entries[k]? with
      | none =>
          have hnot : k ∉ entries := by simpa using hk
          have hkeys := h.keys
          simp only [List.filter_cons, hnot, decide_false, Bool.false_eq_true, if_false] at hkeys
          have hrest : Holds ⟨entries, order⟩ live := ⟨hkeys, h.entries, h.nodup.of_cons⟩
          obtain ⟨popped, horder, hpos, hsame⟩ := ih hlive hrest
          simp only [evictOldest, hk]
          refine ⟨k :: popped, ?_, ?_, hsame⟩
          · rw [List.cons_append, ← horder]
          · rw [List.countP_cons]
            exact hpos.trans_le (Nat.le_add_right _ _)
      | some v =>
          have hin : k ∈ entries := ExtTreeMap.mem_iff_isSome_getElem?.mpr (by simp [hk])
          simp only [evictOldest, hk]
          refine ⟨[k], rfl, by simp [hin], ?_⟩
          intro x hx
          have hne : k ≠ x := fun heq => (List.nodup_cons.mp h.nodup).1 (heq ▸ hx)
          simp [ExtTreeMap.mem_erase, hne]

theorem countP_congr_mem {l : List κ} {entries entries' : ExtTreeMap κ β}
    (h : ∀ k ∈ l, k ∈ entries' ↔ k ∈ entries) :
    l.countP (fun k => decide (k ∈ entries')) = l.countP (fun k => decide (k ∈ entries))
      ∧ l.countP (fun k => decide (k ∉ entries')) = l.countP fun k => decide (k ∉ entries) :=
  ⟨List.countP_congr fun k hk => by simp [h k hk], List.countP_congr fun k hk => by simp [h k hk]⟩

/-- A new key at the end of the queue. -/
theorem Within.append (h : Within bound age recent q) {k : κ} (v : β) (hk : k ∉ q.order)
    (hlive : q.order.countP (fun x => decide (x ∈ q.entries)) < bound) :
    Within bound age recent ⟨q.entries.insert k v, q.order ++ [k]⟩ := by
  have hsame : ∀ x ∈ q.order, x ∈ q.entries.insert k v ↔ x ∈ q.entries := by
    intro x hx
    have hne : k ≠ x := fun heq => hk (heq ▸ hx)
    simp [ExtTreeMap.mem_insert, hne]
  intro front back horder
  simp only at horder ⊢
  rcases List.eq_nil_or_concat' back with rfl | ⟨back, last, rfl⟩
  · -- the whole queue is in front
    rw [List.append_nil] at horder
    rw [← horder, List.countP_append, (countP_congr_mem hsame).1, List.countP_nil]
    have hage : age * (q.order.countP (fun x => decide (x ∈ q.entries))
        + [k].countP fun x => decide (x ∈ q.entries.insert k v)) ≤ age * bound := by
      refine Nat.mul_le_mul_left age ?_
      have hone :=
        List.countP_le_length (p := fun x => decide (x ∈ q.entries.insert k v)) (l := [k])
      rw [List.length_singleton] at hone
      omega
    omega
  · rw [← List.append_assoc] at horder
    obtain ⟨hinit, hlast⟩ := List.append_inj' horder rfl
    obtain rfl : k = last := by simpa using hlast
    have hold := h front back hinit
    rw [hinit] at hsame
    rw [List.countP_append,
      (countP_congr_mem fun x hx => hsame x (List.mem_append_right front hx)).2,
      (countP_congr_mem fun x hx => hsame x (List.mem_append_left back hx)).1]
    simpa using hold

/-- Where at most `age` keys grow stale between two evictions, the stale keys stay within. -/
theorem Within.put_fresh (h : Within bound age recent q) (hholds : Holds q live)
    (hpos : 0 < bound) (hlen : live.length ≤ bound) (hrecent : bound ≤ live.length → recent ≤ age)
    {k : κ} (v : β) (hk : k ∉ q.order) :
    Within bound age (if bound ≤ live.length then 0 else recent) (put bound q k v).2 := by
  have hnot : ¬ q.entries.contains k = true := by
    intro hin
    exact hk (hholds.mem_order (by simpa using hin))
  have hcount : ∀ {q' : LazyQueue κ β} {live'}, Holds q' live' →
      q'.order.countP (fun x => decide (x ∈ q'.entries)) = live'.length := by
    intro q' live' h'
    rw [List.countP_eq_length_filter, h'.keys, List.length_map]
  rw [put, if_neg hnot, hholds.size]
  by_cases hfull : bound ≤ live.length
  · have hne : live ≠ [] := List.ne_nil_of_length_pos (by omega)
    obtain ⟨popped, horder, hpopped, hsame⟩ := hholds.evict_split hne
    obtain ⟨-, hrest, hsuffix⟩ := hholds.evict
    simp only [if_pos hfull]
    -- the eviction makes room for as many stale keys as may have come since the last one
    have hevicted : Within bound age 0 (evictOldest q.entries q.order).2 := by
      intro front back hsplit
      have hold := h (popped ++ front) back (by rw [List.append_assoc, ← hsplit, ← horder])
      rw [hsplit] at hsame
      rw [(countP_congr_mem fun x hx => hsame x (List.mem_append_right front hx)).2,
        (countP_congr_mem fun x hx => hsame x (List.mem_append_left back hx)).1]
      rw [List.countP_append, Nat.mul_add] at hold
      have hroom := Nat.le_mul_of_pos_right age hpopped
      have hbefore := hrecent hfull
      omega
    refine hevicted.append v (fun hin => hk (hsuffix.subset hin)) ?_
    rw [hcount hrest, List.length_tail]
    omega
  · simp only [if_neg hfull]
    refine h.append v hk ?_
    rw [hcount hholds]
    omega

end Within

end LazyQueue

end Cawala.Library
