import Cawala.Verification.Replay

/-! # What a seen set remembers

The windows of a seen set after any calls, and the history that each remembered message has:
recorded once, and since then not rolled back, not pushed out by newer messages, and of an origin
that was not evicted. -/

namespace Cawala

/-! ## Windows -/

section

variable {κ : Type} [DecidableEq κ]

/-- A window within its bound: an ordered duplicate-free list and the same as a set. -/
structure OriginWindow.Exact (w : OriginWindow κ) (maxPerOrigin : ℕ) : Prop where
  set_eq : w.set = w.order.toFinset
  nodup : w.order.Nodup
  bounded : w.order.length ≤ maxPerOrigin
  nonempty : w.order ≠ []

namespace OriginWindow

variable {w : OriginWindow κ} {max : ℕ} {id : MsgId}

omit [DecidableEq κ] in
theorem Exact.mem_set (h : w.Exact max) : id ∈ w.set ↔ id ∈ w.order := by
  rw [h.set_eq, List.mem_toFinset]

omit [DecidableEq κ] in
theorem Exact.touch (h : w.Exact max) (now : UInt64) : ({ w with lastTouch := now }).Exact max :=
  ⟨h.set_eq, h.nodup, h.bounded, h.nonempty⟩

omit [DecidableEq κ] in
/-- The order after a fresh id: at the bound the oldest id goes. -/
theorem record_order (w : OriginWindow κ) (max : ℕ) (id : MsgId) :
    (w.record max id).order
      = if w.order.length + 1 > max then (w.order ++ [id]).tail else w.order ++ [id] := by
  unfold record
  simp only [List.length_append, List.length_singleton]
  split_ifs with hfull
  · cases horder : w.order with
    | nil => rfl
    | cons old rest => rfl
  · rfl

omit [DecidableEq κ] in
theorem record_lastTouch (w : OriginWindow κ) (max : ℕ) (id : MsgId) :
    (w.record max id).lastTouch = w.lastTouch := by
  unfold record
  simp only
  split_ifs
  · split <;> rfl
  · rfl

omit [DecidableEq κ] in
theorem Exact.record (h : w.Exact max) (hid : id ∉ w.set) :
    (w.record max id).Exact max := by
  have hfresh : id ∉ w.order := fun hmem => hid (h.mem_set.mpr hmem)
  have hlen := h.bounded
  unfold OriginWindow.record
  simp only [List.length_append, List.length_singleton]
  split_ifs with hfull
  · cases horder : w.order with
    | nil => exact absurd horder h.nonempty
    | cons old rest =>
        have hset := h.set_eq
        have hnodup := h.nodup
        rw [horder] at hfresh hlen hset hnodup
        obtain ⟨hold, hrest⟩ := List.nodup_cons.mp hnodup
        obtain ⟨hne, hidrest⟩ := not_or.mp (List.mem_cons.not.mp hfresh)
        refine ⟨?_, ?_, ?_, ?_⟩
        · simp only [List.cons_append]
          ext y
          simp only [hset, Finset.mem_erase, Finset.mem_insert, List.mem_toFinset, List.mem_cons,
            List.mem_append, List.not_mem_nil, or_false]
          constructor
          · intro hy
            tauto
          · intro hy
            refine ⟨?_, by tauto⟩
            rintro rfl
            rcases hy with hy | hy
            · exact hold hy
            · exact hne hy.symm
        · exact List.nodup_append.mpr ⟨hrest, List.nodup_singleton id, by
            intro a ha b hb
            rw [List.mem_singleton.mp hb]
            rintro rfl
            exact hidrest ha⟩
        · simpa using hlen
        · exact List.append_ne_nil_of_right_ne_nil rest (List.cons_ne_nil id [])
  · refine ⟨?_, ?_, ?_, ?_⟩
    · simp only [h.set_eq]
      ext y
      simp
    · exact List.nodup_append.mpr ⟨h.nodup, List.nodup_singleton id, by
        intro a ha b hb
        rw [List.mem_singleton.mp hb]
        rintro rfl
        exact hfresh ha⟩
    · simp only [List.length_append, List.length_singleton]
      omega
    · simp

def without (w : OriginWindow κ) (id : MsgId) : OriginWindow κ :=
  { w with set := w.set.erase id, order := w.order.filter (· ≠ id) }

omit [DecidableEq κ] in
theorem Exact.without_of_notMem (h : w.Exact max) (hid : id ∉ w.set) : w.without id = w := by
  have hmem : id ∉ w.order := fun hmem => hid (h.mem_set.mpr hmem)
  have horder : w.order.filter (· ≠ id) = w.order := by
    apply List.filter_eq_self.mpr
    intro x hx
    simp only [ne_eq, decide_eq_true_eq]
    intro hxid
    exact hmem (hxid ▸ hx)
  rw [without, horder, Finset.erase_eq_of_notMem hid]

omit [DecidableEq κ] in
theorem Exact.without (h : w.Exact max) (hne : w.set.erase id ≠ ∅) :
    (w.without id).Exact max := by
  have hset : (w.without id).set = (w.without id).order.toFinset := by
    ext x
    simp [OriginWindow.without, h.set_eq, and_comm]
  refine ⟨hset, h.nodup.filter _, (List.length_filter_le _ _).trans h.bounded, ?_⟩
  intro hnil
  apply hne
  rw [hnil] at hset
  exact hset

end OriginWindow

/-! ## The windows after a call -/

namespace SeenSet

variable {s : SeenSet κ} {o : κ} {id : MsgId} {w : OriginWindow κ}

theorem window_eq_some (hs : s.Valid) : s.window o = some w ↔ w ∈ s.origins ∧ w.origin = o := by
  constructor
  · exact mem_of_window
  · intro h
    cases hwindow : s.window o with
    | none =>
        have hnone := List.find?_eq_none.mp hwindow w h.1
        simp [h.2] at hnone
    | some w' =>
        obtain ⟨hmem, horigin⟩ := mem_of_window hwindow
        rw [List.inj_on_of_nodup_map hs.distinct hmem h.1 (horigin.trans h.2.symm)]

theorem window_put_self {v : OriginWindow κ} (hs : s.Valid) (h : s.window w.origin = some v) :
    (s.put w).window w.origin = some w := by
  obtain ⟨hmem, horigin⟩ := mem_of_window h
  refine (window_eq_some (valid_put hs)).mpr ⟨?_, rfl⟩
  exact List.mem_map.mpr ⟨v, hmem, if_pos horigin⟩

theorem window_put_of_ne (hs : s.Valid) (h : o ≠ w.origin) :
    (s.put w).window o = s.window o := by
  ext v
  rw [window_eq_some (valid_put hs), window_eq_some hs]
  simp only [put, List.mem_map]
  constructor
  · intro hv
    obtain ⟨⟨v', hv', rfl⟩, rfl⟩ := hv
    by_cases horigin : v'.origin = w.origin
    · simp [horigin] at h
    · simp [horigin, hv']
  · intro hv
    obtain ⟨hv, rfl⟩ := hv
    exact ⟨⟨v, hv, if_neg h⟩, rfl⟩

/-- One call on a seen set. -/
inductive Call (κ : Type) where
  | observe (origin : κ) (id : MsgId)
  | unobserve (origin : κ) (id : MsgId)

def step (s : SeenSet κ) : Call κ → SeenSet κ
  | .observe origin id => (s.observe origin id).2
  | .unobserve origin id => s.unobserve origin id

def after (config : SeenConfig) (calls : List (Call κ)) : SeenSet κ :=
  calls.foldl step (new config)

theorem after_snoc (config : SeenConfig) (calls : List (Call κ)) (c : Call κ) :
    after config (calls ++ [c]) = (after config calls).step c := by
  rw [after, List.foldl_append]
  rfl

theorem config_step (s : SeenSet κ) (c : Call κ) : (s.step c).config = s.config := by
  cases c with
  | observe o id =>
      simp only [step, observe]
      split_ifs
      · rfl
      · split
        · split_ifs <;> rfl
        · rfl
  | unobserve o id =>
      simp only [step, unobserve]
      split
      · rfl
      · split_ifs <;> rfl

/-- Every window is within its bound, and so is their number. -/
structure Bounded (s : SeenSet κ) : Prop extends s.Valid where
  windows : ∀ w ∈ s.origins, w.Exact s.config.maxPerOrigin
  origins : s.origins.length ≤ s.config.maxOrigins

omit [DecidableEq κ] in
theorem bounded_new (config : SeenConfig) : (new config : SeenSet κ).Bounded :=
  ⟨valid_new config, by simp [new], by simp [new]⟩

theorem Bounded.put (hs : s.Bounded) (hw : w.Exact s.config.maxPerOrigin) :
    (s.put w).Bounded := by
  refine ⟨valid_put hs.toValid, ?_, ?_⟩
  · intro v hv
    obtain ⟨v', hv', rfl⟩ := List.mem_map.mp hv
    split_ifs
    · exact hw
    · exact hs.windows v' hv'
  · simpa [SeenSet.put] using hs.origins

omit [DecidableEq κ] in
theorem Bounded.filter (hs : s.Bounded) (p : OriginWindow κ → Bool) :
    ({ s with origins := s.origins.filter p }).Bounded := by
  refine ⟨⟨hs.distinct.sublist (List.filter_sublist.map _), ?_⟩, ?_, ?_⟩
  · intro hzero
    have hnil : s.origins = [] := hs.empty hzero
    simp [hnil]
  · intro v hv
    exact hs.windows v (List.mem_of_mem_filter hv)
  · exact (List.length_filter_le _ _).trans hs.origins

/-- The three ways of observing a message, where anything is tracked at all. -/
theorem observe_cases (hzero : s.config.isZero = false) (o : κ) (id : MsgId) :
    (∃ w, s.window o = some w ∧ id ∈ w.set ∧ s.observe o id = (.duplicate,
      { s with tick := s.tick + 1 }.put { w with lastTouch := s.tick + 1 }))
    ∨ (∃ w, s.window o = some w ∧ id ∉ w.set ∧ s.observe o id = (.fresh,
      { s with tick := s.tick + 1 }.put
        ({ w with lastTouch := s.tick + 1 }.record s.config.maxPerOrigin id)))
    ∨ (s.window o = none ∧ s.observe o id = (.fresh, { s with
        tick := s.tick + 1
        origins := s.makeRoom
          ++ [{ origin := o, set := {id}, order := [id], lastTouch := s.tick + 1 }] })) := by
  unfold observe
  rw [if_neg (by simp [hzero])]
  cases hwindow : s.window o with
  | none => exact Or.inr (Or.inr ⟨rfl, rfl⟩)
  | some w =>
      by_cases hid : id ∈ w.set
      · exact Or.inl ⟨w, rfl, hid, by simp [hid]⟩
      · exact Or.inr (Or.inl ⟨w, rfl, hid, by simp [hid]⟩)

/-- Room for a new origin: there is some, or the least recently touched origin goes. -/
theorem makeRoom_cases (hzero : s.config.isZero = false) :
    (s.origins.length < s.config.maxOrigins ∧ s.makeRoom = s.origins)
    ∨ (s.config.maxOrigins ≤ s.origins.length ∧ ∃ lru ∈ s.origins,
        (∀ w ∈ s.origins, lru.lastTouch.toNat ≤ w.lastTouch.toNat)
        ∧ s.makeRoom = s.origins.filter fun w => w.origin ≠ lru.origin) := by
  by_cases hfull : s.origins.length ≥ s.config.maxOrigins
  · right
    refine ⟨hfull, ?_⟩
    cases hmin : s.origins.argmin (·.lastTouch.toNat) with
    | none =>
        rw [List.argmin_eq_none] at hmin
        simp only [SeenConfig.isZero, Bool.or_eq_false_iff, beq_eq_false_iff_ne] at hzero
        simp only [hmin, List.length_nil] at hfull
        omega
    | some lru =>
        refine ⟨lru, List.argmin_mem hmin, ?_, ?_⟩
        · intro w hw
          exact List.le_of_mem_argmin (f := fun w : OriginWindow κ => w.lastTouch.toNat) hw hmin
        · rw [makeRoom, if_pos hfull, hmin]
  · left
    exact ⟨by omega, by rw [makeRoom, if_neg hfull]⟩

/-- The ways of taking a message back. -/
theorem unobserve_cases (hs : s.Bounded) (o : κ) (id : MsgId) :
    (s.window o = none ∧ s.unobserve o id = s)
    ∨ (∃ w, s.window o = some w ∧ w.set.erase id = ∅
        ∧ s.unobserve o id = { s with origins := s.origins.filter fun w' => w'.origin ≠ o })
    ∨ (∃ w, s.window o = some w ∧ w.set.erase id ≠ ∅
        ∧ s.unobserve o id = s.put (w.without id)) := by
  unfold unobserve
  cases hwindow : s.window o with
  | none => exact Or.inl ⟨rfl, rfl⟩
  | some w =>
      have hexact := hs.windows w (mem_of_window hwindow).1
      have hforget : (if id ∈ w.set then
          { w with set := w.set.erase id, order := w.order.filter (· ≠ id) } else w)
          = w.without id := by
        split_ifs with hid
        · rfl
        · exact (hexact.without_of_notMem hid).symm
      right
      simp only [hforget]
      by_cases hempty : w.set.erase id = ∅
      · exact Or.inl ⟨w, rfl, hempty, if_pos hempty⟩
      · exact Or.inr ⟨w, rfl, hempty, if_neg hempty⟩

theorem Bounded.step (hs : s.Bounded) (c : Call κ) : (s.step c).Bounded := by
  cases c with
  | observe o id =>
      cases hzero : s.config.isZero with
      | true => simpa [SeenSet.step, observe, hzero] using hs
      | false =>
          have htick : ({ s with tick := s.tick + 1 } : SeenSet κ).Bounded :=
            ⟨⟨hs.distinct, hs.empty⟩, hs.windows, hs.origins⟩
          have hwindow : ∀ {w}, s.window o = some w → w.Exact s.config.maxPerOrigin := fun h =>
            hs.windows _ (mem_of_window h).1
          rcases observe_cases hzero o id with ⟨w, hw, hid, heq⟩ | ⟨w, hw, hid, heq⟩ | ⟨hnone, heq⟩
          · rw [SeenSet.step, heq]
            exact htick.put ((hwindow hw).touch _)
          · rw [SeenSet.step, heq]
            exact htick.put (((hwindow hw).touch _).record hid)
          · have hvalid := (observe_spec o id hs.toValid).1
            have hroom := makeRoom_cases hzero
            rw [SeenSet.step]
            rw [heq] at hvalid ⊢
            simp only [SeenConfig.isZero, Bool.or_eq_false_iff, beq_eq_false_iff_ne] at hzero
            refine ⟨hvalid, ?_, ?_⟩
            · intro w hw
              rcases List.mem_append.mp hw with hw | hw
              · exact hs.windows w ((makeRoom_sublist s).subset hw)
              · rw [List.mem_singleton.mp hw]
                exact ⟨by simp, List.nodup_singleton id, by
                  simp only [List.length_singleton]
                  omega, by simp⟩
            · simp only [List.length_append, List.length_singleton]
              rcases hroom with ⟨hlt, hsame⟩ | ⟨-, lru, hlru, -, hfilter⟩
              · rw [hsame]
                omega
              · have hlt : s.makeRoom.length < s.origins.length := by
                  rw [hfilter]
                  exact List.length_filter_lt_length_iff_exists.mpr ⟨lru, hlru, by simp⟩
                have := hs.origins
                omega
  | unobserve o id =>
      rw [SeenSet.step]
      rcases unobserve_cases hs o id with ⟨-, heq⟩ | ⟨w, -, -, heq⟩ | ⟨w, hwindow, hne, heq⟩
      · rw [heq]
        exact hs
      · rw [heq]
        exact hs.filter _
      · rw [heq]
        exact hs.put ((hs.windows w (mem_of_window hwindow).1).without hne)

theorem bounded_after (config : SeenConfig) (calls : List (Call κ)) :
    (after config calls).Bounded ∧ (after config calls).config = config := by
  induction calls using List.reverseRecOn with
  | nil => exact ⟨bounded_new config, rfl⟩
  | append_singleton calls c ih =>
      rw [after_snoc]
      exact ⟨ih.1.step c, (config_step _ c).trans ih.2⟩

end SeenSet

end

end Cawala
