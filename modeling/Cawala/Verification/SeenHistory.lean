import Cawala.Verification.SeenWindows

/-! # The history of a remembered message

A message is remembered exactly when a call recorded it and no later call made the set forget it:
by taking it back, by pushing it out of its full window, or by evicting the origin that was touched
least recently. -/

namespace Cawala.SeenSet

variable {κ : Type} [DecidableEq κ] {s : SeenSet κ} {config : SeenConfig}
  {calls start later : List (Call κ)} {o a b : κ} {id x y : MsgId} {c : Call κ}

/-! ## Order of touches -/

def observations : List (Call κ) → ℕ
  | [] => 0
  | .observe _ _ :: calls => observations calls + 1
  | .unobserve _ _ :: calls => observations calls

omit [DecidableEq κ] in
theorem observations_append (calls later : List (Call κ)) :
    observations (calls ++ later) = observations calls + observations later := by
  induction calls with
  | nil => simp [observations]
  | cons c calls ih =>
      cases c with
      | observe o id =>
          simp only [List.cons_append, observations, ih]
          omega
      | unobserve o id => simp only [List.cons_append, observations, ih]

/-- A call that touches an origin: an observation of one of its messages. -/
def Call.Touches (c : Call κ) (o : κ) : Prop := ∃ x, c = .observe o x

/-- A message of `b` was observed after the last one of `a`. -/
def TouchedSince (calls : List (Call κ)) (a b : κ) : Prop :=
  ∃ l r, calls = l ++ r ∧ (∀ c ∈ r, ¬ c.Touches a) ∧ ∃ c ∈ r, c.Touches b

omit [DecidableEq κ] in
theorem Call.touches_observe : (Call.observe o x).Touches a ↔ a = o := by
  constructor
  · intro h
    obtain ⟨y, hy⟩ := h
    injection hy with ho
    exact ho.symm
  · intro h
    exact ⟨x, by rw [h]⟩

omit [DecidableEq κ] in
theorem Call.not_touches_unobserve : ¬ (Call.unobserve o x).Touches a := by
  intro h
  obtain ⟨y, hy⟩ := h
  cases hy

omit [DecidableEq κ] in
theorem touchedSince_snoc (hne : a ≠ b) :
    TouchedSince (calls ++ [c]) a b ↔ c.Touches b ∨ (¬ c.Touches a ∧ TouchedSince calls a b) := by
  constructor
  · intro h
    obtain ⟨l, r, heq, hnone, d, hd, hb⟩ := h
    cases r using List.reverseRecOn with
    | nil => cases hd
    | append_singleton r e =>
        rw [← List.append_assoc] at heq
        obtain ⟨hcalls, hlast⟩ := List.append_inj' heq rfl
        obtain rfl : c = e := by simpa using hlast
        rcases List.mem_append.mp hd with hd | hd
        · exact Or.inr ⟨hnone c (by simp), l, r, hcalls,
            fun e he => hnone e (List.mem_append_left _ he), d, hd, hb⟩
        · rw [List.mem_singleton.mp hd] at hb
          exact Or.inl hb
  · intro h
    rcases h with hb | ⟨ha, l, r, rfl, hnone, d, hd, hb⟩
    · refine ⟨calls, [c], rfl, ?_, c, by simp, hb⟩
      intro d hd ha
      rw [List.mem_singleton.mp hd] at ha
      obtain ⟨x, rfl⟩ := ha
      exact hne (Call.touches_observe.mp hb).symm
    · refine ⟨l, r ++ [c], by simp, ?_, d, List.mem_append_left _ hd, hb⟩
      intro e he
      rcases List.mem_append.mp he with he | he
      · exact hnone e he
      · rw [List.mem_singleton.mp he]
        exact ha

/-- The counter counts the observations, and the windows are ordered by their last ones. -/
structure Clocked (s : SeenSet κ) (calls : List (Call κ)) : Prop where
  tick : s.tick.toNat = observations calls
  touched : ∀ w ∈ s.origins, w.lastTouch.toNat ≤ observations calls
  order : ∀ w ∈ s.origins, ∀ v ∈ s.origins, w.origin ≠ v.origin →
    (w.lastTouch.toNat < v.lastTouch.toNat ↔ TouchedSince calls w.origin v.origin)
  distinct : ∀ w ∈ s.origins, ∀ v ∈ s.origins, w.origin ≠ v.origin →
    w.lastTouch.toNat ≠ v.lastTouch.toNat

/-- The windows after an observation: the origin's own is touched now, the others are as before. -/
theorem mem_origins_observe (hs : s.Valid) (hzero : s.config.isZero = false) {w : OriginWindow κ}
    (hw : w ∈ (s.observe o x).2.origins) :
    (w.origin = o ∧ w.lastTouch = s.tick + 1) ∨ (w.origin ≠ o ∧ w ∈ s.origins) := by
  have hput : ∀ v : OriginWindow κ, v.origin = o → v.lastTouch = s.tick + 1 →
      w ∈ (({ s with tick := s.tick + 1 } : SeenSet κ).put v).origins →
      (w.origin = o ∧ w.lastTouch = s.tick + 1) ∨ (w.origin ≠ o ∧ w ∈ s.origins) := by
    intro v horigin htouch hmem
    obtain ⟨w', hw', rfl⟩ := List.mem_map.mp hmem
    by_cases heq : w'.origin = v.origin
    · left
      rw [if_pos heq]
      exact ⟨horigin, htouch⟩
    · right
      rw [if_neg heq]
      exact ⟨horigin ▸ heq, hw'⟩
  rcases observe_cases hzero o x with ⟨v, hv, -, heq⟩ | ⟨v, hv, -, heq⟩ | ⟨hnone, heq⟩
  · rw [heq] at hw
    exact hput { v with lastTouch := s.tick + 1 } (mem_of_window hv).2 rfl hw
  · rw [heq] at hw
    refine hput _ ?_ ?_ hw
    · rw [record_origin]
      exact (mem_of_window hv).2
    · rw [OriginWindow.record_lastTouch]
  · rw [heq] at hw
    rcases List.mem_append.mp hw with hw | hw
    · have hmem := (makeRoom_sublist s).subset hw
      refine Or.inr ⟨?_, hmem⟩
      intro horigin
      have hsome := (window_eq_some hs).mpr ⟨hmem, horigin⟩
      rw [hnone] at hsome
      cases hsome
    · rw [List.mem_singleton.mp hw]
      exact Or.inl ⟨rfl, rfl⟩

/-- Taking a message back touches no window. -/
theorem mem_origins_unobserve (hs : s.Bounded) {w : OriginWindow κ}
    (hw : w ∈ (s.unobserve o x).origins) :
    ∃ v ∈ s.origins, w.origin = v.origin ∧ w.lastTouch = v.lastTouch := by
  rcases unobserve_cases hs o x with ⟨-, heq⟩ | ⟨v, -, -, heq⟩ | ⟨v, hv, -, heq⟩
  · rw [heq] at hw
    exact ⟨w, hw, rfl, rfl⟩
  · rw [heq] at hw
    exact ⟨w, List.mem_of_mem_filter hw, rfl, rfl⟩
  · rw [heq] at hw
    obtain ⟨w', hw', rfl⟩ := List.mem_map.mp hw
    split_ifs
    · exact ⟨v, (mem_of_window hv).1, rfl, rfl⟩
    · exact ⟨w', hw', rfl, rfl⟩

theorem tick_observe (hzero : s.config.isZero = false) :
    (s.observe o x).2.tick = s.tick + 1 := by
  rcases observe_cases hzero o x with ⟨v, -, -, heq⟩ | ⟨v, -, -, heq⟩ | ⟨-, heq⟩
  · rw [heq]; rfl
  · rw [heq]; rfl
  · rw [heq]

theorem tick_unobserve (hs : s.Bounded) : (s.unobserve o x).tick = s.tick := by
  rcases unobserve_cases hs o x with ⟨-, heq⟩ | ⟨v, -, -, heq⟩ | ⟨v, -, -, heq⟩
  · rw [heq]
  · rw [heq]
  · rw [heq]; rfl

theorem Clocked.step (hs : s.Bounded) (hclock : s.Clocked calls)
    (hzero : s.config.isZero = false) (c : Call κ)
    (hfew : observations (calls ++ [c]) < 2 ^ 64) : (s.step c).Clocked (calls ++ [c]) := by
  rw [observations_append] at hfew
  cases c with
  | observe o x =>
      have hnow : (s.tick + 1).toNat = observations calls + 1 := by
        rw [UInt64.toNat_add, hclock.tick]
        simp only [observations] at hfew
        exact Nat.mod_eq_of_lt (by simpa using hfew)
      have hcount : observations (calls ++ [Call.observe o x]) = observations calls + 1 := by
        rw [observations_append]
        rfl
      have hwindows : ∀ w ∈ (s.step (.observe o x)).origins,
          (w.origin = o ∧ w.lastTouch.toNat = observations calls + 1)
          ∨ (w.origin ≠ o ∧ w ∈ s.origins) := by
        intro w hw
        refine (mem_origins_observe hs.toValid hzero hw).imp_left ?_
        intro h
        exact ⟨h.1, by rw [h.2, hnow]⟩
      refine ⟨?_, ?_, ?_, ?_⟩
      · rw [hcount, SeenSet.step, tick_observe hzero, hnow]
      · intro w hw
        rw [hcount]
        rcases hwindows w hw with ⟨-, h⟩ | ⟨-, h⟩
        · exact h.le
        · exact (hclock.touched w h).trans (Nat.le_succ _)
      · intro w hw v hv hne
        rw [touchedSince_snoc hne, Call.touches_observe, Call.touches_observe]
        rcases hwindows w hw with ⟨hwo, hwt⟩ | ⟨hwo, hmem⟩ <;>
          rcases hwindows v hv with ⟨hvo, hvt⟩ | ⟨hvo, hmem'⟩
        · exact absurd (hwo.trans hvo.symm) hne
        · have := hclock.touched v hmem'
          constructor
          · intro h
            omega
          · intro h
            rcases h with h | h
            · exact absurd h hvo
            · exact absurd hwo h.1
        · have := hclock.touched w hmem
          constructor
          · exact fun _ => Or.inl hvo
          · intro _
            omega
        · rw [hclock.order w hmem v hmem' hne]
          simp [hwo, hvo]
      · intro w hw v hv hne
        rcases hwindows w hw with ⟨hwo, hwt⟩ | ⟨hwo, hmem⟩ <;>
          rcases hwindows v hv with ⟨hvo, hvt⟩ | ⟨hvo, hmem'⟩
        · exact absurd (hwo.trans hvo.symm) hne
        · have := hclock.touched v hmem'
          omega
        · have := hclock.touched w hmem
          omega
        · exact hclock.distinct w hmem v hmem' hne
  | unobserve o x =>
      have hcount : observations (calls ++ [Call.unobserve o x]) = observations calls := by
        rw [observations_append]
        rfl
      refine ⟨?_, ?_, ?_, ?_⟩
      · rw [hcount, SeenSet.step, tick_unobserve hs, hclock.tick]
      · intro w hw
        obtain ⟨w', hw', -, htouch⟩ := mem_origins_unobserve hs hw
        rw [hcount, htouch]
        exact hclock.touched w' hw'
      · intro w hw v hv hne
        obtain ⟨w', hw', horigin, htouch⟩ := mem_origins_unobserve hs hw
        obtain ⟨v', hv', horigin', htouch'⟩ := mem_origins_unobserve hs hv
        rw [touchedSince_snoc hne]
        rw [horigin, horigin'] at hne ⊢
        rw [htouch, htouch', hclock.order w' hw' v' hv' hne]
        simp [Call.not_touches_unobserve]
      · intro w hw v hv hne
        obtain ⟨w', hw', horigin, htouch⟩ := mem_origins_unobserve hs hw
        obtain ⟨v', hv', horigin', htouch'⟩ := mem_origins_unobserve hs hv
        rw [horigin, horigin'] at hne
        rw [htouch, htouch']
        exact hclock.distinct w' hw' v' hv' hne

/-- While the counter has not wrapped, the windows are ordered by their last observations. -/
theorem clocked_after (hzero : config.isZero = false) (hfew : observations calls < 2 ^ 64) :
    (after config calls).Clocked calls := by
  induction calls using List.reverseRecOn with
  | nil =>
      refine ⟨rfl, ?_, ?_, ?_⟩ <;> intro w hw <;> cases hw
  | append_singleton calls c ih =>
      obtain ⟨hbounded, hconfig⟩ := bounded_after config calls
      have hbefore : observations calls < 2 ^ 64 := by
        rw [observations_append] at hfew
        omega
      rw [after_snoc]
      exact (ih hbefore).step hbounded (by rw [hconfig]; exact hzero) c hfew

/-! ## What makes the set forget -/

def Tracks (s : SeenSet κ) (o : κ) : Prop := ∃ w, s.window o = some w

/-- A message of the origin that was recorded among the later calls and not taken back since. -/
def Newer (config : SeenConfig) (start : List (Call κ)) (o : κ) (later : List (Call κ))
    (x : MsgId) : Prop :=
  ∃ l r, later = l ++ .observe o x :: r ∧ ((after config (start ++ l)).observe o x).1 = .fresh
    ∧ .unobserve o x ∉ r

/-- The calls that make the set forget a message, recorded by the last call of `start`: taking
it back; a message of its origin that is the last of as many newer ones as its window has places;
a message of an untracked origin when no more origins fit and every other one was touched
since. -/
inductive Forgets (config : SeenConfig) (start later : List (Call κ)) (o : κ) (id : MsgId) :
    Call κ → Prop where
  | rolledBack : Forgets config start later o id (.unobserve o id)
  | pushedOut (x : MsgId) (ids : Finset MsgId) (hmany : config.maxPerOrigin ≤ ids.card)
      (hnewer : ∀ y ∈ ids, Newer config start o (later ++ [.observe o x]) y) :
      Forgets config start later o id (.observe o x)
  | evicted (o' : κ) (x : MsgId) (huntracked : ¬ (after config (start ++ later)).Tracks o')
      (hfull : config.maxOrigins ≤ (after config (start ++ later)).origins.length)
      (hlru : ∀ a, (after config (start ++ later)).Tracks a → a ≠ o →
        TouchedSince (start ++ later) o a) :
      Forgets config start later o id (.observe o' x)

/-- The bounds track something, a call recorded the message, and no later one made the set
forget it. -/
def Remembered (config : SeenConfig) (calls : List (Call κ)) (o : κ) (id : MsgId) : Prop :=
  config.isZero = false ∧ ∃ before later, calls = before ++ .observe o id :: later
    ∧ ((after config before).observe o id).1 = .fresh
    ∧ ∀ l c r, later = l ++ c :: r → ¬ Forgets config (before ++ [.observe o id]) l o id c

theorem newer_nil : ¬ Newer config start o [] x := by
  intro h
  obtain ⟨l, r, heq, -⟩ := h
  simp at heq

theorem newer_snoc :
    Newer config start o (later ++ [c]) x ↔
      (c = .observe o x ∧ ((after config (start ++ later)).observe o x).1 = .fresh)
      ∨ (Newer config start o later x ∧ c ≠ .unobserve o x) := by
  constructor
  · intro h
    obtain ⟨l, r, heq, hfresh, hkept⟩ := h
    cases r using List.reverseRecOn with
    | nil =>
        obtain ⟨rfl, hlast⟩ := List.append_inj' heq rfl
        left
        exact ⟨by simpa using hlast, hfresh⟩
    | append_singleton r d =>
        rw [← List.cons_append, ← List.append_assoc] at heq
        obtain ⟨hlater, hlast⟩ := List.append_inj' heq rfl
        obtain rfl : c = d := by simpa using hlast
        simp only [List.mem_append, List.mem_singleton, not_or] at hkept
        right
        exact ⟨⟨l, r, hlater, hfresh, hkept.1⟩, fun h => hkept.2 h.symm⟩
  · intro h
    rcases h with ⟨rfl, hfresh⟩ | ⟨⟨l, r, rfl, hfresh, hkept⟩, hne⟩
    · exact ⟨later, [], rfl, hfresh, List.not_mem_nil⟩
    · refine ⟨l, r ++ [c], by simp, hfresh, ?_⟩
      simp only [List.mem_append, List.mem_singleton, not_or]
      exact ⟨hkept, fun h => hne h.symm⟩

/-- A message in its window: the newer ones stand behind it, in the order of their recording. -/
def Held (config : SeenConfig) (start later : List (Call κ)) (o : κ) (id : MsgId) : Prop :=
  ∃ w, (after config (start ++ later)).window o = some w
    ∧ ∃ older newer, w.order = older ++ id :: newer
      ∧ ∀ y, y ∈ newer ↔ Newer config start o later y

theorem Held.holds (h : Held config start later o id) :
    (after config (start ++ later)).holds o id := by
  obtain ⟨w, hwindow, older, newer, horder, -⟩ := h
  obtain ⟨hbounded, -⟩ := bounded_after config (start ++ later)
  have hexact := hbounded.windows w (mem_of_window hwindow).1
  rw [holds_of_window hbounded.toValid hwindow, hexact.mem_set, horder]
  simp

/-- Fewer newer messages than the window has places. -/
theorem Held.card_lt (h : Held config start later o id) {ids : Finset MsgId}
    (hnewer : ∀ y ∈ ids, Newer config start o later y) : ids.card < config.maxPerOrigin := by
  obtain ⟨w, hwindow, older, newer, horder, hmem⟩ := h
  obtain ⟨hbounded, hconfig⟩ := bounded_after config (start ++ later)
  have hlen := (hbounded.windows w (mem_of_window hwindow).1).bounded
  have hsub : ids ⊆ newer.toFinset := by
    intro y hy
    rw [List.mem_toFinset]
    exact (hmem y).mpr (hnewer y hy)
  have hcard : ids.card ≤ newer.length := (Finset.card_le_card hsub).trans newer.toFinset_card_le
  rw [horder, hconfig] at hlen
  simp only [List.length_append, List.length_cons] at hlen
  omega

/-! ## One call -/

theorem window_filter (hs : s.Valid) (b : κ) :
    ({ s with origins := s.origins.filter fun w => w.origin ≠ b } : SeenSet κ).window o
      = if o = b then none else s.window o := by
  split_ifs with hob
  · apply List.find?_eq_none.mpr
    intro w hw
    simp only [ne_eq, decide_not, List.mem_filter, Bool.not_eq_eq_eq_not, Bool.not_true,
      decide_eq_false_iff_not] at hw
    simpa [hob] using hw.2
  · have hvalid :
        ({ s with origins := s.origins.filter fun w => w.origin ≠ b } : SeenSet κ).Valid :=
      ⟨hs.distinct.sublist (List.filter_sublist.map _), fun hzero => by simp [hs.empty hzero]⟩
    ext w
    rw [window_eq_some hvalid, window_eq_some hs]
    simp only [ne_eq, decide_not, List.mem_filter, Bool.not_eq_eq_eq_not, Bool.not_true,
      decide_eq_false_iff_not]
    constructor
    · exact fun h => ⟨h.1.1, h.2⟩
    · exact fun h => ⟨⟨h.1, fun hb => hob (h.2.symm.trans hb)⟩, h.2⟩

theorem window_observe_new (hzero : s.config.isZero = false)
    (hnone : s.window b = none) (hne : o ≠ b) :
    (s.observe b x).2.window o
      = ({ s with origins := s.makeRoom } : SeenSet κ).window o := by
  rcases observe_cases hzero b x with ⟨w, hw, -⟩ | ⟨w, hw, -⟩ | ⟨-, heq⟩
  · rw [hnone] at hw
    cases hw
  · rw [hnone] at hw
    cases hw
  · rw [heq]
    simp only [window, List.find?_append]
    have hlast : [({ origin := b, set := {x}, order := [x], lastTouch := s.tick + 1 } :
        OriginWindow κ)].find? (fun w => w.origin = o) = none := by
      simp [Ne.symm hne]
    rw [hlast, Option.or_none]

/-- A call about another tracked origin leaves the window alone. -/
theorem window_observe_tracked (hs : s.Valid) (hzero : s.config.isZero = false)
    {w : OriginWindow κ} (hw : s.window b = some w) (hne : o ≠ b) :
    (s.observe b x).2.window o = s.window o := by
  have htick : ({ s with tick := s.tick + 1 } : SeenSet κ).Valid := ⟨hs.distinct, hs.empty⟩
  rcases observe_cases hzero b x with ⟨v, hv, -, heq⟩ | ⟨v, hv, -, heq⟩ | ⟨hnone, -⟩
  · rw [heq]
    refine (window_put_of_ne htick ?_).trans rfl
    rwa [show ({ v with lastTouch := s.tick + 1 } : OriginWindow κ).origin = b from
      (mem_of_window hv).2]
  · rw [heq]
    refine (window_put_of_ne htick ?_).trans rfl
    rwa [record_origin, show ({ v with lastTouch := s.tick + 1 } : OriginWindow κ).origin = b from
      (mem_of_window hv).2]
  · rw [hnone] at hw
    cases hw

theorem window_unobserve_other (hs : s.Bounded) (hne : o ≠ b) :
    (s.unobserve b x).window o = s.window o := by
  rcases unobserve_cases hs b x with ⟨-, heq⟩ | ⟨v, -, -, heq⟩ | ⟨v, hv, -, heq⟩
  · rw [heq]
  · rw [heq, window_filter hs.toValid, if_neg hne]
  · rw [heq, window_put_of_ne hs.toValid]
    rwa [show (v.without x).origin = b from (mem_of_window hv).2]

/-- A window that is left as it was keeps the message, and the newer ones behind it. -/
theorem Held.of_window_eq (h : Held config start later o id)
    (hwindow : (after config (start ++ (later ++ [c]))).window o
      = (after config (start ++ later)).window o)
    (hobserve : ∀ y, c ≠ .observe o y) (hunobserve : ∀ y, c ≠ .unobserve o y) :
    Held config start (later ++ [c]) o id := by
  obtain ⟨w, hw, older, newer, horder, hmem⟩ := h
  refine ⟨w, hwindow.trans hw, older, newer, horder, ?_⟩
  intro y
  rw [newer_snoc, hmem]
  simp [hobserve, hunobserve]

theorem after_append_snoc (config : SeenConfig) (start later : List (Call κ)) (c : Call κ) :
    after config (start ++ (later ++ [c])) = (after config (start ++ later)).step c := by
  rw [← List.append_assoc, after_snoc]

theorem window_put_touched {w v : OriginWindow κ} {t : UInt64} (hs : s.Valid)
    (hwindow : s.window o = some w) (hv : v.origin = w.origin) :
    (({ s with tick := t } : SeenSet κ).put v).window o = some v := by
  have htick : ({ s with tick := t } : SeenSet κ).Valid := ⟨hs.distinct, hs.empty⟩
  have horigin : v.origin = o := hv.trans (mem_of_window hwindow).2
  rw [← horigin] at hwindow ⊢
  exact window_put_self (v := w) htick hwindow

theorem Held.observe_duplicate (h : Held config start later o id) {w : OriginWindow κ}
    (hwindow : (after config (start ++ later)).window o = some w)
    (heq : (after config (start ++ later)).observe o x = (.duplicate,
      { after config (start ++ later) with tick := (after config (start ++ later)).tick + 1 }.put
        { w with lastTouch := (after config (start ++ later)).tick + 1 })) :
    Held config start (later ++ [.observe o x]) o id := by
  obtain ⟨v, hv, older, newer, horder, hmem⟩ := h
  obtain rfl : w = v := by simpa [hwindow] using hv
  have hvalid := (bounded_after config (start ++ later)).1.toValid
  refine ⟨{ w with lastTouch := (after config (start ++ later)).tick + 1 }, ?_, older, newer,
    horder, ?_⟩
  · rw [after_append_snoc, SeenSet.step, heq]
    exact window_put_touched hvalid hwindow rfl
  · intro y
    rw [newer_snoc, hmem]
    constructor
    · intro hy
      exact Or.inr ⟨hy, by simp⟩
    · intro hy
      rcases hy with ⟨hxy, hfresh⟩ | ⟨hy, -⟩
      · injection hxy with _ hxy
        rw [← hxy, heq] at hfresh
        cases hfresh
      · exact hy

/-- A fresh message of the origin is the newest one. -/
theorem newer_observe_fresh (hfresh : ((after config (start ++ later)).observe o x).1 = .fresh)
    {newer : List MsgId} (hmem : ∀ y, y ∈ newer ↔ Newer config start o later y) :
    ∀ y, y ∈ newer ++ [x] ↔ Newer config start o (later ++ [.observe o x]) y := by
  intro y
  rw [newer_snoc, List.mem_append, List.mem_singleton, hmem]
  constructor
  · intro hy
    rcases hy with hy | rfl
    · exact Or.inr ⟨hy, by simp⟩
    · exact Or.inl ⟨rfl, hfresh⟩
  · intro hy
    rcases hy with ⟨hxy, -⟩ | ⟨hy, -⟩
    · injection hxy with _ hxy
      exact Or.inr hxy.symm
    · exact Or.inl hy

/-- The first message of a full window is the one that a fresh message pushes out. -/
theorem forgets_pushedOut {w w' : OriginWindow κ} {newer : List MsgId}
    (hexact : w.Exact config.maxPerOrigin) (horder : w.order = id :: newer) (hx : x ∉ w.set)
    (hfull : config.maxPerOrigin < w.order.length + 1)
    (hwindow : (after config (start ++ (later ++ [.observe o x]))).window o = some w')
    (horder' : w'.order = newer ++ [x])
    (hnewer : ∀ y, y ∈ newer ++ [x] ↔ Newer config start o (later ++ [.observe o x]) y) :
    Forgets config start later o id (.observe o x)
      ∧ ¬ (after config (start ++ (later ++ [.observe o x]))).holds o id := by
  have hnext := (bounded_after config (start ++ (later ++ [.observe o x]))).1
  have hexact' := hnext.windows w' (mem_of_window hwindow).1
  have hnodup : (newer ++ [x]).Nodup := horder' ▸ hexact'.nodup
  have hid : id ∉ newer ++ [x] := by
    intro hid
    rw [List.mem_append, List.mem_singleton] at hid
    have hnd := hexact.nodup
    rw [horder] at hnd
    rcases hid with hid | rfl
    · exact (List.nodup_cons.mp hnd).1 hid
    · exact hx (hexact.mem_set.mpr (by rw [horder]; simp))
  refine ⟨.pushedOut x (newer ++ [x]).toFinset ?_ ?_, ?_⟩
  · rw [List.toFinset_card_of_nodup hnodup]
    rw [horder] at hfull
    simp only [List.length_cons, List.length_append, List.length_nil] at hfull ⊢
    omega
  · intro y hy
    exact (hnewer y).mp (List.mem_toFinset.mp hy)
  · rw [holds_of_window hnext.toValid hwindow, hexact'.mem_set, horder']
    exact hid

/-- A further message of the origin: the window keeps the message, unless it stands first and the
window is full. -/
theorem Held.observe_self (hzero : config.isZero = false) (h : Held config start later o id)
    (x : MsgId) :
    Held config start (later ++ [.observe o x]) o id
    ∨ (Forgets config start later o id (.observe o x)
      ∧ ¬ (after config (start ++ (later ++ [.observe o x]))).holds o id) := by
  obtain ⟨w, hwindow, older, newer, horder, hmem⟩ := h
  obtain ⟨hbounded, hconfig⟩ := bounded_after config (start ++ later)
  have hexact := hbounded.windows w (mem_of_window hwindow).1
  rcases observe_cases (by rw [hconfig]; exact hzero) o x with
    ⟨v, hv, hx, heq⟩ | ⟨v, hv, hx, heq⟩ | ⟨hnone, -⟩
  · left
    exact Held.observe_duplicate ⟨w, hwindow, older, newer, horder, hmem⟩ hv heq
  · obtain rfl : w = v := by simpa [hwindow] using hv
    have hnewer := newer_observe_fresh (by rw [heq]) hmem
    have hrecord := OriginWindow.record_order
      { w with lastTouch := (after config (start ++ later)).tick + 1 } config.maxPerOrigin x
    rw [hconfig] at heq hexact
    have hwindow' : (after config (start ++ (later ++ [.observe o x]))).window o
        = some ({ w with lastTouch := (after config (start ++ later)).tick + 1 }.record
          config.maxPerOrigin x) := by
      rw [after_append_snoc, SeenSet.step, heq]
      exact window_put_touched (t := (after config (start ++ later)).tick + 1) hbounded.toValid
        hwindow (record_origin _ _ _)
    by_cases hfull : w.order.length + 1 > config.maxPerOrigin
    · rw [if_pos hfull] at hrecord
      cases older with
      | nil =>
          right
          refine forgets_pushedOut hexact horder hx hfull hwindow' ?_ hnewer
          rw [hrecord, horder]
          rfl
      | cons old older =>
          left
          refine ⟨_, hwindow', older, newer ++ [x], ?_, hnewer⟩
          rw [hrecord, horder]
          simp
    · rw [if_neg hfull] at hrecord
      left
      refine ⟨_, hwindow', older, newer ++ [x], ?_, hnewer⟩
      rw [hrecord, horder]
      simp
  · rw [hnone] at hwindow
    cases hwindow

/-- Taking back another message of the origin. -/
theorem Held.unobserve_self (h : Held config start later o id) (hne : x ≠ id) :
    Held config start (later ++ [.unobserve o x]) o id := by
  obtain ⟨w, hwindow, older, newer, horder, hmem⟩ := h
  obtain ⟨hbounded, -⟩ := bounded_after config (start ++ later)
  have hexact := hbounded.windows w (mem_of_window hwindow).1
  rcases unobserve_cases hbounded o x with ⟨hnone, -⟩ | ⟨v, hv, hempty, -⟩ | ⟨v, hv, -, heq⟩
  · rw [hnone] at hwindow
    cases hwindow
  · obtain rfl : w = v := by simpa [hwindow] using hv
    have hid : id ∈ w.set.erase x := by
      rw [Finset.mem_erase, hexact.mem_set, horder]
      exact ⟨hne.symm, by simp⟩
    rw [hempty] at hid
    cases hid
  · obtain rfl : w = v := by simpa [hwindow] using hv
    refine ⟨w.without x, ?_, older.filter (· ≠ x), newer.filter (· ≠ x), ?_, ?_⟩
    · rw [after_append_snoc, SeenSet.step, heq]
      have horigin : (w.without x).origin = o := (mem_of_window hwindow).2
      rw [← horigin] at hwindow ⊢
      exact window_put_self hbounded.toValid hwindow
    · simp [OriginWindow.without, horder, hne.symm]
    · intro y
      rw [newer_snoc, ← hmem]
      simp only [List.mem_filter, ne_eq, decide_not, Bool.not_eq_eq_eq_not, Bool.not_true,
        decide_eq_false_iff_not, reduceCtorEq, false_and, false_or, Call.unobserve.injEq, true_and]
      exact and_congr_right fun _ => not_congr eq_comm

/-- A message of an origin that was not tracked: the window stays, unless no more origins fit and
every other one was touched since. -/
theorem Held.observe_untracked (hzero : config.isZero = false)
    (hfew : observations (start ++ later) < 2 ^ 64) (h : Held config start later o id)
    (huntracked : (after config (start ++ later)).window b = none) (x : MsgId) :
    (Held config start (later ++ [.observe b x]) o id
      ∧ ¬ Forgets config start later o id (.observe b x))
    ∨ (Forgets config start later o id (.observe b x)
      ∧ ¬ (after config (start ++ (later ++ [.observe b x]))).holds o id) := by
  obtain ⟨hbounded, hconfig⟩ := bounded_after config (start ++ later)
  have hclock := clocked_after hzero hfew
  have hheld := h
  obtain ⟨w, hw, -⟩ := hheld
  obtain ⟨hmem, rfl⟩ := mem_of_window hw
  have hne : w.origin ≠ b := by
    rintro rfl
    rw [hw] at huntracked
    cases huntracked
  have hzero' : (after config (start ++ later)).config.isZero = false := by
    rw [hconfig]
    exact hzero
  have hwindow := window_observe_new hzero' huntracked hne (x := x)
  have hkeep : ({ after config (start ++ later) with
        origins := (after config (start ++ later)).makeRoom } : SeenSet κ).window w.origin
        = (after config (start ++ later)).window w.origin →
      Held config start (later ++ [.observe b x]) w.origin id := by
    intro hsame
    refine h.of_window_eq ?_ ?_ (fun y => by simp)
    · rw [after_append_snoc, SeenSet.step, hwindow, hsame]
    · intro y hy
      injection hy with hb _
      exact hne hb.symm
  rcases makeRoom_cases hzero' with ⟨hlt, hsame⟩ | ⟨hfull, lru, hlru, hmin, hfilter⟩
  · left
    refine ⟨hkeep (by rw [hsame]), ?_⟩
    intro hforgets
    rw [hconfig] at hlt
    cases hforgets with
    | pushedOut x ids hmany hnewer => exact hne rfl
    | evicted o' x huntracked' hfull' hother => omega
  · rw [hfilter, window_filter hbounded.toValid] at hwindow hkeep
    by_cases hself : w.origin = lru.origin
    · right
      rw [if_pos hself] at hwindow
      refine ⟨.evicted b x ?_ ?_ ?_, ?_⟩
      · intro htracks
        obtain ⟨v, hv⟩ := htracks
        rw [huntracked] at hv
        cases hv
      · rw [hconfig] at hfull
        exact hfull
      · intro a htracks ha
        obtain ⟨v, hv⟩ := htracks
        obtain ⟨hvmem, rfl⟩ := mem_of_window hv
        have hlv : lru.origin ≠ v.origin := fun heq => ha (heq.symm.trans hself.symm)
        rw [hself]
        apply (hclock.order lru hlru v hvmem hlv).mp
        exact lt_of_le_of_ne (hmin v hvmem) (hclock.distinct lru hlru v hvmem hlv)
      · apply not_holds_of_window
        rw [after_append_snoc, SeenSet.step, hwindow]
    · left
      rw [if_neg hself] at hkeep
      refine ⟨hkeep rfl, ?_⟩
      intro hforgets
      cases hforgets with
      | pushedOut x ids hmany hnewer => exact hne rfl
      | evicted o' x huntracked' hfull' hother =>
          have htracks : (after config (start ++ later)).Tracks lru.origin :=
            ⟨lru, (window_eq_some hbounded.toValid).mpr ⟨hlru, rfl⟩⟩
          have hsince := hother lru.origin htracks (fun heq => hself heq.symm)
          have hlt := (hclock.order w hmem lru hlru hself).mpr hsince
          exact absurd (hmin w hmem) (Nat.not_le.mpr hlt)

/-- One call: the message stays in its window and the call is none that forgets it, or the call
is one and the message is gone. -/
theorem Held.step (hzero : config.isZero = false) (hfew : observations (start ++ later) < 2 ^ 64)
    (h : Held config start later o id) (c : Call κ) :
    (Held config start (later ++ [c]) o id ∧ ¬ Forgets config start later o id c)
    ∨ (Forgets config start later o id c
      ∧ ¬ (after config (start ++ (later ++ [c]))).holds o id) := by
  obtain ⟨hbounded, hconfig⟩ := bounded_after config (start ++ later)
  have hzero' : (after config (start ++ later)).config.isZero = false := by
    rw [hconfig]
    exact hzero
  have hheld := h
  obtain ⟨w, hw, -⟩ := hheld
  cases c with
  | observe b x =>
      by_cases hb : o = b
      · subst hb
        refine (h.observe_self hzero x).imp_left ?_
        intro hheld
        refine ⟨hheld, ?_⟩
        intro hforgets
        cases hforgets with
        | pushedOut x ids hmany hnewer => exact absurd hmany (Nat.not_le.mpr (hheld.card_lt hnewer))
        | evicted o' x huntracked hfull hother => exact huntracked ⟨w, hw⟩
      · cases hwindow : (after config (start ++ later)).window b with
        | none => exact h.observe_untracked hzero hfew hwindow x
        | some v =>
            left
            refine ⟨h.of_window_eq ?_ ?_ (fun y => by simp), ?_⟩
            · rw [after_append_snoc]
              exact window_observe_tracked hbounded.toValid hzero' hwindow hb
            · intro y hy
              injection hy with hbo _
              exact hb hbo.symm
            · intro hforgets
              cases hforgets with
              | pushedOut x ids hmany hnewer => exact hb rfl
              | evicted o' x huntracked hfull hother => exact huntracked ⟨v, hwindow⟩
  | unobserve b x =>
      by_cases hb : o = b
      · subst hb
        by_cases hx : x = id
        · subst hx
          right
          refine ⟨.rolledBack, ?_⟩
          rw [after_append_snoc, SeenSet.step, holds_unobserve _ _ _ _ hbounded.toValid]
          simp
        · left
          refine ⟨h.unobserve_self hx, ?_⟩
          intro hforgets
          cases hforgets
          exact hx rfl
      · left
        refine ⟨h.of_window_eq ?_ (fun y => by simp) ?_, ?_⟩
        · rw [after_append_snoc]
          exact window_unobserve_other hbounded hb
        · intro y hy
          injection hy with hbo _
          exact hb hbo.symm
        · intro hforgets
          cases hforgets
          exact hb rfl

/-! ## Every run -/

/-- A fresh message is the last one of its window. -/
theorem held_recorded (hzero : config.isZero = false)
    (hfresh : ((after config start).observe o id).1 = .fresh) :
    Held config (start ++ [.observe o id]) [] o id := by
  obtain ⟨hbounded, hconfig⟩ := bounded_after config start
  have hnext := bounded_after config (start ++ [.observe o id])
  rw [Held, List.append_nil]
  rw [after_snoc] at hnext ⊢
  rcases observe_cases (s := after config start) (by rw [hconfig]; exact hzero) o id with
    ⟨w, hw, hid, heq⟩ | ⟨w, hw, hid, heq⟩ | ⟨hnone, heq⟩
  · rw [heq] at hfresh
    cases hfresh
  · have hrecord := OriginWindow.record_order
      { w with lastTouch := (after config start).tick + 1 } (after config start).config.maxPerOrigin
      id
    have hne := (hbounded.windows w (mem_of_window hw).1).nonempty
    rw [SeenSet.step, heq]
    refine ⟨_, window_put_touched hbounded.toValid hw (record_origin _ _ _), ?_⟩
    split_ifs at hrecord with hfull
    · refine ⟨w.order.tail, [], ?_, fun y => by simp [newer_nil]⟩
      rw [hrecord, List.tail_append_of_ne_nil hne]
    · exact ⟨w.order, [], hrecord, fun y => by simp [newer_nil]⟩
  · have hvalid := hnext.1.toValid
    rw [SeenSet.step, heq] at hvalid ⊢
    exact ⟨_, (window_eq_some hvalid).mpr ⟨List.mem_append_right _ (List.mem_singleton.mpr rfl),
      rfl⟩,
      [], [], rfl, fun y => by simp [newer_nil]⟩

/-- A recorded message that no call forgot stands in its window. -/
theorem held_of_kept (hzero : config.isZero = false)
    (hfew : observations (start ++ .observe o id :: later) < 2 ^ 64)
    (hfresh : ((after config start).observe o id).1 = .fresh)
    (hkept : ∀ l c r, later = l ++ c :: r →
      ¬ Forgets config (start ++ [.observe o id]) l o id c) :
    Held config (start ++ [.observe o id]) later o id := by
  induction later using List.reverseRecOn with
  | nil => exact held_recorded hzero hfresh
  | append_singleton later c ih =>
      have hcount : observations (start ++ .observe o id :: later) < 2 ^ 64 := by
        rw [← List.cons_append, ← List.append_assoc, observations_append] at hfew
        omega
      have hheld := ih hcount (fun l d r heq => hkept l d (r ++ [c]) (by rw [heq]; simp))
      have hstep := hheld.step hzero (by simpa using hcount) c
      rcases hstep with ⟨h, -⟩ | ⟨hforgets, -⟩
      · exact h
      · exact absurd hforgets (hkept later c [] rfl)

/-- One more call that does not forget the message. -/
theorem kept_snoc
    (hkept : ∀ l d r, later = l ++ d :: r → ¬ Forgets config start l o id d)
    (hlast : ¬ Forgets config start later o id c) :
    ∀ l d r, later ++ [c] = l ++ d :: r → ¬ Forgets config start l o id d := by
  intro l d r heq
  cases r using List.reverseRecOn with
  | nil =>
      obtain ⟨rfl, hsame⟩ := List.append_inj' heq rfl
      obtain rfl : c = d := by simpa using hsame
      exact hlast
  | append_singleton r e =>
      rw [← List.cons_append, ← List.append_assoc] at heq
      exact hkept l d r (List.append_inj' heq rfl).1

/-- A message is remembered by the set exactly when a call recorded it and none forgot it. -/
theorem holds_iff_remembered (hfew : observations calls < 2 ^ 64) (o : κ) (id : MsgId) :
    (after config calls).holds o id ↔ Remembered config calls o id := by
  constructor
  · induction calls using List.reverseRecOn with
    | nil =>
        intro h
        obtain ⟨w, hw, -⟩ := h
        cases hw
    | append_singleton calls c ih =>
        intro h
        have hcount : observations calls < 2 ^ 64 := by
          rw [observations_append] at hfew
          omega
        obtain ⟨hbounded, hconfig⟩ := bounded_after config calls
        have hzero : config.isZero = false := by
          rw [Bool.eq_false_iff]
          intro hzero
          obtain ⟨hnext, hconfig'⟩ := bounded_after config (calls ++ [c])
          obtain ⟨w, hw, -⟩ := h
          rw [hnext.empty (by rw [hconfig']; exact hzero)] at hw
          cases hw
        by_cases hbefore : (after config calls).holds o id
        · obtain ⟨-, before, later, rfl, hfresh, hkept⟩ := ih hcount hbefore
          have hheld := held_of_kept hzero hcount hfresh hkept
          have hcount' : observations ((before ++ [.observe o id]) ++ later) < 2 ^ 64 := by
            simpa using hcount
          rcases hheld.step hzero hcount' c with ⟨-, hnot⟩ | ⟨-, hgone⟩
          · exact ⟨hzero, before, later ++ [c], by simp, hfresh, kept_snoc hkept hnot⟩
          · refine absurd ?_ hgone
            simpa using h
        · rw [after_snoc] at h
          cases c with
          | observe b x =>
              rcases holds_of_observe h with hheld | heq
              · exact absurd hheld hbefore
              · injection heq with ho hid
                subst ho hid
                refine ⟨hzero, calls, [], by simp, ?_, by simp⟩
                cases hanswer : ((after config calls).observe o id).1 with
                | fresh => rfl
                | duplicate => exact absurd (holds_of_duplicate hanswer) hbefore
          | unobserve b x =>
              exact absurd ((holds_unobserve _ _ _ _ hbounded.toValid).mp h).1 hbefore
  · intro h
    obtain ⟨hzero, before, later, rfl, hfresh, hkept⟩ := h
    have hheld := held_of_kept hzero hfew hfresh hkept
    simpa using hheld.holds

/-- The answer to an observation: a duplicate exactly of a remembered message. -/
theorem observe_duplicate_iff (hfew : observations calls < 2 ^ 64) (o : κ) (id : MsgId) :
    ((after config calls).observe o id).1 = .duplicate ↔ Remembered config calls o id := by
  rw [(observe_spec o id (bounded_after config calls).1.toValid).2.1]
  exact holds_iff_remembered hfew o id

/-! ## A counter that wraps -/

section

variable (m : MsgId) (n : ℕ)

/-- A message of each of two origins, and many repetitions of the second. -/
def repeats : List (Call ℕ) :=
  [.observe 0 m, .observe 1 m] ++ List.replicate n (.observe 1 m)

theorem repeats_succ : repeats m (n + 1) = repeats m n ++ [.observe 1 m] := by
  rw [repeats, List.replicate_succ', repeats, List.append_assoc]

theorem observations_repeats : observations (repeats m n) = n + 2 := by
  induction n with
  | zero => rfl
  | succ n ih =>
      rw [repeats_succ, observations_append, ih]
      rfl

/-- The repetitions only move the counter on. -/
theorem after_repeats :
    after ⟨1, 2⟩ (repeats m n) = {
      config := ⟨1, 2⟩
      origins := [⟨0, {m}, [m], 1⟩, ⟨1, {m}, [m], UInt64.ofNat n + 2⟩]
      tick := UInt64.ofNat n + 2 } := by
  induction n with
  | zero => rfl
  | succ n ih =>
      have hnext : UInt64.ofNat n + 2 + 1 = UInt64.ofNat (n + 1) + 2 := by
        rw [UInt64.ofNat_add, UInt64.add_assoc, UInt64.add_assoc]
        rfl
      rw [repeats_succ, after_snoc, ih]
      simp [step, observe, SeenConfig.isZero, window, put, hnext]

/-- Once the counter has wrapped, the origin touched last is evicted as if it were the least
recently touched one. -/
theorem observe_after_wrap (hwrap : UInt64.ofNat n + 2 = 0) :
    ((after ⟨1, 2⟩ (repeats m n ++ [.observe 2 m])).observe 1 m).1 = .fresh := by
  rw [after_snoc, after_repeats, hwrap]
  simp [step, observe, SeenConfig.isZero, window, makeRoom, List.argmin, List.argAux]

/-- Neither the last repetition nor the new origin is a call that forgets the message. -/
theorem remembered_after_wrap (hfew : n + 2 < 2 ^ 64) :
    Remembered ⟨1, 2⟩ (repeats m (n + 1) ++ [.observe 2 m]) 1 m := by
  have hcount : observations (repeats m n) < 2 ^ 64 := by rw [observations_repeats]; exact hfew
  have hheld : ∀ k, (after ⟨1, 2⟩ (repeats m k)).holds 1 m := by
    intro k
    rw [after_repeats]
    exact ⟨_, List.mem_cons_of_mem _ List.mem_cons_self, rfl, Finset.mem_singleton_self m⟩
  obtain ⟨hzero, before, later, heq, hfresh, hkept⟩ :=
    (holds_iff_remembered hcount 1 m).mp (hheld n)
  have hcount' : observations (before ++ [.observe 1 m] ++ later) < 2 ^ 64 := by
    rw [heq] at hcount
    simpa using hcount
  have hheld' : Held ⟨1, 2⟩ (before ++ [.observe 1 m]) later 1 m :=
    held_of_kept hzero (heq ▸ hcount) hfresh hkept
  have hsplit : repeats m (n + 1) = before ++ [.observe 1 m] ++ (later ++ [.observe 1 m]) := by
    rw [repeats_succ, heq]
    simp
  have hrepeat : ¬ Forgets ⟨1, 2⟩ (before ++ [.observe 1 m]) later 1 m (.observe 1 m) := by
    rcases hheld'.step hzero hcount' (.observe 1 m) with ⟨-, hnot⟩ | ⟨-, hgone⟩
    · exact hnot
    · rw [← hsplit] at hgone
      exact absurd (hheld (n + 1)) hgone
  have hnew : ¬ Forgets ⟨1, 2⟩ (before ++ [.observe 1 m]) (later ++ [.observe 1 m]) 1 m
      (.observe 2 m) := by
    intro hforgets
    cases hforgets with
    | evicted o' x huntracked hfull hlru =>
        have htracks : (after ⟨1, 2⟩ (before ++ [.observe 1 m] ++ (later ++ [.observe 1 m]))).Tracks
            0 := by
          rw [← hsplit, after_repeats]
          exact ⟨_, rfl⟩
        have hsince := hlru 0 htracks (by decide)
        rw [← hsplit, repeats_succ, touchedSince_snoc (by decide), Call.touches_observe,
          Call.touches_observe] at hsince
        simp at hsince
  refine ⟨hzero, before, later ++ [.observe 1 m] ++ [.observe 2 m], ?_, hfresh,
    kept_snoc (kept_snoc hkept hrepeat) hnew⟩
  rw [hsplit]
  simp

end

end Cawala.SeenSet
