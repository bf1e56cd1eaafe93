import Cawala.Verification.SeenHistory

/-! # Replay memory across restarts

Messages within the bounds are never pushed out: a rebuild from the sidecar evicts nothing, and
while the clock has not passed the expiry of a mark, no number of restarts loses it. -/

namespace Cawala

section

variable {κ : Type} [DecidableEq κ] {config : SeenConfig} {pairs : Finset (κ × MsgId)}
  {pair : κ × MsgId} {o o' : κ} {id id' : MsgId}

/-- Messages within the bounds: of as many origins as are tracked, and of each as many as are
remembered. -/
structure SeenConfig.Fits (config : SeenConfig) (pairs : Finset (κ × MsgId)) : Prop where
  origins : (pairs.image (·.1)).card ≤ config.maxOrigins
  ids : ∀ o, (pairs.filter (·.1 = o)).card ≤ config.maxPerOrigin

theorem SeenConfig.Fits.isZero_eq_false (h : config.Fits pairs) (hpair : pair ∈ pairs) :
    config.isZero = false := by
  have horigins : 0 < (pairs.image (·.1)).card :=
    Finset.card_pos.mpr ⟨pair.1, Finset.mem_image_of_mem _ hpair⟩
  have hids : 0 < (pairs.filter (·.1 = pair.1)).card :=
    Finset.card_pos.mpr ⟨pair, Finset.mem_filter.mpr ⟨hpair, rfl⟩⟩
  have := h.origins
  have := h.ids pair.1
  simp only [SeenConfig.isZero, Bool.or_eq_false_iff, beq_eq_false_iff_ne]
  omega

/-! ## The set in memory -/

namespace SeenSet

variable {s : SeenSet κ}

/-- A window of messages within the bounds has a place for one more of them. -/
theorem length_order_lt {w : OriginWindow κ} {max : ℕ} (hexact : w.Exact max)
    (hfits : config.Fits pairs) (hwithin : ∀ x ∈ w.set, (w.origin, x) ∈ pairs)
    (hmem : (w.origin, id) ∈ pairs) (hid : id ∉ w.set) :
    w.order.length < config.maxPerOrigin := by
  have hsub : (insert id w.set).image (fun x => (w.origin, x))
      ⊆ pairs.filter (·.1 = w.origin) := by
    intro key hkey
    obtain ⟨x, hx, rfl⟩ := Finset.mem_image.mp hkey
    refine Finset.mem_filter.mpr ⟨?_, rfl⟩
    rcases Finset.mem_insert.mp hx with rfl | hx
    · exact hmem
    · exact hwithin x hx
  have hcard := (Finset.card_le_card hsub).trans (hfits.ids w.origin)
  rw [Finset.card_image_of_injective _ (Prod.mk_right_injective w.origin),
    Finset.card_insert_of_notMem hid, hexact.set_eq,
    List.toFinset_card_of_nodup hexact.nodup] at hcard
  omega

/-- Origins within the bounds leave room for one more of them. -/
theorem length_origins_lt (hs : s.Bounded) (hfits : config.Fits pairs)
    (hwithin : ∀ o id, s.holds o id → (o, id) ∈ pairs) (hmem : (o, id) ∈ pairs)
    (hnone : s.window o = none) : s.origins.length < config.maxOrigins := by
  have hsub : insert o (s.origins.map (·.origin)).toFinset ⊆ pairs.image (·.1) := by
    intro a ha
    rcases Finset.mem_insert.mp ha with rfl | ha
    · exact Finset.mem_image_of_mem (fun key : κ × MsgId => key.1) hmem
    · obtain ⟨w, hw, rfl⟩ := List.mem_map.mp (List.mem_toFinset.mp ha)
      have hexact := hs.windows w hw
      obtain ⟨x, hx⟩ := List.exists_mem_of_ne_nil _ hexact.nonempty
      have hheld : s.holds w.origin x := ⟨w, hw, rfl, hexact.mem_set.mpr hx⟩
      exact Finset.mem_image_of_mem (fun key : κ × MsgId => key.1) (hwithin _ _ hheld)
  have hnew : o ∉ (s.origins.map (·.origin)).toFinset := by
    intro ho
    obtain ⟨w, hw, rfl⟩ := List.mem_map.mp (List.mem_toFinset.mp ho)
    rw [(window_eq_some hs.toValid).mpr ⟨hw, rfl⟩] at hnone
    cases hnone
  have hcard := (Finset.card_le_card hsub).trans hfits.origins
  rw [Finset.card_insert_of_notMem hnew, List.toFinset_card_of_nodup hs.distinct,
    List.length_map] at hcard
  omega

/-- Within the bounds an observation forgets nothing. -/
theorem holds_observe_of_fits (hs : s.Bounded) (hfits : s.config.Fits pairs)
    (hwithin : ∀ o id, s.holds o id → (o, id) ∈ pairs) (hmem : (o, id) ∈ pairs) :
    (s.observe o id).2.holds o' id' ↔ s.holds o' id' ∨ (o', id') = (o, id) := by
  constructor
  · exact holds_of_observe
  · have hnext := (hs.step (.observe o id)).toValid
    rw [step] at hnext
    rcases observe_cases (hfits.isZero_eq_false hmem) o id with
      ⟨w, hw, hid, heq⟩ | ⟨w, hw, hid, heq⟩ | ⟨hnone, heq⟩
    · obtain ⟨hwmem, rfl⟩ := mem_of_window hw
      rw [heq]
      intro h
      have hwindow : ({ s with tick := s.tick + 1 } : SeenSet κ).window
          ({ w with lastTouch := s.tick + 1 } : OriginWindow κ).origin = some w := hw
      apply (holds_put hwindow).mpr
      have hheld : s.holds o' id' := by
        rcases h with h | h
        · exact h
        · injection h with ho hid'
          subst ho hid'
          exact ⟨w, hwmem, rfl, hid⟩
      split_ifs with ho
      · subst ho
        exact (holds_of_window hs.toValid hw).mp hheld
      · exact hheld
    · obtain ⟨hwmem, rfl⟩ := mem_of_window hw
      have hexact := hs.windows w hwmem
      have hlen := length_order_lt hexact hfits (fun x hx => hwithin _ _ ⟨w, hwmem, rfl, hx⟩)
        hmem hid
      have hset : ({ w with lastTouch := s.tick + 1 }.record s.config.maxPerOrigin id).set
          = insert id w.set := by
        unfold OriginWindow.record
        simp only [List.length_append, List.length_singleton]
        rw [if_neg (by omega)]
      have hwindow : ({ s with tick := s.tick + 1 } : SeenSet κ).window
          ({ w with lastTouch := s.tick + 1 }.record s.config.maxPerOrigin id).origin = some w := by
        rw [record_origin]
        exact hw
      rw [heq]
      intro h
      apply (holds_put hwindow).mpr
      rw [record_origin, hset]
      split_ifs with ho
      · subst ho
        rw [Finset.mem_insert]
        rcases h with h | h
        · exact Or.inr ((holds_of_window hs.toValid hw).mp h)
        · injection h with _ hid'
          exact Or.inl hid'
      · rcases h with h | h
        · exact h
        · injection h with ho' _
          exact absurd ho' ho
    · have hlen := length_origins_lt hs hfits hwithin hmem hnone
      have hroom : s.makeRoom = s.origins := by rw [makeRoom, if_neg (by omega)]
      rw [heq, hroom]
      intro h
      rcases h with ⟨w, hw, ho, hid⟩ | h
      · exact ⟨w, List.mem_append_left _ hw, ho, hid⟩
      · injection h with ho hid
        subst ho hid
        exact ⟨_, List.mem_append_right _ (List.mem_singleton.mpr rfl), rfl,
          Finset.mem_singleton_self _⟩

end SeenSet

/-! ## The caps of the sidecar -/

def SeenEntry.key (e : SeenEntry κ) : κ × MsgId := (e.origin, e.msgId)

theorem capOrigins_eq_self {max : ℕ} {known : Finset κ} (hknown : known.card ≤ max)
    (kept : List κ) (l : List (SeenEntry κ)) (hnodup : kept.Nodup) (hkept : ∀ o ∈ kept, o ∈ known)
    (hl : ∀ e ∈ l, e.origin ∈ known) : capOrigins max kept l = l := by
  induction l generalizing kept with
  | nil => rfl
  | cons e l ih =>
      have hrest : ∀ e' ∈ l, e'.origin ∈ known := fun e' he' => hl e' (List.mem_cons_of_mem e he')
      have he : e.origin ∈ known := hl e List.mem_cons_self
      rw [capOrigins]
      by_cases hmem : e.origin ∈ kept
      · rw [if_pos hmem, ih kept hnodup hkept hrest]
      · have hkept' : ∀ o ∈ e.origin :: kept, o ∈ known := by
          intro o ho
          rcases List.mem_cons.mp ho with rfl | ho
          · exact he
          · exact hkept o ho
        have hnodup' : (e.origin :: kept).Nodup := List.nodup_cons.mpr ⟨hmem, hnodup⟩
        have hcard : (e.origin :: kept).length ≤ known.card := by
          rw [← List.toFinset_card_of_nodup hnodup']
          apply Finset.card_le_card
          intro o ho
          exact hkept' o (List.mem_toFinset.mp ho)
        rw [List.length_cons] at hcard
        rw [if_neg hmem, if_pos (by omega), ih _ hnodup' hkept' hrest]

theorem capPerOrigin_eq_self {max : ℕ} (counted : List κ) (l : List (SeenEntry κ))
    (h : ∀ o, counted.count o + l.countP (·.origin = o) ≤ max) :
    capPerOrigin max counted l = l := by
  induction l generalizing counted with
  | nil => rfl
  | cons e l ih =>
      have he := h e.origin
      rw [List.countP_cons_of_pos (by simp)] at he
      rw [capPerOrigin, if_neg (by omega), ih]
      intro o
      have ho := h o
      rw [List.countP_cons] at ho
      rw [List.count_cons]
      simp only [beq_iff_eq, decide_eq_true_eq] at ho ⊢
      omega

/-- Marks of different messages within the bounds are all kept. -/
theorem enforceCaps_eq_self {l : List (SeenEntry κ)} (hfits : config.Fits pairs)
    (hnodup : (l.map SeenEntry.key).Nodup) (hl : ∀ e ∈ l, e.key ∈ pairs) :
    enforceCaps config l = l := by
  cases l with
  | nil => simp [enforceCaps, capOrigins, capPerOrigin]
  | cons e l =>
      generalize hrows : e :: l = rows at hnodup hl
      have hzero : config.isZero = false :=
        hfits.isZero_eq_false (hl e (by rw [← hrows]; exact List.mem_cons_self))
      have horigins : capOrigins config.maxOrigins [] rows.reverse = rows.reverse := by
        refine capOrigins_eq_self hfits.origins [] _ List.nodup_nil (by simp) ?_
        intro e he
        exact Finset.mem_image_of_mem (fun key : κ × MsgId => key.1)
          (hl e (List.mem_reverse.mp he))
      have hids : capPerOrigin config.maxPerOrigin [] rows.reverse = rows.reverse := by
        apply capPerOrigin_eq_self
        intro o
        rw [List.count_nil, Nat.zero_add, List.countP_reverse, List.countP_eq_length_filter]
        refine le_trans ?_ (hfits.ids o)
        have hsub : (rows.filter (·.origin = o)).map SeenEntry.key |>.Nodup :=
          hnodup.sublist (List.filter_sublist.map _)
        rw [← List.length_map SeenEntry.key, ← List.toFinset_card_of_nodup hsub]
        apply Finset.card_le_card
        intro key hkey
        obtain ⟨e, he, rfl⟩ := List.mem_map.mp (List.mem_toFinset.mp hkey)
        rw [List.mem_filter] at he
        exact Finset.mem_filter.mpr ⟨hl e he.1, of_decide_eq_true he.2⟩
      rw [enforceCaps, if_neg (by simp [hzero]), horigins, hids, List.reverse_reverse]

/-- The caps keep no mark of more than the tracked origins. -/
theorem card_origins_capOrigins {max : ℕ} (kept : List κ) (l : List (SeenEntry κ))
    (hkept : kept.length ≤ max) (hnodup : kept.Nodup) :
    (kept.toFinset ∪ ((capOrigins max kept l).map (·.origin)).toFinset).card ≤ max := by
  induction l generalizing kept with
  | nil =>
      simp only [capOrigins, List.map_nil, List.toFinset_nil, Finset.union_empty]
      exact kept.toFinset_card_le.trans hkept
  | cons e l ih =>
      rw [capOrigins]
      split_ifs with hmem hroom
      · have heq : kept.toFinset ∪ ((e :: capOrigins max kept l).map (·.origin)).toFinset
            = kept.toFinset ∪ ((capOrigins max kept l).map (·.origin)).toFinset := by
          ext o
          simp only [List.map_cons, List.toFinset_cons, Finset.mem_union, List.mem_toFinset,
            Finset.mem_insert]
          constructor
          · intro h
            rcases h with h | rfl | h
            · exact Or.inl h
            · exact Or.inl hmem
            · exact Or.inr h
          · intro h
            exact h.imp_right Or.inr
        rw [heq]
        exact ih kept hkept hnodup
      · have hnext := ih (e.origin :: kept) (by simpa using hroom)
          (List.nodup_cons.mpr ⟨hmem, hnodup⟩)
        refine le_of_eq_of_le (congrArg Finset.card ?_) hnext
        ext o
        simp only [List.map_cons, List.toFinset_cons, Finset.mem_union, List.mem_toFinset,
          Finset.mem_insert]
        tauto
      · exact ih kept hkept hnodup

/-- The caps keep no more marks of an origin than are remembered. -/
theorem countP_capPerOrigin {max : ℕ} (counted : List κ) (l : List (SeenEntry κ)) (o : κ)
    (hcounted : counted.count o ≤ max) :
    counted.count o + (capPerOrigin max counted l).countP (·.origin = o) ≤ max := by
  induction l generalizing counted with
  | nil => simpa [capPerOrigin] using hcounted
  | cons e l ih =>
      rw [capPerOrigin]
      split_ifs with hfull
      · exact ih counted hcounted
      · have hnext : (e.origin :: counted).count o ≤ max := by
          rw [List.count_cons]
          split_ifs with heq
          · rw [beq_iff_eq] at heq
            subst heq
            omega
          · exact hcounted
        have h := ih (e.origin :: counted) hnext
        rw [List.count_cons] at h
        rw [List.countP_cons]
        simp only [beq_iff_eq, decide_eq_true_eq] at h ⊢
        omega

/-- What the caps leave is within the bounds. -/
theorem fits_enforceCaps (config : SeenConfig) (l : List (SeenEntry κ)) :
    config.Fits ((enforceCaps config l).map SeenEntry.key).toFinset := by
  rw [enforceCaps]
  split_ifs with hzero
  · exact ⟨by simp, by simp⟩
  · generalize hcapped : capOrigins config.maxOrigins [] l.reverse = capped
    refine ⟨?_, ?_⟩
    · have hcard := card_origins_capOrigins [] l.reverse (Nat.zero_le config.maxOrigins)
        List.nodup_nil
      refine le_trans (Finset.card_le_card ?_) hcard
      intro o ho
      obtain ⟨key, hkey, rfl⟩ := Finset.mem_image.mp ho
      obtain ⟨e, he, rfl⟩ := List.mem_map.mp (List.mem_toFinset.mp hkey)
      rw [hcapped]
      apply Finset.mem_union_right
      rw [List.mem_toFinset]
      exact List.mem_map_of_mem ((capPerOrigin_sublist _ _ _).subset (List.mem_reverse.mp he))
    · intro o
      have hcount := countP_capPerOrigin [] capped o (Nat.zero_le config.maxPerOrigin)
      rw [List.count_nil, Nat.zero_add, List.countP_eq_length_filter] at hcount
      refine le_trans ?_ hcount
      rw [← List.length_map SeenEntry.key]
      refine le_trans (Finset.card_le_card ?_) (List.toFinset_card_le _)
      intro key hkey
      rw [Finset.mem_filter, List.mem_toFinset] at hkey
      obtain ⟨hkey, rfl⟩ := hkey
      obtain ⟨e, he, rfl⟩ := List.mem_map.mp hkey
      rw [List.mem_toFinset]
      apply List.mem_map_of_mem
      rw [List.mem_filter]
      exact ⟨List.mem_reverse.mp he, decide_eq_true rfl⟩

/-! ## The store -/

namespace SeenStore

variable {s : SeenStore κ} {rows : List (SeenEntry κ)}

/-- The set in memory remembers exactly the marks, each of which is there once. -/
structure Exact (config : SeenConfig) (s : SeenStore κ) : Prop where
  bounded : s.set.Bounded
  config_set : s.set.config = config
  config_store : s.config = config
  holds : ∀ o id, s.set.holds o id ↔ Persisted (o, id) s.entries
  nodup : (s.entries.map SeenEntry.key).Nodup

omit [DecidableEq κ] in
theorem persisted_iff : Persisted pair rows ↔ pair ∈ rows.map SeenEntry.key := by
  rw [List.mem_map]
  rfl

omit [DecidableEq κ] in
theorem persisted_snoc {e : SeenEntry κ} :
    Persisted pair (rows ++ [e]) ↔ Persisted pair rows ∨ pair = e.key := by
  rw [persisted_iff, persisted_iff, List.map_append, List.mem_append]
  simp

omit [DecidableEq κ] in
theorem exact_empty (config : SeenConfig) : (empty config : SeenStore κ).Exact config := by
  refine ⟨SeenSet.bounded_new config, rfl, rfl, ?_, List.nodup_nil⟩
  intro o id
  constructor
  · intro h
    obtain ⟨w, hw, -⟩ := h
    cases hw
  · intro h
    obtain ⟨e, he, -⟩ := h
    cases he

/-- An observation within the bounds: a duplicate changes no mark, a fresh message adds one. -/
theorem Exact.observe (hs : s.Exact config) (hfits : config.Fits pairs)
    (hwithin : ∀ e ∈ s.entries, e.key ∈ pairs) (hmem : (o, id) ∈ pairs) (expiry : UInt64) :
    (s.observe o id expiry).2.Exact config
      ∧ (s.observe o id expiry).2.entries
        = s.entries ++ if Persisted (o, id) s.entries then [] else [⟨o, id, expiry⟩] := by
  have hset : ∀ a x, (s.set.observe o id).2.holds a x ↔ s.set.holds a x ∨ (a, x) = (o, id) := by
    intro a x
    refine SeenSet.holds_observe_of_fits hs.bounded (hs.config_set ▸ hfits) ?_ hmem
    intro b y hheld
    obtain ⟨e, he, heq⟩ := (hs.holds b y).mp hheld
    exact heq ▸ hwithin e he
  have hanswer := (SeenSet.observe_spec o id hs.bounded.toValid).2.1
  have hbounded := hs.bounded.step (.observe o id)
  have hconfig := SeenSet.config_step s.set (.observe o id)
  rw [SeenSet.step] at hbounded hconfig
  rw [SeenStore.observe]
  cases hobserve : s.set.observe o id with
  | mk answer set =>
      rw [hobserve] at hset hanswer hbounded hconfig
      cases answer with
      | duplicate =>
          have hheld := (hs.holds o id).mp (hanswer.mp rfl)
          rw [if_pos hheld, List.append_nil]
          refine ⟨⟨hbounded, hconfig.trans hs.config_set, hs.config_store, ?_, hs.nodup⟩, rfl⟩
          intro a x
          rw [hset, hs.holds]
          constructor
          · intro h
            rcases h with h | h
            · exact h
            · rw [h]
              exact hheld
          · exact Or.inl
      | fresh =>
          have hfresh : ¬ Persisted (o, id) s.entries := by
            intro h
            have hduplicate := hanswer.mpr ((hs.holds o id).mpr h)
            cases hduplicate
          have hkeys : ((s.entries ++ [({ origin := o, msgId := id, expiry } : SeenEntry κ)]).map
              SeenEntry.key).Nodup := by
            rw [List.map_append, List.nodup_append]
            refine ⟨hs.nodup, List.nodup_singleton _, ?_⟩
            intro a ha b hb hab
            rw [hab, List.mem_singleton.mp hb] at ha
            exact hfresh (persisted_iff.mpr ha)
          have hcaps : enforceCaps s.config (s.entries ++ [⟨o, id, expiry⟩])
              = s.entries ++ [⟨o, id, expiry⟩] := by
            rw [hs.config_store]
            refine enforceCaps_eq_self hfits hkeys ?_
            intro e he
            rcases List.mem_append.mp he with he | he
            · exact hwithin e he
            · rw [List.mem_singleton.mp he]
              exact hmem
          simp only [hcaps]
          rw [if_neg hfresh]
          refine ⟨⟨hbounded, hconfig.trans hs.config_set, hs.config_store, ?_, hkeys⟩, rfl⟩
          intro a x
          rw [hset, hs.holds, persisted_snoc]
          rfl

def rebuilt (config : SeenConfig) (rows : List (SeenEntry κ)) : SeenStore κ :=
  rows.foldl (fun store e => (store.observe e.origin e.msgId e.expiry).2) (empty config)

theorem open_some (config : SeenConfig) (now : UInt64) (rows : List (SeenEntry κ)) :
    open_ config now (some rows) = rebuilt config (retained config now rows) := rfl

/-- A rebuild from rows within the bounds evicts nothing. -/
theorem exact_rebuilt (hfits : config.Fits pairs) (hrows : ∀ e ∈ rows, e.key ∈ pairs) :
    (rebuilt config rows).Exact config ∧ (∀ e ∈ (rebuilt config rows).entries, e ∈ rows)
      ∧ (∀ p, Persisted p (rebuilt config rows).entries ↔ Persisted p rows)
      ∧ ((rows.map SeenEntry.key).Nodup → (rebuilt config rows).entries = rows) := by
  induction rows using List.reverseRecOn with
  | nil => exact ⟨exact_empty config, fun e he => he, fun p => Iff.rfl, fun _ => rfl⟩
  | append_singleton rows e ih =>
      obtain ⟨hexact, hsub, hiff, hsame⟩ := ih fun e' he' => hrows e' (List.mem_append_left _ he')
      have hstep := hexact.observe hfits
        (fun e' he' => hrows e' (List.mem_append_left _ (hsub e' he')))
        (hrows e (List.mem_append_right _ (List.mem_singleton.mpr rfl))) e.expiry
      have hfold : rebuilt config (rows ++ [e])
          = ((rebuilt config rows).observe e.origin e.msgId e.expiry).2 := by
        rw [rebuilt, List.foldl_append]
        rfl
      rw [hfold]
      obtain ⟨hnext, hentries⟩ := hstep
      refine ⟨hnext, ?_, ?_, ?_⟩
      · intro e' he'
        rw [hentries] at he'
        rcases List.mem_append.mp he' with he' | he'
        · exact List.mem_append_left _ (hsub e' he')
        · split_ifs at he'
          · cases he'
          · exact List.mem_append_right _ he'
      · intro p
        rw [hentries]
        split_ifs with hheld
        · rw [List.append_nil, hiff, persisted_snoc]
          constructor
          · exact Or.inl
          · intro h
            rcases h with h | rfl
            · exact h
            · exact (hiff _).mp hheld
        · rw [persisted_snoc, persisted_snoc, hiff]
      · intro hnodup
        rw [List.map_append, List.nodup_append] at hnodup
        have hfresh : ¬ Persisted (e.origin, e.msgId) (rebuilt config rows).entries := by
          intro hheld
          have hmem := persisted_iff.mp ((hiff _).mp hheld)
          exact hnodup.2.2 _ hmem _ (List.mem_singleton.mpr rfl) rfl
        rw [hentries, if_neg hfresh, hsame hnodup.1]

/-- Opening evicts nothing of the retained rows while it rebuilds the set. -/
theorem holds_rebuilt (config : SeenConfig) (now : UInt64) (document l r : List (SeenEntry κ))
    (hrows : retained config now document = l ++ r) (o : κ) (id : MsgId) :
    (rebuilt config l).set.holds o id ↔ Persisted (o, id) l := by
  have hfits := fits_enforceCaps config (document.filter fun e => now ≤ e.expiry)
  have hl : ∀ e ∈ l, e.key ∈ ((retained config now document).map SeenEntry.key).toFinset := by
    intro e he
    rw [List.mem_toFinset, hrows]
    exact List.mem_map_of_mem (List.mem_append_left _ he)
  obtain ⟨hexact, -, hiff, -⟩ := exact_rebuilt hfits hl
  rw [hexact.holds, hiff]

theorem observe_fst (s : SeenStore κ) (o : κ) (id : MsgId) (expiry : UInt64) :
    (s.observe o id expiry).1 = (s.set.observe o id).1 := by
  rw [observe]
  cases s.set.observe o id with
  | mk answer set => cases answer <;> rfl

/-- A store whose set is exact answers a duplicate exactly for its marks. -/
theorem Exact.observe_duplicate_iff (hs : s.Exact config) (o : κ) (id : MsgId) (expiry : UInt64) :
    (s.observe o id expiry).1 = .duplicate ↔ Persisted (o, id) s.entries := by
  rw [observe_fst, (SeenSet.observe_spec o id hs.bounded.toValid).2.1]
  exact hs.holds o id

/-- An opened store answers a duplicate exactly for the retained rows. -/
theorem open_duplicate_iff (config : SeenConfig) (now : UInt64) (document : List (SeenEntry κ))
    (o : κ) (id : MsgId) (expiry : UInt64) :
    ((open_ config now (some document)).observe o id expiry).1 = .duplicate
      ↔ Persisted (o, id) (retained config now document) := by
  have hfits := fits_enforceCaps config (document.filter fun e => now ≤ e.expiry)
  have hrows : ∀ e ∈ retained config now document, e.key
      ∈ ((retained config now document).map SeenEntry.key).toFinset := fun e he =>
    List.mem_toFinset.mpr (List.mem_map_of_mem he)
  obtain ⟨hexact, -, hiff, -⟩ := exact_rebuilt hfits hrows
  rw [open_some, hexact.observe_duplicate_iff, hiff]

end SeenStore

/-! ## Restarts -/

/-- A step of a node that saves its sidecar after each observation, at a time of its clock. -/
inductive SeenEvent (κ : Type) where
  | observe (origin : κ) (id : MsgId) (expiry : UInt64) (now : UInt64)
  | save (now : UInt64)
  | reopen (now : UInt64)

def SeenEvent.time : SeenEvent κ → UInt64
  | .observe _ _ _ now | .save now | .reopen now => now

/-- The store of a running node and the sidecar on its disk. -/
structure SeenSession (κ : Type) where
  store : SeenStore κ
  sidecar : Option (List (SeenEntry κ))

namespace SeenSession

def opened (config : SeenConfig) (now : UInt64) (sidecar : Option (List (SeenEntry κ))) :
    SeenSession κ where
  store := .open_ config now sidecar
  sidecar

def step (config : SeenConfig) (s : SeenSession κ) : SeenEvent κ → SeenSession κ
  | .observe origin id expiry now =>
      let store := (s.store.observe origin id expiry).2
      { store, sidecar := some (store.document now) }
  | .save now => { s with sidecar := some (s.store.document now) }
  | .reopen now => { s with store := .open_ config now s.sidecar }

def run (config : SeenConfig) (s : SeenSession κ) (events : List (SeenEvent κ)) : SeenSession κ :=
  events.foldl (step config) s

/-- The messages observed, those of the sidecar found at the start included. -/
def observed (sidecar : Option (List (SeenEntry κ))) (events : List (SeenEvent κ)) :
    List (κ × MsgId) :=
  (sidecar.getD []).map SeenEntry.key ++ events.filterMap fun
    | .observe origin id _ _ => some (origin, id)
    | .save _ | .reopen _ => none

variable {s : SeenSession κ} {e : SeenEvent κ} {mark : SeenEntry κ}

/-- A session whose messages are all within the bounds. -/
structure Within (config : SeenConfig) (pairs : Finset (κ × MsgId)) (s : SeenSession κ) :
    Prop where
  exact : s.store.Exact config
  entries : ∀ e ∈ s.store.entries, e.key ∈ pairs
  sidecar : ∀ e ∈ s.sidecar.getD [], e.key ∈ pairs

structure Keeps (s : SeenSession κ) (mark : SeenEntry κ) : Prop where
  memory : mark ∈ s.store.entries
  disk : ∃ rows, s.sidecar = some rows ∧ mark ∈ rows ∧ (rows.map SeenEntry.key).Nodup

theorem retained_eq_filter {rows : List (SeenEntry κ)} {t : UInt64} (hfits : config.Fits pairs)
    (hnodup : (rows.map SeenEntry.key).Nodup) (hrows : ∀ e ∈ rows, e.key ∈ pairs) :
    SeenStore.retained config t rows = rows.filter fun e => t ≤ e.expiry := by
  refine enforceCaps_eq_self hfits (hnodup.sublist (List.filter_sublist.map _)) ?_
  intro e he
  exact hrows e (List.mem_of_mem_filter he)

theorem exact_open {t : UInt64} {sidecar : Option (List (SeenEntry κ))}
    (hfits : config.Fits pairs) (hsidecar : ∀ e ∈ sidecar.getD [], e.key ∈ pairs) :
    (SeenStore.open_ config t sidecar).Exact config
      ∧ ∀ e ∈ (SeenStore.open_ config t sidecar).entries, e.key ∈ pairs := by
  cases sidecar with
  | none => exact ⟨SeenStore.exact_empty config, fun e he => by cases he⟩
  | some rows =>
      have hrows : ∀ e ∈ SeenStore.retained config t rows, e.key ∈ pairs := fun e he =>
        hsidecar e ((retained_sublist _ _ _).subset he)
      obtain ⟨hexact, hsub, -, -⟩ := SeenStore.exact_rebuilt hfits hrows
      exact ⟨hexact, fun e he => hrows e (hsub e he)⟩

theorem Within.document (hs : s.Within config pairs) {t : UInt64} :
    ∀ e ∈ s.store.document t, e.key ∈ pairs := fun e he =>
  hs.entries e ((retained_sublist _ _ _).subset he)

/-- A step with a message within the bounds keeps the session so. -/
theorem Within.step (hfits : config.Fits pairs) (hs : s.Within config pairs)
    (hevent : ∀ o id expiry t, e = .observe o id expiry t → (o, id) ∈ pairs) :
    (s.step config e).Within config pairs := by
  cases e with
  | observe o id expiry t =>
      obtain ⟨hexact, hentries⟩ :=
        hs.exact.observe hfits hs.entries (hevent o id expiry t rfl) expiry
      have hmem : ∀ e ∈ (s.store.observe o id expiry).2.entries, e.key ∈ pairs := by
        intro e he
        rw [hentries] at he
        rcases List.mem_append.mp he with he | he
        · exact hs.entries e he
        · split_ifs at he
          · cases he
          · rw [List.mem_singleton.mp he]
            exact hevent o id expiry t rfl
      exact ⟨hexact, hmem, fun e he => hmem e ((retained_sublist _ _ _).subset he)⟩
  | save t => exact ⟨hs.exact, hs.entries, hs.document⟩
  | reopen t =>
      obtain ⟨hexact, hentries⟩ := exact_open (t := t) hfits hs.sidecar
      exact ⟨hexact, hentries, hs.sidecar⟩

/-- What a save writes while the mark has not expired. -/
theorem mem_document {store : SeenStore κ} {t : UInt64} (hfits : config.Fits pairs)
    (hexact : store.Exact config) (hentries : ∀ e ∈ store.entries, e.key ∈ pairs)
    (hmem : mark ∈ store.entries) (ht : t ≤ mark.expiry) :
    mark ∈ store.document t ∧ ((store.document t).map SeenEntry.key).Nodup := by
  rw [SeenStore.document, hexact.config_store, retained_eq_filter hfits hexact.nodup hentries]
  refine ⟨List.mem_filter.mpr ⟨hmem, decide_eq_true ht⟩, ?_⟩
  exact hexact.nodup.sublist (List.filter_sublist.map _)

theorem Keeps.step (hfits : config.Fits pairs) (hs : s.Within config pairs) (h : s.Keeps mark)
    (hevent : ∀ o id expiry t, e = .observe o id expiry t → (o, id) ∈ pairs)
    (ht : e.time ≤ mark.expiry) : (s.step config e).Keeps mark := by
  have hnext := hs.step hfits hevent
  cases e with
  | observe o id expiry t =>
      obtain ⟨-, hentries⟩ := hs.exact.observe hfits hs.entries (hevent o id expiry t rfl) expiry
      have hmem : mark ∈ (s.store.observe o id expiry).2.entries := by
        rw [hentries]
        exact List.mem_append_left _ h.memory
      exact ⟨hmem, _, rfl, mem_document hfits hnext.exact hnext.entries hmem ht⟩
  | save t => exact ⟨h.memory, _, rfl, mem_document hfits hs.exact hs.entries h.memory ht⟩
  | reopen t =>
      obtain ⟨rows, hrows, hmem, hnodup⟩ := h.disk
      refine ⟨?_, rows, hrows, hmem, hnodup⟩
      have hsidecar := hs.sidecar
      rw [hrows] at hsidecar
      have hretained := retained_eq_filter (t := t) hfits hnodup hsidecar
      have hwithin : ∀ e ∈ rows.filter fun e => t ≤ e.expiry, e.key ∈ pairs := fun e he =>
        hsidecar e (List.mem_of_mem_filter he)
      have hsame := (SeenStore.exact_rebuilt hfits hwithin).2.2.2
        (hnodup.sublist (List.filter_sublist.map _))
      change mark ∈ (SeenStore.open_ config t s.sidecar).entries
      rw [hrows, SeenStore.open_some, hretained, hsame]
      exact List.mem_filter.mpr ⟨hmem, decide_eq_true ht⟩

theorem Within.run (hfits : config.Fits pairs) (events : List (SeenEvent κ))
    (hs : s.Within config pairs)
    (hevents : ∀ o id expiry t, .observe o id expiry t ∈ events → (o, id) ∈ pairs) :
    (s.run config events).Within config pairs := by
  induction events generalizing s with
  | nil => exact hs
  | cons e events ih =>
      apply ih
      · exact hs.step hfits fun o id expiry t he =>
          hevents o id expiry t (he ▸ List.mem_cons_self)
      · intro o id expiry t he
        exact hevents o id expiry t (List.mem_cons_of_mem e he)

theorem Keeps.run (hfits : config.Fits pairs) (events : List (SeenEvent κ))
    (hs : s.Within config pairs) (h : s.Keeps mark)
    (hevents : ∀ o id expiry t, .observe o id expiry t ∈ events → (o, id) ∈ pairs)
    (htimes : ∀ e ∈ events, e.time ≤ mark.expiry) : (s.run config events).Keeps mark := by
  induction events generalizing s with
  | nil => exact h
  | cons e events ih =>
      have hevent : ∀ o id expiry t, e = .observe o id expiry t → (o, id) ∈ pairs :=
        fun o id expiry t he => hevents o id expiry t (he ▸ List.mem_cons_self)
      apply ih
      · exact hs.step hfits hevent
      · exact h.step hfits hs hevent (htimes e List.mem_cons_self)
      · intro o id expiry t he
        exact hevents o id expiry t (List.mem_cons_of_mem e he)
      · intro e' he'
        exact htimes e' (List.mem_cons_of_mem e he')

/-- A fresh message leaves its mark in memory and on disk. -/
theorem keeps_observed {o : κ} {id : MsgId} {expiry t : UInt64} (hfits : config.Fits pairs)
    (hs : s.Within config pairs) (hmem : (o, id) ∈ pairs)
    (hfresh : (s.store.observe o id expiry).1 = .fresh) (ht : t ≤ expiry) :
    (s.step config (.observe o id expiry t)).Keeps ⟨o, id, expiry⟩ := by
  have hevent : ∀ a x d u, SeenEvent.observe o id expiry t = .observe a x d u → (a, x) ∈ pairs := by
    intro a x d u heq
    injection heq with ha hx
    exact ha ▸ hx ▸ hmem
  have hnext := hs.step hfits hevent
  have hnew : ¬ Persisted (o, id) s.store.entries := by
    intro h
    rw [(hs.exact.observe_duplicate_iff o id expiry).mpr h] at hfresh
    cases hfresh
  have hentries := (hs.exact.observe hfits hs.entries hmem expiry).2
  rw [if_neg hnew] at hentries
  have hmark : (⟨o, id, expiry⟩ : SeenEntry κ) ∈ (s.store.observe o id expiry).2.entries := by
    rw [hentries]
    exact List.mem_append_right _ (List.mem_singleton.mpr rfl)
  exact ⟨hmark, _, rfl, mem_document hfits hnext.exact hnext.entries hmark ht⟩

/-- While messages stay within the bounds, one that was recorded is answered a duplicate until it
expires, over any number of restarts. -/
theorem duplicate_until_expiry {start : UInt64} {sidecar : Option (List (SeenEntry κ))}
    {before after : List (SeenEvent κ)} {o : κ} {id : MsgId} {expiry now : UInt64}
    (hfits : config.Fits
      (observed sidecar (before ++ .observe o id expiry now :: after)).toFinset)
    (hfresh : (((opened config start sidecar).run config before).store.observe o id expiry).1
      = .fresh)
    (htimes : ∀ e ∈ .observe o id expiry now :: after, SeenEvent.time e ≤ expiry)
    (expiry' : UInt64) :
    (((opened config start sidecar).run config
      (before ++ .observe o id expiry now :: after)).store.observe o id expiry').1
        = .duplicate := by
  generalize hpairs : (observed sidecar (before ++ .observe o id expiry now :: after)).toFinset
    = pairs at hfits
  have hevents : ∀ a x d t, .observe a x d t ∈ before ++ .observe o id expiry now :: after →
      (a, x) ∈ pairs := by
    intro a x d t hmem
    rw [← hpairs, List.mem_toFinset]
    exact List.mem_append_right _ (List.mem_filterMap.mpr ⟨_, hmem, rfl⟩)
  have hsidecar : ∀ e ∈ sidecar.getD [], e.key ∈ pairs := by
    intro e he
    rw [← hpairs, List.mem_toFinset]
    exact List.mem_append_left _ (List.mem_map_of_mem he)
  obtain ⟨hexact, hentries⟩ := exact_open (t := start) hfits hsidecar
  have hopened : (opened config start sidecar).Within config pairs :=
    ⟨hexact, hentries, hsidecar⟩
  have hbefore := hopened.run hfits before fun a x d t hmem =>
    hevents a x d t (List.mem_append_left _ hmem)
  have hmem : (o, id) ∈ pairs := hevents o id expiry now (by simp)
  have hmark := keeps_observed hfits hbefore hmem hfresh (htimes _ List.mem_cons_self)
  have hafter : ∀ a x d t, .observe a x d t ∈ after → (a, x) ∈ pairs := fun a x d t h =>
    hevents a x d t (List.mem_append_right _ (List.mem_cons_of_mem _ h))
  have hwithin := hbefore.step (e := .observe o id expiry now) hfits fun a x d t heq =>
    hevents a x d t (heq ▸ by simp)
  have hkept := hmark.run hfits after hwithin hafter fun e he =>
    htimes e (List.mem_cons_of_mem _ he)
  have hend := hwithin.run hfits after hafter
  have hrun : (opened config start sidecar).run config (before ++ .observe o id expiry now :: after)
      = (((opened config start sidecar).run config before).step config
        (.observe o id expiry now)).run config after := by
    rw [SeenSession.run, List.foldl_append]
    rfl
  rw [hrun, hend.exact.observe_duplicate_iff]
  exact ⟨_, hkept.memory, rfl⟩

end SeenSession

/-! ## Exactness -/

/-- Replay memory is exact. After any calls the bounds hold, and until the counter wraps a message
is answered a duplicate exactly while it is remembered. A rebuild evicts nothing and restores
exactly the retained rows. Within the bounds no number of restarts loses a recorded message before
it expires. -/
theorem replay_memory_exact (config : SeenConfig) :
    (∀ calls : List (SeenSet.Call κ), (SeenSet.after config calls).Bounded
      ∧ (SeenSet.observations calls < 2 ^ 64 → ∀ o id,
        ((SeenSet.after config calls).observe o id).1 = .duplicate
          ↔ SeenSet.Remembered config calls o id))
    ∧ (∀ (now : UInt64) (document l r : List (SeenEntry κ)),
        SeenStore.retained config now document = l ++ r → ∀ o id,
        (SeenStore.rebuilt config l).set.holds o id ↔ Persisted (o, id) l)
    ∧ (∀ (now : UInt64) (document : List (SeenEntry κ)) (o : κ) (id : MsgId) (expiry : UInt64),
        ((SeenStore.open_ config now (some document)).observe o id expiry).1 = .duplicate
          ↔ Persisted (o, id) (SeenStore.retained config now document))
    ∧ ∀ (start : UInt64) (sidecar : Option (List (SeenEntry κ))) (before after : List (SeenEvent κ))
        (o : κ) (id : MsgId) (expiry now : UInt64),
        config.Fits (SeenSession.observed sidecar
          (before ++ .observe o id expiry now :: after)).toFinset →
        (((SeenSession.opened config start sidecar).run config before).store.observe o id expiry).1
          = .fresh →
        (∀ e ∈ .observe o id expiry now :: after, SeenEvent.time e ≤ expiry) → ∀ expiry',
        (((SeenSession.opened config start sidecar).run config
          (before ++ .observe o id expiry now :: after)).store.observe o id expiry').1
            = .duplicate := by
  refine ⟨?_, ?_, ?_, ?_⟩
  · intro calls
    exact ⟨(SeenSet.bounded_after config calls).1, SeenSet.observe_duplicate_iff⟩
  · exact SeenStore.holds_rebuilt config
  · exact SeenStore.open_duplicate_iff config
  · intro start sidecar before after o id expiry now hfits hfresh htimes
    exact SeenSession.duplicate_until_expiry hfits hfresh htimes

end

def crowdedOrigin : List (SeenSet.Call ℕ) :=
  [.observe 0 (.replicate 16 1), .observe 0 (.replicate 16 2), .observe 1 (.replicate 16 1),
    .observe 0 (.replicate 16 3)]

def reopenedOrigins : List (SeenEvent ℕ) :=
  [.observe 0 (.replicate 16 1) 10 5, .observe 1 (.replicate 16 1) 12 6, .reopen 9]

/-- The third message of an origin pushes its first one out, and no message of the other origin;
both origins' messages are remembered over a restart, and at the next one the expired is gone. -/
theorem replay_memory_exact_crowded :
    SeenSet.Remembered ⟨2, 2⟩ crowdedOrigin 0 (.replicate 16 3)
    ∧ ¬ SeenSet.Remembered ⟨2, 2⟩ crowdedOrigin 0 (.replicate 16 1)
    ∧ SeenSet.Remembered ⟨2, 2⟩ crowdedOrigin 1 (.replicate 16 1)
    ∧ (((SeenSession.opened ⟨2, 2⟩ 0 none).run ⟨2, 2⟩ reopenedOrigins).store.observe 0
        (.replicate 16 1) 20).1 = .duplicate
    ∧ (((SeenSession.opened ⟨2, 2⟩ 0 none).run ⟨2, 2⟩ reopenedOrigins).store.observe 1
        (.replicate 16 1) 20).1 = .duplicate
    ∧ ¬ Persisted (0, .replicate 16 1) (SeenStore.retained ⟨2, 2⟩ 11
        [⟨0, .replicate 16 1, 10⟩, ⟨1, .replicate 16 1, 12⟩]) := by
  obtain ⟨hmemory, -, hreopen, hrestart⟩ := replay_memory_exact (κ := ℕ) ⟨2, 2⟩
  have hremembered := (hmemory crowdedOrigin).2 (by decide)
  have hfits : (⟨2, 2⟩ : SeenConfig).Fits
      (SeenSession.observed none reopenedOrigins).toFinset := by
    refine ⟨by decide, ?_⟩
    intro o
    exact (Finset.card_filter_le _ _).trans (by decide)
  refine ⟨?_, ?_, ?_, ?_, ?_, ?_⟩
  · exact (hremembered 0 _).mp (by decide)
  · rw [← hremembered 0]
    decide
  · exact (hremembered 1 _).mp (by decide)
  · exact hrestart 0 none [] [.observe 1 (.replicate 16 1) 12 6, .reopen 9] 0 (.replicate 16 1) 10
      5 hfits (by decide) (by decide) 20
  · exact hrestart 0 none [.observe 0 (.replicate 16 1) 10 5] [.reopen 9] 1 (.replicate 16 1) 12
      6 hfits (by decide) (by decide) 20
  · rw [← hreopen 11 _ 0 _ 20]
    decide

/-- The counter wraps, and a later expiry of a repeated message is not recorded. -/
theorem replay_memory_not_exact :
    (¬ ∀ (config : SeenConfig) (calls : List (SeenSet.Call ℕ)) (o : ℕ) (id : MsgId),
      ((SeenSet.after config calls).observe o id).1 = .duplicate
        ↔ SeenSet.Remembered config calls o id)
    ∧ ¬ ∀ (config : SeenConfig) (before after : List (SeenEvent ℕ)) (o : ℕ) (id : MsgId)
        (expiry now : UInt64),
        config.Fits (SeenSession.observed none
          (before ++ .observe o id expiry now :: after)).toFinset →
        (∀ e ∈ .observe o id expiry now :: after, SeenEvent.time e ≤ expiry) →
        (((SeenSession.opened config 0 none).run config
          (before ++ .observe o id expiry now :: after)).store.observe o id expiry).1
            = .duplicate := by
  refine ⟨?_, ?_⟩
  · intro h
    -- the repetitions stop when the counter is back at zero
    have hremembered := SeenSet.remembered_after_wrap (.replicate 16 0) 18446744073709551613
      (by decide)
    have hfresh := SeenSet.observe_after_wrap (.replicate 16 0) 18446744073709551614 (by decide)
    have hduplicate := (h _ _ _ _).mpr hremembered
    rw [hfresh] at hduplicate
    cases hduplicate
  · intro h
    have hfits : (⟨1, 1⟩ : SeenConfig).Fits (SeenSession.observed none
        [SeenEvent.observe 0 (.replicate 16 0) 10 5, .observe 0 (.replicate 16 0) 20 6,
          .reopen 15]).toFinset := by
      refine ⟨by decide, ?_⟩
      intro o
      exact (Finset.card_filter_le _ _).trans (by decide)
    have hduplicate := h ⟨1, 1⟩ [.observe 0 (.replicate 16 0) 10 5] [.reopen 15] 0
      (.replicate 16 0) 20 6 hfits (by decide)
    revert hduplicate
    decide

end Cawala
