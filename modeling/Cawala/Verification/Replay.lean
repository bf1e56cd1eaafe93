import Cawala.Model.Replay

/-! # The replay guards

A bounded set of recent messages: a message is a duplicate exactly while it is remembered, and
nothing is remembered that was not observed, in memory, on disk or across a restart. -/

namespace Cawala

/-! ## The set in memory -/

namespace SeenSet

variable {κ : Type} [DecidableEq κ] {s : SeenSet κ} {o o' : κ} {id id' : MsgId}

/-- One window for each origin, and none when the bounds say to track nothing. -/
structure Valid (s : SeenSet κ) : Prop where
  distinct : (s.origins.map (·.origin)).Nodup
  empty : s.config.isZero = true → s.origins = []

instance (s : SeenSet κ) (o : κ) (id : MsgId) : Decidable (s.holds o id) :=
  inferInstanceAs (Decidable (∃ w ∈ s.origins, w.origin = o ∧ id ∈ w.set))

theorem mem_of_window {w : OriginWindow κ} (h : s.window o = some w) :
    w ∈ s.origins ∧ w.origin = o :=
  ⟨List.mem_of_find?_eq_some h, by simpa using List.find?_some h⟩

theorem holds_of_window {w : OriginWindow κ} (hs : s.Valid) (h : s.window o = some w) :
    s.holds o id ↔ id ∈ w.set := by
  obtain ⟨hmem, horigin⟩ := mem_of_window h
  constructor
  · rintro ⟨w', hmem', horigin', hid⟩
    have heq : w' = w :=
      List.inj_on_of_nodup_map hs.distinct hmem' hmem (horigin'.trans horigin.symm)
    exact heq ▸ hid
  · intro hid
    exact ⟨w, hmem, horigin, hid⟩

theorem not_holds_of_window (h : s.window o = none) : ¬ s.holds o id := by
  rintro ⟨w, hmem, horigin, -⟩
  exact absurd horigin (by simpa using List.find?_eq_none.mp h w hmem)

theorem map_origin_put (w : OriginWindow κ) :
    (s.put w).origins.map (·.origin) = s.origins.map (·.origin) := by
  simp only [put, List.map_map]
  apply List.map_congr_left
  intro w' _
  by_cases h : w'.origin = w.origin <;> simp [h]

/-- A replaced window holds its own ids; the others are as before. -/
theorem holds_put {w w₀ : OriginWindow κ} (h : s.window w.origin = some w₀) :
    (s.put w).holds o id ↔ if o = w.origin then id ∈ w.set else s.holds o id := by
  obtain ⟨hmem, horigin⟩ := mem_of_window h
  simp only [holds, put, List.mem_map]
  constructor
  · rintro ⟨-, ⟨w', hw', rfl⟩, rfl, hid⟩
    split_ifs at hid ⊢ with h' h''
    · exact hid
    · exact absurd rfl h''
    · exact ⟨w', hw', rfl, hid⟩
  · split_ifs with h'
    · subst h'
      intro hid
      exact ⟨w, ⟨w₀, hmem, by simp [horigin]⟩, rfl, hid⟩
    · rintro ⟨w', hw', rfl, hid⟩
      exact ⟨w', ⟨w', hw', by simp [h']⟩, rfl, hid⟩

/-- The spec lemma of `unobserve`. -/
theorem holds_unobserve (o o' : κ) (id id' : MsgId) (hs : s.Valid) :
    (s.unobserve o id).holds o' id' ↔ s.holds o' id' ∧ (o', id') ≠ (o, id) := by
  unfold unobserve
  split
  · rename_i hnone
    constructor
    · intro h
      refine ⟨h, ?_⟩
      rintro ⟨⟩
      exact not_holds_of_window hnone h
    · exact fun h => h.1
  · rename_i w hwindow
    obtain ⟨-, rfl⟩ := mem_of_window hwindow
    generalize hw' : (if id ∈ w.set then
      { w with set := w.set.erase id, order := w.order.filter (· ≠ id) } else w) = w'
    have hset : w'.set = w.set.erase id := by
      rw [← hw']
      split_ifs with h
      · rfl
      · exact (Finset.erase_eq_of_notMem h).symm
    have horigin : w'.origin = w.origin := by
      rw [← hw']
      split_ifs <;> rfl
    have hholds : s.holds w.origin id' ↔ id' ∈ w.set := holds_of_window hs hwindow
    simp only
    split_ifs with hempty
    · rw [hset, Finset.erase_eq_empty_iff] at hempty
      simp only [holds, List.mem_filter, decide_eq_true_eq, ne_eq, Prod.mk.injEq, not_and]
      constructor
      · rintro ⟨v, ⟨hv, hne⟩, rfl, hid⟩
        exact ⟨⟨v, hv, rfl, hid⟩, fun h => absurd h hne⟩
      · rintro ⟨⟨v, hv, rfl, hid⟩, hother⟩
        refine ⟨v, ⟨hv, ?_⟩, rfl, hid⟩
        intro h
        have hmem : id' ∈ w.set := hholds.mp ⟨v, hv, h, hid⟩
        obtain hnil | hone := hempty
        · simp [hnil] at hmem
        · exact hother h (by simpa [hone] using hmem)
    · rw [holds_put (horigin ▸ hwindow), horigin, hset]
      split_ifs with h
      · subst h
        rw [hholds, Finset.mem_erase]
        simp [and_comm]
      · simp [h]

omit [DecidableEq κ] in
theorem valid_new (config : SeenConfig) : (SeenSet.new config : SeenSet κ).Valid :=
  ⟨List.nodup_nil, fun _ => rfl⟩

theorem valid_put {w : OriginWindow κ} (hs : s.Valid) : (s.put w).Valid := by
  refine ⟨?_, ?_⟩
  · rw [map_origin_put]
    exact hs.distinct
  · intro hzero
    have hnil : s.origins = [] := hs.empty hzero
    simp [put, hnil]

theorem valid_unobserve (hs : s.Valid) : (s.unobserve o id).Valid := by
  unfold unobserve
  split
  · exact hs
  · simp only
    split_ifs
    · exact ⟨hs.distinct.sublist (List.filter_sublist.map _), fun h => by simp [hs.empty h]⟩
    · exact valid_put hs
    · exact ⟨hs.distinct.sublist (List.filter_sublist.map _), fun h => by simp [hs.empty h]⟩
    · exact valid_put hs

omit [DecidableEq κ] in
/-- A window with a fresh id remembers nothing else that it did not. -/
theorem mem_record {w : OriginWindow κ} {max : ℕ} (h : id' ∈ (w.record max id).set) :
    id' ∈ w.set ∨ id' = id := by
  unfold OriginWindow.record at h
  simp only at h
  split_ifs at h
  · split at h
    · exact (Finset.mem_insert.mp (Finset.mem_of_mem_erase h)).symm
    · exact (Finset.mem_insert.mp h).symm
  · exact (Finset.mem_insert.mp h).symm

omit [DecidableEq κ] in
theorem record_origin (w : OriginWindow κ) (max : ℕ) (id : MsgId) :
    (w.record max id).origin = w.origin := by
  unfold OriginWindow.record
  simp only
  split_ifs
  · split <;> rfl
  · rfl

theorem makeRoom_sublist (s : SeenSet κ) : s.makeRoom.Sublist s.origins := by
  unfold makeRoom
  split_ifs
  · split
    · exact List.filter_sublist
    · exact List.Sublist.refl _
  · exact List.Sublist.refl _

/-- A replaced window adds its own ids at most. -/
theorem holds_of_put {w : OriginWindow κ} (h : (s.put w).holds o id) :
    (o = w.origin ∧ id ∈ w.set) ∨ s.holds o id := by
  obtain ⟨v, hv, rfl, hid⟩ := h
  simp only [put, List.mem_map] at hv
  obtain ⟨v', hv', rfl⟩ := hv
  by_cases horigin : v'.origin = w.origin
  · rw [if_pos horigin] at hid ⊢
    exact .inl ⟨rfl, hid⟩
  · rw [if_neg horigin] at hid ⊢
    exact .inr ⟨v', hv', rfl, hid⟩

/-- Observing a message makes the set remember no other. -/
theorem holds_of_observe (h : (s.observe o id).2.holds o' id') :
    s.holds o' id' ∨ (o', id') = (o, id) := by
  unfold observe at h
  split_ifs at h with hzero
  · exact .inl h
  · simp only at h
    split at h
    · rename_i w hwindow
      obtain ⟨hmem, rfl⟩ := mem_of_window hwindow
      split_ifs at h
      · obtain ⟨rfl, hid⟩ | hheld := holds_of_put h
        · exact .inl ⟨w, hmem, rfl, hid⟩
        · exact .inl hheld
      · obtain ⟨horigin, hid⟩ | hheld := holds_of_put h
        · rw [record_origin] at horigin
          subst horigin
          obtain hid | rfl := mem_record hid
          · exact .inl ⟨w, hmem, rfl, hid⟩
          · exact .inr rfl
        · exact .inl hheld
    · obtain ⟨w, hw, rfl, hid⟩ := h
      obtain hw | hw := List.mem_append.mp hw
      · exact .inl ⟨w, (makeRoom_sublist s).subset hw, rfl, hid⟩
      · obtain rfl := List.mem_singleton.mp hw
        exact .inr (by simpa using hid)

theorem holds_of_duplicate (h : (s.observe o id).1 = .duplicate) : s.holds o id := by
  unfold observe at h
  split_ifs at h
  simp only at h
  split at h
  · rename_i w hwindow
    obtain ⟨hmem, horigin⟩ := mem_of_window hwindow
    split_ifs at h with hid
    exact ⟨w, hmem, horigin, hid⟩
  · cases h

/-- The spec lemma of `observe`: a message is a duplicate exactly when it is remembered, and no
other message is remembered that was not. -/
theorem observe_spec (o : κ) (id : MsgId) (hs : s.Valid) :
    (s.observe o id).2.Valid ∧ ((s.observe o id).1 = .duplicate ↔ s.holds o id)
      ∧ ∀ o' id', (s.observe o id).2.holds o' id' → s.holds o' id' ∨ (o', id') = (o, id) := by
  refine ⟨?_, ⟨holds_of_duplicate, ?_⟩, fun _ _ => holds_of_observe⟩
  · unfold observe
    split_ifs with hzero
    · exact hs
    · have htick : ({ s with tick := s.tick + 1 } : SeenSet κ).Valid := ⟨hs.distinct, hs.empty⟩
      simp only
      split
      · split_ifs
        · exact valid_put htick
        · exact valid_put htick
      · rename_i hnone
        have hfresh : o ∉ s.origins.map (·.origin) := by
          simp only [List.mem_map, not_exists, not_and]
          intro w hw
          simpa using List.find?_eq_none.mp hnone w hw
        have hsub := makeRoom_sublist s
        refine ⟨?_, fun h => absurd h hzero⟩
        rw [List.map_append, List.map_singleton, List.nodup_append]
        refine ⟨hs.distinct.sublist (hsub.map _), by simp, ?_⟩
        intro a ha b hb
        obtain rfl := List.mem_singleton.mp hb
        rintro rfl
        exact hfresh ((hsub.map _).subset ha)
  · intro hheld
    unfold observe
    split_ifs with hzero
    · simp [holds, hs.empty hzero] at hheld
    · simp only
      cases hwindow : s.window o with
      | none => exact absurd hheld (not_holds_of_window hwindow)
      | some w => simp [(holds_of_window hs hwindow).mp hheld]

end SeenSet

/-! ## The sidecar -/

section Caps

variable {κ : Type} [DecidableEq κ] {e : SeenEntry κ}

theorem capOrigins_sublist (max : ℕ) (kept : List κ) (l : List (SeenEntry κ)) :
    (capOrigins max kept l).Sublist l := by
  induction l generalizing kept with
  | nil => exact .slnil
  | cons entry rest ih =>
      rw [capOrigins]
      split_ifs
      · exact (ih _).cons_cons entry
      · exact (ih _).cons_cons entry
      · exact (ih _).cons entry

theorem capPerOrigin_sublist (max : ℕ) (counted : List κ) (l : List (SeenEntry κ)) :
    (capPerOrigin max counted l).Sublist l := by
  induction l generalizing counted with
  | nil => exact .slnil
  | cons entry rest ih =>
      rw [capPerOrigin]
      split_ifs
      · exact (ih _).cons entry
      · exact (ih _).cons_cons entry

theorem enforceCaps_sublist (config : SeenConfig) (l : List (SeenEntry κ)) :
    (enforceCaps config l).Sublist l := by
  rw [enforceCaps]
  split_ifs
  · exact List.nil_sublist l
  · have hsub := (capPerOrigin_sublist config.maxPerOrigin [] _).trans
      (capOrigins_sublist config.maxOrigins [] l.reverse)
    simpa using hsub.reverse

theorem retained_sublist (config : SeenConfig) (now : UInt64) (l : List (SeenEntry κ)) :
    (SeenStore.retained config now l).Sublist l :=
  (enforceCaps_sublist _ _).trans List.filter_sublist

/-- A mark among persisted ones. -/
def Persisted (key : κ × MsgId) (l : List (SeenEntry κ)) : Prop :=
  ∃ e ∈ l, (e.origin, e.msgId) = key

instance (key : κ × MsgId) (l : List (SeenEntry κ)) : Decidable (Persisted key l) :=
  inferInstanceAs (Decidable (∃ e ∈ l, (e.origin, e.msgId) = key))

omit [DecidableEq κ] in
theorem Persisted.mono {key : κ × MsgId} {l l' : List (SeenEntry κ)} (hsub : l.Sublist l')
    (h : Persisted key l) : Persisted key l' := by
  obtain ⟨e, he, hkey⟩ := h
  exact ⟨e, hsub.subset he, hkey⟩

end Caps

namespace SeenStore

variable {κ : Type} [DecidableEq κ] {s : SeenStore κ} {o : κ} {id : MsgId} {expiry : UInt64}
  {key : κ × MsgId}

/-- A mark is remembered by a store, in its set or among what it persists. -/
def Remembers (s : SeenStore κ) (key : κ × MsgId) : Prop :=
  s.set.holds key.1 key.2 ∨ Persisted key s.entries

instance (s : SeenStore κ) (key : κ × MsgId) : Decidable (s.Remembers key) :=
  inferInstanceAs (Decidable (_ ∨ _))

omit [DecidableEq κ] in
theorem not_remembers_empty (config : SeenConfig) : ¬ (empty config).Remembers key := by
  rintro (⟨w, hw, -⟩ | ⟨e, he, -⟩)
  · cases hw
  · cases he

/-- Observing a message makes the store remember no other. -/
theorem remembers_of_observe (h : (s.observe o id expiry).2.Remembers key) :
    s.Remembers key ∨ key = (o, id) := by
  rw [observe] at h
  cases hobserve : s.set.observe o id with
  | mk outcome set =>
      have hset : ∀ {o' id'}, set.holds o' id' → s.set.holds o' id' ∨ (o', id') = (o, id) := by
        intro o' id' hheld
        apply SeenSet.holds_of_observe
        rw [hobserve]
        exact hheld
      rw [hobserve] at h
      cases outcome with
      | fresh =>
          obtain hheld | hpersisted := h
          · exact (hset hheld).imp_left .inl
          · obtain ⟨e, he, rfl⟩ := hpersisted.mono (enforceCaps_sublist _ _)
            obtain he | he := List.mem_append.mp he
            · exact .inl (.inr ⟨e, he, rfl⟩)
            · obtain rfl := List.mem_singleton.mp he
              exact .inr rfl
      | duplicate =>
          obtain hheld | hpersisted := h
          · exact (hset hheld).imp_left .inl
          · exact .inl (.inr hpersisted)

theorem remembers_of_duplicate (h : (s.observe o id expiry).1 = .duplicate) :
    s.Remembers (o, id) := by
  left
  apply SeenSet.holds_of_duplicate
  rw [observe] at h
  cases hobserve : s.set.observe o id with
  | mk outcome set =>
      rw [hobserve] at h
      cases outcome with
      | fresh => cases h
      | duplicate => rfl

theorem persisted_of_open {config : SeenConfig} {now : UInt64}
    {document : Option (List (SeenEntry κ))} (h : (open_ config now document).Remembers key) :
    Persisted key (document.getD []) := by
  unfold open_ at h
  cases document with
  | none => exact absurd h (not_remembers_empty config)
  | some entries =>
      have hfold : ∀ (l : List (SeenEntry κ)) (s : SeenStore κ),
          (l.foldl (fun store e => (store.observe e.origin e.msgId e.expiry).2) s).Remembers key →
          s.Remembers key ∨ Persisted key l := by
        intro l
        induction l with
        | nil => exact fun s hs => .inl hs
        | cons e l ih =>
            intro s hs
            obtain hs | ⟨e', he', hkey⟩ := ih _ hs
            · exact (remembers_of_observe hs).imp_right fun hkey => ⟨e, by simp, hkey.symm⟩
            · exact .inr ⟨e', List.mem_cons_of_mem e he', hkey⟩
      obtain hempty | hpersisted := hfold _ _ h
      · exact absurd hempty (not_remembers_empty config)
      · exact hpersisted.mono (retained_sublist _ _ _)

theorem remembers_of_document {now : UInt64} (h : Persisted key (s.document now)) :
    s.Remembers key := .inr (h.mono (retained_sublist _ _ _))

end SeenStore

end Cawala
