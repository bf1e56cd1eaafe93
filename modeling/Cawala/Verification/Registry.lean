import Cawala.Model.Registry
import Cawala.Verification.Auth

/-! # Unique keys

Rows enter a registry through `insert` alone, also when it is decoded or rebuilt. So no key is
used twice, a signature names one node, and the encoded rows build the same registry again. -/

namespace Cawala

open Std (ExtTreeMap)
open Library Library.Transaction

variable [Crypto]

namespace PeerRegistry

variable {r r' next : PeerRegistry} {rows : List PeerKeys} {keys : PeerKeys}

/-! ## Rows -/

theorem get_of_mem (hr : r.Registered) (h : keys ∈ r.rows) : r.get keys.nodeId = some keys := by
  obtain ⟨id, hid⟩ := mem_rows_iff.mp h
  rw [hr.keyed id keys hid]
  exact hid

theorem ext_rows (hr : r.Registered) (hr' : r'.Registered) (h : r.rows.Perm r'.rows) :
    r = r' := by
  have hget : ∀ id keys, r.get id = some keys ↔ r'.get id = some keys := by
    intro id keys
    constructor
    · intro hid
      have hmem := h.mem_iff.mp (mem_rows_iff.mpr ⟨id, hid⟩)
      rw [← hr.keyed id keys hid]
      exact get_of_mem hr' hmem
    · intro hid
      have hmem := h.mem_iff.mpr (mem_rows_iff.mpr ⟨id, hid⟩)
      rw [← hr'.keyed id keys hid]
      exact get_of_mem hr hmem
  have hpeers : r.peers = r'.peers :=
    ExtTreeMap.ext_getElem? fun {id} => Option.ext (hget id)
  cases r
  cases r'
  exact congrArg _ hpeers

theorem rows_insert (h : r.insert keys = .ok next) : next.rows.Perm (keys :: r.rows) := by
  simp only [insert, ite_error_eq_ok, Except.ok.injEq] at h
  obtain ⟨-, -, -, hfresh, rfl⟩ := h
  have hnot : keys.nodeId ∉ r.peers := by simpa using hfresh
  exact (toList_insert_of_notMem hnot keys).map Prod.snd

theorem insert_ok (hr : r.Registered) (hrole : roleLedgerOk keys = true)
    (hid : keys.nodeId ∉ r.rows.map (·.nodeId))
    (hoperator : keys.operator ∉ r.rows.map (·.operator))
    (hledger : ∀ key, keys.ledger = some key → key ∉ r.rows.filterMap (·.ledger)) :
    ∃ next, r.insert keys = .ok next := by
  refine ⟨{ peers := r.peers.insert keys.nodeId keys }, ?_⟩
  simp only [insert, ite_error_eq_ok]
  refine ⟨by simp [hrole], ?_, ?_, ?_, trivial⟩
  · intro h
    obtain ⟨row, hrow, heq⟩ := List.any_eq_true.mp h
    exact hoperator (List.mem_map.mpr ⟨row, hrow, by simpa using heq⟩)
  · intro h
    simp only [Bool.and_eq_true, List.any_eq_true, beq_iff_eq] at h
    obtain ⟨hsome, row, hrow, -, heq⟩ := h
    obtain ⟨key, hkey⟩ := Option.isSome_iff_exists.mp hsome
    exact hledger key hkey (List.mem_filterMap.mpr ⟨row, hrow, heq.trans hkey⟩)
  · intro h
    obtain ⟨row, hrow⟩ := Option.isSome_iff_exists.mp
      (ExtTreeMap.mem_iff_isSome_getElem?.mp (ExtTreeMap.contains_iff_mem.mp h))
    have hkeyed := hr.keyed keys.nodeId row hrow
    exact hid (List.mem_map.mpr ⟨row, mem_rows_iff.mpr ⟨_, hrow⟩, hkeyed⟩)

/-! ## Decoding -/

theorem deserialize_built (h : deserialize rows = .ok r) : Built r :=
  foldlM_induction (P := fun _ r => Built r) (d := []) (fun _ _ _ _ hr hstep => hr.insert hstep)
    .new h

/-- A decoded registry holds the decoded rows. -/
theorem rows_deserialize (h : deserialize rows = .ok r) : r.rows.Perm rows := by
  have hperm := foldlM_induction (P := fun done r => r.rows.Perm done) (d := [])
    (fun done keys r next hdone hstep =>
      (rows_insert hstep).trans ((hdone.cons keys).trans (List.perm_append_singleton _ _).symm))
    (List.Perm.refl []) h
  simpa using hperm

/-- Rows without a repetition. -/
structure Distinct (rows : List PeerKeys) : Prop where
  roles : ∀ keys ∈ rows, roleLedgerOk keys = true
  ids : (rows.map (·.nodeId)).Nodup
  operators : (rows.map (·.operator)).Nodup
  ledgers : (rows.filterMap (·.ledger)).Nodup

/-- Rows without a repetition can be decoded. -/
theorem deserialize_ok (h : Distinct rows) : ∃ r, deserialize rows = .ok r := by
  induction rows using List.reverseRecOn with
  | nil => exact ⟨new, rfl⟩
  | append_singleton rows keys ih =>
      obtain ⟨hroles, hids, hoperators, hledgers⟩ := h
      rw [List.map_append, List.nodup_append] at hids hoperators
      rw [List.filterMap_append, List.nodup_append] at hledgers
      obtain ⟨r, hr⟩ := ih
        ⟨fun keys hkeys => hroles keys (List.mem_append_left _ hkeys), hids.1, hoperators.1,
          hledgers.1⟩
      have hrows := rows_deserialize hr
      obtain ⟨next, hnext⟩ := insert_ok (registered_of_built (deserialize_built hr))
        (hroles keys (List.mem_append_right _ (List.mem_singleton_self keys)))
        (fun hmem => hids.2.2 _ ((hrows.map _).mem_iff.mp hmem) _ (by simp) rfl)
        (fun hmem => hoperators.2.2 _ ((hrows.map _).mem_iff.mp hmem) _ (by simp) rfl)
        (fun key hkey hmem => hledgers.2.2 _ ((hrows.filterMap _).mem_iff.mp hmem) _
          (by simp [hkey]) rfl)
      refine ⟨next, ?_⟩
      rw [deserialize, List.foldlM_append, bind_eq_ok]
      exact ⟨r, hr, foldlM_cons_eq_ok.mpr ⟨next, hnext, rfl⟩⟩

theorem Registered.distinct (hr : r.Registered) : Distinct r.rows := by
  have hids : (r.rows.map (·.nodeId)).Nodup := by
    have hkeys : r.rows.map (·.nodeId) = r.peers.toList.map Prod.fst := by
      rw [rows, List.map_map]
      apply List.map_congr_left
      intro e he
      exact hr.keyed e.1 e.2 (ExtTreeMap.mem_toList_iff_getElem?_eq_some.mp he)
    rw [hkeys, ExtTreeMap.map_fst_toList_eq_keys]
    exact ExtTreeMap.nodup_keys
  have hrows : r.rows.Nodup := List.Nodup.of_map _ hids
  -- two rows with the same id are one
  have hsame : ∀ row ∈ r.rows, ∀ row' ∈ r.rows, row.nodeId = row'.nodeId → row = row' := by
    intro row hrow row' hrow' hid
    have hget := get_of_mem hr hrow
    rw [hid, get_of_mem hr hrow'] at hget
    exact (Option.some.inj hget).symm
  refine ⟨?_, hids, ?_, ?_⟩
  · intro keys hkeys
    exact hr.role _ keys (get_of_mem hr hkeys)
  · apply List.Nodup.map_on _ hrows
    intro row hrow row' hrow' heq
    exact hsame row hrow row' hrow'
      (hr.operator _ _ _ _ (get_of_mem hr hrow) (get_of_mem hr hrow') heq)
  · rw [List.Nodup, List.pairwise_filterMap]
    apply hrows.pairwise_of_forall_ne
    intro row hrow row' hrow' hne key hkey key' hkey' heq
    subst heq
    exact hne (hsame row hrow row' hrow'
      (hr.ledger _ _ _ _ key (get_of_mem hr hrow) (get_of_mem hr hrow') hkey hkey'))

/-- What is encoded is decoded again. -/
theorem deserialize_serialize (hr : r.Registered) : deserialize r.serialize = .ok r := by
  obtain ⟨r', hr'⟩ := deserialize_ok hr.distinct
  rw [serialize, hr', Except.ok.injEq]
  exact ext_rows (registered_of_built (deserialize_built hr')) hr (rows_deserialize hr')

/-! ## Replacing a ledger key -/

def rekeyed (node : NodeId) (ledger : Option LedgerPubKey) (row : PeerKeys) : PeerKeys :=
  if row.nodeId = node then { row with ledger } else row

theorem nodeId_rekeyed (node : NodeId) (ledger : Option LedgerPubKey) (row : PeerKeys) :
    (rekeyed node ledger row).nodeId = row.nodeId := by
  unfold rekeyed
  split
  · rfl
  · rfl

theorem deserialize_of_replace {node : NodeId} {ledger : Option LedgerPubKey}
    (h : ControlNode.replacePeerLedger r node ledger = .ok next) :
    deserialize (r.rows.map (rekeyed node ledger)) = .ok next := by
  have hrows : r.rows.map (fun row => if row.nodeId = node then { row with ledger } else row)
      = r.rows.map (rekeyed node ledger) := rfl
  unfold deserialize
  cases hrebuilt : (r.rows.map (rekeyed node ledger)).foldlM insert new with
  | error e =>
      simp only [ControlNode.replacePeerLedger, hrows, hrebuilt] at h
      cases h
  | ok rebuilt =>
      simp only [ControlNode.replacePeerLedger, hrows, hrebuilt] at h
      rw [Except.ok.inj h]

/-- A replacement changes the ledger key of the named row and nothing else. -/
theorem get_replacePeerLedger (hr : r.Registered) {node : NodeId} {ledger : Option LedgerPubKey}
    (h : ControlNode.replacePeerLedger r node ledger = .ok next) (id : NodeId) :
    next.get id = (r.get id).map (rekeyed node ledger) := by
  have hdecoded := deserialize_of_replace h
  have hnext := registered_of_built (deserialize_built hdecoded)
  have hrows := rows_deserialize hdecoded
  ext row
  rw [Option.map_eq_some_iff]
  constructor
  · intro hrow
    have hmem := hrows.mem_iff.mp (mem_rows_iff.mpr ⟨id, hrow⟩)
    obtain ⟨old, hold, rfl⟩ := List.mem_map.mp hmem
    have hid := hnext.keyed id _ hrow
    rw [nodeId_rekeyed] at hid
    exact ⟨old, hid ▸ get_of_mem hr hold, rfl⟩
  · intro hold
    obtain ⟨old, hold, rfl⟩ := hold
    have hmem := hrows.mem_iff.mpr
      (List.mem_map_of_mem (mem_rows_iff.mpr ⟨id, hold⟩))
    have hget := get_of_mem hnext hmem
    rwa [nodeId_rekeyed, hr.keyed id old hold] at hget

/-! ## Calls -/

theorem built_of_call {call : RegistryCall} (hr : Built r) (h : call.built r = .ok next) :
    Built next := by
  cases call with
  | insert keys => exact hr.insert (mapError_eq_ok.mp h)
  | deserialize rows => exact deserialize_built (mapError_eq_ok.mp h)
  | replacePeerLedger node ledger =>
      exact deserialize_built (deserialize_of_replace (mapError_eq_ok.mp h))

/-- A call that fails changes nothing. -/
theorem exec_perform (call : RegistryCall) (r : PeerRegistry) :
    (∃ e, call.built r = .error e ∧ exec call.perform r = (.error e, r))
    ∨ ∃ next, call.built r = .ok next ∧ exec call.perform r = (.ok ⟨⟩, next) := by
  rw [RegistryCall.perform, exec_get_bind, exec_bind, exec_ofExcept]
  cases call.built r with
  | error e => exact Or.inl ⟨e, rfl, rfl⟩
  | ok next => exact Or.inr ⟨next, rfl, rfl⟩

/-- Every run of calls leaves a registry that insertions build. -/
theorem after_built (hr : Built r) (calls : List RegistryCall) : Built (r.after calls) := by
  induction calls generalizing r with
  | nil => exact hr
  | cons call calls ih =>
      have hstep : Built (exec call.perform r).2 := by
        rcases exec_perform call r with ⟨e, -, hexec⟩ | ⟨next, hbuilt, hexec⟩
        · rw [hexec]
          exact hr
        · rw [hexec]
          exact built_of_call hr hbuilt
      exact ih hstep

/-! ## The law -/

variable [Postcard]

/-- No key is used twice, so a signature names its signer. -/
structure UniqueKeys (r : PeerRegistry) : Prop where
  operators : (r.rows.map (·.operator)).Nodup
  ledgers : (r.rows.filterMap (·.ledger)).Nodup
  roles : ∀ row ∈ r.rows, row.ledger.isSome ↔ row.role = .node
  entries : ∀ s row, r.verifyEntry s = .ok row → row ∈ r.rows
    ∧ ∀ row' ∈ r.rows, ∀ key, row'.ledger = some key → s.verify key = .ok () → row' = row
  commitments : ∀ s row, r.verifyCommitment s = .ok row → row ∈ r.rows
    ∧ ∀ row' ∈ r.rows, ∀ key, row'.ledger = some key → s.verify key = .ok () → row' = row

omit [Postcard] in
theorem roleLedgerOk_iff {row : PeerKeys} :
    roleLedgerOk row = true ↔ (row.ledger.isSome ↔ row.role = .node) := by
  unfold roleLedgerOk
  cases row.role <;> cases row.ledger <;> simp

omit [Postcard] in
theorem Registered.eq_of_ledger (hr : r.Registered) {row row' : PeerKeys} {key : LedgerPubKey}
    (h : row ∈ r.rows) (h' : row' ∈ r.rows) (hkey : row.ledger = some key)
    (hkey' : row'.ledger = some key) : row' = row := by
  have hid := hr.ledger _ _ _ _ key (get_of_mem hr h) (get_of_mem hr h') hkey hkey'
  have hget := get_of_mem hr h
  rw [hid, get_of_mem hr h'] at hget
  exact Option.some.inj hget

omit [Postcard] in
theorem peerByLedger_spec {key : LedgerPubKey} {row : PeerKeys}
    (h : r.peerByLedger key = some row) : row ∈ r.rows ∧ row.ledger = some key :=
  ⟨List.mem_of_find?_eq_some h, by simpa using List.find?_some h⟩

theorem Registered.uniqueKeys (hr : r.Registered) : r.UniqueKeys where
  operators := hr.distinct.operators
  ledgers := hr.distinct.ledgers
  roles := fun row hrow => roleLedgerOk_iff.mp (hr.distinct.roles row hrow)
  entries := by
    intro s row h
    obtain ⟨hget, hledger, -⟩ := (verifyEntry_eq_ok hr).mp h
    have hrow := mem_rows_iff.mpr ⟨_, hget⟩
    refine ⟨hrow, ?_⟩
    intro row' hrow' key hkey hverify
    simp only [SignedEntry.verify, ite_error_eq_ok, not_not] at hverify
    exact hr.eq_of_ledger hrow hrow' hledger (hverify.1 ▸ hkey)
  commitments := by
    intro s row h
    unfold verifyCommitment at h
    split at h
    · cases h
    · rename_i peer hpeer
      obtain ⟨hrow, hledger⟩ := peerByLedger_spec hpeer
      simp only [hledger, bind_eq_ok, pure_eq_ok] at h
      obtain ⟨-, -, rfl⟩ := h
      refine ⟨hrow, ?_⟩
      intro row' hrow' key hkey hverify
      simp only [SignedCommitment.verify, ite_error_eq_ok, not_or, not_not] at hverify
      exact hr.eq_of_ledger hrow hrow' hledger (hverify.1.2 ▸ hkey)

/-- In every run of insertions, decodings and replacements: keys are unique; a call that fails
changes nothing; a replacement that succeeds changes the ledger key of the named row alone; and
what is encoded is decoded again. -/
theorem peer_registry_law (calls : List RegistryCall) :
    let r := PeerRegistry.new.after calls
    r.UniqueKeys
      ∧ (∀ (call : RegistryCall) e, (exec call.perform r).1 = .error e →
        (exec call.perform r).2 = r)
      ∧ (∀ node ledger next,
          exec (RegistryCall.replacePeerLedger node ledger).perform r = (.ok ⟨⟩, next) →
          ∀ id, next.get id = (r.get id).map (rekeyed node ledger))
      ∧ deserialize r.serialize = .ok r := by
  intro r
  have hr : r.Registered := registered_of_built (after_built .new calls)
  refine ⟨hr.uniqueKeys, ?_, ?_, deserialize_serialize hr⟩
  · intro call e herror
    rcases exec_perform call r with ⟨e', -, hexec⟩ | ⟨next, -, hexec⟩
    · rw [hexec]
    · rw [hexec] at herror
      cases herror
  · intro node ledger next hexec id
    rcases exec_perform (.replacePeerLedger node ledger) r with ⟨e, -, herror⟩
      | ⟨next', hbuilt, hok⟩
    · rw [herror] at hexec
      cases hexec
    · rw [hok, Prod.mk.injEq] at hexec
      exact hexec.2 ▸ get_replacePeerLedger hr (mapError_eq_ok.mp hbuilt) id

end PeerRegistry

end Cawala
