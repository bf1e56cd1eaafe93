import Cawala.Library.FirstIndex
import Cawala.Verification.LedgerService

/-! # The value index

The index that deduplicates value operations is rebuilt from the log: under the operator and the
nonce of an authorisation it holds the first issue or burn. Which keys a transaction adds to the
log, and what a delegated operation does when its key is there. -/

namespace Cawala

open Std (ExtTreeMap)
open Library Library.Transaction

variable [Crypto]

/-! ## Value keys -/

/-- The key of a value operation: who authorised it, and under which nonce. -/
abbrev ValueKey : Type := OperatorPubKey ×ₗ UInt64

def Entry.valueKey (e : Entry) : Option ValueKey :=
  match valueOperation e.body, e.auth with
  | some _, some auth => some (toLex (auth.operator, auth.nonce))
  | _, _ => none

def SignedEntry.valueKey (s : SignedEntry) : Option ValueKey := s.entry.valueKey

def valueKeys (entries : List SignedEntry) : List ValueKey :=
  entries.filterMap SignedEntry.valueKey

theorem valueKeys_snoc (entries : List SignedEntry) (s : SignedEntry) :
    valueKeys (entries ++ [s]) = valueKeys entries ++ s.valueKey.toList := by
  rw [valueKeys, List.filterMap_append]
  cases h : s.valueKey <;> simp [valueKeys, h]

/-! ## The keys a transaction adds -/

section Adding

variable {α β : Type} {added : Option ValueKey}

def Adds (added : Option ValueKey) (keys keys' : List ValueKey) : Prop :=
  keys' = keys ∨ ∃ k, added = some k ∧ keys' = keys ++ [k]

/-- A transaction adds at most one key to the log, whether it succeeds or fails. -/
def AddsKey (added : Option ValueKey) (x : Tx α) : Prop :=
  ∀ keys, Meets (fun desk => valueKeys desk.frames = keys) x
    (fun _ after => Adds added keys (valueKeys after.frames))
    (fun _ after => Adds added keys (valueKeys after.frames))

/-- A transaction adds no key to the log. -/
def KeepsKeys (x : Tx α) : Prop := ∀ keys, Keeps (fun desk => valueKeys desk.frames = keys) x

theorem KeepsKeys.addsKey {x : Tx α} (h : KeepsKeys x) : AddsKey added x := fun keys =>
  (h keys).mono (fun _ => id) (fun _ _ => Or.inl) (fun _ _ => Or.inl)

theorem AddsKey.keepsKeys {x : Tx α} (h : AddsKey none x) : KeepsKeys x := by
  intro keys
  have hsame : ∀ keys', Adds none keys keys' → keys' = keys := by
    intro keys' hkeys'
    rcases hkeys' with heq | ⟨k, hk, -⟩
    · exact heq
    · cases hk
  exact (h keys).mono (fun _ => id) (fun _ _ => hsame _) (fun _ _ => hsame _)

theorem KeepsKeys.bind {x : Tx α} {f : α → Tx β} (hx : KeepsKeys x) (hf : ∀ a, KeepsKeys (f a)) :
    KeepsKeys (x >>= f) := fun keys => Keeps.bind (hx keys) fun a => hf a keys

theorem KeepsKeys.bind_addsKey {x : Tx α} {f : α → Tx β} (hx : KeepsKeys x)
    (hf : ∀ a, AddsKey added (f a)) : AddsKey added (x >>= f) := by
  intro keys
  refine Meets.bind ((hx keys).mono (fun _ => id) (fun _ _ => id) (fun _ _ => Or.inl)) ?_
  intro a
  exact hf a keys

theorem AddsKey.bind_keepsKeys {x : Tx α} {f : α → Tx β} (hx : AddsKey added x)
    (hf : ∀ a, KeepsKeys (f a)) : AddsKey added (x >>= f) := by
  intro keys
  refine Meets.bind (hx keys) fun a => Meets.pointwise fun desk hdesk => ?_
  exact (hf a (valueKeys desk.frames)).mono (by rintro _ rfl; rfl)
    (fun _ after h => h.symm ▸ hdesk) (fun _ after h => h.symm ▸ hdesk)

theorem keepsKeys_pure (a : α) : KeepsKeys (pure a : Tx α) := fun _ => Keeps.pure a

theorem keepsKeys_get : KeepsKeys (get : Tx Desk) := fun _ => Keeps.get

theorem keepsKeys_refuseIf (c : Prop) [Decidable c] (e : ServiceError) :
    KeepsKeys (refuseIf c e : Tx PUnit) := fun _ => Keeps.refuseIf c e

theorem keepsKeys_ofExcept (x : Except ServiceError α) :
    KeepsKeys (Transaction.ofExcept x : Tx α) :=
  fun _ => Keeps.ofExcept x

theorem recordValue_keepsKeys {direction : ValueDirection} {account : NodeId} {amount : Amount}
    {operator : OperatorSecretKey} {nonce : UInt64} {applied : (UInt64 × Hash) × Hash} :
    KeepsKeys (recordValue direction account amount operator nonce applied) :=
  fun _ => Keeps.bind (Keeps.modify fun _ h => h) fun _ =>
    Keeps.bind Keeps.get fun _ => Keeps.pure _

end Adding

variable [Postcard]

/-! ## Rebuilding the index -/

/-- A record of the index describes an entry. -/
structure Records (s : SignedEntry) (r : ValueRecord) : Prop where
  operation : valueOperation s.entry.body = some (r.direction, r.account, r.amount)
  order : s.entry.auth.map (·.orderHash) = some r.orderHash
  seq : r.seq = s.entry.seq
  hash : entryHash s.entry = .ok r.entryHash

theorem indexValue_enters {index next : ValueIndex} {s : SignedEntry}
    (h : indexValue index s = .ok next) :
    Enters SignedEntry.valueKey Records index s next := by
  unfold indexValue at h
  cases hoperation : valueOperation s.entry.body with
  | none =>
      simp only [hoperation, pure_eq_ok] at h
      subst h
      exact .keyless (by simp [SignedEntry.valueKey, Entry.valueKey, hoperation])
  | some operation =>
      obtain ⟨direction, account, amount⟩ := operation
      cases hauth : s.entry.auth with
      | none =>
          simp only [hoperation, hauth, pure_eq_ok] at h
          subst h
          exact .keyless (by simp [SignedEntry.valueKey, Entry.valueKey, hauth])
      | some auth =>
          have hkey : s.valueKey = some (toLex (auth.operator, auth.nonce)) := by
            simp [SignedEntry.valueKey, Entry.valueKey, hoperation, hauth]
          simp only [hoperation, hauth, bind_eq_ok, pure_eq_ok,
            ExtTreeMap.contains_iff_mem] at h
          obtain ⟨hash, hhash, rfl⟩ := h
          split_ifs with hin
          · exact .known hkey hin
          · exact .fresh hkey hin ⟨hoperation, by rw [hauth]; rfl, rfl, hhash⟩

/-- The rebuilt index holds the first entry of each key. -/
theorem indexes_of_rebuild {ledger : Ledger} {index : ValueIndex}
    (h : rebuildValueIndex ledger = .ok index) :
    Indexes SignedEntry.valueKey Records ledger.log.entries index :=
  indexes_of_foldlM (fun _ _ _ hstep => indexValue_enters hstep) h

/-! ## Refreshing -/

section Refreshing

variable {key : LedgerSecretKey} {env : TxEnv} {desk : Desk} {frames : List SignedEntry}

/-- Accepted entries have hashes, so the guards can be rebuilt. -/
theorem load_exists (hlog : LogSound key frames) (hreadable : env.readable = true) :
    ∃ loaded, load env key frames = .ok loaded := by
  obtain ⟨ledger, hopen⟩ := hlog.loads
  have hreplay := openLedger_eq_ok.mp hopen
  have hentries := (parse_of_replay hreplay).2.1
  have hhash : ∀ s ∈ frames, ∃ hash, entryHash s.entry = .ok hash := by
    intro s hs
    obtain ⟨l, l', happend⟩ := foldlM_step_of_mem hreplay hs
    exact ⟨_, (append_spec happend).head⟩
  obtain ⟨consumed, hconsumed, -⟩ := foldlM_exists_of_prefix (f := consumeEntry) (l := frames)
    (P := fun _ _ => True) (s := ∅)
    (by
      intro d s rest consumed hd _
      obtain ⟨hash, hh⟩ := hhash s (by simp [hd])
      rw [consumeEntry_eq]
      cases hpayment : s.payment with
      | none => exact ⟨_, rfl, trivial⟩
      | some paymentId => exact ⟨_, bind_eq_ok.mpr ⟨hash, hh, rfl⟩, trivial⟩) trivial
  obtain ⟨index, hindex, -⟩ := foldlM_exists_of_prefix (f := indexValue) (l := frames)
    (P := fun _ _ => True) (s := ∅)
    (by
      intro d s rest index hd _
      obtain ⟨hash, hh⟩ := hhash s (by simp [hd])
      unfold indexValue
      cases valueOperation s.entry.body with
      | none => exact ⟨_, rfl, trivial⟩
      | some operation =>
          cases s.entry.auth with
          | none => exact ⟨_, rfl, trivial⟩
          | some auth => exact ⟨_, bind_eq_ok.mpr ⟨hash, hh, rfl⟩, trivial⟩) trivial
  refine ⟨(ledger, consumed, index), ?_⟩
  simp only [load, hreadable, Bool.not_true, Bool.false_eq_true, if_false, bind_eq_ok,
    tagged_eq_ok, pure_eq_ok]
  refine ⟨ledger, hopen, consumed, ?_, index, ?_, rfl⟩
  · rw [rebuildConsumed, hentries]
    exact hconsumed
  · rw [rebuildValueIndex, hentries]
    exact hindex

theorem exec_beginTransaction (env : TxEnv) (desk : Desk) : exec (beginTransaction env) desk =
    if env.locked = false then (.error .contended, desk)
    else match load env desk.service.key desk.frames with
      | .error e => (.error e, desk)
      | .ok (ledger, consumed, valueIndex) => (.ok ⟨⟩, { desk with
          service := { desk.service with
            ledger, isRoot := env.isRoot, consumed, valueIndex } }) := by
  rw [beginTransaction, exec_refuseIf_bind]
  split_ifs
  · rfl
  · rw [refreshFromDisk, exec_get_bind, exec_bind, exec_ofExcept]
    cases load env desk.service.key desk.frames with
    | error e => rfl
    | ok loaded => rfl

theorem beginTransaction_exists (hlog : LogSound key desk.frames) (hkey : desk.service.key = key)
    (hlocked : env.locked = true) (hreadable : env.readable = true) :
    ∃ began, exec (beginTransaction env) desk = (.ok ⟨⟩, began) := by
  obtain ⟨loaded, hload⟩ := load_exists hlog hreadable
  rw [exec_beginTransaction, hkey, hload, hlocked]
  exact ⟨_, rfl⟩

/-- A refresh leaves the log, and indexes it if it succeeds. -/
theorem beginTransaction_indexes (hkey : desk.service.key = key) {r : Except ServiceError PUnit}
    {began : Desk} (h : exec (beginTransaction env) desk = (r, began)) :
    began.frames = desk.frames ∧ (r = .ok ⟨⟩ →
      Indexes SignedEntry.valueKey Records desk.frames began.service.valueIndex) := by
  rw [exec_beginTransaction, hkey] at h
  split_ifs at h
  · obtain ⟨rfl, rfl⟩ := Prod.mk.inj h
    exact ⟨rfl, fun hr => by cases hr⟩
  · cases hload : load env key desk.frames with
    | error e =>
        rw [hload] at h
        obtain ⟨rfl, rfl⟩ := Prod.mk.inj h
        exact ⟨rfl, fun hr => by cases hr⟩
    | ok loaded =>
        obtain ⟨ledger, consumed, valueIndex⟩ := loaded
        rw [hload] at h
        obtain ⟨rfl, rfl⟩ := Prod.mk.inj h
        refine ⟨rfl, fun _ => ?_⟩
        have hopen := (load_eq_ok hload).1
        simp only [load, ite_error_eq_ok, bind_eq_ok, tagged_eq_ok, pure_eq_ok,
          Prod.mk.injEq] at hload
        obtain ⟨-, l, -, c, -, v, hindex, rfl, -, rfl⟩ := hload
        have hentries := (parse_of_replay (openLedger_eq_ok.mp hopen)).2.1
        exact hentries ▸ indexes_of_rebuild hindex

end Refreshing

/-! ## The keys of the transactions -/

section Keys

variable {env : TxEnv}

theorem appendSigned_addsKey (signed : SignedEntry) :
    AddsKey signed.valueKey (appendSigned env signed) := by
  intro keys
  refine Meets.pointwise fun desk hdesk => ?_
  refine (appendSigned_meets signed).mono (fun _ => id) ?_ ?_
  · intro u after hpushed
    obtain ⟨ledger, -, rfl⟩ := hpushed
    rw [Desk.push, valueKeys_snoc, hdesk]
    cases hkey : signed.valueKey with
    | none => exact Or.inl (List.append_nil _)
    | some k => exact Or.inr ⟨k, rfl, rfl⟩
  · intro e after hafter
    exact Or.inl (hafter ▸ hdesk)

theorem signAndAppend_addsKey {entry : Entry}
    {registry : LedgerService → Except ServiceError PeerRegistry}
    {verify : SignedEntry → PeerRegistry → Except LedgerError Unit} :
    AddsKey entry.valueKey (signAndAppend env entry registry verify) := by
  intro keys
  refine Meets.pointwise fun desk hdesk => ?_
  refine signAndAppend_meets.mono (fun _ => id) ?_ ?_
  · intro applied after happended
    obtain ⟨signed, happended⟩ := happended
    obtain ⟨ledger, -, rfl⟩ := happended.pushed
    rw [Desk.push, valueKeys_snoc, hdesk, SignedEntry.valueKey, happended.entry]
    cases hkey : entry.valueKey with
    | none => exact Or.inl (List.append_nil _)
    | some k => exact Or.inr ⟨k, rfl, rfl⟩
  · intro e after hafter
    exact Or.inl (hafter ▸ hdesk)

theorem signAndAppend_keepsKeys {entry : Entry}
    {registry : LedgerService → Except ServiceError PeerRegistry}
    {verify : SignedEntry → PeerRegistry → Except LedgerError Unit}
    (hnone : entry.valueKey = none) : KeepsKeys (signAndAppend env entry registry verify) := by
  apply AddsKey.keepsKeys
  rw [← hnone]
  exact signAndAppend_addsKey

theorem beginTransaction_keepsKeys : KeepsKeys (beginTransaction env) := by
  intro keys
  refine Keeps.of_exec fun desk hdesk => ?_
  have hframes : (exec (beginTransaction env) desk).2.frames = desk.frames :=
    (beginTransaction_indexes rfl Prod.mk.eta.symm).1
  rw [hframes]
  exact hdesk

theorem ensureAccountOpenInner_keepsKeys {child : NodeId} {kind : ChildKind} :
    KeepsKeys (ensureAccountOpenInner env child kind) := by
  refine keepsKeys_get.bind fun desk => ?_
  split_ifs
  · exact keepsKeys_pure _
  · refine AddsKey.keepsKeys ?_
    intro keys
    refine Meets.bind (Meets.ofExcept fun _ _ h => Or.inl h) fun signed => ?_
    refine Meets.pointwise fun s hs => ?_
    have hentry := sign_entry (tagged_eq_ok.mp hs.2)
    have hnone : signed.valueKey = none := by
      rw [SignedEntry.valueKey, hentry]
      rfl
    have happended : AddsKey signed.valueKey (appendSigned env signed) :=
      appendSigned_addsKey signed
    have hadds := happended.bind_keepsKeys fun _ => keepsKeys_pure true
    rw [hnone] at hadds
    exact (hadds keys).mono (by rintro _ rfl; exact hs.1) (fun _ _ => id) (fun _ _ => id)

theorem applyIssue_addsKey {account : NodeId} {amount : Amount} {operator : OperatorSecretKey}
    {nonce now : UInt64} : AddsKey (some (toLex (Crypto.pubKey operator, nonce)))
      (applyIssue env account amount operator nonce now) := by
  refine keepsKeys_get.bind_addsKey fun desk => ?_
  refine (keepsKeys_ofExcept _).bind_addsKey fun delta => ?_
  exact signAndAppend_addsKey.bind_keepsKeys fun _ => keepsKeys_pure _

theorem applyBurn_addsKey {account : NodeId} {amount : Amount} {operator : OperatorSecretKey}
    {nonce now : UInt64} : AddsKey (some (toLex (Crypto.pubKey operator, nonce)))
      (applyBurn env account amount operator nonce now) := by
  refine keepsKeys_get.bind_addsKey fun desk => ?_
  refine (keepsKeys_refuseIf _ _).bind_addsKey fun _ => ?_
  refine (keepsKeys_ofExcept _).bind_addsKey fun delta => ?_
  exact signAndAppend_addsKey.bind_keepsKeys fun _ => keepsKeys_pure _

theorem transferOnce_keepsKeys {order : PaymentOrder} {auth : AuthRef} {role : HopRole}
    {first second : AccountRef} {registry : LedgerService → Except ServiceError PeerRegistry}
    {now : UInt64} : KeepsKeys (transferOnce env order auth role first second registry now) := by
  refine keepsKeys_get.bind fun desk => ?_
  cases desk.service.consumed[order.hash]? with
  | some prior => exact keepsKeys_pure _
  | none =>
      refine (keepsKeys_ofExcept _).bind fun amount => ?_
      refine (signAndAppend_keepsKeys rfl).bind fun applied => ?_
      exact KeepsKeys.bind (fun _ => Keeps.modify fun _ h => h) fun _ => keepsKeys_pure _

theorem prefund_keepsKeys {child : NodeId} {kind : ChildKind} {amount : Amount}
    {operator : OperatorSecretKey} {nonce now : UInt64} :
    KeepsKeys (prefund env child kind amount operator nonce now) := by
  refine (keepsKeys_refuseIf _ _).bind fun _ => ?_
  refine beginTransaction_keepsKeys.bind fun _ => ?_
  refine keepsKeys_get.bind fun desk => ?_
  refine (keepsKeys_refuseIf _ _).bind fun _ => ?_
  refine (keepsKeys_refuseIf _ _).bind fun _ => ?_
  refine ensureAccountOpenInner_keepsKeys.bind fun _ => ?_
  refine (keepsKeys_ofExcept _).bind fun delta => ?_
  refine keepsKeys_get.bind fun desk => ?_
  refine (signAndAppend_keepsKeys rfl).bind fun applied => ?_
  exact KeepsKeys.bind (fun _ => Keeps.modify fun _ h => h) fun _ => keepsKeys_pure _

theorem edgeClose_keepsKeys {operator : OperatorSecretKey} {nonce now : UInt64} :
    KeepsKeys (edgeClose env operator nonce now) := by
  refine beginTransaction_keepsKeys.bind fun _ => ?_
  refine keepsKeys_get.bind fun desk => ?_
  by_cases hzero : desk.service.ledger.balances.parentBalance = 0
  · simp only [hzero, ↓reduceIte]
    exact keepsKeys_pure _
  · simp only [hzero, ↓reduceIte]
    refine (keepsKeys_refuseIf _ _).bind fun _ => ?_
    refine (keepsKeys_ofExcept _).bind fun delta => ?_
    exact (signAndAppend_keepsKeys rfl).bind fun _ => keepsKeys_pure _

end Keys

end Cawala
