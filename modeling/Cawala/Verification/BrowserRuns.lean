import Cawala.Verification.BrowserClient
import Cawala.Verification.Inclusion
import Cawala.Verification.SettleProof

/-! # Runs of a browser client

What the verified balance, the reported payments and the pinned leaves of a browser are
after any sequence of calls. -/

namespace Cawala

open Library

section

variable [Crypto] [Postcard] {target : Target} {s : LedgerStateV1}

/-! ## Runs -/

structure Transition where
  before : LedgerStateV1
  call : ClientCall
  event : Option LedgerEvent
  after : LedgerStateV1

def runClient (target : Target) : LedgerStateV1 → List ClientCall → Option (List Transition)
  | _, [] => some []
  | s, call :: calls =>
      match call.perform target s with
      | none => none
      | some (event, after) =>
          (runClient target after calls).map ({ before := s, call, event, after } :: ·)

def Transition.Performed (target : Target) (t : Transition) : Prop :=
  t.call.perform target t.before = some (t.event, t.after)

theorem runClient_cons {call : ClientCall} {calls : List ClientCall} {ts : List Transition}
    (h : runClient target s (call :: calls) = some ts) :
    ∃ event after rest, call.perform target s = some (event, after)
      ∧ runClient target after calls = some rest
      ∧ ts = { before := s, call, event, after } :: rest := by
  rw [runClient] at h
  rcases hstep : call.perform target s with _ | ⟨event, after⟩
  · simp [hstep] at h
  · simp only [hstep, Option.map_eq_some_iff] at h
    obtain ⟨rest, hrest, rfl⟩ := h
    exact ⟨event, after, rest, rfl, hrest, rfl⟩

theorem performed_of_run {calls : List ClientCall} {ts : List Transition}
    (h : runClient target s calls = some ts) : ∀ t ∈ ts, t.Performed target := by
  induction calls generalizing s ts with
  | nil =>
      cases h
      intro t ht
      cases ht
  | cons call calls ih =>
      obtain ⟨event, after, rest, hstep, hrest, rfl⟩ := runClient_cons h
      intro t ht
      rcases List.mem_cons.mp ht with rfl | ht
      · exact hstep
      · exact ih hrest t ht

theorem call_mem_of_run {calls : List ClientCall} {ts : List Transition}
    (h : runClient target s calls = some ts) : ∀ t ∈ ts, t.call ∈ calls := by
  induction calls generalizing s ts with
  | nil =>
      cases h
      intro t ht
      cases ht
  | cons call calls ih =>
      obtain ⟨event, after, rest, hstep, hrest, rfl⟩ := runClient_cons h
      intro t ht
      rcases List.mem_cons.mp ht with rfl | ht
      · exact List.mem_cons_self
      · exact List.mem_cons_of_mem _ (ih hrest t ht)

/-- The calls that leave the routing leaf and its pinned key as they are. -/
def ClientCall.KeepsParent : ClientCall → Prop
  | .rebindParent _ | .clearParentBinding => False
  | .acceptPinChange parent nodeId => parent ≠ some nodeId
  | _ => True

omit [Postcard] in
theorem acceptLeafKeyChange_keeps (s : LedgerStateV1) (nodeId : NodeId) :
    (s.acceptLeafKeyChange nodeId).2.activity = s.activity
      ∧ (s.acceptLeafKeyChange nodeId).2.settlements = s.settlements
      ∧ (s.acceptLeafKeyChange nodeId).2.balance = s.balance
      ∧ (s.acceptLeafKeyChange nodeId).2.pinnedLedger = s.pinnedLedger := by
  rw [LedgerStateV1.acceptLeafKeyChange]
  cases s.leafKeyChange nodeId <;> exact ⟨rfl, rfl, rfl, rfl⟩

omit [Postcard] in
theorem acceptPinnedLedgerChange_keeps (s : LedgerStateV1) (parent : NodeId) :
    (s.acceptPinnedLedgerChange parent).2.activity = s.activity
      ∧ (s.acceptPinnedLedgerChange parent).2.settlements = s.settlements := by
  rw [LedgerStateV1.acceptPinnedLedgerChange]
  cases s.leafKeyChange parent <;> exact ⟨rfl, rfl⟩

theorem tryRecv_of_perform {selfNode : NodeId} {parent : Option NodeId}
    {payload : Option VersionedLedgerPayload} {now : UInt64} {event : Option LedgerEvent}
    {after : LedgerStateV1}
    (h : (ClientCall.receive selfNode parent payload now).perform target s
      = some (event, after)) :
    ∃ e, event = some e
      ∧ tryRecvLedgerEvent target s selfNode parent payload now = some (e, after) := by
  rw [ClientCall.perform] at h
  rcases hreceive : tryRecvLedgerEvent target s selfNode parent payload now with _ | ⟨e, after'⟩
  · simp [hreceive] at h
  · simp only [hreceive, Option.some.injEq, Prod.mk.injEq] at h
    obtain ⟨rfl, rfl⟩ := h
    exact ⟨e, rfl, rfl⟩

/-- A call other than the delivery of a message reports no event and records no outcome. -/
theorem perform_cases {call : ClientCall} {event : Option LedgerEvent} {after : LedgerStateV1}
    (h : call.perform target s = some (event, after)) :
    (event = none ∧ after.activity = s.activity ∧ after.settlements = s.settlements
        ∧ (call.KeepsParent → after.balance = s.balance ∧ after.pinnedLedger = s.pinnedLedger))
      ∨ ∃ selfNode parent payload now e, call = .receive selfNode parent payload now
        ∧ event = some e ∧ Received target s payload e after := by
  cases call with
  | sendPayment order auth now selfAddr payeeAddr =>
      simp only [ClientCall.perform, Option.some.injEq, Prod.mk.injEq] at h
      obtain ⟨rfl, rfl⟩ := h
      exact .inl ⟨rfl, rfl, rfl, fun _ => ⟨rfl, rfl⟩⟩
  | pinPayeeLeaf nodeId ledger =>
      simp only [ClientCall.perform, Option.some.injEq, Prod.mk.injEq] at h
      obtain ⟨rfl, rfl⟩ := h
      left
      rw [LedgerStateV1.pinLeafKeyFromReceive]
      cases s.pinnedLeafKey nodeId with
      | none => exact ⟨rfl, rfl, rfl, fun _ => ⟨rfl, rfl⟩⟩
      | some existing =>
          dsimp only
          by_cases heq : existing = ledger
          · rw [if_pos heq]
            exact ⟨rfl, rfl, rfl, fun _ => ⟨rfl, rfl⟩⟩
          · rw [if_neg heq]
            exact ⟨rfl, rfl, rfl, fun _ => ⟨rfl, rfl⟩⟩
  | confirmPin parent nodeId =>
      simp only [ClientCall.perform, Option.some.injEq, Prod.mk.injEq] at h
      obtain ⟨rfl, rfl⟩ := h
      left
      by_cases hparent : parent = some nodeId
      · by_cases hpin : s.pinnedLedger.isSome = true
        · simp [confirmPin, hparent, LedgerStateV1.confirmPinnedLedger, hpin,
            LedgerStateV1.confirmLeafPin, LedgerStateV1.clearLeafKeyChanges]
        · simp [confirmPin, hparent, LedgerStateV1.confirmPinnedLedger, hpin,
            LedgerStateV1.confirmLeafPin, LedgerStateV1.clearLeafKeyChanges]
      · simp [confirmPin, hparent, LedgerStateV1.confirmLeafPin,
          LedgerStateV1.clearLeafKeyChanges]
  | acceptPinChange parent nodeId =>
      simp only [ClientCall.perform, Option.some.injEq, Prod.mk.injEq] at h
      obtain ⟨rfl, rfl⟩ := h
      left
      rw [acceptPinChange]
      by_cases hparent : parent = some nodeId
      · rw [if_pos hparent]
        obtain ⟨h₁, h₂⟩ := acceptPinnedLedgerChange_keeps s nodeId
        obtain ⟨g₁, g₂, -, -⟩ :=
          acceptLeafKeyChange_keeps (s.acceptPinnedLedgerChange nodeId).2 nodeId
        exact ⟨rfl, g₁.trans h₁, g₂.trans h₂, fun hkeeps => absurd hparent hkeeps⟩
      · rw [if_neg hparent]
        obtain ⟨h₁, h₂, h₃, h₄⟩ := acceptLeafKeyChange_keeps s nodeId
        exact ⟨rfl, h₁, h₂, fun _ => ⟨h₃, h₄⟩⟩
  | rebindParent ledger =>
      simp only [ClientCall.perform, Option.some.injEq, Prod.mk.injEq] at h
      obtain ⟨rfl, rfl⟩ := h
      exact .inl ⟨rfl, rfl, rfl, fun hkeeps => hkeeps.elim⟩
  | clearParentBinding =>
      simp only [ClientCall.perform, Option.some.injEq, Prod.mk.injEq] at h
      obtain ⟨rfl, rfl⟩ := h
      exact .inl ⟨rfl, rfl, rfl, fun hkeeps => hkeeps.elim⟩
  | receive selfNode parent payload now =>
      obtain ⟨e, hevent, hreceive⟩ := tryRecv_of_perform h
      exact .inr ⟨selfNode, parent, payload, now, e, rfl, hevent,
        tryRecvLedgerEvent_received hreceive⟩

/-! ## The verified balance -/

def LedgerEvent.balance : LedgerEvent → Option VerifiedBalanceV1
  | .orderResult app => app.balance
  | .settlement app => app.balance
  | .balanceReceipt balance => some balance
  | .invalid _ => none

def VersionedLedgerPayload.receipt : VersionedLedgerPayload → Option BalanceReceiptV1
  | .orderResultV1 result => result.balance
  | .balanceReceiptV1 receipt => some receipt
  | .orderResultV2 result => result.balance
  | .orderResultV3 result => result.balance
  | .other => none

def ClientCall.receipt : ClientCall → Option BalanceReceiptV1
  | .receive _ _ (some payload) _ => payload.receipt
  | _ => none

def Transition.accepted (t : Transition) : Option VerifiedBalanceV1 :=
  t.event.bind LedgerEvent.balance

/-- What a call accepts comes from a delivered receipt that verifies under the pinned key. -/
def Transition.Attested (target : Target) (t : Transition) : Prop :=
  ∀ balance, t.accepted = some balance → ∃ receipt, t.call.receipt = some receipt
    ∧ receipt.verified = balance ∧ t.after.pinnedLedger = some receipt.ledgerPubkey
    ∧ verifyBalanceAttestation target receipt.attestation receipt.commitment
        receipt.ledgerPubkey = some (.ok ())

omit [Postcard] in
theorem Genuine.attested_map {before after : LedgerStateV1} {offered : Option BalanceReceiptV1}
    (h : Genuine target before after offered) {balance : VerifiedBalanceV1}
    (hmap : offered.map BalanceReceiptV1.verified = some balance) :
    ∃ receipt, offered = some receipt ∧ receipt.verified = balance
      ∧ after.pinnedLedger = some receipt.ledgerPubkey
      ∧ verifyBalanceAttestation target receipt.attestation receipt.commitment
          receipt.ledgerPubkey = some (.ok ()) := by
  obtain ⟨receipt, hoffered, hverified⟩ := Option.map_eq_some_iff.mp hmap
  exact ⟨receipt, hoffered, hverified, h.pinned receipt hoffered, h.attested receipt hoffered⟩

/-- Under one parent, a call stores the balance it accepts, and otherwise keeps the stored
one; the pinned key stays. -/
theorem Transition.Performed.balance {t : Transition} (h : t.Performed target)
    (hkeeps : t.call.KeepsParent) :
    t.after.balance = t.accepted.or t.before.balance ∧ t.Attested target
      ∧ ∀ key, t.before.pinnedLedger = some key → t.after.pinnedLedger = some key := by
  obtain ⟨before, call, event, after⟩ := t
  rcases perform_cases h with ⟨hevent, -, -, hkept⟩
    | ⟨self, parent, payload, now, e, hcall, hevent, hreceived⟩
  · dsimp only at hevent hkept hkeeps
    subst hevent
    obtain ⟨hbalance, hledger⟩ := hkept hkeeps
    refine ⟨hbalance, ?_, fun key hkey => hledger.trans hkey⟩
    intro balance haccepted
    cases haccepted
  · dsimp only at hcall hevent hreceived
    subst hcall hevent
    cases hreceived with
    | refused _ _ _ hunmoved hledger =>
        refine ⟨hunmoved.balance, ?_, fun key hkey => hledger.trans hkey⟩
        intro balance haccepted
        cases haccepted
    | receipt r _ hgenuine hbalance =>
        refine ⟨hbalance, ?_, hgenuine.keeps⟩
        intro balance haccepted
        exact hgenuine.attested_map haccepted
    | order result app _ _ hgenuine hoffered hbalance =>
        refine ⟨hbalance, ?_, hgenuine.keeps⟩
        intro balance haccepted
        exact hgenuine.attested_map (hoffered.symm.trans haccepted)
    | settlement payload result app _ _ hsettles hgenuine hoffered hbalance =>
        refine ⟨hbalance, ?_, hgenuine.keeps⟩
        intro balance haccepted
        have hattested := hgenuine.attested_map (hoffered.symm.trans haccepted)
        rcases hsettles with rfl | ⟨-, rfl⟩ <;> exact hattested

/-- The stored balance, if there is one, is followed by one of no lower height. -/
def NotLower (a b : Option VerifiedBalanceV1) : Prop :=
  ∀ x, a = some x → ∃ y, b = some y ∧ x.height ≤ y.height

def stateAfter (s : LedgerStateV1) (ts : List Transition) : LedgerStateV1 :=
  ts.getLast?.elim s Transition.after

/-- The stored balance at first, and then those of the accepted receipts. -/
def receivedBalances (s : LedgerStateV1) (ts : List Transition) : List VerifiedBalanceV1 :=
  s.balance.toList ++ ts.filterMap Transition.accepted

omit [Postcard] in
theorem NotLower.refl (a : Option VerifiedBalanceV1) : NotLower a a := by
  intro x hx
  exact ⟨x, hx, UInt64.le_refl _⟩

omit [Postcard] in
theorem NotLower.trans {a b c : Option VerifiedBalanceV1} (hab : NotLower a b)
    (hbc : NotLower b c) : NotLower a c := by
  intro x hx
  obtain ⟨y, hy, hxy⟩ := hab x hx
  obtain ⟨z, hz, hyz⟩ := hbc y hy
  exact ⟨z, hz, UInt64.le_trans hxy hyz⟩

omit [Postcard] in
theorem notLower_some {x y : VerifiedBalanceV1} :
    NotLower (some x) (some y) ↔ x.height ≤ y.height := by
  constructor
  · intro h
    obtain ⟨z, hz, hle⟩ := h x rfl
    cases hz
    exact hle
  · intro h w hw
    cases hw
    exact ⟨y, rfl, h⟩

/-- One call either accepts nothing, and adds nothing, or stores what it accepts. -/
theorem received_cons {call : ClientCall} {event : Option LedgerEvent} {after : LedgerStateV1}
    {rest : List Transition} (hperform : call.perform target s = some (event, after))
    (hkeeps : call.KeepsParent) :
    (after.balance = s.balance
        ∧ receivedBalances s ({ before := s, call, event, after } :: rest)
          = receivedBalances after rest)
      ∨ ∃ balance, after.balance = some balance
        ∧ receivedBalances s ({ before := s, call, event, after } :: rest)
          = s.balance.toList ++ receivedBalances after rest := by
  have hperformed : Transition.Performed target { before := s, call, event, after } := hperform
  obtain ⟨hbalance, -, -⟩ := hperformed.balance hkeeps
  dsimp only at hbalance
  cases haccepted : Transition.accepted { before := s, call, event, after } with
  | none =>
      rw [haccepted, Option.none_or] at hbalance
      left
      refine ⟨hbalance, ?_⟩
      rw [receivedBalances, List.filterMap_cons_none haccepted, receivedBalances, hbalance]
  | some balance =>
      rw [haccepted, Option.some_or] at hbalance
      right
      refine ⟨balance, hbalance, ?_⟩
      rw [receivedBalances, List.filterMap_cons_some haccepted, receivedBalances, hbalance]
      rfl

theorem stateAfter_balance {calls : List ClientCall} {ts : List Transition}
    (hkeeps : ∀ call ∈ calls, call.KeepsParent) (hrun : runClient target s calls = some ts) :
    (stateAfter s ts).balance = (receivedBalances s ts).getLast? := by
  induction calls generalizing s ts with
  | nil =>
      cases hrun
      cases hbalance : s.balance <;> simp [stateAfter, receivedBalances, hbalance]
  | cons call calls ih =>
      obtain ⟨event, after, rest, hstep, hrest, rfl⟩ := runClient_cons hrun
      have hlast : stateAfter s ({ before := s, call, event, after } :: rest)
          = stateAfter after rest := by
        cases rest with
        | nil => rfl
        | cons t rest => simp [stateAfter, List.getLast?_cons]
      have hrec := ih (fun c hc => hkeeps c (List.mem_cons_of_mem _ hc)) hrest
      rw [hlast, hrec]
      rcases received_cons hstep (hkeeps call List.mem_cons_self)
        with ⟨-, heq⟩ | ⟨balance, hbalance, heq⟩
      · rw [heq]
      · have hne : receivedBalances after rest ≠ [] := by simp [receivedBalances, hbalance]
        rw [heq, List.getLast?_append_of_ne_nil _ hne]

/-- The stored height never falls exactly when the receipts are accepted in the order of the
heights they attest. -/
theorem isChain_stored_iff {calls : List ClientCall} {ts : List Transition}
    (hkeeps : ∀ call ∈ calls, call.KeepsParent) (hrun : runClient target s calls = some ts) :
    (s.balance :: ts.map fun t => t.after.balance).IsChain NotLower
      ↔ (receivedBalances s ts).IsChain fun x y => x.height ≤ y.height := by
  induction calls generalizing s ts with
  | nil =>
      cases hrun
      cases hbalance : s.balance <;> simp [receivedBalances, hbalance]
  | cons call calls ih =>
      obtain ⟨event, after, rest, hstep, hrest, rfl⟩ := runClient_cons hrun
      have hrec := ih (fun c hc => hkeeps c (List.mem_cons_of_mem _ hc)) hrest
      rw [List.map_cons, List.isChain_cons_cons, hrec]
      rcases received_cons hstep (hkeeps call List.mem_cons_self)
        with ⟨hsame, heq⟩ | ⟨balance, hbalance, heq⟩
      · rw [heq, hsame, and_iff_right (.refl _)]
      · have hshape : receivedBalances after rest
            = balance :: rest.filterMap Transition.accepted := by
          simp [receivedBalances, hbalance]
        rw [heq, hbalance, hshape]
        cases s.balance with
        | none =>
            have hnone : NotLower none (some balance) := by
              intro x hx
              cases hx
            simp [hnone]
        | some x => simp [notLower_some]

omit [Postcard] in
theorem pairwise_stored_iff {l : List (Option VerifiedBalanceV1)} :
    l.Pairwise NotLower ↔ l.IsChain NotLower :=
  have : Trans NotLower NotLower NotLower := ⟨NotLower.trans⟩
  List.isChain_iff_pairwise.symm

omit [Postcard] in
theorem pairwise_height_iff {l : List VerifiedBalanceV1} :
    l.Pairwise (fun x y => x.height ≤ y.height) ↔ l.IsChain fun x y => x.height ≤ y.height :=
  have : Trans (fun x y : VerifiedBalanceV1 => x.height ≤ y.height)
      (fun x y : VerifiedBalanceV1 => x.height ≤ y.height)
      (fun x y : VerifiedBalanceV1 => x.height ≤ y.height) := ⟨UInt64.le_trans⟩
  List.isChain_iff_pairwise.symm

omit [Postcard] in
theorem le_getLast_of_pairwise {l : List VerifiedBalanceV1}
    (h : l.Pairwise fun x y => x.height ≤ y.height) {b : VerifiedBalanceV1} (hb : b ∈ l) :
    ∃ last, l.getLast? = some last ∧ b.height ≤ last.height := by
  induction l using List.reverseRecOn with
  | nil => cases hb
  | append_singleton front last _ =>
      refine ⟨last, by simp, ?_⟩
      rcases List.mem_append.mp hb with hb | hb
      · exact (List.pairwise_append.mp h).2.2 b hb last List.mem_cons_self
      · rw [List.mem_singleton.mp hb]
        exact UInt64.le_refl _

/-- Each receipt stands alone against the pinned key: under one parent, the stored balance
is always that of the receipt accepted last, and its height falls exactly when a receipt is
accepted behind a higher one. -/
theorem balance_follows_receipts {calls : List ClientCall} {ts : List Transition}
    (hkeeps : ∀ call ∈ calls, call.KeepsParent) (hrun : runClient target s calls = some ts) :
    (stateAfter s ts).balance = (receivedBalances s ts).getLast?
    ∧ (∀ t ∈ ts, t.Attested target
      ∧ ∀ key, t.before.pinnedLedger = some key → t.after.pinnedLedger = some key)
    ∧ ((s.balance :: ts.map fun t => t.after.balance).Pairwise NotLower
      ↔ (receivedBalances s ts).Pairwise fun x y => x.height ≤ y.height)
    ∧ ((receivedBalances s ts).Pairwise (fun x y => x.height ≤ y.height) →
      ∀ b ∈ receivedBalances s ts, ∃ stored, (stateAfter s ts).balance = some stored
        ∧ b.height ≤ stored.height) := by
  have hstored := stateAfter_balance hkeeps hrun
  refine ⟨hstored, ?_, ?_, ?_⟩
  · intro t ht
    have hcall : t.call ∈ calls := call_mem_of_run hrun t ht
    exact ((performed_of_run hrun t ht).balance (hkeeps t.call hcall)).2
  · rw [pairwise_stored_iff, pairwise_height_iff]
    exact isChain_stored_iff hkeeps hrun
  · intro hsorted b hb
    rw [hstored]
    exact le_getLast_of_pairwise hsorted hb

end

section

open Concrete

def twoAccounts : BuiltLedger .native64 where
  key := (7 : ℕ)
  attempts := [openEntry, followEntry]
  fits := by decide +kernel

/-- The receipt that the parent "p" signs for its child "a". -/
def signedReceipt (b : BuiltLedger .native64) : Except LedgerError BalanceReceiptV1 := do
  let attestation ← attestBalance b.ledger "p" "a"
  let commitment ← buildCommitment b.ledger (0 : ℕ) 1
  let signed ← SignedCommitment.sign commitment b.key
  pure { ledgerPubkey := (7 : ℕ), attestation, commitment := signed, history := [], notice := none }

def receiveReceipt (receipt : BalanceReceiptV1) : ClientCall :=
  .receive "a" (some "p") (some (.balanceReceiptV1 receipt)) 5

/-- A browser that joined the leaf of key 7. -/
def joined : LedgerStateV1 := LedgerStateV1.new.rebindParent (7 : ℕ)

/-- The heights stored while the receipts of two ledgers arrive one after the other. -/
@[inline]
def storedHeights (first second : BuiltLedger .native64) : Option (List (Option UInt64)) := do
  let r₁ ← (signedReceipt first).toOption
  let r₂ ← (signedReceipt second).toOption
  let ts ← runClient .wasm32 joined [receiveReceipt r₁, receiveReceipt r₂]
  pure (ts.map fun t => t.after.balance.map VerifiedBalanceV1.height)

/-- Two genuine receipts of one leaf, the newer delivered first: the stored height falls. -/
theorem balance_goes_back : storedHeights twoAccounts oneAccount = some [some 2, some 1] := by
  decide +kernel

def deliveries (first second : BuiltLedger .native64) : Option (List ClientCall) := do
  let r₁ ← (signedReceipt first).toOption
  let r₂ ← (signedReceipt second).toOption
  pure [receiveReceipt r₁, receiveReceipt r₂]

theorem deliveries_keepsParent {first second : BuiltLedger .native64} {calls : List ClientCall}
    (h : deliveries first second = some calls) : ∀ call ∈ calls, call.KeepsParent := by
  obtain ⟨r₁, -, h⟩ := Option.bind_eq_some_iff.mp h
  obtain ⟨r₂, -, h⟩ := Option.bind_eq_some_iff.mp h
  cases h
  intro call hcall
  rcases List.mem_pair.mp hcall with rfl | rfl
  · trivial
  · trivial

/-- Two receipts of one leaf, delivered as they were signed: both are accepted, the stored
height never falls, and the balance stored at last is that of the newer one. -/
theorem balance_follows_receipts_two :
    ∃ calls ts, deliveries oneAccount twoAccounts = some calls
      ∧ runClient .wasm32 joined calls = some ts
      ∧ (receivedBalances joined ts).map VerifiedBalanceV1.height = [1, 2]
      ∧ (joined.balance :: ts.map fun t => t.after.balance).Pairwise NotLower
      ∧ (stateAfter joined ts).balance.map VerifiedBalanceV1.height = some 2 := by
  have hreturns : (deliveries oneAccount twoAccounts).any (fun calls =>
      (runClient .wasm32 joined calls).any fun ts =>
        (receivedBalances joined ts).map VerifiedBalanceV1.height == [1, 2]) = true := by
    decide +kernel
  obtain ⟨calls, hcalls, hreturns⟩ := (Option.any_eq_true _ _).mp hreturns
  obtain ⟨ts, hrun, hreturns⟩ := (Option.any_eq_true _ _).mp hreturns
  have hheights := eq_of_beq hreturns
  obtain ⟨hstored, -, hiff, -⟩ :=
    balance_follows_receipts (deliveries_keepsParent hcalls) hrun
  refine ⟨calls, ts, hcalls, hrun, hheights, hiff.mpr ?_, ?_⟩
  · have hsorted : ((receivedBalances joined ts).map VerifiedBalanceV1.height).Pairwise
        (· ≤ ·) := by
      rw [hheights]
      decide
    exact List.pairwise_map.mp hsorted
  · rw [hstored, ← List.getLast?_map, hheights]
    rfl

end

end Cawala
