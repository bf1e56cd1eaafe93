import Cawala.Model.Concrete
import Cawala.Verification.Auth
import Cawala.Verification.Encoding
import Cawala.Verification.Ledger
import Cawala.Verification.Netting

/-! # One signature authorises one effect

An authorisation signs one hash, and a hash belongs to one request of one kind. What a
node-level request lets an entry do is read off the request. -/

namespace Cawala

open Std (ExtTreeMap)
open Library

section

variable [Crypto]

/-! ## The five kinds of request -/

/-- What an operator can sign. -/
inductive Request where
  | order (o : PaymentOrder)
  | issue (r : IssueRequest)
  | burn (r : BurnRequest)
  | prefund (r : PrefundRequest)
  | edgeClose (r : EdgeCloseRequest)
deriving DecidableEq

namespace Request

/-- The derive-key context of the kind. -/
def context : Request → String
  | .order _ => "cawala-ledger/order/v1"
  | .issue _ => "cawala-ledger/issue-request/v1"
  | .burn _ => "cawala-ledger/burn-request/v1"
  | .prefund _ => "cawala-ledger/prefund-request/v1"
  | .edgeClose _ => "cawala-ledger/edge-close-request/v1"

def encode : Request → Bytes
  | .order o => o.encode
  | .issue r => r.encode
  | .burn r => r.encode
  | .prefund r => r.encode
  | .edgeClose r => r.encode

def hash : Request → Hash
  | .order o => o.hash
  | .issue r => r.hash
  | .burn r => r.hash
  | .prefund r => r.hash
  | .edgeClose r => r.hash

theorem hash_eq (q : Request) : q.hash = derive q.context [q.encode] := by
  cases q <;> rfl

def ids : Request → List NodeId
  | .order o => [o.from_, o.to_]
  | .issue r => [r.node, r.account]
  | .burn r => [r.node, r.account]
  | .prefund r => [r.node, r.child]
  | .edgeClose r => [r.node]

/-- The ids are strings that fit in memory. -/
def Addressable (q : Request) : Prop := ∀ id ∈ q.ids, Cawala.Addressable id

structure Effect where
  body : EntryBody
  moves : List (AccountRef × ℤ)

/-- The effect of a node-level request; the hops of an order differ by node. -/
def effect : Request → Option Effect
  | .order _ => none
  | .issue r => some ⟨.issue r.account r.amount, [(.child r.account, r.amount.toNat)]⟩
  | .burn r => some ⟨.burn r.account r.amount, [(.child r.account, -r.amount.toNat)]⟩
  | .prefund r =>
      some ⟨.transfer r.hash r.amount .descend,
        [(.parent, r.amount.toNat), (.child r.child, r.amount.toNat)]⟩
  | .edgeClose r => some ⟨.edgeClose r.amount, [(.parent, -r.amount.toNat)]⟩

/-- Requests of one kind are determined by their bytes; the context strings tell the kinds
apart. -/
theorem encode_injective {q q' : Request} (hq : q.Addressable) (hq' : q'.Addressable)
    (hcontext : q.context = q'.context) (hbytes : q.encode = q'.encode) : q = q' := by
  cases q with
  | order o =>
      cases q' with
      | order o' =>
          simp only [Request.Addressable, ids, List.forall_mem_cons] at hq hq'
          rw [PaymentOrder.encode_inj hq.1 hq.2.1 hq'.1 hq'.2.1 hbytes]
      | _ => simp [context] at hcontext
  | issue r =>
      cases q' with
      | issue r' =>
          simp only [Request.Addressable, ids, List.forall_mem_cons] at hq hq'
          rw [IssueRequest.encode_inj hq.1 hq.2.1 hq'.1 hq'.2.1 hbytes]
      | _ => simp [context] at hcontext
  | burn r =>
      cases q' with
      | burn r' =>
          simp only [Request.Addressable, ids, List.forall_mem_cons] at hq hq'
          rw [BurnRequest.encode_inj hq.1 hq.2.1 hq'.1 hq'.2.1 hbytes]
      | _ => simp [context] at hcontext
  | prefund r =>
      cases q' with
      | prefund r' =>
          simp only [Request.Addressable, ids, List.forall_mem_cons] at hq hq'
          rw [PrefundRequest.encode_inj hq.1 hq.2.1 hq'.1 hq'.2.1 hbytes]
      | _ => simp [context] at hcontext
  | edgeClose r =>
      cases q' with
      | edgeClose r' =>
          simp only [Request.Addressable, ids, List.forall_mem_cons] at hq hq'
          rw [EdgeCloseRequest.encode_inj hq.1 hq'.1 hbytes]
      | _ => simp [context] at hcontext

theorem hash_injective (hfree : Crypto.CollisionFree) {q q' : Request} (hq : q.Addressable)
    (hq' : q'.Addressable) (h : q.hash = q'.hash) : q = q' := by
  obtain ⟨hcontext, hbytes⟩ := hfree _ _ _ _ (q.hash_eq ▸ q'.hash_eq ▸ h)
  exact encode_injective hq hq' hcontext (by simpa using hbytes)

/-! ## What the verifiers bind -/

variable [Postcard] {q q' : Request} {s s' : SignedEntry} {r r' : PeerRegistry}
variable {now now' : UInt64} {auth : AuthRef}

/-- The `verify_*` function of the request's kind. -/
def verify (s : SignedEntry) (r : PeerRegistry) (now : UInt64) : Request → Except LedgerError Unit
  | .order o => verifyTransfer s o r now
  | .issue q => verifyIssue s q r now
  | .burn q => verifyBurn s q r now
  | .prefund q => verifyPrefund s q r now
  | .edgeClose q => verifyEdgeClose s q r now

/-- Every verifier binds the authorisation to the hash of its request. -/
theorem orderHash_of_verify (h : q.verify s r now = .ok ()) (hauth : s.entry.auth = some auth) :
    auth.orderHash = q.hash := by
  cases q with
  | order o =>
      obtain ⟨-, -, ⟨auth', hauth', -, hhash, -⟩, -⟩ := verifyTransfer_eq_ok.mp h
      obtain rfl := Option.some.inj (hauth.symm.trans hauth')
      exact hhash
  | _ =>
      obtain ⟨-, ⟨peer, -, -, auth', hauth', -, hhash, -⟩, -⟩ := verifyRequest_eq_ok.mp h
      obtain rfl := Option.some.inj (hauth.symm.trans hauth')
      exact hhash

/-- An entry does what is declared: its body, and its net movement on every account. -/
def Effect.Of (effect : Effect) (e : Entry) : Prop :=
  e.body = effect.body
    ∧ ∃ deltas, aggregateDeltas e.postings = .ok deltas ∧ deltas.toList.Perm effect.moves

omit [Postcard] in
theorem verifyPrefundCredit_spec {postings : List Posting} {request : PrefundRequest}
    {deltas : Deltas} (hagg : aggregateDeltas postings = .ok deltas)
    (h : verifyPrefundCredit postings request = .ok ()) :
    ∃ delta, (AccountRef.child request.child, delta) ∈ deltas.toList := by
  simp only [verifyPrefundCredit, hagg, bind_eq_ok, requireShape, ite_ok_eq_ok, beq_iff_eq] at h
  obtain ⟨found, hfound, credited, hfold, hcredited, -⟩ := h
  obtain rfl := Except.ok.inj hfound
  refine foldlM_induction (d := [])
    (P := fun l credited => ∀ id, credited = some id → ∃ delta, (AccountRef.child id, delta) ∈ l)
    ?_ (by simp) hfold request.child hcredited
  rintro d ⟨account, delta⟩ credited credited' ih hstep id rfl
  cases account with
  | parent =>
      obtain ⟨delta', hmem⟩ := ih id (Except.ok.inj hstep)
      exact ⟨delta', List.mem_append_left _ hmem⟩
  | child child =>
      simp only at hstep
      split_ifs at hstep
      · cases hstep
        exact ⟨delta, List.mem_append_right _ (List.mem_singleton_self _)⟩
      · obtain ⟨delta', hmem⟩ := ih id (Except.ok.inj hstep)
        exact ⟨delta', List.mem_append_left _ hmem⟩

/-- The body, the accounts and the amounts of an entry are those its request names. -/
theorem effect_of_verify (h : q.verify s r now = .ok ()) :
    ∀ effect ∈ q.effect, effect.Of s.entry := by
  intro effect heffect
  cases q with
  | order o => cases heffect
  | issue q =>
      cases heffect
      obtain ⟨hcons, -, -, hshape, -, hlate⟩ := verifyRequest_eq_ok.mp h
      obtain ⟨deltas, hagg, -, hvalid⟩ := checkConservation_spec hcons
      cases hbody : s.entry.body with
      | issue child amount =>
          simp only [hbody, requireShape, ite_ok_eq_ok, Bool.and_eq_true, beq_iff_eq] at hlate
          obtain ⟨⟨rfl, rfl⟩, -⟩ := hlate
          simp only [Entry.validateShape, hbody, ite_error_eq_ok, ite_ok_eq_ok, Bool.and_eq_true,
            beq_iff_eq] at hvalid
          obtain ⟨-, ⟨hsize, hget⟩, -⟩ := hvalid
          exact ⟨hbody, deltas, hagg, .of_eq (toList_eq_singleton hsize hget)⟩
      | _ => simp [hbody] at hshape
  | burn q =>
      cases heffect
      obtain ⟨hcons, -, -, hshape, -, hlate⟩ := verifyRequest_eq_ok.mp h
      obtain ⟨deltas, hagg, -, hvalid⟩ := checkConservation_spec hcons
      cases hbody : s.entry.body with
      | burn child amount =>
          simp only [hbody, requireShape, ite_ok_eq_ok, Bool.and_eq_true, beq_iff_eq] at hlate
          obtain ⟨⟨rfl, rfl⟩, -⟩ := hlate
          simp only [Entry.validateShape, hbody, ite_error_eq_ok, ite_ok_eq_ok, Bool.and_eq_true,
            beq_iff_eq] at hvalid
          obtain ⟨-, ⟨hsize, hget⟩, -⟩ := hvalid
          exact ⟨hbody, deltas, hagg, .of_eq (toList_eq_singleton hsize hget)⟩
      | _ => simp [hbody] at hshape
  | prefund q =>
      cases heffect
      obtain ⟨hcons, -, -, hshape, hearly, hlate⟩ := verifyRequest_eq_ok.mp h
      obtain ⟨deltas, hagg, -, hvalid⟩ := checkConservation_spec hcons
      cases hbody : s.entry.body with
      | transfer paymentId amount role =>
          cases role with
          | descend =>
              simp only [hbody, requireShape, ite_ok_eq_ok, beq_iff_eq, bind_eq_ok] at hearly hlate
              obtain ⟨rfl, -⟩ := hearly
              obtain ⟨_, hcredit, rfl, -⟩ := hlate
              simp only [Entry.validateShape, hbody, ite_error_eq_ok, ite_ok_eq_ok] at hvalid
              obtain ⟨hpos, hcanonical, -⟩ := hvalid
              have hamount : (0 : ℤ) < q.amount.toNat := by
                have hne : q.amount.toNat ≠ 0 := fun h0 => hpos (UInt64.toNat_inj.mp h0)
                exact_mod_cast Nat.pos_of_ne_zero hne
              obtain ⟨first, second, ⟨rfl, id, rfl⟩, -, hperm⟩ :=
                canonicalTransfer_spec hamount hcanonical
              obtain ⟨delta, hmem⟩ := verifyPrefundCredit_spec hagg hcredit
              have hid : q.child = id ∧ delta = HopRole.descend.signs.2 * q.amount.toNat := by
                simpa using hperm.mem_iff.mp hmem
              refine ⟨hbody, deltas, hagg, ?_⟩
              simpa [HopRole.signs, hid.1] using hperm
          | _ => simp [hbody] at hshape
      | _ => simp [hbody] at hshape
  | edgeClose q =>
      cases heffect
      obtain ⟨hcons, -, -, hshape, -, hlate⟩ := verifyRequest_eq_ok.mp h
      obtain ⟨deltas, hagg, -, hvalid⟩ := checkConservation_spec hcons
      cases hbody : s.entry.body with
      | edgeClose amount =>
          simp only [hbody, requireShape, ite_ok_eq_ok, beq_iff_eq] at hlate
          obtain ⟨rfl, -⟩ := hlate
          simp only [Entry.validateShape, hbody, ite_error_eq_ok, ite_ok_eq_ok, Bool.and_eq_true,
            beq_iff_eq] at hvalid
          obtain ⟨-, ⟨hsize, hget⟩, -⟩ := hvalid
          exact ⟨hbody, deltas, hagg, .of_eq (toList_eq_singleton hsize hget)⟩
      | _ => simp [hbody] at hshape

end Request

/-- Encodings determine orders and requests, whatever their node ids contain; one authorisation
serves at most one request of one kind, over any entries, registries and times; and the entries
that a node-level request lets through have one body and move the same amounts on the same
accounts. -/
theorem one_signature_one_effect [Postcard] (hfree : Crypto.CollisionFree) :
    (∀ q q' : Request, q.Addressable → q'.Addressable → q.context = q'.context →
      q.encode = q'.encode → q = q')
    ∧ (∀ (auth : AuthRef) (q q' : Request) (s s' : SignedEntry) (r r' : PeerRegistry)
        (now now' : UInt64), q.Addressable → q'.Addressable →
        s.entry.auth = some auth → s'.entry.auth = some auth →
        q.verify s r now = .ok () → q'.verify s' r' now' = .ok () → q = q')
    ∧ ∀ (q : Request) (s : SignedEntry) (r : PeerRegistry) (now : UInt64),
        q.verify s r now = .ok () → ∀ effect ∈ q.effect, effect.Of s.entry := by
  refine ⟨?_, ?_, fun q s r now h => Request.effect_of_verify h⟩
  · intro q q' hq hq' hcontext hencode
    exact Request.encode_injective hq hq' hcontext hencode
  · intro auth q q' s s' r r' now now' hq hq' hauth hauth' h h'
    apply Request.hash_injective hfree hq hq'
    rw [← Request.orderHash_of_verify h hauth, ← Request.orderHash_of_verify h' hauth']

end

section

open Concrete

/-- An issue request of the node "n" and the entry its ledger signs for it. -/
def issueFive : IssueRequest where
  node := "n"
  account := "a"
  amount := 5
  nonce := 1
  expiry := 9

def issueFiveEntry : Entry where
  ledgerId := (7 : ℕ)
  seq := 1
  height := 2
  prevHash := Crypto.zero
  issuedAt := 3
  body := .issue "a" 5
  postings := [{ account := .child "a", delta := 5 }]
  auth := some (issueFive.authorize (1 : ℕ))

def issueFiveSigned : SignedEntry where
  entry := issueFiveEntry
  signature := Crypto.sign (7 : ℕ) (.byte 4 :: Concrete.entry issueFiveEntry)

def issuingRegistry : PeerRegistry where
  peers := (∅ : ExtTreeMap NodeId PeerKeys).insert "n"
    { nodeId := "n", role := .node, operator := (1 : ℕ), ledger := some (7 : ℕ) }

theorem one_signature_one_effect_issue :
    (∀ q : Request, q.Addressable → q.verify issueFiveSigned issuingRegistry 8 = .ok () →
      q = .issue issueFive)
    ∧ Request.Effect.Of ⟨.issue "a" 5, [(.child "a", 5)]⟩ issueFiveEntry := by
  have hverify : (Request.issue issueFive).verify issueFiveSigned issuingRegistry 8 = .ok () := by
    decide +kernel
  have hids : (Request.issue issueFive).Addressable := by
    intro id hid
    simp only [Request.ids, issueFive, List.mem_cons, List.not_mem_nil, or_false] at hid
    obtain rfl | rfl := hid <;> unfold Addressable <;> decide +kernel
  obtain ⟨-, hone, heffect⟩ := one_signature_one_effect collisionFree
  constructor
  · intro q hq h
    exact hone _ q _ issueFiveSigned issueFiveSigned issuingRegistry issuingRegistry 8 8 hq hids rfl
      rfl h hverify
  · exact heffect _ _ _ _ hverify _ rfl

end

end Cawala
