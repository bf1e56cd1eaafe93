import Cawala.Library.Except
import Cawala.Model.CommitmentLog
import Cawala.Model.Concrete
import Cawala.Verification.Encoding
import Cawala.Verification.ExactlyOnce

/-! # Commitment chains

What `verify_chain` accepts, that an accepted chain is determined by its end, and that the
log of a node holds an accepted chain after every run. -/

namespace Cawala

open Library Library.Transaction

section

variable [Crypto]

/-! ## The rules of a chain -/

/-- The commitments are signed and consistent, rise, and link back to the anchor. -/
structure ChainOf (key : LedgerPubKey) (chain : List SignedCommitment) : Prop where
  signed : ∀ s ∈ chain, s.verify key = .ok ()
  consistent : ∀ s ∈ chain, s.commitment.height = s.commitment.entryCount
  rising : chain.Pairwise fun a b => a.commitment.height < b.commitment.height
  anchored : ∀ s ∈ chain.head?, s.commitment.prevCommitmentHash = Crypto.zero
  linked : chain.IsChain fun a b => b.commitment.prevCommitmentHash = commitmentHash a.commitment

def lastCommitment (chain : List SignedCommitment) : Option Commitment :=
  chain.getLast?.map (·.commitment)

variable {key key' : LedgerPubKey} {chain chain' : List SignedCommitment} {s : SignedCommitment}

theorem checkConsistentHeight_eq_ok {c : Commitment} {u : Unit} :
    checkConsistentHeight c = .ok u ↔ c.height = c.entryCount := by
  unfold checkConsistentHeight
  rw [ite_error_eq_ok, not_not]
  simp

/-- The walk behind the first element. -/
theorem verifyChainFrom_eq_ok {prev : SignedCommitment} {rest : List SignedCommitment} :
    verifyChainFrom key prev rest = .ok () ↔
      (∀ s ∈ rest, s.verify key = .ok () ∧ s.commitment.height = s.commitment.entryCount)
      ∧ (prev :: rest).IsChain (fun a b => a.commitment.height < b.commitment.height)
      ∧ (prev :: rest).IsChain
          (fun a b => b.commitment.prevCommitmentHash = commitmentHash a.commitment) := by
  induction rest generalizing prev with
  | nil => simp [verifyChainFrom]
  | cons current rest ih =>
      simp only [verifyChainFrom, bind_eq_ok, checkConsistentHeight_eq_ok, ite_error_eq_ok,
        not_not, ih, List.forall_mem_cons, List.isChain_cons_cons, UInt64.not_le]
      constructor
      · rintro ⟨⟨⟩, hsigned, ⟨⟩, hheight, hrising, hlink, hrest, hchain, hlinked⟩
        exact ⟨⟨⟨hsigned, hheight⟩, hrest⟩, ⟨hrising, hchain⟩, hlink, hlinked⟩
      · rintro ⟨⟨⟨hsigned, hheight⟩, hrest⟩, ⟨hrising, hchain⟩, hlink, hlinked⟩
        exact ⟨⟨⟩, hsigned, ⟨⟩, hheight, hrising, hlink, hrest, hchain, hlinked⟩

/-- The spec lemma of `verify_chain`. -/
theorem verifyChain_eq_ok : verifyChain chain key = .ok () ↔ ChainOf key chain := by
  have htrans : ∀ {l : List SignedCommitment},
      l.IsChain (fun a b => a.commitment.height < b.commitment.height)
        ↔ l.Pairwise fun a b => a.commitment.height < b.commitment.height :=
    fun {l} => List.isChain_iff_pairwise
  cases chain with
  | nil =>
      simp only [verifyChain, true_iff]
      exact ⟨by simp, by simp, .nil, by simp, .nil⟩
  | cons first rest =>
      simp only [verifyChain, bind_eq_ok, checkConsistentHeight_eq_ok, ite_error_eq_ok, not_not,
        verifyChainFrom_eq_ok, htrans]
      constructor
      · rintro ⟨⟨⟩, hsigned, ⟨⟩, hheight, hzero, hrest, hrising, hlinked⟩
        exact ⟨List.forall_mem_cons.mpr ⟨hsigned, fun s hs => (hrest s hs).1⟩,
          List.forall_mem_cons.mpr ⟨hheight, fun s hs => (hrest s hs).2⟩, hrising,
          by simpa using hzero, hlinked⟩
      · rintro ⟨hsigned, hconsistent, hrising, hzero, hlinked⟩
        obtain ⟨hfirst, hrest⟩ := List.forall_mem_cons.mp hsigned
        obtain ⟨hfirst', hrest'⟩ := List.forall_mem_cons.mp hconsistent
        exact ⟨⟨⟩, hfirst, ⟨⟩, hfirst', by simpa using hzero,
          fun s hs => ⟨hrest s hs, hrest' s hs⟩, hrising, hlinked⟩

/-! ## Chains one commitment at a time -/

structure Extends (key : LedgerPubKey) (chain : List SignedCommitment) (s : SignedCommitment) :
    Prop where
  signed : s.verify key = .ok ()
  consistent : s.commitment.height = s.commitment.entryCount
  rises : ∀ last ∈ chain.getLast?, last.commitment.height < s.commitment.height
  links : s.commitment.prevCommitmentHash = linkHash (lastCommitment chain)

theorem chainOf_snoc :
    ChainOf key (chain ++ [s]) ↔ ChainOf key chain ∧ Extends key chain s := by
  constructor
  · intro h
    obtain ⟨hsigned, hconsistent, hrising, hanchored, hlinked⟩ := h
    rw [List.forall_mem_append] at hsigned hconsistent
    rw [List.pairwise_append] at hrising
    rw [List.isChain_append] at hlinked
    have hs : s ∈ [s] := List.mem_singleton_self s
    refine ⟨⟨hsigned.1, hconsistent.1, hrising.1, ?_, hlinked.1⟩, hsigned.2 s hs,
      hconsistent.2 s hs, ?_, ?_⟩
    · intro first hfirst
      exact hanchored first (by rw [List.head?_append, Option.mem_def.mp hfirst]; rfl)
    · intro last hlast
      exact hrising.2.2 last (List.mem_of_getLast? hlast) s hs
    · cases hlast : chain.getLast? with
      | none =>
          rw [List.getLast?_eq_none_iff] at hlast
          subst hlast
          exact hanchored s rfl
      | some last =>
          rw [lastCommitment, hlast]
          exact hlinked.2.2 last hlast s rfl
  · rintro ⟨⟨hsigned, hconsistent, hrising, hanchored, hlinked⟩, h⟩
    refine ⟨?_, ?_, ?_, ?_, ?_⟩
    · exact List.forall_mem_append.mpr ⟨hsigned, by simpa using h.signed⟩
    · exact List.forall_mem_append.mpr ⟨hconsistent, by simpa using h.consistent⟩
    · -- The last height is the greatest, so a step over it rises over all.
      refine List.pairwise_append.mpr ⟨hrising, List.pairwise_singleton _ _, ?_⟩
      intro a ha b hb
      rw [List.mem_singleton.mp hb]
      obtain ⟨front, last, rfl⟩ : ∃ front last, chain = front ++ [last] :=
        ⟨_, _, (List.dropLast_append_getLast (List.ne_nil_of_mem ha)).symm⟩
      have hstep := h.rises last (by simp)
      obtain hfront | hlast := List.mem_append.mp ha
      · exact UInt64.lt_trans ((List.pairwise_append.mp hrising).2.2 a hfront last (by simp)) hstep
      · exact List.mem_singleton.mp hlast ▸ hstep
    · intro first hfirst
      cases hchain : chain with
      | nil =>
          subst hchain
          obtain rfl : s = first := by simpa using hfirst
          exact h.links
      | cons head rest =>
          subst hchain
          exact hanchored first hfirst
    · refine List.isChain_append.mpr ⟨hlinked, .singleton s, ?_⟩
      intro last hlast b hb
      obtain rfl : s = b := by simpa using hb
      rw [h.links, lastCommitment, Option.mem_def.mp hlast]
      rfl

section Log

variable [CommitmentCodec] {file body : List UInt8} {log log' : CommitmentLog}

/-- A whole frame at the front is read. -/
theorem CommitmentLog.parseFrames_cons {offset : ℕ} {acc : List SignedCommitment}
    {rest : List UInt8} (hnext : Framing.next maxEntryFrameSize file = .frame body rest)
    (hbody : CommitmentCodec.fromBytes body = .ok s) :
    parseFrames offset acc file
      = parseFrames (offset + 4 + body.length) (acc ++ [s]) rest := by
  have hne : file ≠ [] := by
    rintro rfl
    cases hnext
  rw [parseFrames, if_neg hne]
  split
  · simp_all
  · simp_all
  · rename_i body' rest' hnext'
    rw [hnext, Framing.Next.frame.injEq] at hnext'
    obtain ⟨rfl, rfl⟩ := hnext'
    rw [hbody]

theorem CommitmentLog.parseFrames_append (hbody : CommitmentCodec.fromBytes body = .ok s)
    (hlen : body.length ≤ maxEntryFrameSize) {offset : ℕ} {acc : List SignedCommitment}
    (h : parseFrames offset acc file = .ok chain) :
    parseFrames offset acc (file ++ Framing.frame body) = .ok (chain ++ [s]) := by
  fun_induction parseFrames offset acc file with
  | case1 offset acc =>
      obtain rfl := Except.ok.inj h
      have hnext := Framing.next_frame [] hlen (by decide)
      rw [List.append_nil] at hnext
      rw [List.nil_append, parseFrames_cons hnext hbody, parseFrames, if_pos rfl]
  | case2 => cases h
  | case3 => cases h
  | case4 => cases h
  | case5 offset acc data hne body' rest hnext signed hdecode ih =>
      rw [parseFrames_cons (Framing.next_append hnext _) hdecode]
      exact ih h

/-- The spec lemma of `open`. -/
theorem CommitmentLog.open_eq_ok : open_ file key = .ok log ↔
    parseFrames 0 [] file = .ok log.chain ∧ log.chain.length ≤ maxCommitments
      ∧ ChainOf key log.chain ∧ log.file = file ∧ log.ledgerPubkey = key := by
  rw [open_]
  simp only [bind_eq_ok, ite_error_eq_ok, Nat.not_lt, gt_iff_lt]
  constructor
  · rintro ⟨chain, hparse, hlen, h⟩
    split at h
    · cases h
    · rename_i hverify
      obtain rfl := Except.ok.inj h
      exact ⟨hparse, hlen, verifyChain_eq_ok.mp hverify, rfl, rfl⟩
  · rintro ⟨hparse, hlen, hchain, rfl, rfl⟩
    refine ⟨log.chain, hparse, hlen, ?_⟩
    rw [verifyChain_eq_ok.mpr hchain]
    rfl

omit [CommitmentCodec] in
/-- The spec lemma of the checks of `append`. -/
theorem CommitmentLog.checkNext_eq_ok {u : Unit} : log.checkNext s = .ok u ↔
    log.chain.length < maxCommitments ∧ Extends log.ledgerPubkey log.chain s := by
  unfold checkNext
  simp only [ite_error_eq_ok, ge_iff_le, Nat.not_le]
  apply and_congr_right
  intro hlen
  constructor
  · intro h
    split at h
    · cases h
    · rename_i hsigned
      simp only [ite_error_eq_ok, not_not] at h
      obtain ⟨hheight, hlink, h⟩ := h
      refine ⟨hsigned, hheight, ?_, hlink⟩
      intro last hlast
      rw [Option.mem_def.mp hlast] at h
      simp only [ite_error_eq_ok, UInt64.not_le] at h
      exact h.1
  · rintro ⟨hsigned, hheight, hrises, hlink⟩
    rw [hsigned]
    simp only [ite_error_eq_ok, not_not]
    refine ⟨hheight, hlink, ?_⟩
    cases hlast : log.chain.getLast? with
    | none => rfl
    | some last =>
        simp only [ite_error_eq_ok, UInt64.not_le]
        exact ⟨hrises last hlast, trivial⟩

/-- `append` writes one frame and pushes the commitment, or fails without effect. -/
theorem CommitmentLog.append_meets (log : CommitmentLog) (s : SignedCommitment) :
    Meets (· = log) (append s)
      (fun _ log' => ∃ body, CommitmentCodec.toAllocvec s = .ok body
        ∧ body.length ≤ maxEntryFrameSize ∧ log.checkNext s = .ok ()
        ∧ log' = { log with
            file := log.file ++ Framing.frame body, chain := log.chain ++ [s] })
      (Untouched log) := by
  rw [append]
  apply Meets.get_bind_at
  apply Meets.ofExcept_bind_at fun e _ => untouched log e
  intro _ hcheck
  apply Meets.ofExcept_bind_at fun e _ => untouched log e
  intro body hencode
  apply Meets.refuseIf_bind_at fun _ => untouched log _
  intro hlen
  have hbody : CommitmentCodec.toAllocvec s = .ok body := by
    split at hencode
    · rename_i heq
      rw [heq, Except.ok.inj hencode]
    · cases hencode
  intro _ ht
  subst ht
  refine ⟨body, hbody, Nat.not_lt.mp hlen, hcheck, ?_⟩
  simp only [Framing.frame, ← List.append_assoc]

def Reloads (key : LedgerPubKey) (file : List UInt8) (chain : List SignedCommitment) : Prop :=
  CommitmentLog.open_ file key = .ok { file, ledgerPubkey := key, chain }

theorem reloads_iff : Reloads key file chain ↔
    CommitmentLog.parseFrames 0 [] file = .ok chain ∧ chain.length ≤ maxCommitments
      ∧ ChainOf key chain := by
  rw [Reloads, CommitmentLog.open_eq_ok]
  simp

/-- A log that opens still opens after an append, to the grown chain. -/
theorem Reloads.append (hround : CommitmentCodec.RoundTrip) (h : Reloads key file chain)
    (hbody : CommitmentCodec.toAllocvec s = .ok body) (hlen : body.length ≤ maxEntryFrameSize)
    (hfit : chain.length < maxCommitments) (hnext : Extends key chain s) :
    Reloads key (file ++ Framing.frame body) (chain ++ [s]) := by
  obtain ⟨hparse, -, hchain⟩ := reloads_iff.mp h
  refine reloads_iff.mpr ⟨?_, ?_, ?_⟩
  · exact CommitmentLog.parseFrames_append (hround s body hbody) hlen hparse
  · rw [List.length_append, List.length_singleton]
    exact hfit
  · exact chainOf_snoc.mpr ⟨hchain, hnext⟩

end Log

/-! ## Runs -/

section Runs

variable [Postcard] [CommitmentCodec] {secret : LedgerSecretKey} {env : TxEnv}

/-- A host with its commitment log, and the commitments its processes appended. -/
structure CommitHost where
  host : Host
  commitments : List UInt8
  appended : List SignedCommitment

/-- What can happen on a host: an event of its ledger, or a commit of one process. -/
inductive CommitEvent where
  | ledger (e : HostEvent)
  | commit (i : ℕ) (env : TxEnv)

def CommitHost.step (secret : LedgerSecretKey) (c : CommitHost) : CommitEvent → CommitHost
  | .ledger e => { c with host := c.host.step secret e }
  | .commit i env =>
      match c.host.procs i with
      | none => c
      | some s =>
          let (result, after) := (commit env).exec ⟨⟨c.host.frames, s⟩, c.commitments⟩
          { host :=
              { frames := after.desk.frames
                procs := Function.update c.host.procs i (some after.desk.service) }
            commitments := after.commitments
            appended := match result with
              | .ok signed => c.appended ++ [signed]
              | .error _ => c.appended }

/-- A run from an empty data directory. -/
def CommitHost.run (secret : LedgerSecretKey) (events : List CommitEvent) : CommitHost :=
  events.foldl (CommitHost.step secret) ⟨⟨[], fun _ => none⟩, [], []⟩

/-- The log on disk opens to the commitments appended. -/
structure CommitSound (secret : LedgerSecretKey) (c : CommitHost) : Prop where
  host : HostSound secret c.host
  reloads : Reloads (Crypto.pubKey secret) c.commitments c.appended

/-- The ledger log is as it was, the service is coherent, and the commitment log opens to
this chain. -/
structure Committed (secret : LedgerSecretKey) (frames : List SignedEntry)
    (chain : List SignedCommitment) (d : CommitDesk) : Prop where
  frames : d.desk.frames = frames
  service : Coherent secret d.desk.service
  reloads : Reloads (Crypto.pubKey secret) d.commitments chain

omit [CommitmentCodec] in
theorem beginTransaction_keeps {frames : List SignedEntry} (hlog : LogSound secret frames) :
    Keeps (fun desk => desk.frames = frames ∧ Coherent secret desk.service)
      (beginTransaction env) := by
  rintro desk ⟨rfl, hservice⟩
  have hmeets := beginTransaction_meets env hlog hservice.sameKey desk rfl
  cases hexec : exec (beginTransaction env) desk with
  | mk r after =>
      rw [hexec] at hmeets
      cases r with
      | ok u => exact ⟨hmeets.2.1, hmeets.1.coherent⟩
      | error e =>
          obtain rfl : after = desk := hmeets
          exact ⟨rfl, hservice⟩

/-- A commit adds one commitment to the chain on disk, or leaves the chain. -/
theorem commit_meets (hround : CommitmentCodec.RoundTrip) {frames : List SignedEntry}
    (hlog : LogSound secret frames) :
    Meets (Committed secret frames chain) (commit env)
      (fun signed => Committed secret frames (chain ++ [signed]))
      (fun _ => Committed secret frames chain) := by
  rw [commit]
  refine Meets.bind (Q := fun _ => Committed secret frames chain) ?_ fun _ => ?_
  · apply Keeps.zoom (J := fun desk => desk.frames = frames ∧ Coherent secret desk.service)
    · exact fun d hd => ⟨hd.frames, hd.service⟩
    · exact fun d desk hd hdesk => ⟨hdesk.1, hdesk.2, hd.reloads⟩
    · exact (beginTransaction_keeps hlog).mapError
  apply Meets.pointwise
  intro d hd
  apply Meets.get_bind_at
  apply Meets.ofExcept_bind_at
  · intro _ _
    exact hd
  intro log hopen
  have hlogEq : log = { file := d.commitments, ledgerPubkey := Crypto.pubKey secret, chain } := by
    rw [hd.service.sameKey, hd.reloads] at hopen
    exact (Except.ok.inj hopen).symm
  apply Meets.ofExcept_bind_at
  · intro _ _
    exact hd
  intro commitment _
  apply Meets.refuseIf_bind_at
  · intro _
    exact hd
  intro _
  apply Meets.ofExcept_bind_at
  · intro _ _
    exact hd
  intro signed _
  have happend := CommitmentLog.append_meets log signed log rfl
  cases hexec : exec (CommitmentLog.append signed) log with
  | mk r after =>
      rw [hexec] at happend
      intro t ht
      subst ht
      cases r with
      | error e =>
          obtain rfl : after = log := happend
          subst hlogEq
          exact hd
      | ok u =>
          obtain ⟨body, hbody, hlen, hcheck, rfl⟩ := happend
          obtain ⟨hfit, hnext⟩ := CommitmentLog.checkNext_eq_ok.mp hcheck
          subst hlogEq
          exact ⟨hd.frames, hd.service, hd.reloads.append hround hbody hlen hfit hnext⟩

/-- One event keeps the log on disk in step with what was appended. -/
theorem CommitSound.step (hround : CommitmentCodec.RoundTrip) {c : CommitHost}
    (h : CommitSound secret c) (e : CommitEvent) : CommitSound secret (c.step secret e) := by
  cases e with
  | ledger e => exact ⟨h.host.step e, h.reloads⟩
  | commit i env =>
      cases hproc : c.host.procs i with
      | none =>
          rw [CommitHost.step, hproc]
          exact h
      | some s =>
          have hbefore : Committed secret c.host.frames c.appended
              ⟨⟨c.host.frames, s⟩, c.commitments⟩ := ⟨rfl, h.host.procs i s hproc, h.reloads⟩
          have hmeets := (commit_meets hround h.host.log : Meets _ (commit env) _ _)
            _ hbefore
          rw [CommitHost.step, hproc]
          have hprocs : ∀ service, Coherent secret service → ∀ j t,
              Function.update c.host.procs i (some service) j = some t → Coherent secret t := by
            intro service hservice j t ht
            by_cases hj : j = i
            · subst hj
              rw [Function.update_self, Option.some.injEq] at ht
              exact ht ▸ hservice
            · rw [Function.update_of_ne hj] at ht
              exact h.host.procs j t ht
          cases hexec : exec (commit env) ⟨⟨c.host.frames, s⟩, c.commitments⟩ with
          | mk r after =>
              rw [hexec] at hmeets
              simp only [hexec]
              have hkept : ∀ {frames}, after.desk.frames = frames → LogSound secret frames →
                  LogSound secret after.desk.frames := fun heq hlog => heq ▸ hlog
              cases r with
              | ok signed =>
                  exact ⟨⟨hkept hmeets.frames h.host.log, hprocs _ hmeets.service⟩,
                    hmeets.reloads⟩
              | error err =>
                  exact ⟨⟨hkept hmeets.frames h.host.log, hprocs _ hmeets.service⟩,
                    hmeets.reloads⟩

end Runs

end

section

open Concrete

def emptyCommitment : Commitment where
  ledgerId := (7 : ℕ)
  ledgerPubkey := (7 : ℕ)
  height := 0
  entryCount := 0
  entryRoot := root []
  stateRoot := stateRoot Balances.newNonRoot
  prevCommitmentHash := Crypto.zero
  issuedAt := 5

def emptySigned : SignedCommitment where
  commitment := emptyCommitment
  signature := Crypto.sign (7 : ℕ) emptyCommitment.canonicalBytes

/-- What a free lock and readable files give a transaction. -/
def freeEnv : TxEnv where
  locked := true
  readable := true
  isRoot := true
  peers := none
  operator := none
  writeError := fun _ => none
  clock := 5

-- only proofs evaluate the run: inlined, it has no compiled copy at these primitives
@[inline]
def openedSigned : Option SignedCommitment := do
  let frames := (Host.run (7 : ℕ)
    [.start 0 freeEnv "n", .perform 0 freeEnv (.ensureAccountOpen "a" .user)]).frames
  let ledger ← (openLedger (7 : ℕ) frames).toOption
  let commitment ← (buildCommitment ledger (commitmentHash emptyCommitment) 5).toOption
  (SignedCommitment.sign commitment (7 : ℕ)).toOption

@[inline]
def linkedChain : List SignedCommitment := emptySigned :: openedSigned.toList

/-- A codec of the two commitments. -/
local instance linkedCodec : CommitmentCodec where
  toAllocvec s := (encodeAt linkedChain s).elim (.error "unknown commitment") .ok
  fromBytes bytes := (decodeAt linkedChain bytes).elim (.error "unknown frame") .ok

end

end Cawala
