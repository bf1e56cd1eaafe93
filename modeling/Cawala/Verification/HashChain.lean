import Cawala.Model.LedgerLog
import Cawala.Verification.Inclusion

/-! # The hash chain of a ledger

Every reachable log is a hash chain, replaying it rebuilds the ledger, and its head commits
to all of its contents. -/

namespace Cawala

open Library Library.Transaction

section

variable [Crypto] [Postcard]

/-! ## Appending in place -/

/-- What `append` checks before it touches the log: header, conservation, and the
application of the entry to a copy of the balances. -/
def LedgerOver.checked {L : Type} [LedgerLog L] (l : LedgerOver L) (s : SignedEntry) :
    Except LedgerError Balances := do
  l.checkHeader s
  s.entry.checkConservation
  l.balances.applyEntry s.entry

/-- The spec lemma of the in-place append: the checks come first, then the log is appended
to, and the balances follow only if the log accepted the entry. -/
theorem LedgerOver.exec_append {L : Type} [LedgerLog L] (l : LedgerOver L) (s : SignedEntry) :
    exec (LedgerOver.append s) l = match l.checked s with
      | .error e => (.error e, l)
      | .ok balances =>
          match exec (LedgerLog.append s) l.log with
          | (.ok _, log) => (.ok ⟨⟩, { l with log, balances, height := s.entry.height })
          | (.error e, log) => (.error e, { l with log }) := by
  unfold LedgerOver.append LedgerOver.checked
  simp only [exec_bind, exec_get, exec_ofExcept, exec_zoom, exec_modify]
  cases l.checkHeader s with
  | error e => rfl
  | ok _ =>
      cases s.entry.checkConservation with
      | error e => simp [bind, Except.bind]
      | ok _ =>
          cases l.balances.applyEntry s.entry with
          | error e => simp [bind, Except.bind]
          | ok balances =>
              simp only [bind, Except.bind]
              rcases exec (LedgerLog.append s) l.log with ⟨_ | _, log⟩ <;> rfl

omit [Postcard] in
/-- A ledger as the in-place operations see it. -/
def Ledger.over (l : Ledger) : LedgerOver MemLog :=
  { l with }

theorem exec_append_over (l : Ledger) (s : SignedEntry) :
    exec (LedgerOver.append s) l.over = match l.append s with
      | .ok next => (.ok ⟨⟩, next.over)
      | .error e => (.error e, l.over) := by
  rw [LedgerOver.exec_append]
  have hheader : l.over.checkHeader s = l.checkHeader s := rfl
  have hlog : exec (LedgerLog.append s) l.over.log = match l.log.append s with
      | .ok log => (.ok ⟨⟩, log)
      | .error e => (.error e, l.log) := by
    change exec (Transaction.ofExcept (entryHash s.entry) >>= _) l.log = _
    rw [exec_bind, exec_ofExcept, MemLog.append]
    cases entryHash s.entry <;> rfl
  unfold LedgerOver.checked Ledger.append
  rw [hheader, hlog]
  cases l.checkHeader s with
  | error e => rfl
  | ok _ =>
      cases s.entry.checkConservation with
      | error e => simp [bind, Except.bind]
      | ok _ =>
          cases happly : l.balances.applyEntry s.entry with
          | error e => simp [happly, bind, Except.bind, Ledger.over]
          | ok balances =>
              simp only [happly, bind, Except.bind, Ledger.over]
              cases l.log.append s <;> rfl

/-- In-place runs and runs of the pure ledger agree. -/
theorem run_over (l : Ledger) (attempts : List SignedEntry) :
    l.over.run attempts = (l.run attempts).over := by
  induction attempts generalizing l with
  | nil => rfl
  | cons s attempts ih =>
      have hstep : (exec (LedgerOver.append s) l.over).2 = (l.appendOrKeep s).over := by
        rw [exec_append_over, Ledger.appendOrKeep]
        cases l.append s <;> rfl
      rw [LedgerOver.run, List.foldl_cons, hstep]
      exact ih _

/-! ## The chain -/

/-- A hash chain and its head: each entry has the next position and names the hash of the
entry before it. -/
inductive Chained : List Entry → Hash → Prop where
  | nil : Chained [] Crypto.zero
  | snoc {entries : List Entry} {head hash : Hash} {e : Entry} (chain : Chained entries head)
      (seq : e.seq = UInt64.ofNat entries.length) (height : e.height = e.seq)
      (prev : e.prevHash = head) (hashed : entryHash e = .ok hash) :
      Chained (entries ++ [e]) hash

def MemLog.contents (log : MemLog) : List Entry := log.entries.map (·.entry)

theorem Chained.append {l l' : Ledger} {s : SignedEntry}
    (h : Chained l.log.contents l.headHash) (happend : l.append s = .ok l') :
    Chained l'.log.contents l'.headHash := by
  have hspec := append_spec happend
  have hlen : l.log.contents.length = l.len := List.length_map _
  rw [MemLog.contents, hspec.entries, List.map_append]
  have hseq : s.entry.seq = UInt64.ofNat l.log.contents.length := by rw [hlen, hspec.seq]
  exact .snoc h hseq hspec.height hspec.prevHash hspec.head

theorem chained_run (key : LedgerPubKey) (attempts : List SignedEntry) :
    Chained ((Ledger.new key).run attempts).log.contents
      ((Ledger.new key).run attempts).headHash := by
  apply run_induction (P := fun l => Chained l.log.contents l.headHash)
  · intro l l' s h happend
    exact h.append happend
  · exact .nil

theorem Chained.head {entries : List Entry} {head : Hash} (h : Chained entries head) :
    (entries = [] → head = Crypto.zero)
      ∧ ∀ e, entries.getLast? = some e → entryHash e = .ok head := by
  cases h with
  | nil => simp
  | snoc chain seq height prev hashed =>
      refine ⟨by simp, ?_⟩
      intro e he
      rw [List.getLast?_append, List.getLast?_singleton] at he
      cases he
      exact hashed

/-- An entry of a chain has its position, and names the hash of its predecessor. -/
theorem Chained.entry {entries : List Entry} {head : Hash} (h : Chained entries head) :
    ∀ (i : ℕ) (e : Entry), entries[i]? = some e →
      e.seq = UInt64.ofNat i ∧ e.height = UInt64.ofNat i ∧ (i = 0 → e.prevHash = Crypto.zero)
        ∧ ∀ p, 0 < i → entries[i - 1]? = some p → entryHash p = .ok e.prevHash := by
  induction h with
  | nil =>
      intro i e hi
      cases hi
  | @snoc entries head hash e chain seq height prev hashed ih =>
      intro i e' hi
      rcases Nat.lt_or_ge i entries.length with hlt | hge
      · rw [List.getElem?_append_left hlt] at hi
        obtain ⟨hseq, hheight, hfirst, hprev⟩ := ih i e' hi
        refine ⟨hseq, hheight, hfirst, ?_⟩
        intro p hpos hp
        rw [List.getElem?_append_left (by omega)] at hp
        exact hprev p hpos hp
      · have hlast : i = entries.length := by
          have hlt := (List.getElem?_eq_some_iff.mp hi).1
          simp only [List.length_append, List.length_singleton] at hlt
          omega
        subst hlast
        rw [List.getElem?_concat_length, Option.some.injEq] at hi
        subst hi
        refine ⟨seq, by rw [height, seq], ?_, ?_⟩
        · intro hzero
          rw [prev]
          exact chain.head.1 (List.length_eq_zero_iff.mp hzero)
        · intro p hpos hp
          rw [List.getElem?_append_left (by omega), ← List.getLast?_eq_getElem?] at hp
          rw [prev]
          exact chain.head.2 p hp

def NoCollision (xs ys : List Entry) : Prop :=
  ∀ x ∈ xs, ∀ y ∈ ys, ∀ hash, entryHash x = .ok hash → entryHash y = .ok hash → x = y

/-- Two chains with one head have the same contents, unless two of their entries collide. -/
theorem Chained.eq_of_head {xs ys : List Entry} {head : Hash} (hinj : NoCollision xs ys)
    (hx : Chained xs head) (hy : Chained ys head) (hxs : xs ≠ []) (hys : ys ≠ [])
    (hxlen : xs.length ≤ 2 ^ 64) (hylen : ys.length ≤ 2 ^ 64) : xs = ys := by
  induction hx generalizing ys with
  | nil => exact absurd rfl hxs
  | @snoc xs hx hash x xchain xseq xheight xprev xhashed ih =>
      cases hy with
      | nil => exact absurd rfl hys
      | @snoc ys hy _ y ychain yseq yheight yprev yhashed =>
          have hxy : x = y := hinj x (by simp) y (by simp) hash xhashed yhashed
          subst hxy
          simp only [List.length_append, List.length_singleton] at hxlen hylen
          have hlen : xs.length = ys.length := by
            rw [xseq] at yseq
            have := congrArg UInt64.toNat yseq
            simp only [UInt64.toNat_ofNat'] at this
            omega
          by_cases hempty : xs = []
          · have hnil : ys = [] := by
              rw [← List.length_eq_zero_iff, ← hlen, hempty]
              rfl
            rw [hempty, hnil]
          · have hsome : ys ≠ [] := by
              intro hnil
              rw [hnil] at hlen
              exact hempty (List.length_eq_zero_iff.mp hlen)
            have hhead : hx = hy := xprev.symm.trans yprev
            subst hhead
            rw [ih (fun a ha b hb => hinj a (by simp [ha]) b (by simp [hb])) ychain hempty hsome
              (by omega) (by omega)]

/-! ## Replay -/

/-- The log of a reachable ledger, fed to a fresh ledger, rebuilds the whole ledger. -/
theorem replay_run (key : LedgerPubKey) (attempts : List SignedEntry) :
    ((Ledger.new key).run attempts).log.entries.foldlM Ledger.append (Ledger.new key)
      = .ok ((Ledger.new key).run attempts) := by
  refine run_induction
    (P := fun l => l.log.entries.foldlM Ledger.append (Ledger.new key) = .ok l) ?_ rfl attempts
  intro l l' s h happend
  rw [(append_spec happend).entries, List.foldlM_append, h]
  simp [happend, bind, Except.bind, pure, Except.pure]

theorem balances_run (key : LedgerPubKey) (attempts : List SignedEntry) :
    ((Ledger.new key).run attempts).log.contents.foldlM Balances.applyEntry .newNonRoot
      = .ok ((Ledger.new key).run attempts).balances := by
  refine run_induction
    (P := fun l => l.log.contents.foldlM Balances.applyEntry .newNonRoot = .ok l.balances) ?_ rfl
    attempts
  intro l l' s h happend
  have hspec := append_spec happend
  rw [MemLog.contents, hspec.entries, List.map_append, List.foldlM_append]
  rw [MemLog.contents] at h
  rw [h]
  simp [hspec.applied, bind, Except.bind, pure, Except.pure]

/-- Feeding entries in order to in-place appends is folding the pure append. -/
theorem exec_forM_over {entries : List SignedEntry} {l l' : Ledger}
    (h : entries.foldlM Ledger.append l = .ok l') :
    exec (entries.forM LedgerOver.append) l.over = (.ok ⟨⟩, l'.over) := by
  induction entries generalizing l with
  | nil =>
      cases h
      rfl
  | cons s entries ih =>
      rw [foldlM_cons_eq_ok] at h
      obtain ⟨next, happend, hrest⟩ := h
      have hstep : exec (LedgerOver.append s) l.over = (.ok ⟨⟩, next.over) := by
        rw [exec_append_over, happend]
      change exec (LedgerOver.append s >>= fun _ => entries.forM LedgerOver.append) l.over = _
      rw [exec_bind, hstep]
      exact ih hrest

/-! ## Reachable ledgers -/

/-- What holds of every reachable ledger of a key. -/
structure HashChained (key : LedgerPubKey) (l : LedgerOver MemLog) : Prop where
  position : ∀ (i : ℕ) (s : SignedEntry), l.log.entries[i]? = some s →
    s.entry.seq = UInt64.ofNat i ∧ s.entry.height = UInt64.ofNat i
  genesis : ∀ s, l.log.entries[0]? = some s → s.entry.prevHash = Crypto.zero
  linked : ∀ (i : ℕ) (p s : SignedEntry), l.log.entries[i]? = some p →
    l.log.entries[i + 1]? = some s → entryHash p.entry = .ok s.entry.prevHash
  head : ∀ s, l.log.entries.getLast? = some s → entryHash s.entry = .ok (LedgerLog.headHash l.log)
  headEmpty : l.log.entries = [] → LedgerLog.headHash l.log = Crypto.zero
  replays : exec (l.log.entries.forM LedgerOver.append) (LedgerOver.new key) = (.ok ⟨⟩, l)
  rejected : ∀ s e l', exec (LedgerOver.append s) l = (.error e, l') → l' = l

theorem hashChained_run (key : LedgerPubKey) (attempts : List SignedEntry) :
    HashChained key ((LedgerOver.new key).run attempts) := by
  have hover : (LedgerOver.new key).run attempts = ((Ledger.new key).run attempts).over :=
    run_over (Ledger.new key) attempts
  rw [hover]
  have hchain := chained_run key attempts
  generalize hl : (Ledger.new key).run attempts = l at *
  have hentry : ∀ {i : ℕ} {s : SignedEntry}, l.log.entries[i]? = some s →
      l.log.contents[i]? = some s.entry := by
    intro i s hi
    rw [MemLog.contents, List.getElem?_map, hi]
    rfl
  refine ⟨?_, ?_, ?_, ?_, ?_, ?_, ?_⟩
  · intro i s hi
    obtain ⟨hseq, hheight, -⟩ := hchain.entry i s.entry (hentry hi)
    exact ⟨hseq, hheight⟩
  · intro s hs
    exact (hchain.entry 0 s.entry (hentry hs)).2.2.1 rfl
  · intro i p s hp hs
    exact (hchain.entry (i + 1) s.entry (hentry hs)).2.2.2 p.entry (Nat.succ_pos i) (hentry hp)
  · intro s hs
    apply hchain.head.2
    rw [MemLog.contents, List.getLast?_map]
    exact congrArg (Option.map _) hs
  · intro hempty
    apply hchain.head.1
    rw [MemLog.contents]
    exact congrArg (List.map _) hempty
  · exact exec_forM_over (hl ▸ replay_run key attempts)
  · intro s e l' hexec
    rw [exec_append_over] at hexec
    cases happend : l.append s with
    | ok next =>
        rw [happend] at hexec
        cases hexec
    | error e' =>
        rw [happend] at hexec
        cases hexec
        rfl

/-- Every reachable ledger is a hash chain that replays to itself and that a rejected append
leaves alone; and its head hash commits to the contents of its log and to its balances. A
`Vec` holds fewer than `2 ^ 64` entries. -/
theorem hash_chain (key : LedgerPubKey) (attempts : List SignedEntry) :
    HashChained key ((LedgerOver.new key).run attempts)
    ∧ ∀ attempts',
        NoCollision ((LedgerOver.new key).run attempts).log.contents
          ((LedgerOver.new key).run attempts').log.contents →
        LedgerLog.headHash ((LedgerOver.new key).run attempts).log
          = LedgerLog.headHash ((LedgerOver.new key).run attempts').log →
        0 < LedgerLog.len ((LedgerOver.new key).run attempts).log →
        0 < LedgerLog.len ((LedgerOver.new key).run attempts').log →
        LedgerLog.len ((LedgerOver.new key).run attempts).log < 2 ^ 64 →
        LedgerLog.len ((LedgerOver.new key).run attempts').log < 2 ^ 64 →
        ((LedgerOver.new key).run attempts).log.contents
            = ((LedgerOver.new key).run attempts').log.contents
          ∧ ((LedgerOver.new key).run attempts).balances
            = ((LedgerOver.new key).run attempts').balances := by
  refine ⟨hashChained_run key attempts, ?_⟩
  intro attempts' hinj hhead hpos hpos' hfit hfit'
  have hover : ∀ attempts, (LedgerOver.new key).run attempts
      = ((Ledger.new key).run attempts).over := run_over (Ledger.new key)
  have hlen : ∀ attempts, ((LedgerOver.new key).run attempts).log.contents.length
      = LedgerLog.len ((LedgerOver.new key).run attempts).log :=
    fun attempts => List.length_map _
  have hchain : ∀ attempts, Chained ((LedgerOver.new key).run attempts).log.contents
      (LedgerLog.headHash ((LedgerOver.new key).run attempts).log) :=
    fun attempts => hover attempts ▸ chained_run key attempts
  have hne : ∀ attempts, 0 < LedgerLog.len ((LedgerOver.new key).run attempts).log →
      ((LedgerOver.new key).run attempts).log.contents ≠ [] := by
    intro attempts hpos
    exact List.ne_nil_of_length_pos (hlen attempts ▸ hpos)
  have hcontents := Chained.eq_of_head hinj (hchain attempts) (hhead ▸ hchain attempts')
    (hne _ hpos) (hne _ hpos') (hlen attempts ▸ hfit.le) (hlen attempts' ▸ hfit'.le)
  refine ⟨hcontents, ?_⟩
  have hbalances : ∀ attempts,
      ((LedgerOver.new key).run attempts).log.contents.foldlM Balances.applyEntry .newNonRoot
        = .ok ((LedgerOver.new key).run attempts).balances :=
    fun attempts => hover attempts ▸ balances_run key attempts
  have heq := hbalances attempts
  rw [hcontents, hbalances attempts'] at heq
  exact (Except.ok.inj heq).symm

end

section

open Concrete

/-- A run in which the log rejects each entry once more than it accepts it. -/
def followTwice : List SignedEntry :=
  [followEntry, openEntry, openEntry, followEntry, followEntry]

theorem run_follow {attempts : List SignedEntry}
    (h : attempts = [openEntry, followEntry] ∨ attempts = followTwice) :
    ((LedgerOver.new (7 : ℕ)).run attempts).log.entries = [openEntry, followEntry]
    ∧ LedgerLog.len ((LedgerOver.new (7 : ℕ)).run attempts).log = 2
    ∧ LedgerLog.headHash ((LedgerOver.new (7 : ℕ)).run attempts).log
      = derive "cawala-ledger/entry/v1" [.byte 4 :: Concrete.entry followEntry.entry] := by
  cases h with
  | inl h =>
      subst h
      decide +kernel
  | inr h =>
      subst h
      decide +kernel

theorem noCollision_follow : NoCollision [openEntry.entry, followEntry.entry]
    [openEntry.entry, followEntry.entry] := by
  have hdiffer : entryHash openEntry.entry ≠ entryHash followEntry.entry := by decide +kernel
  intro x hx y hy hash hhash hhash'
  rw [← hhash'] at hhash
  rcases List.mem_pair.mp hx with rfl | rfl <;> rcases List.mem_pair.mp hy with rfl | rfl
  · rfl
  · exact absurd hhash hdiffer
  · exact absurd hhash.symm hdiffer
  · rfl

/-- Two runs to one head of two linked entries: the rejected attempts on the way make no
difference, and the second entry names the hash of the first. -/
theorem hash_chain_follow :
    ((LedgerOver.new (7 : ℕ)).run [openEntry, followEntry]).balances
        = ((LedgerOver.new (7 : ℕ)).run followTwice).balances
    ∧ entryHash openEntry.entry = .ok followEntry.entry.prevHash := by
  obtain ⟨hentries, hlen, hhead⟩ := run_follow (Or.inl rfl)
  obtain ⟨hentries', hlen', hhead'⟩ := run_follow (Or.inr rfl)
  obtain ⟨hchained, hdetermines⟩ := hash_chain (7 : ℕ) [openEntry, followEntry]
  refine ⟨(hdetermines followTwice ?_ ?_ ?_ ?_ ?_ ?_).2,
    hchained.linked 0 openEntry followEntry ?_ ?_⟩
  · rw [MemLog.contents, hentries, MemLog.contents, hentries']
    exact noCollision_follow
  · rw [hhead, hhead']
  · omega
  · omega
  · omega
  · omega
  · rw [hentries]
    rfl
  · rw [hentries]
    rfl

end

end Cawala
