import Cawala.Model.LedgerStore
import Cawala.Verification.HashChain

/-! # Crash recovery of the frame log

Whatever byte the file is cut at, opening keeps the whole frames, and the ledger over the
file refines the ledger in memory. -/

namespace Cawala

open Library Library.Framing Library.Transaction

section

variable [Crypto] [Postcard] [FrameCodec]

/-! ## Frames -/

def Encodable (s : SignedEntry) (body : List UInt8) : Prop :=
  FrameCodec.toAllocvec s = .ok body ∧ body.length ≤ maxEntryFrameSize

def entryFrame (s : SignedEntry) : List UInt8 :=
  match FrameCodec.toAllocvec s with
  | .ok body => frame body
  | .error _ => []

def logBytes (entries : List SignedEntry) : List UInt8 := (entries.map entryFrame).flatten

omit [Postcard] in
theorem Encodable.frame {s : SignedEntry} {body : List UInt8} (h : Encodable s body) :
    entryFrame s = Framing.frame body := by
  rw [entryFrame, h.1]

omit [Postcard] in
theorem logBytes_append (xs ys : List SignedEntry) :
    logBytes (xs ++ ys) = logBytes xs ++ logBytes ys := by
  simp [logBytes]

/-- The heads of a log: after each number of entries, the hash of the last. -/
inductive HeadsOf : List SignedEntry → List Hash → Prop where
  | nil : HeadsOf [] [Crypto.zero]
  | snoc {entries : List SignedEntry} {heads : List Hash} {s : SignedEntry} {hash : Hash}
      (h : HeadsOf entries heads) (hhash : entryHash s.entry = .ok hash) :
      HeadsOf (entries ++ [s]) (heads ++ [hash])

omit [FrameCodec] in
theorem HeadsOf.length {entries : List SignedEntry} {heads : List Hash}
    (h : HeadsOf entries heads) : heads.length = entries.length + 1 := by
  induction h with
  | nil => rfl
  | snoc h hhash ih => simp [ih]

omit [FrameCodec] in
theorem HeadsOf.first {entries : List SignedEntry} {heads : List Hash}
    (h : HeadsOf entries heads) : heads[0]? = some Crypto.zero := by
  induction h with
  | nil => rfl
  | snoc h hhash ih => rw [List.getElem?_append_left (by rw [h.length]; omega), ih]

omit [FrameCodec] in
theorem HeadsOf.getElem? {entries : List SignedEntry} {heads : List Hash}
    (h : HeadsOf entries heads) {i : ℕ} {s : SignedEntry} (hi : entries[i]? = some s) :
    ∃ hash, entryHash s.entry = .ok hash ∧ heads[i + 1]? = some hash := by
  induction h with
  | nil => cases hi
  | @snoc entries heads s' hash h hhash ih =>
      rcases getElem?_snoc hi with hi | ⟨rfl, rfl⟩
      · obtain ⟨hash', hhash', hget⟩ := ih hi
        refine ⟨hash', hhash', ?_⟩
        have hlt := (List.getElem?_eq_some_iff.mp hget).1
        rw [List.getElem?_append_left hlt, hget]
      · refine ⟨hash, hhash, ?_⟩
        rw [← h.length, List.getElem?_concat_length]

/-- The ledger in memory after a list of accepted entries. -/
def Fed (key : LedgerPubKey) (entries : List SignedEntry) (m : Ledger) : Prop :=
  entries.foldlM Ledger.append (Ledger.new key) = .ok m

section Fed

variable {key : LedgerPubKey}

omit [FrameCodec] in
theorem fed_append {xs ys : List SignedEntry} {m : Ledger} :
    Fed key (xs ++ ys) m ↔ ∃ mid, Fed key xs mid ∧ ys.foldlM Ledger.append mid = .ok m := by
  rw [Fed, List.foldlM_append, bind_eq_ok]
  rfl

omit [FrameCodec] in
theorem fed_snoc {xs : List SignedEntry} {s : SignedEntry} {m : Ledger} :
    Fed key (xs ++ [s]) m ↔ ∃ mid, Fed key xs mid ∧ mid.append s = .ok m := by
  rw [fed_append]
  simp [pure, Except.pure]

omit [FrameCodec] in
theorem Fed.take {xs : List SignedEntry} {m : Ledger} (h : Fed key xs m) (k : ℕ) :
    ∃ mid, Fed key (xs.take k) mid ∧ (xs.drop k).foldlM Ledger.append mid = .ok m := by
  apply fed_append.mp
  rwa [List.take_append_drop]

omit [FrameCodec] in
theorem Fed.entries {xs : List SignedEntry} {m : Ledger} (h : Fed key xs m) :
    m.log.entries = xs := by
  refine foldlM_induction (P := fun done m => m.log.entries = done) (d := []) ?_ rfl h
  intro done s m m' hm happend
  rw [(append_spec happend).entries, hm]

omit [FrameCodec] in
theorem Fed.len {xs : List SignedEntry} {m : Ledger} (h : Fed key xs m) : m.len = xs.length := by
  rw [Ledger.len, h.entries]

omit [FrameCodec] in
theorem Fed.head {xs : List SignedEntry} {heads : List Hash} {m : Ledger} (h : Fed key xs m)
    (hheads : HeadsOf xs heads) : heads[xs.length]? = some m.headHash := by
  cases hheads with
  | nil =>
      cases h
      rfl
  | snoc hheads hhash =>
      obtain ⟨mid, -, happend⟩ := fed_snoc.mp h
      have hhead := (append_spec happend).head
      rw [hhash, Except.ok.injEq] at hhead
      rw [List.length_append, List.length_singleton, ← hheads.length,
        List.getElem?_concat_length, hhead]
      rfl

omit [FrameCodec] in
theorem Fed.getLastD {xs : List SignedEntry} {heads : List Hash} {m : Ledger} (h : Fed key xs m)
    (hheads : HeadsOf xs heads) : heads.getLastD Crypto.zero = m.headHash := by
  rw [List.getLastD_eq_getLast?, List.getLast?_eq_getElem?, hheads.length, Nat.add_sub_cancel,
    h.head hheads]
  rfl

end Fed

/-! ## The scan -/

def Torn (tail : List UInt8) : Prop := tail = [] ∨ Framing.next maxEntryFrameSize tail = .torn

theorem parseFrames_torn (parsed : ParsedFrames) {data : List UInt8} (h : Torn data) :
    parseFrames parsed data = .ok parsed := by
  rw [parseFrames]
  by_cases hempty : data = []
  · rw [if_pos hempty]
  · rw [if_neg hempty]
    have hnext := h.resolve_left hempty
    split <;> simp_all

omit [Crypto] [Postcard] [FrameCodec] in
theorem Torn.next {tail : List UInt8} (h : Torn tail) :
    Framing.next maxEntryFrameSize tail = .torn := by
  cases h with
  | inl hempty => rw [hempty]; rfl
  | inr htorn => exact htorn

def ParsedFrames.pushBody (parsed : ParsedFrames) (body : List UInt8) :
    Except StoreError ParsedFrames :=
  match FrameCodec.fromBytes body with
  | .error _ => .error (.invalidFrame (parsed.completeLen + 4))
  | .ok entry => parsed.push entry (4 + body.length)

def ParsedFrames.start : ParsedFrames where
  entries := []
  heads := [Crypto.zero]
  completeLen := 0

/-- Bodies that fit in a frame and chain onto what is parsed so far. -/
structure FrameChain (parsed : ParsedFrames) (bodies : List (List UInt8)) (parsed' : ParsedFrames) :
    Prop where
  fits : ∀ body ∈ bodies, body.length ≤ maxEntryFrameSize
  pushed : bodies.foldlM ParsedFrames.pushBody parsed = .ok parsed'

/-- What a chained body adds. -/
structure PushSpec (parsed : ParsedFrames) (body : List UInt8) (parsed' : ParsedFrames)
    (s : SignedEntry) : Prop where
  decoded : FrameCodec.fromBytes body = .ok s
  seq : s.entry.seq = UInt64.ofNat parsed.entries.length
  entries : parsed'.entries = parsed.entries ++ [s]
  heads : ∃ hash, parsed'.heads = parsed.heads ++ [hash]
  completeLen : parsed'.completeLen = parsed.completeLen + (4 + body.length)

theorem pushBody_spec {parsed parsed' : ParsedFrames} {body : List UInt8}
    (h : parsed.pushBody body = .ok parsed') : ∃ s, PushSpec parsed body parsed' s := by
  unfold ParsedFrames.pushBody at h
  cases hdecode : FrameCodec.fromBytes body with
  | error e => simp [hdecode] at h
  | ok s =>
      simp only [hdecode, ParsedFrames.push, ite_error_eq_ok] at h
      obtain ⟨hseq, -, hpush⟩ := h
      cases hhash : entryHash s.entry with
      | error e => simp [hhash] at hpush
      | ok hash =>
          simp only [hhash, Except.ok.injEq] at hpush
          subst hpush
          exact ⟨s, hdecode, not_not.mp hseq, rfl, ⟨hash, rfl⟩, rfl⟩

theorem FrameChain.nil (parsed : ParsedFrames) : FrameChain parsed [] parsed :=
  ⟨List.forall_mem_nil _, rfl⟩

theorem frameChain_cons {parsed parsed' : ParsedFrames} {body : List UInt8}
    {bodies : List (List UInt8)} :
    FrameChain parsed (body :: bodies) parsed' ↔ body.length ≤ maxEntryFrameSize
      ∧ ∃ mid, parsed.pushBody body = .ok mid ∧ FrameChain mid bodies parsed' := by
  constructor
  · intro h
    obtain ⟨mid, hpush, hrest⟩ := foldlM_cons_eq_ok.mp h.pushed
    exact ⟨h.fits body List.mem_cons_self, mid, hpush,
      fun b hb => h.fits b (List.mem_cons_of_mem _ hb), hrest⟩
  · intro h
    obtain ⟨hbody, mid, hpush, hrest⟩ := h
    exact ⟨List.forall_mem_cons.mpr ⟨hbody, hrest.fits⟩,
      foldlM_cons_eq_ok.mpr ⟨mid, hpush, hrest.pushed⟩⟩

theorem frameChain_append {parsed parsed' : ParsedFrames} {xs ys : List (List UInt8)} :
    FrameChain parsed (xs ++ ys) parsed'
      ↔ ∃ mid, FrameChain parsed xs mid ∧ FrameChain mid ys parsed' := by
  induction xs generalizing parsed with
  | nil =>
      constructor
      · intro h
        exact ⟨parsed, .nil parsed, h⟩
      · intro h
        obtain ⟨mid, hnil, hrest⟩ := h
        rwa [← Except.ok.inj hnil.pushed] at hrest
  | cons x xs ih =>
      simp only [List.cons_append, frameChain_cons, ih]
      constructor
      · intro h
        obtain ⟨hx, mid, hpush, mid', hxs, hys⟩ := h
        exact ⟨mid', ⟨hx, mid, hpush, hxs⟩, hys⟩
      · intro h
        obtain ⟨mid', ⟨hx, mid, hpush, hxs⟩, hys⟩ := h
        exact ⟨hx, mid, hpush, mid', hxs, hys⟩

theorem FrameChain.length {parsed parsed' : ParsedFrames} {bodies : List (List UInt8)}
    (h : FrameChain parsed bodies parsed') :
    parsed'.entries.length = parsed.entries.length + bodies.length := by
  induction bodies generalizing parsed with
  | nil => rw [← Except.ok.inj h.pushed, List.length_nil, Nat.add_zero]
  | cons body bodies ih =>
      obtain ⟨-, mid, hpush, hrest⟩ := frameChain_cons.mp h
      obtain ⟨s, hspec⟩ := pushBody_spec hpush
      rw [ih hrest, hspec.entries, List.length_append, List.length_singleton, List.length_cons]
      omega

theorem FrameChain.completeLen {parsed parsed' : ParsedFrames} {bodies : List (List UInt8)}
    (h : FrameChain parsed bodies parsed') :
    parsed'.completeLen = parsed.completeLen + (frames bodies).length := by
  induction bodies generalizing parsed with
  | nil => rw [← Except.ok.inj h.pushed, frames_nil, List.length_nil, Nat.add_zero]
  | cons body bodies ih =>
      obtain ⟨-, mid, hpush, hrest⟩ := frameChain_cons.mp h
      obtain ⟨s, hspec⟩ := pushBody_spec hpush
      rw [ih hrest, hspec.completeLen, frames_cons, List.length_append, length_frame]
      omega

theorem FrameChain.heads {parsed parsed' : ParsedFrames} {bodies : List (List UInt8)}
    (h : FrameChain parsed bodies parsed') :
    parsed'.heads.length = parsed.heads.length + bodies.length := by
  induction bodies generalizing parsed with
  | nil => rw [← Except.ok.inj h.pushed, List.length_nil, Nat.add_zero]
  | cons body bodies ih =>
      obtain ⟨-, mid, hpush, hrest⟩ := frameChain_cons.mp h
      obtain ⟨s, hspec⟩ := pushBody_spec hpush
      obtain ⟨hash, hheads⟩ := hspec.heads
      rw [ih hrest, hheads, List.length_append, List.length_singleton, List.length_cons]
      omega

theorem parseFrames_next {parsed : ParsedFrames} {data body rest : List UInt8}
    (hnext : Framing.next maxEntryFrameSize data = .frame body rest) :
    parseFrames parsed data
      = (parsed.pushBody body).bind fun parsed => parseFrames parsed rest := by
  have hempty : data ≠ [] := by
    intro hnil
    rw [hnil] at hnext
    cases hnext
  rw [parseFrames, if_neg hempty, ParsedFrames.pushBody]
  split
  · simp_all
  · simp_all
  · rename_i body' rest' hnext'
    rw [hnext] at hnext'
    cases hnext'
    cases FrameCodec.fromBytes body with
    | error e => rfl
    | ok entry =>
        dsimp only
        cases parsed.push entry (4 + body.length) <;> rfl

theorem parseFrames_frames {parsed : ParsedFrames} {bodies : List (List UInt8)}
    (hfits : ∀ body ∈ bodies, body.length ≤ maxEntryFrameSize) (rest : List UInt8) :
    parseFrames parsed (frames bodies ++ rest)
      = (bodies.foldlM ParsedFrames.pushBody parsed).bind
        fun parsed => parseFrames parsed rest := by
  induction bodies generalizing parsed with
  | nil => rfl
  | cons body bodies ih =>
      have hnext := next_frame (frames bodies ++ rest) (hfits body List.mem_cons_self)
        (show maxEntryFrameSize < 2 ^ 32 by decide)
      rw [frames_cons, List.append_assoc, parseFrames_next hnext, List.foldlM_cons]
      cases parsed.pushBody body with
      | error e => rfl
      | ok mid => exact ih fun b hb => hfits b (List.mem_cons_of_mem _ hb)

/-- A scan that succeeds has read frames that chain, up to a torn one. -/
theorem parseFrames_eq_ok {parsed parsed' : ParsedFrames} {data : List UInt8} :
    parseFrames parsed data = .ok parsed' ↔ ∃ bodies tail, data = frames bodies ++ tail
      ∧ Framing.next maxEntryFrameSize tail = .torn ∧ FrameChain parsed bodies parsed' := by
  constructor
  · intro h
    induction hlen : data.length using Nat.strong_induction_on generalizing parsed data with
    | _ n ih =>
      by_cases hempty : data = []
      · rw [parseFrames, if_pos hempty, Except.ok.injEq] at h
        refine ⟨[], [], by rw [hempty]; rfl, rfl, ?_⟩
        rw [← h]
        exact .nil parsed
      · cases hnext : Framing.next maxEntryFrameSize data with
        | torn =>
            rw [parseFrames_torn parsed (Or.inr hnext), Except.ok.injEq] at h
            refine ⟨[], data, rfl, hnext, ?_⟩
            rw [← h]
            exact .nil parsed
        | tooLong len =>
            rw [parseFrames, if_neg hempty] at h
            split at h <;> simp_all
        | frame body rest =>
            obtain ⟨hdata, hbody⟩ := eq_of_next hnext
            rw [parseFrames_next hnext] at h
            obtain ⟨mid, hpush, hrest⟩ := bind_eq_ok.mp h
            obtain ⟨bodies, tail, hsplit, htorn, hchain⟩ :=
              ih rest.length (hlen ▸ length_rest_lt hnext) hrest rfl
            refine ⟨body :: bodies, tail, ?_, htorn,
              frameChain_cons.mpr ⟨hbody, mid, hpush, hchain⟩⟩
            rw [hdata, hsplit, frames_cons, List.append_assoc]
  · intro h
    obtain ⟨bodies, tail, rfl, htorn, hchain⟩ := h
    rw [parseFrames_frames hchain.fits, hchain.pushed]
    exact parseFrames_torn parsed' (Or.inr htorn)

theorem openWith_eq_ok {disk : List UInt8} {replay : Bool} {log : FileLog} :
    FileLog.openWith disk replay = .ok log ↔ ∃ bodies tail parsed, disk = frames bodies ++ tail
      ∧ Framing.next maxEntryFrameSize tail = .torn ∧ FrameChain .start bodies parsed
      ∧ log = { disk := frames bodies, entries := parsed.entries, heads := parsed.heads
                cursor := if replay then 0 else parsed.entries.length } := by
  have hcut : ∀ {bodies : List (List UInt8)} {tail : List UInt8} {parsed : ParsedFrames},
      disk = frames bodies ++ tail → FrameChain .start bodies parsed →
      (if parsed.completeLen < disk.length then disk.take parsed.completeLen else disk)
        = frames bodies := by
    intro bodies tail parsed hdisk hchain
    have hlen := hchain.completeLen
    rw [ParsedFrames.start, Nat.zero_add] at hlen
    rw [hlen, hdisk, List.take_left' rfl]
    by_cases htail : tail = []
    · simp [htail]
    · have hpos := List.length_pos_iff.mpr htail
      rw [List.length_append, if_pos (by omega)]
  unfold FileLog.openWith
  rw [bind_eq_ok]
  constructor
  · intro h
    obtain ⟨parsed, hparse, hlog⟩ := h
    obtain ⟨bodies, tail, hdisk, htorn, hchain⟩ := parseFrames_eq_ok.mp hparse
    refine ⟨bodies, tail, parsed, hdisk, htorn, hchain, ?_⟩
    rw [hcut hdisk hchain] at hlog
    exact (Except.ok.inj hlog).symm
  · intro h
    obtain ⟨bodies, tail, parsed, hdisk, htorn, hchain, rfl⟩ := h
    refine ⟨parsed, parseFrames_eq_ok.mpr ⟨bodies, tail, hdisk, htorn, hchain⟩, ?_⟩
    rw [hcut hdisk hchain]
    rfl

/-! ## The frames of accepted entries -/

theorem frameChain_logBytes (hround : FrameCodec.RoundTrip) {key : LedgerPubKey}
    {parsed : ParsedFrames} {xs : List SignedEntry} {m m' : Ledger}
    (hheads : HeadsOf parsed.entries parsed.heads) (hfed : Fed key parsed.entries m)
    (hrest : xs.foldlM Ledger.append m = .ok m')
    (hencodable : ∀ s ∈ xs, ∃ body, Encodable s body) :
    ∃ bodies parsed', logBytes xs = frames bodies ∧ FrameChain parsed bodies parsed'
      ∧ parsed'.entries = parsed.entries ++ xs ∧ HeadsOf parsed'.entries parsed'.heads := by
  induction xs generalizing parsed m with
  | nil => exact ⟨[], parsed, rfl, .nil parsed, (List.append_nil _).symm, hheads⟩
  | cons s xs ih =>
      obtain ⟨body, hbody⟩ := hencodable s List.mem_cons_self
      rw [foldlM_cons_eq_ok] at hrest
      obtain ⟨mid, happend, hrest⟩ := hrest
      have hspec := append_spec happend
      let next : ParsedFrames :=
        { entries := parsed.entries ++ [s], heads := parsed.heads ++ [mid.headHash]
          completeLen := parsed.completeLen + (4 + body.length) }
      have hpush : parsed.pushBody body = .ok next := by
        rw [ParsedFrames.pushBody, hround s body hbody.1]
        dsimp only
        rw [ParsedFrames.push, hfed.getLastD hheads, hspec.seq, hfed.len, hspec.prevHash]
        simp only [ne_eq, not_true_eq_false, ↓reduceIte, hspec.head]
        rfl
      have hheads' : HeadsOf next.entries next.heads := hheads.snoc hspec.head
      have hfed' : Fed key next.entries mid := fed_snoc.mpr ⟨m, hfed, happend⟩
      obtain ⟨bodies, parsed', hbytes, hchain, hentries, hall⟩ := ih hheads' hfed' hrest
        fun s' hs' => hencodable s' (List.mem_cons_of_mem _ hs')
      refine ⟨body :: bodies, parsed', ?_, frameChain_cons.mpr ⟨hbody.2, next, hpush, hchain⟩, ?_,
        hall⟩
      · rw [frames_cons, ← hbytes, ← hbody.frame]
        rfl
      · rw [hentries, List.append_assoc]
        rfl

/-- Opening the frames of accepted entries with a torn tail keeps the frames and cuts the
tail. -/
theorem openWith_logBytes (hround : FrameCodec.RoundTrip) {key : LedgerPubKey}
    {xs : List SignedEntry} {tail : List UInt8} {m : Ledger} (hfed : Fed key xs m)
    (hencodable : ∀ s ∈ xs, ∃ body, Encodable s body) (htorn : Torn tail) :
    ∃ heads, HeadsOf xs heads ∧ FileLog.openWith (logBytes xs ++ tail) true
      = .ok { disk := logBytes xs, entries := xs, heads, cursor := 0 } := by
  have hstart : HeadsOf ParsedFrames.start.entries ParsedFrames.start.heads := .nil
  have hnew : Fed key ParsedFrames.start.entries (Ledger.new key) := rfl
  obtain ⟨bodies, parsed, hbytes, hchain, hentries, hheads⟩ :=
    frameChain_logBytes hround hstart hnew hfed hencodable
  rw [hentries] at hheads
  refine ⟨parsed.heads, hheads, openWith_eq_ok.mpr ?_⟩
  refine ⟨bodies, tail, parsed, by rw [hbytes], htorn.next, hchain, ?_⟩
  rw [hbytes, hentries]
  rfl

/-! ## Refinement of the ledger in memory -/

/-- The ledger over a log backend shows what the ledger in memory shows. -/
structure Agrees {L : Type} [LedgerLog L] (l : LedgerOver L) (m : Ledger) : Prop where
  ledgerId : l.ledgerId = m.ledgerId
  ledgerPubkey : l.ledgerPubkey = m.ledgerPubkey
  balances : l.balances = m.balances
  height : l.height = m.height
  len : LedgerLog.len l.log = m.len
  headHash : LedgerLog.headHash l.log = m.headHash

omit [FrameCodec] in
theorem Agrees.checked {L : Type} [LedgerLog L] {l : LedgerOver L} {m : Ledger}
    (h : Agrees l m) (s : SignedEntry) : l.checked s = m.over.checked s := by
  unfold LedgerOver.checked LedgerOver.checkHeader
  rw [h.ledgerId, h.ledgerPubkey, h.balances, h.len, h.headHash]
  rfl

omit [FrameCodec] in
theorem append_eq_checked (m : Ledger) (s : SignedEntry) :
    m.append s = (do
      let balances ← m.over.checked s
      let log ← m.log.append s
      pure { m with balances, log, height := s.entry.height }) := by
  unfold Ledger.append LedgerOver.checked
  simp only [bind_assoc]
  rfl

/-- The frame log of a ledger: the frames of its entries, of which the first `cursor` are
visible. -/
structure OnDisk (xs : List SignedEntry) (cursor : ℕ) (log : FileLog) : Prop where
  disk : log.disk = logBytes xs
  entries : log.entries = xs
  heads : HeadsOf xs log.heads
  cursor : log.cursor = cursor

theorem OnDisk.len {xs : List SignedEntry} {cursor : ℕ} {log : FileLog}
    (h : OnDisk xs cursor log) : LedgerLog.len log = cursor := h.cursor

theorem OnDisk.headHash {xs : List SignedEntry} {cursor : ℕ} {log : FileLog} {head : Hash}
    (h : OnDisk xs cursor log) (hhead : log.heads[cursor]? = some head) :
    LedgerLog.headHash log = head := by
  change log.heads.getD log.cursor Crypto.zero = head
  rw [h.cursor, List.getD_eq_getElem?_getD, hhead]
  rfl

/-- Replaying a persisted entry writes nothing and advances the cursor. -/
theorem exec_replayEntry {xs : List SignedEntry} {k : ℕ} {log : FileLog} {s : SignedEntry}
    (h : OnDisk xs k log) (hk : xs[k]? = some s) (hseq : s.entry.seq.toNat = k) :
    exec (LedgerLog.append s) log = (.ok ⟨⟩, { log with cursor := k + 1 }) := by
  have hlt : log.cursor < log.entries.length := by
    rw [h.cursor, h.entries]
    exact (List.getElem?_eq_some_iff.mp hk).1
  obtain ⟨hash, hhash, hget⟩ := h.heads.getElem? hk
  change exec (get >>= fun log => if log.cursor < log.entries.length then
    FileLog.replayEntry s else FileLog.writeEntry s) log = _
  rw [exec_bind, exec_get]
  dsimp only
  rw [if_pos hlt, FileLog.replayEntry, exec_bind, exec_get]
  dsimp only
  rw [exec_bind, exec_refuseIf, if_neg (by rw [hseq, h.cursor]; exact not_not.mpr rfl)]
  dsimp only
  rw [exec_bind, exec_ofExcept, hhash]
  dsimp only
  rw [exec_bind, exec_refuseIf, if_neg (by
    rw [h.cursor, List.getD_eq_getElem?_getD, hget]
    exact not_not.mpr rfl)]
  dsimp only
  rw [exec_set, h.cursor]

section Replay

variable {key : LedgerPubKey} {xs : List SignedEntry} {k : ℕ} {l : LedgerOver FileLog}
  {m m' : Ledger} {s : SignedEntry}

theorem replayIndex_ok (hdisk : OnDisk xs k l.log) (hagree : Agrees l m)
    (hfed : Fed key (xs.take k) m) (hk : xs[k]? = some s) (happend : m.append s = .ok m')
    (hfit : xs.length ≤ 2 ^ 64) :
    ∃ l', replayIndex l k = .ok l' ∧ OnDisk xs (k + 1) l'.log ∧ Agrees l' m' := by
  have hspec := append_spec happend
  have hlt := (List.getElem?_eq_some_iff.mp hk).1
  have hseq : s.entry.seq.toNat = k := by
    rw [hspec.seq, hfed.len, List.length_take, Nat.min_eq_left (by omega),
      UInt64.toNat_ofNat', Nat.mod_eq_of_lt (by omega)]
  have hchecked : l.checked s = .ok m'.balances := by
    rw [append_eq_checked] at happend
    simp only [bind_eq_ok, pure_eq_ok] at happend
    obtain ⟨balances, hchecked, log, -, rfl⟩ := happend
    rw [hagree.checked, hchecked]
  let next : LedgerOver FileLog :=
    { l with
      log := { l.log with cursor := k + 1 }, balances := m'.balances
      height := s.entry.height }
  have hstep : exec (LedgerOver.append s) l = (.ok ⟨⟩, next) := by
    rw [LedgerOver.exec_append, hchecked]
    simp only [exec_replayEntry hdisk hk hseq]
    rfl
  have hdisk' : OnDisk xs (k + 1) next.log :=
    ⟨hdisk.disk, hdisk.entries, hdisk.heads, rfl⟩
  have hget : LedgerLog.get l.log k = .ok (some s) := by
    change Except.ok l.log.entries[k]? = _
    rw [hdisk.entries, hk]
  refine ⟨next, ?_, hdisk', ?_⟩
  · rw [replayIndex, hget]
    simp only [hstep]
  · obtain ⟨hash, hhash, hhead⟩ := hdisk.heads.getElem? hk
    have hsame : m'.headHash = hash := by
      have := hspec.head
      rw [hhash, Except.ok.injEq] at this
      exact this.symm
    refine ⟨hagree.ledgerId.trans hspec.sameId.symm, hagree.ledgerPubkey.trans hspec.sameKey.symm,
      rfl, hspec.newHeight.symm, ?_, ?_⟩
    · rw [hdisk'.len, Ledger.len, hspec.entries, List.length_append, ← Ledger.len, hfed.len,
        List.length_take, Nat.min_eq_left (by omega)]
      rfl
    · rw [hsame]
      exact hdisk'.headHash hhead

/-- Replaying the persisted entries rebuilds the ledger that accepted them. -/
theorem replay_ok (hdisk : OnDisk xs 0 l.log) (hagree : Agrees l (Ledger.new key))
    (hfed : Fed key xs m) (hfit : xs.length ≤ 2 ^ 64) :
    ∃ l', (List.range xs.length).foldlM replayIndex l = .ok l' ∧ OnDisk xs xs.length l'.log
      ∧ Agrees l' m := by
  have hprefix : ∀ k ≤ xs.length, ∃ l' mid, (List.range k).foldlM replayIndex l = .ok l'
      ∧ Fed key (xs.take k) mid ∧ OnDisk xs k l'.log ∧ Agrees l' mid := by
    intro k hk
    induction k with
    | zero => exact ⟨l, _, rfl, rfl, hdisk, hagree⟩
    | succ k ih =>
        obtain ⟨l', mid, hfold, hmid, hdisk', hagree'⟩ := ih (by omega)
        have hget : xs[k]? = some xs[k] := List.getElem?_eq_getElem hk
        obtain ⟨mid', hmid', -⟩ := hfed.take (k + 1)
        have hsnoc := hmid'
        rw [List.take_add_one, hget, Option.toList_some, fed_snoc] at hsnoc
        obtain ⟨mid₀, hmid₀, happend⟩ := hsnoc
        obtain rfl : mid₀ = mid := by
          rw [Fed, hmid] at hmid₀
          exact (Except.ok.inj hmid₀).symm
        obtain ⟨l'', hstep, hdisk'', hagree''⟩ :=
          replayIndex_ok hdisk' hagree' hmid hget happend hfit
        refine ⟨l'', mid', ?_, hmid', hdisk'', hagree''⟩
        rw [List.range_succ, List.foldlM_append, hfold]
        simp [hstep, bind, Except.bind, pure, Except.pure]
  obtain ⟨l', mid, hfold, hmid, hdisk', hagree'⟩ := hprefix xs.length le_rfl
  rw [List.take_length, Fed, hfed] at hmid
  cases hmid
  exact ⟨l', hfold, hdisk', hagree'⟩

end Replay

/-! ## New entries -/

/-- At the end of the log, a new entry is refused before anything is written, or its whole
frame is. -/
theorem exec_writeEntry {xs : List SignedEntry} {log : FileLog} {s : SignedEntry} {hash : Hash}
    (h : OnDisk xs xs.length log) (hhash : entryHash s.entry = .ok hash) :
    (∃ e, exec (LedgerLog.append s) log = (.error e, log))
    ∨ ∃ body, Encodable s body ∧ s.entry.seq.toNat = xs.length
      ∧ exec (LedgerLog.append s) log = (.ok ⟨⟩,
          { disk := log.disk ++ frame body, entries := log.entries ++ [s]
            heads := log.heads ++ [hash], cursor := xs.length + 1 }) := by
  have hend : ¬ log.cursor < log.entries.length := by
    rw [h.cursor, h.entries]
    exact lt_irrefl _
  have hwrite : exec (LedgerLog.append s) log = exec (FileLog.writeEntry s) log := by
    change exec (get >>= fun log => if log.cursor < log.entries.length then
      FileLog.replayEntry s else FileLog.writeEntry s) log = _
    rw [exec_bind, exec_get]
    dsimp only
    rw [if_neg hend]
  rw [hwrite, FileLog.writeEntry]
  simp only [exec_bind, exec_get, exec_refuseIf, exec_ofExcept, exec_modify]
  by_cases hseq : s.entry.seq.toNat ≠ log.entries.length
  · left
    simp [hseq]
  · cases hencode : FrameCodec.toAllocvec s with
    | error detail =>
        left
        simp [hseq]
    | ok body =>
        by_cases hlong : maxEntryFrameSize < body.length
        · left
          simp [hseq, hlong]
        · right
          rw [h.entries, not_not] at hseq
          refine ⟨body, ⟨hencode, by omega⟩, hseq, ?_⟩
          simp [h.entries, hseq, hlong, hhash, frame, List.append_assoc]

/-- The state of an open ledger and the entries it has accepted: the file holds exactly
their frames, and the ledger agrees with the ledger in memory that accepted the same. -/
structure Durable (key : LedgerPubKey) (l : LedgerOver FileLog) (xs : List SignedEntry) :
    Prop where
  disk : OnDisk xs xs.length l.log
  refines : ∃ m, Fed key xs m ∧ Agrees l m
  encodable : ∀ s ∈ xs, ∃ body, Encodable s body
  fit : xs.length ≤ 2 ^ 64

omit [FrameCodec] in
theorem checked_hashed {L : Type} [LedgerLog L] {l : LedgerOver L} {s : SignedEntry}
    {balances : Balances} (h : l.checked s = .ok balances) :
    ∃ hash, entryHash s.entry = .ok hash := by
  simp only [LedgerOver.checked, LedgerOver.checkHeader, bind_eq_ok, ite_error_eq_ok] at h
  obtain ⟨_, ⟨-, hheader⟩, -⟩ := h
  split at hheader
  · cases hheader
  · rw [bind_eq_ok] at hheader
    obtain ⟨bytes, hbytes, -⟩ := hheader
    exact ⟨_, by rw [entryHash, hbytes]; rfl⟩

/-- An append over the file is refused and changes nothing, or is an append in memory and
writes one frame. -/
theorem Durable.append {key : LedgerPubKey} {l : LedgerOver FileLog} {xs : List SignedEntry}
    (h : Durable key l xs) (s : SignedEntry) :
    (∃ e, exec (LedgerOver.append s) l = (.error e, l))
    ∨ ∃ l', exec (LedgerOver.append s) l = (.ok ⟨⟩, l') ∧ Durable key l' (xs ++ [s]) := by
  obtain ⟨m, hfed, hagree⟩ := h.refines
  rw [LedgerOver.exec_append]
  cases hchecked : l.checked s with
  | error e => exact Or.inl ⟨e, rfl⟩
  | ok balances =>
      obtain ⟨hash, hhash⟩ := checked_hashed hchecked
      cases exec_writeEntry h.disk hhash with
      | inl hwrite =>
          obtain ⟨e, hwrite⟩ := hwrite
          exact Or.inl ⟨e, by simp only [hwrite]⟩
      | inr hwrite =>
          obtain ⟨body, hbody, hseq, hwrite⟩ := hwrite
          refine Or.inr ⟨_, by simp only [hwrite]; rfl, ?_⟩
          have happend : m.append s = .ok
              { m with
                balances, log := { entries := m.log.entries ++ [s], head := hash }
                height := s.entry.height } := by
            rw [append_eq_checked, ← hagree.checked, hchecked, MemLog.append, hhash]
            rfl
          have hlast := hfed.len
          have hdisk : OnDisk (xs ++ [s]) (xs.length + 1)
              { disk := l.log.disk ++ frame body, entries := l.log.entries ++ [s]
                heads := l.log.heads ++ [hash], cursor := xs.length + 1 } :=
            ⟨by rw [logBytes_append, h.disk.disk, logBytes, logBytes]; simp [hbody.frame],
              by rw [h.disk.entries], h.disk.heads.snoc hhash, rfl⟩
          refine ⟨by simpa using hdisk, ⟨_, fed_snoc.mpr ⟨m, hfed, happend⟩, ?_⟩, ?_, ?_⟩
          · refine ⟨hagree.ledgerId, hagree.ledgerPubkey, rfl, rfl, ?_, ?_⟩
            · rw [hdisk.len]
              simp [Ledger.len, hfed.entries]
            · apply hdisk.headHash
              rw [← h.disk.heads.length, List.getElem?_concat_length]
              rfl
          · intro s' hs'
            rcases List.mem_append.mp hs' with hs' | hs'
            · exact h.encodable s' hs'
            · rw [List.mem_singleton.mp hs']
              exact ⟨body, hbody⟩
          · have := s.entry.seq.toNat_lt
            simp only [List.length_append, List.length_singleton]
            omega

/-! ## Crashes -/

/-- What is left of a cut log opens to the ledger of the whole frames. -/
theorem openStore_logBytes (hround : FrameCodec.RoundTrip) {key : LedgerSecretKey}
    {nodeId : NodeId} {persisted : Option LedgerMeta} {found : LedgerMeta}
    {xs : List SignedEntry} {tail : List UInt8} {m : Ledger}
    (hmeta : loadOrCreateMeta persisted nodeId (Crypto.pubKey key) = .ok found)
    (hnode : found.nodeId = nodeId) (hkey : found.ledgerId = Crypto.pubKey key)
    (hfed : Fed (Crypto.pubKey key) xs m) (hencodable : ∀ s ∈ xs, ∃ body, Encodable s body)
    (hfit : xs.length ≤ 2 ^ 64) (htorn : Torn tail) :
    ∃ l, openStore persisted (logBytes xs ++ tail) nodeId key = .ok (found, l)
      ∧ Durable (Crypto.pubKey key) l xs := by
  obtain ⟨heads, hheads, hopen⟩ := openWith_logBytes hround hfed hencodable htorn
  let start : LedgerOver FileLog := .newWithLog (Crypto.pubKey key)
    { disk := logBytes xs, entries := xs, heads, cursor := 0 }
  have hdisk : OnDisk xs 0 start.log := ⟨rfl, rfl, hheads, rfl⟩
  have hagree : Agrees start (Ledger.new (Crypto.pubKey key)) :=
    ⟨rfl, rfl, rfl, rfl, rfl, hdisk.headHash hheads.first⟩
  obtain ⟨l, hreplay, hdisk', hagree'⟩ := replay_ok hdisk hagree hfed hfit
  refine ⟨l, ?_, hdisk', ⟨m, hfed, hagree'⟩, hencodable, hfit⟩
  unfold openStore
  rw [hmeta]
  simp only [bind, Except.bind, hnode, hkey, ne_eq, not_true_eq_false, ↓reduceIte, hopen]
  rw [show (List.range xs.length).foldlM replayIndex _ = _ from hreplay]
  rfl

omit [Postcard] in
/-- Cutting the log of accepted entries leaves the whole frames and a torn one. -/
theorem take_logBytes {xs : List SignedEntry} (hencodable : ∀ s ∈ xs, ∃ body, Encodable s body)
    (n : ℕ) : ∃ tail, Torn tail
      ∧ (logBytes xs).take n = logBytes (xs.take (survivors (xs.map entryFrame) n)) ++ tail := by
  obtain ⟨tail, htake, htail⟩ := take_flatten (xs.map entryFrame) n
  refine ⟨tail, ?_, by rw [logBytes, htake, logBytes, List.map_take]⟩
  refine htail.imp id ?_
  intro h
  obtain ⟨piece, hpiece, k, hk, rfl⟩ := h
  obtain ⟨s, hs, rfl⟩ := List.mem_map.mp hpiece
  obtain ⟨body, hbody⟩ := hencodable s hs
  rw [hbody.frame] at hk ⊢
  exact next_take hbody.2 (by decide) hk

/-- An open ledger over the file, with the entries it should hold: those it accepted, less
the ones a crash cut off. -/
structure Session where
  found : LedgerMeta
  ledger : LedgerOver FileLog
  expected : List SignedEntry

/-- What happens to an open ledger: an append attempt, or a crash that leaves the first `n`
bytes of the file, followed by a reopen. -/
inductive StoreEvent where
  | append (s : SignedEntry)
  | crash (n : ℕ)

def Session.step (nodeId : NodeId) (key : LedgerSecretKey) (session : Session) :
    StoreEvent → Except StoreError Session
  | .append s =>
      match (LedgerOver.append s).exec session.ledger with
      | (.ok _, ledger) => .ok { session with ledger, expected := session.expected ++ [s] }
      | (.error _, ledger) => .ok { session with ledger }
  | .crash n => do
      let (found, ledger) ←
        openStore (some session.found) (session.ledger.log.disk.take n) nodeId key
      let whole := survivors (session.expected.map entryFrame) n
      pure { found, ledger, expected := session.expected.take whole }

/-- A life of a data directory, from its creation on. -/
def Session.run (nodeId : NodeId) (key : LedgerSecretKey) (events : List StoreEvent) :
    Except StoreError Session := do
  let (found, ledger) ← openStore none [] nodeId key
  events.foldlM (Session.step nodeId key) { found, ledger, expected := [] }

/-- The metadata that a fresh data directory gets. -/
def freshMeta (nodeId : NodeId) (key : LedgerSecretKey) : LedgerMeta where
  formatVersion := ledgerFormatVersion
  nodeId
  ledgerId := Crypto.pubKey key

theorem Durable.step (hround : FrameCodec.RoundTrip) {nodeId : NodeId} {key : LedgerSecretKey}
    {session : Session} (hfound : session.found = freshMeta nodeId key)
    (h : Durable (Crypto.pubKey key) session.ledger session.expected) (event : StoreEvent) :
    ∃ next, session.step nodeId key event = .ok next ∧ next.found = freshMeta nodeId key
      ∧ Durable (Crypto.pubKey key) next.ledger next.expected := by
  cases event with
  | append s =>
      cases h.append s with
      | inl hrejected =>
          obtain ⟨e, hexec⟩ := hrejected
          exact ⟨session, by simp only [Session.step, hexec], hfound, h⟩
      | inr haccepted =>
          obtain ⟨ledger, hexec, hdurable⟩ := haccepted
          exact ⟨{ session with ledger, expected := session.expected ++ [s] },
            by simp only [Session.step, hexec], hfound, hdurable⟩
  | crash n =>
      obtain ⟨m, hfed, -⟩ := h.refines
      obtain ⟨tail, htorn, htake⟩ := take_logBytes h.encodable n
      obtain ⟨m', hfed', -⟩ := hfed.take (survivors (session.expected.map entryFrame) n)
      have hmeta : loadOrCreateMeta (some session.found) nodeId (Crypto.pubKey key)
          = .ok session.found := by
        rw [hfound]
        rfl
      obtain ⟨ledger, hopen, hdurable⟩ := openStore_logBytes hround hmeta (by rw [hfound]; rfl)
        (by rw [hfound]; rfl) hfed' (fun s hs => h.encodable s (List.mem_of_mem_take hs))
        ((List.length_take_le' _ _).trans h.fit) htorn
      let whole := survivors (session.expected.map entryFrame) n
      refine ⟨{ session with ledger, expected := session.expected.take whole }, ?_, hfound,
        hdurable⟩
      rw [← htake, ← h.disk.disk] at hopen
      simp only [Session.step, hopen]
      rfl

/-- Every life of a data directory, with any crashes, reopens to exactly the whole frames, and
the ledger over the file is the ledger in memory of the same entries. -/
theorem crash_recovery (hround : FrameCodec.RoundTrip) (nodeId : NodeId) (key : LedgerSecretKey)
    (events : List StoreEvent) :
    ∃ session, Session.run nodeId key events = .ok session
      ∧ Durable (Crypto.pubKey key) session.ledger session.expected := by
  have hfed : Fed (Crypto.pubKey key) [] (Ledger.new (Crypto.pubKey key)) := rfl
  have hmeta : loadOrCreateMeta none nodeId (Crypto.pubKey key) = .ok (freshMeta nodeId key) := rfl
  obtain ⟨ledger, hopen, hdurable⟩ := openStore_logBytes hround hmeta rfl rfl hfed
    (fun s hs => by cases hs) (Nat.zero_le _) (Or.inl rfl)
  obtain ⟨session, hrun, -, hlast⟩ := foldlM_exists
    (P := fun session : Session => session.found = freshMeta nodeId key
      ∧ Durable (Crypto.pubKey key) session.ledger session.expected)
    (fun session event h => h.2.step hround h.1 event)
    (s := { found := freshMeta nodeId key, ledger, expected := [] }) ⟨rfl, hdurable⟩ events
  refine ⟨session, ?_, hlast⟩
  unfold Session.run
  rw [show openStore none [] nodeId key = _ from hopen]
  exact hrun

end

section

open Concrete

/-- The bytes that stand for one signed entry. -/
def openFrame : List UInt8 := [7, 0, 0, 0, 1, 0, 1, 97, 1, 0, 0]

@[reducible] def openCodec : FrameCodec where
  toAllocvec s := if s = openEntry then .ok openFrame else .error "unknown entry"
  fromBytes bytes := if bytes = openFrame then .ok openEntry else .error "unknown frame"

theorem openCodec_roundTrip : @FrameCodec.RoundTrip _ openCodec := by
  intro s bytes h
  change (if s = openEntry then Except.ok openFrame else .error "unknown entry") = .ok bytes at h
  change (if bytes = openFrame then Except.ok openEntry else .error "unknown frame") = .ok s
  by_cases hs : s = openEntry
  · rw [if_pos hs, Except.ok.injEq] at h
    rw [if_pos h.symm, hs]
  · rw [if_neg hs] at h
    cases h

/-- A life with two crashes: one inside a frame, and one that loses nothing. -/
theorem crash_recovery_open :
    ∃ session, @Session.run _ _ openCodec "n" (7 : ℕ)
        [.append openEntry, .crash 9, .append openEntry, .crash 15] = .ok session
      ∧ @Durable _ _ openCodec (7 : ℕ) session.ledger session.expected :=
  @crash_recovery _ _ openCodec openCodec_roundTrip "n" (7 : ℕ) _

end

end Cawala
