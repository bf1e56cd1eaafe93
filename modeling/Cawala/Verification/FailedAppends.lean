import Cawala.Verification.LogAlteration

/-! # Appends on a failing device

An append writes its frame and then syncs it. The bytes that a failed write leaves are a torn
frame, which a reopening cuts off, but the next append on the same handle lands after them. -/

namespace Cawala

open Library Library.Framing Library.Transaction

section

variable [Crypto] [Postcard] [FrameCodec]

/-! ## One append -/

omit [Crypto] [Postcard] [FrameCodec] in
theorem takes_after {device : Device} {m : ℕ} (h : device.takes m = true) (n : ℕ) :
    (device.after m).takes n = device.takes (m + n) := by
  unfold Device.takes Device.after at *
  cases hroom : device.room with
  | none => rfl
  | some room =>
      simp only [hroom, Option.all_some, decide_eq_true_eq] at h
      simp only [Option.map_some, Option.all_some, decide_eq_decide]
      omega

omit [Postcard] [FrameCodec] in
theorem exec_writeAll (bytes : List UInt8) (device : Device) (log : FileLog) :
    (device.takes bytes.length = true ∧ exec (FileLog.writeAll bytes device) log
        = (.ok (device.after bytes.length), { log with disk := log.disk ++ bytes }))
    ∨ (device.takes bytes.length = false ∧ ∃ k < bytes.length,
        exec (FileLog.writeAll bytes device) log
          = (.error device.ioErr, { log with disk := log.disk ++ bytes.take k })) := by
  rw [FileLog.writeAll, exec_bind, exec_modify]
  dsimp only
  rw [exec_refuseIf_bind]
  cases htakes : device.takes bytes.length with
  | true =>
      left
      simp
  | false =>
      right
      unfold Device.takes at htakes
      cases hroom : device.room with
      | none => simp [hroom] at htakes
      | some room =>
          simp only [hroom, Option.all_some, decide_eq_false_iff_not, not_le] at htakes
          exact ⟨rfl, room, htakes, by simp⟩

/-- The call gets to write the frame of its entry. -/
structure Written (log : FileLog) (s : SignedEntry) (body : List UInt8) : Prop where
  replayed : ¬log.cursor < log.entries.length
  seq : s.entry.seq.toNat = log.entries.length
  encodable : Encodable s body

/-- What an append can do, with its result and the handle it leaves. -/
inductive AppendCase (log : FileLog) (s : SignedEntry) (device : Device) :
    Except LedgerError PUnit → FileLog → Prop where
  | replay (r : Except LedgerError PUnit) (cursor : ℕ) (hlt : log.cursor < log.entries.length)
      (hle : cursor ≤ log.entries.length) : AppendCase log s device r { log with cursor }
  | refused (e : LedgerError) : AppendCase log s device (.error e) log
  | cut (e : LedgerError) (body : List UInt8) (k : ℕ) (h : Written log s body)
      (hk : k < (frame body).length) :
      AppendCase log s device (.error e) { log with disk := log.disk ++ (frame body).take k }
  | left (e : LedgerError) (body : List UInt8) (h : Written log s body)
      (htakes : device.takes (frame body).length = true)
      (hbad : device.synced = false ∨ ∀ hash, entryHash s.entry ≠ .ok hash) :
      AppendCase log s device (.error e) { log with disk := log.disk ++ frame body }
  | written (body : List UInt8) (hash : Hash) (h : Written log s body)
      (hhash : entryHash s.entry = .ok hash) :
      AppendCase log s device (.ok ⟨⟩)
        { disk := log.disk ++ frame body, entries := log.entries ++ [s]
          heads := log.heads ++ [hash], cursor := log.entries.length + 1 }

theorem replayEntry_case {log : FileLog} {s : SignedEntry} {device : Device}
    (hlt : log.cursor < log.entries.length) :
    AppendCase log s device (exec (FileLog.replayEntry s) log).1
      (exec (FileLog.replayEntry s) log).2 := by
  rw [FileLog.replayEntry]
  simp only [exec_get_bind, exec_refuseIf_bind]
  by_cases hseq : s.entry.seq.toNat ≠ log.cursor
  · rw [if_pos hseq]
    exact .refused _
  · rw [if_neg hseq, exec_bind, exec_ofExcept]
    cases entryHash s.entry with
    | error e => exact .refused e
    | ok actual =>
        dsimp only
        rw [exec_refuseIf_bind]
        split
        · exact .refused _
        · exact .replay _ (log.cursor + 1) hlt hlt

theorem writeEntryOn_case {log : FileLog} {s : SignedEntry} {device : Device}
    (hend : ¬log.cursor < log.entries.length) :
    AppendCase log s device (exec (FileLog.writeEntryOn device s) log).1
      (exec (FileLog.writeEntryOn device s) log).2 := by
  rw [FileLog.writeEntryOn]
  simp only [exec_get_bind, exec_refuseIf_bind]
  by_cases hseq : s.entry.seq.toNat ≠ log.entries.length
  · rw [if_pos hseq]
    exact .refused _
  · rw [if_neg hseq, exec_bind, exec_ofExcept]
    cases hencode : FrameCodec.toAllocvec s with
    | error detail => exact .refused _
    | ok body =>
        dsimp only
        rw [exec_refuseIf_bind]
        by_cases hlong : maxEntryFrameSize < body.length
        · rw [if_pos hlong]
          exact .refused _
        · have hwritten : Written log s body := ⟨hend, not_not.mp hseq, hencode, not_lt.mp hlong⟩
          rw [if_neg hlong, exec_bind]
          cases exec_writeAll (le32 body.length) device log with
          | inr hcut =>
              obtain ⟨-, k, hk, hexec⟩ := hcut
              have htake : (frame body).take k = (le32 body.length).take k :=
                List.take_append_of_le_length hk.le
              rw [hexec, ← htake]
              exact .cut _ body k hwritten (by rw [length_frame]; rw [length_le32] at hk; omega)
          | inl hlength =>
              obtain ⟨htakes, hexec⟩ := hlength
              rw [hexec]
              dsimp only
              rw [exec_bind]
              have htotal := takes_after htakes body.length
              rw [length_le32, ← length_frame] at htotal
              cases exec_writeAll body (device.after (le32 body.length).length)
                  { log with disk := log.disk ++ le32 body.length } with
              | inr hcut =>
                  obtain ⟨-, k, hk, hexec'⟩ := hcut
                  have htake : le32 body.length ++ body.take k = (frame body).take (4 + k) :=
                    (List.take_length_add_append k).symm
                  rw [hexec']
                  dsimp only
                  rw [List.append_assoc, htake]
                  exact .cut _ body (4 + k) hwritten (by rw [length_frame]; omega)
              | inl hbody =>
                  obtain ⟨htakes', hexec'⟩ := hbody
                  rw [length_le32] at htakes'
                  rw [htotal] at htakes'
                  rw [hexec']
                  dsimp only
                  rw [exec_refuseIf_bind, List.append_assoc]
                  by_cases hsynced :
                      ((device.after (le32 body.length).length).after body.length).synced = false
                  · rw [if_pos hsynced]
                    exact .left _ body hwritten htakes' (Or.inl hsynced)
                  · rw [if_neg hsynced, exec_bind, exec_ofExcept]
                    cases hhash : entryHash s.entry with
                    | error e =>
                        exact .left e body hwritten htakes'
                          (Or.inr fun hash h => by rw [hhash] at h; cases h)
                    | ok hash => exact .written body hash hwritten hhash

theorem appendOn_case (log : FileLog) (s : SignedEntry) (device : Device) :
    AppendCase log s device (exec (FileLog.appendOn device s) log).1
      (exec (FileLog.appendOn device s) log).2 := by
  rw [FileLog.appendOn, exec_get_bind]
  by_cases hlt : log.cursor < log.entries.length
  · rw [if_pos hlt]
    exact replayEntry_case hlt
  · rw [if_neg hlt]
    exact writeEntryOn_case hlt

/-! ## Runs on one handle -/

/-- A handle, and the entries whose frames its file should hold: those it was opened with, and
those of the appends that have succeeded since. -/
structure Handle where
  log : FileLog
  expected : List SignedEntry

namespace Handle

/-- One append on the handle. A replayed entry is one that the file holds already. -/
def call (h : Handle) (c : SignedEntry × Device) : Handle where
  log := (exec (FileLog.appendOn c.2 c.1) h.log).2
  expected := if (exec (FileLog.appendOn c.2 c.1) h.log).1.toBool
      ∧ ¬h.log.cursor < h.log.entries.length
    then h.expected ++ [c.1] else h.expected

def run (h : Handle) (calls : List (SignedEntry × Device)) : Handle := calls.foldl call h

/-- Reopening the file yields exactly the expected entries. -/
def Reopens (h : Handle) : Prop :=
  ∀ replay, ∃ log, FileLog.openWith h.log.disk replay = .ok log ∧ log.entries = h.expected

def WholeFrames (h : Handle) : Prop :=
  ∃ bodies, (∀ body ∈ bodies, body.length ≤ maxEntryFrameSize) ∧ h.log.disk = frames bodies

/-- An append that gets to write is safe if its entry is validated against the handle, no earlier
write left part of a frame, and the device does not take the whole frame and then fail. -/
def Safe (h : Handle) (c : SignedEntry × Device) : Prop :=
  ∀ body, Written h.log c.1 body →
    (c.1.entry.prevHash = LedgerLog.headHash h.log ∧ ∃ hash, entryHash c.1.entry = .ok hash)
    ∧ h.WholeFrames ∧ (c.2.takes (frame body).length = true → c.2.synced = true)

/-- What the file of a handle consists of: frames that chain to the expected entries, and a torn
one. -/
structure Holds (h : Handle) (bodies : List (List UInt8)) (tail : List UInt8)
    (parsed : ParsedFrames) : Prop where
  disk : h.log.disk = frames bodies ++ tail
  torn : Framing.next maxEntryFrameSize tail = .torn
  chain : FrameChain .start bodies parsed
  expected : parsed.entries = h.expected
  entries : h.log.entries = h.expected
  heads : h.log.heads = parsed.heads
  cursor : h.log.cursor ≤ h.log.entries.length

variable {h : Handle} {bodies : List (List UInt8)} {tail : List UInt8} {parsed : ParsedFrames}

theorem Holds.reopens (hh : h.Holds bodies tail parsed) : h.Reopens := by
  intro replay
  exact ⟨_, openWith_eq_ok.mpr ⟨bodies, tail, parsed, hh.disk, hh.torn, hh.chain, rfl⟩,
    hh.expected⟩

theorem holds_of_open {disk : List UInt8} {replay : Bool} {log : FileLog}
    (hopen : FileLog.openWith disk replay = .ok log) :
    ∃ bodies parsed, Holds { log, expected := log.entries } bodies [] parsed := by
  obtain ⟨bodies, tail, parsed, -, -, hchain, rfl⟩ := openWith_eq_ok.mp hopen
  refine ⟨bodies, parsed, (List.append_nil _).symm, rfl, hchain, rfl, rfl, rfl, ?_⟩
  cases replay with
  | true => exact Nat.zero_le _
  | false => exact le_rfl

/-- A file that ends where a frame ends has no torn tail. -/
theorem Holds.whole (hh : h.Holds bodies tail parsed) (hwhole : h.WholeFrames) : tail = [] := by
  obtain ⟨bodies', hfits, hdisk⟩ := hwhole
  rw [hh.disk, ← List.append_nil (frames bodies')] at hdisk
  exact (frames_append_inj (by decide) hh.chain.fits hfits hh.torn rfl hdisk).2

/-- The head of a handle at its end is that of its frames. -/
theorem Holds.headHash (hh : h.Holds bodies tail parsed)
    (hend : ¬h.log.cursor < h.log.entries.length) :
    LedgerLog.headHash h.log = parsed.heads.getLastD Crypto.zero := by
  have hcursor : h.log.cursor = h.log.entries.length := le_antisymm hh.cursor (not_lt.mp hend)
  have hheads := hh.chain.heads
  have hlen := hh.chain.length
  rw [ParsedFrames.start, List.length_singleton] at hheads
  rw [ParsedFrames.start, List.length_nil, Nat.zero_add] at hlen
  change h.log.heads.getD h.log.cursor Crypto.zero = _
  rw [hh.heads, hcursor, hh.entries, ← hh.expected, hlen, List.getLastD_eq_getLast?,
    List.getLast?_eq_getElem?, hheads, Nat.add_sub_cancel_left, List.getD_eq_getElem?_getD]

/-- The frame of a validated entry chains onto the file. -/
theorem Holds.push (hround : FrameCodec.RoundTrip) (hh : h.Holds bodies tail parsed)
    {s : SignedEntry} {body : List UInt8} {hash : Hash} (hwritten : Written h.log s body)
    (hprev : s.entry.prevHash = LedgerLog.headHash h.log) (hhash : entryHash s.entry = .ok hash) :
    FrameChain .start (bodies ++ [body])
      { entries := parsed.entries ++ [s], heads := parsed.heads ++ [hash]
        completeLen := parsed.completeLen + (4 + body.length) } := by
  have hseq : s.entry.seq = UInt64.ofNat parsed.entries.length := by
    rw [hh.expected, ← hh.entries, ← hwritten.seq, UInt64.ofNat_toNat]
  have hpush : parsed.pushBody body = .ok
      { entries := parsed.entries ++ [s], heads := parsed.heads ++ [hash]
        completeLen := parsed.completeLen + (4 + body.length) } := by
    rw [ParsedFrames.pushBody, hround s body hwritten.encodable.1]
    dsimp only
    rw [ParsedFrames.push, if_neg (not_not.mpr hseq),
      if_neg (not_not.mpr (hprev.trans (hh.headHash hwritten.replayed))), hhash]
  have hlast := frameChain_cons.mpr ⟨hwritten.encodable.2, _, hpush, .nil _⟩
  exact frameChain_append.mpr ⟨parsed, hh.chain, hlast⟩

/-- A safe append keeps what the file consists of. -/
theorem Holds.call (hround : FrameCodec.RoundTrip) (hh : h.Holds bodies tail parsed)
    {c : SignedEntry × Device} (hsafe : h.Safe c) :
    ∃ bodies tail parsed, (h.call c).Holds bodies tail parsed := by
  have hcase := appendOn_case h.log c.1 c.2
  generalize hexec : exec (FileLog.appendOn c.2 c.1) h.log = result at hcase
  obtain ⟨r, next⟩ := result
  have hcall : h.call c = { log := next, expected := if r.toBool
      ∧ ¬h.log.cursor < h.log.entries.length then h.expected ++ [c.1] else h.expected } := by
    rw [Handle.call, hexec]
  rw [hcall]
  dsimp only at hcase
  cases hcase with
  | replay _ cursor hlt hle =>
      rw [if_neg (fun hok => hok.2 hlt)]
      exact ⟨bodies, tail, parsed, hh.disk, hh.torn, hh.chain, hh.expected, hh.entries, hh.heads,
        hle⟩
  | refused e =>
      rw [if_neg (fun hok => by simp [Except.toBool] at hok)]
      exact ⟨bodies, tail, parsed, hh⟩
  | cut e body k hwritten hk =>
      rw [if_neg (fun hok => by simp [Except.toBool] at hok)]
      obtain ⟨-, hwhole, -⟩ := hsafe body hwritten
      obtain rfl := hh.whole hwhole
      refine ⟨bodies, (frame body).take k, parsed, ?_, ?_, hh.chain, hh.expected, hh.entries,
        hh.heads, hh.cursor⟩
      · rw [hh.disk, List.append_nil]
      · exact next_take hwritten.encodable.2 (by decide) hk
  | left e body hwritten htakes hbad =>
      obtain ⟨⟨-, hash, hhash⟩, -, hsynced⟩ := hsafe body hwritten
      cases hbad with
      | inl hfailed => rw [hsynced htakes] at hfailed; cases hfailed
      | inr hnone => exact absurd hhash (hnone hash)
  | written body hash hwritten hhash =>
      rw [if_pos ⟨rfl, hwritten.replayed⟩]
      obtain ⟨⟨hprev, -⟩, hwhole, -⟩ := hsafe body hwritten
      obtain rfl := hh.whole hwhole
      refine ⟨bodies ++ [body], [], _, ?_, rfl, hh.push hround hwritten hprev hhash, ?_, ?_, ?_, ?_⟩
      · rw [hh.disk, List.append_nil, List.append_nil, frames_append, frames_cons, frames_nil,
          List.append_nil]
      · rw [hh.expected]
      · rw [hh.entries]
      · rw [hh.heads]
      · simp

def SafeRun (h : Handle) : List (SignedEntry × Device) → Prop
  | [] => True
  | c :: calls => h.Safe c ∧ (h.call c).SafeRun calls

theorem Holds.run (hround : FrameCodec.RoundTrip) (hh : h.Holds bodies tail parsed)
    {calls : List (SignedEntry × Device)} (hsafe : h.SafeRun calls) (n : ℕ) :
    ∃ bodies tail parsed, (h.run (calls.take n)).Holds bodies tail parsed := by
  induction calls generalizing h bodies tail parsed n with
  | nil => rw [List.take_nil]; exact ⟨bodies, tail, parsed, hh⟩
  | cons c calls ih =>
      cases n with
      | zero => exact ⟨bodies, tail, parsed, hh⟩
      | succ n =>
          obtain ⟨bodies', tail', parsed', hh'⟩ := hh.call hround hsafe.1
          exact ih hh' hsafe.2 n

end Handle

/-- Whatever log a handle was opened on, after every append of a run of safe ones the file reopens
to the entries it was opened with and those whose appends have succeeded, in order. -/
theorem failed_appends (hround : FrameCodec.RoundTrip) {disk : List UInt8} {replay : Bool}
    {log : FileLog} (hopen : FileLog.openWith disk replay = .ok log)
    {calls : List (SignedEntry × Device)}
    (hsafe : Handle.SafeRun { log, expected := log.entries } calls) (n : ℕ) :
    (Handle.run { log, expected := log.entries } (calls.take n)).Reopens := by
  obtain ⟨bodies, parsed, hh⟩ := Handle.holds_of_open hopen
  obtain ⟨bodies', tail', parsed', hh'⟩ := hh.run hround hsafe n
  exact hh'.reopens

end

section Concrete

open Concrete

def goodDevice : Device := { room := none, synced := true, failure := "" }

def fullDevice : Device := { room := some 1, synced := false, failure := "no space left" }

def newHandle : Handle where
  log := { disk := [], entries := [], heads := [Crypto.zero], cursor := 0 }
  expected := []

theorem newHandle_open (codec : FrameCodec) :
    @FileLog.openWith _ _ codec [] false = .ok newHandle.log :=
  (@openWith_eq_ok _ _ codec _ _ _).mpr
    ⟨[], [], .start, rfl, rfl, @FrameChain.nil _ _ codec .start, rfl⟩

/-- A failed write after a good one leaves the good entry. -/
theorem failed_appends_full : @Handle.Reopens _ _ followCodec (@Handle.run _ _ followCodec newHandle
    [(openEntry, goodDevice), (followEntry, fullDevice)]) := by
  have hfirst : (entryHash openEntry.entry).toBool = true := by decide +kernel
  have hsecond : (entryHash followEntry.entry).toBool = true := by decide +kernel
  refine @failed_appends _ _ followCodec followCodec_roundTrip [] false newHandle.log
    (newHandle_open followCodec) [(openEntry, goodDevice), (followEntry, fullDevice)]
    ⟨?_, ?_, trivial⟩ 2
  · intro body _
    exact ⟨⟨by decide +kernel, exists_ok_of_toBool hfirst⟩, ⟨[], by simp, rfl⟩, fun _ => rfl⟩
  · intro body _
    refine ⟨⟨by decide +kernel, exists_ok_of_toBool hsecond⟩, ⟨[[1]], by decide, by decide +kernel⟩,
      ?_⟩
    intro htakes
    simp [fullDevice, Device.takes] at htakes
    omega

/-- The append after a failed write succeeds, and its entry is lost. -/
theorem failed_appends_lost :
    ¬∀ (disk : List UInt8) (replay : Bool) (log : FileLog) (calls : List (SignedEntry × Device)),
      @FileLog.openWith _ _ openCodec disk replay = .ok log →
      @Handle.Reopens _ _ openCodec
        (@Handle.run _ _ openCodec { log, expected := log.entries } calls) := by
  intro hall
  have hreopens := hall [] false newHandle.log [(openEntry, fullDevice), (openEntry, goodDevice)]
    (newHandle_open openCodec)
  obtain ⟨log, hopen, hentries⟩ := hreopens false
  have hdisk : (@Handle.run _ _ openCodec newHandle
      [(openEntry, fullDevice), (openEntry, goodDevice)]).log.disk
        = 11 :: [11, 0, 0, 0, 7, 0, 0, 0, 1, 0, 1, 97, 1, 0, 0] := by decide +kernel
  have hexpected : (@Handle.run _ _ openCodec newHandle
      [(openEntry, fullDevice), (openEntry, goodDevice)]).expected = [openEntry] := by
    decide +kernel
  have hcut : @FileLog.openWith _ _ openCodec
      (11 :: [11, 0, 0, 0, 7, 0, 0, 0, 1, 0, 1, 97, 1, 0, 0])
      false = .ok newHandle.log :=
    (@openWith_eq_ok _ _ openCodec _ _ _).mpr
      ⟨[], _, .start, rfl, by decide +kernel, @FrameChain.nil _ _ openCodec .start, rfl⟩
  change @FileLog.openWith _ _ openCodec (@Handle.run _ _ openCodec newHandle
      [(openEntry, fullDevice), (openEntry, goodDevice)]).log.disk false = .ok log at hopen
  change log.entries = (@Handle.run _ _ openCodec newHandle
      [(openEntry, fullDevice), (openEntry, goodDevice)]).expected at hentries
  rw [hdisk, hcut, Except.ok.injEq] at hopen
  rw [hexpected, ← hopen] at hentries
  cases hentries

end Concrete

end Cawala
