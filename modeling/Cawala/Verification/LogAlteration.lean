import Cawala.Verification.LedgerStore

/-! # Alterations inside the frame log

A file opens exactly when it is a run of frames that chain onto each other, and then a torn
one. So an altered frame is noticed wherever the scan comes back to the end of that frame; it
is not where the altered bytes declare a length that leads past it to the end of the file. -/

namespace Cawala

open Library Library.Framing

section

variable [Crypto] [Postcard] [FrameCodec]

/-- A log of whole frames, one of which, before at least one more, is altered in place. -/
structure Alteration where
  before : List (List UInt8)
  victim : List UInt8
  after : List (List UInt8)
  altered : List UInt8
  followed : after ≠ []
  sameSize : altered.length = (frame victim).length
  opened : ∃ parsed, FrameChain .start (before ++ victim :: after) parsed

namespace Alteration

def disk (a : Alteration) : List UInt8 := frames a.before ++ a.altered ++ frames a.after

/-- How many entries the file had. -/
def count (a : Alteration) : ℕ := a.before.length + 1 + a.after.length

/-- The altered file does not open, or opens untruncated with the original number of entries. -/
def Noticed (a : Alteration) (replay : Bool) : Prop :=
  match FileLog.openWith a.disk replay with
  | .error _ => True
  | .ok log => log.entries.length = a.count ∧ log.disk = a.disk

/-- From the altered frame on, the file reads as frames that chain onto those before. None of them
ends where the altered frame did; and they end before the file does, at a torn frame, or are not
as many as the original ones. -/
def Misread (a : Alteration) : Prop :=
  ∃ mid parsed read tail, FrameChain .start a.before mid ∧ FrameChain mid read parsed
    ∧ a.altered ++ frames a.after = frames read ++ tail
    ∧ (∀ m ≤ read.length, (frames (read.take m)).length ≠ a.altered.length)
    ∧ (tail ≠ [] ∧ Framing.next maxEntryFrameSize tail = .torn
      ∨ tail = [] ∧ read.length ≠ 1 + a.after.length)

variable {a : Alteration}

theorem victim_fits (a : Alteration) : a.victim.length ≤ maxEntryFrameSize := by
  obtain ⟨parsed, hchain⟩ := a.opened
  exact hchain.fits a.victim (List.mem_append_right _ List.mem_cons_self)

/-- A scan that comes back to the end of the altered frame has read one entry there, because the
next one has its sequence number. -/
theorem one_read {mid parsed : ParsedFrames} {read : List (List UInt8)}
    (hmid : FrameChain .start a.before mid) (hread : FrameChain mid (read ++ a.after) parsed)
    (hsize : (frames read).length = a.altered.length) : read.length = 1 := by
  obtain ⟨next, after, hafter⟩ := List.exists_cons_of_ne_nil a.followed
  obtain ⟨full, hfull⟩ := a.opened
  obtain ⟨mid', hbefore, hrest⟩ := frameChain_append.mp hfull
  have hsame : mid' = mid := by
    have hpushed := hbefore.pushed
    rw [hmid.pushed, Except.ok.injEq] at hpushed
    exact hpushed.symm
  subst hsame
  obtain ⟨-, afterVictim, hvictim, hnext⟩ := frameChain_cons.mp hrest
  obtain ⟨victimEntry, hvictim⟩ := pushBody_spec hvictim
  obtain ⟨afterRead, hchain, hnext'⟩ := frameChain_append.mp hread
  rw [hafter] at hnext hnext'
  obtain ⟨-, x, hpush, -⟩ := frameChain_cons.mp hnext
  obtain ⟨-, x', hpush', -⟩ := frameChain_cons.mp hnext'
  obtain ⟨s, hspec⟩ := pushBody_spec hpush
  obtain ⟨s', hspec'⟩ := pushBody_spec hpush'
  have hentry : s' = s := by
    have hdecoded := hspec'.decoded
    rw [hspec.decoded, Except.ok.injEq] at hdecoded
    exact hdecoded.symm
  have hseq := hspec'.seq
  rw [hentry, hspec.seq, ← UInt64.toNat_inj, UInt64.toNat_ofNat', UInt64.toNat_ofNat',
    hvictim.entries, hchain.length, List.length_append, List.length_singleton] at hseq
  have hfew : read.length ≤ 4 + 16 * 1024 * 1024 := by
    have hlen := length_le_length_frames read
    have hfit := a.victim_fits
    rw [maxEntryFrameSize] at hfit
    rw [hsize, a.sameSize, length_frame] at hlen
    omega
  omega

theorem not_noticed_of_misread (replay : Bool) (h : a.Misread) : ¬a.Noticed replay := by
  intro hnoticed
  obtain ⟨mid, parsed, read, tail, hbefore, hread, hdata, -, hend⟩ := h
  have hdisk : a.disk = frames (a.before ++ read) ++ tail := by
    rw [disk, List.append_assoc, hdata, frames_append, List.append_assoc]
  have htorn : Framing.next maxEntryFrameSize tail = .torn := by
    cases hend with
    | inl h => exact h.2
    | inr h => rw [h.1]; rfl
  have hchain : FrameChain .start (a.before ++ read) parsed :=
    frameChain_append.mpr ⟨mid, hbefore, hread⟩
  have hopen : FileLog.openWith a.disk replay = .ok _ :=
    openWith_eq_ok.mpr ⟨a.before ++ read, tail, parsed, hdisk, htorn, hchain, rfl⟩
  rw [Noticed, hopen] at hnoticed
  dsimp only at hnoticed
  have hlen := hchain.length
  rw [ParsedFrames.start, List.length_nil, Nat.zero_add, hnoticed.1, count,
    List.length_append] at hlen
  cases hend with
  | inl h =>
      have hcut := hnoticed.2
      rw [hdisk, List.self_eq_append_right] at hcut
      exact h.1 hcut
  | inr h => exact h.2 (by omega)

/-- A file that opens is read in one way: back in step at the end of the altered frame, or not. -/
theorem noticed_of_not_misread (replay : Bool) (hmisread : ¬a.Misread) : a.Noticed replay := by
  rw [Noticed]
  cases hopen : FileLog.openWith a.disk replay with
  | error e => trivial
  | ok log =>
      obtain ⟨bodies, tail, parsed, hdisk, htorn, hchain, rfl⟩ := openWith_eq_ok.mp hopen
      dsimp only
      obtain ⟨full, hfull⟩ := a.opened
      obtain ⟨mid, hbefore, -⟩ := frameChain_append.mp hfull
      have hparse := parseFrames_eq_ok.mpr ⟨bodies, tail, hdisk, htorn, hchain⟩
      rw [disk, List.append_assoc, parseFrames_frames hbefore.fits, hbefore.pushed] at hparse
      obtain ⟨read, tail', hdata, htorn', hread⟩ := parseFrames_eq_ok.mp hparse
      have hwhole : frames bodies ++ tail = frames (a.before ++ read) ++ tail' := by
        rw [← hdisk, disk, List.append_assoc, hdata, frames_append, List.append_assoc]
      have hfits : ∀ body ∈ a.before ++ read, body.length ≤ maxEntryFrameSize := by
        intro body hb
        cases List.mem_append.mp hb with
        | inl hb => exact hbefore.fits body hb
        | inr hb => exact hread.fits body hb
      obtain ⟨rfl, rfl⟩ := frames_append_inj (by decide) hchain.fits hfits htorn htorn' hwhole
      have hlen := hchain.length
      rw [ParsedFrames.start, List.length_nil, Nat.zero_add, List.length_append] at hlen
      by_cases hback : ∃ m ≤ read.length, (frames (read.take m)).length = a.altered.length
      · obtain ⟨m, hm, hsize⟩ := hback
        rw [← List.take_append_drop m read, frames_append, List.append_assoc] at hdata
        obtain ⟨-, hrest⟩ := List.append_inj hdata.symm hsize
        have hafter : ∀ body ∈ a.after, body.length ≤ maxEntryFrameSize := fun body hb =>
          hfull.fits body (List.mem_append_right _ (List.mem_cons_of_mem _ hb))
        obtain ⟨hsame, rfl⟩ := frames_append_inj (by decide)
          (fun body hb => hread.fits body (List.mem_of_mem_drop hb)) hafter htorn
          (show Framing.next maxEntryFrameSize [] = .torn from rfl)
          (hrest.trans (List.append_nil _).symm)
        rw [← List.take_append_drop m read, hsame] at hread
        have hone := one_read hbefore hread hsize
        have hsplit := congrArg List.length (List.take_append_drop m read)
        rw [List.length_append, hsame, hone] at hsplit
        refine ⟨by rw [hlen, ← hsplit, count]; omega, ?_⟩
        rw [hdisk, List.append_nil]
      · have hnever : ∀ m ≤ read.length, (frames (read.take m)).length ≠ a.altered.length :=
          fun m hm hsize => hback ⟨m, hm, hsize⟩
        have hend : tail = [] ∧ read.length = 1 + a.after.length := by
          by_contra hbad
          refine hmisread ⟨mid, parsed, read, tail, hbefore, hread, hdata, hnever, ?_⟩
          by_cases htail : tail = []
          · exact Or.inr ⟨htail, fun h => hbad ⟨htail, h⟩⟩
          · exact Or.inl ⟨htail, htorn⟩
        refine ⟨by rw [hlen, hend.2, count]; omega, ?_⟩
        rw [hdisk, hend.1, List.append_nil]

/-- The altered file is noticed exactly when it is not misread. -/
theorem noticed_iff (a : Alteration) (replay : Bool) : a.Noticed replay ↔ ¬a.Misread := by
  constructor
  · intro hnoticed hmisread
    exact not_noticed_of_misread replay hmisread hnoticed
  · exact noticed_of_not_misread replay

/-- An alteration that leaves the length prefix is always noticed. -/
theorem noticed_of_same_length (a : Alteration) (replay : Bool)
    (hsame : a.altered.take 4 = le32 a.victim.length) : a.Noticed replay := by
  apply noticed_of_not_misread
  intro hmisread
  obtain ⟨mid, parsed, read, tail, hbefore, hread, hdata, hnever, hend⟩ := hmisread
  have hsplit : a.altered = frame (a.altered.drop 4) := by
    have hsize := a.sameSize
    rw [length_frame] at hsize
    have hlen : (a.altered.drop 4).length = a.victim.length := by
      rw [List.length_drop]
      omega
    rw [frame, hlen, ← hsame, List.take_append_drop]
  have hfit : (a.altered.drop 4).length ≤ maxEntryFrameSize := by
    have hvictim := a.victim_fits
    have hsize := a.sameSize
    rw [length_frame] at hsize
    rw [List.length_drop]
    omega
  have hnext := next_frame (frames a.after) hfit (by decide)
  rw [← hsplit, hdata] at hnext
  cases read with
  | nil =>
      rw [frames_nil, List.nil_append] at hnext
      cases hend with
      | inl h => rw [h.2] at hnext; cases hnext
      | inr h => rw [h.1] at hnext; cases hnext
  | cons body read =>
      rw [frames_cons, List.append_assoc,
        next_frame _ (hread.fits body List.mem_cons_self) (by decide), Next.frame.injEq] at hnext
      refine hnever 1 (by simp) ?_
      rw [List.take_succ_cons, List.take_zero, hnext.1, frames_cons, frames_nil, List.append_nil,
        ← hsplit]

/-- An altered length, within the bound, that leads past the end of the file is not noticed: every
entry from there on is dropped. -/
theorem not_noticed_of_torn (a : Alteration) (replay : Bool)
    (htorn : Framing.next maxEntryFrameSize (a.altered ++ frames a.after) = .torn) :
    ¬a.Noticed replay := by
  apply not_noticed_of_misread
  obtain ⟨full, hfull⟩ := a.opened
  obtain ⟨mid, hbefore, -⟩ := frameChain_append.mp hfull
  have hsize := a.sameSize
  rw [length_frame] at hsize
  refine ⟨mid, mid, [], a.altered ++ frames a.after, hbefore, .nil mid, rfl, ?_, Or.inl ⟨?_, htorn⟩⟩
  · intro m _
    rw [List.take_nil, frames_nil, List.length_nil]
    omega
  · intro hempty
    rw [(List.append_eq_nil_iff.mp hempty).1, List.length_nil] at hsize
    omega

end Alteration

end

section Concrete

open Concrete

@[reducible] def followCodec : FrameCodec where
  toAllocvec s :=
    if s = openEntry then .ok [1] else if s = followEntry then .ok [2] else .error "unknown entry"
  fromBytes bytes :=
    if bytes = [1] then .ok openEntry else if bytes = [2] then .ok followEntry
    else .error "unknown frame"

theorem followCodec_roundTrip : @FrameCodec.RoundTrip _ followCodec := by
  intro s bytes h
  change (if s = openEntry then Except.ok [1] else if s = followEntry then .ok [2]
    else .error "unknown entry") = .ok bytes at h
  by_cases hopen : s = openEntry
  · rw [if_pos hopen, Except.ok.injEq] at h
    rw [← h, hopen]
    rfl
  · rw [if_neg hopen] at h
    by_cases hfollow : s = followEntry
    · rw [if_pos hfollow, Except.ok.injEq] at h
      rw [← h, hfollow]
      rfl
    · rw [if_neg hfollow] at h
      cases h

/-- The log of the two entries, where the first length became 9. -/
def longLength : @Alteration _ _ followCodec :=
  @Alteration.mk _ _ followCodec [] [1] [[2]] [9, 0, 0, 0, 1] (by decide) rfl (by
    have hok : (@List.foldlM _ _ _ _ (@ParsedFrames.pushBody _ _ followCodec) .start
        [[1], [2]]).toBool = true := by decide +kernel
    obtain ⟨parsed, hparsed⟩ := exists_ok_of_toBool hok
    exact ⟨parsed, @FrameChain.mk _ _ followCodec _ _ _ (by decide) hparsed⟩)

/-- An altered length is taken for a torn append, and both entries are dropped. -/
theorem longLength_dropped :
    ¬∀ a : @Alteration _ _ followCodec, @Alteration.Noticed _ _ followCodec a false := by
  intro h
  have htorn : Framing.next maxEntryFrameSize ([9, 0, 0, 0, 1] ++ frames [[2]]) = .torn := by
    decide +kernel
  exact @Alteration.not_noticed_of_torn _ _ followCodec longLength false htorn (h longLength)

end Concrete

end Cawala
