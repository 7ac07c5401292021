import GrayDB.Lib.Guarded
import GrayDB.R1.CdcLoop
import GrayDB.R1.WindowCalls

/-!
# The rounds of the CDC loop

Any call of a round can fail, and then the task ends.  Each handler has one spec that says what
is found at each of its moments and at its end.

* `Same c t`: nothing has happened but calls on the frame log.
* `During ledger c t`: the sink has been given the commits of the window, and has made some
  requests.
* `Flushes ledger c t`: the window has been flushed.

`reconnect_fatal` rests on them: a lost connection gives the task a new decoder, but the task
keeps the window and the numbers of the frame log.  Once a window has been flushed the two do
not fit, so no later round changes the tables, and the flush that is due next ends the task.
-/

namespace GrayDB.R1.CdcLoop

open Lib Lib.Crash Log Registry Ingest ClickHouseSink

/-- Another frame in the window. -/
def kept (c : CdcLoop) (log : FrameLog) (walStart : UInt64) (payload : Bytes) : CdcLoop :=
  { c with
    frameLog := log
    window := c.window ++ [taskFrame pgoutputCommitLsn c.frameLog.nextSeq walStart payload]
    windowCommits :=
      if (pgoutputCommitLsn payload).isSome then c.windowCommits + 1 else c.windowCommits }

/-- What the sink is given for the window, and the decoder behind it. -/
def Decodes (ledger : List (Except LedgerError (List LedgerEntry))) (c : CdcLoop)
    (commits : List CdcCommit) (decoder : StreamDecoder) : Prop :=
  ∃ hashes batches, resolveWindowHashes (commitLsns c.window) ledger = .ok hashes ∧
    feedFrames c.decoder c.window = .ok (batches, decoder) ∧ cdcCommits hashes batches = .ok commits

/-- Only the frame log and the decoder may have changed. -/
structure Same (c t : CdcLoop) : Prop where
  server : t.server = c.server
  visibility : t.visibility = c.visibility
  appliedLsn : t.appliedLsn = c.appliedLsn
  window : t.window = c.window
  sent : t.sent = c.sent
  flushed : t.flushed = c.flushed

section Rounds

variable [Crc32c] [SinkText] {c t : CdcLoop} {plan : List Outcome}
  {ledger : List (Except LedgerError (List LedgerEntry))}

/-- The sink has made some requests for the window. -/
def During (ledger : List (Except LedgerError (List LedgerEntry))) (c t : CdcLoop) : Prop :=
  ∃ commits decoder, Decodes ledger c commits decoder ∧
    Began c.server.db (requests commits) t.server ∧ t.visibility = c.visibility ∧
    t.window = c.window ∧ c.flushed <+: t.flushed

/-- The loop behind a flush of the window. -/
def Flushes (ledger : List (Except LedgerError (List LedgerEntry))) (c t : CdcLoop) : Prop :=
  ∃ commits decoder log w, Decodes ledger c commits decoder ∧ commits ≠ [] ∧
    w.db = c.server.db.after (requests commits) ∧ log.nextSeq = c.frameLog.nextSeq ∧
    t = { c with
      frameLog := log
      decoder := decoder
      server := w
      appliedLsn := lastLsn commits
      window := []
      windowCommits := 0
      sent := c.sent ++ [lastLsn commits]
      flushed := c.flushed ++ [commits] }

omit [SinkText] in
theorem keep_fallible (walStart : UInt64) (payload : Bytes) :
    Fallible (keep walStart payload) c plan (Same c)
      (fun _ t _ => ∃ log, log.nextSeq = c.frameLog.nextSeq + 1 ∧ t = c.kept log walStart payload)
      (Same c) := by
  have hsame : ∀ log, Same c { c with frameLog := log } := fun _ => ⟨rfl, rfl, rfl, rfl, rfl, rfl⟩
  refine Fallible.bind (Q := fun seq t _ => ∃ log, log.nextSeq = c.frameLog.nextSeq + 1 ∧
    seq = c.frameLog.nextSeq ∧ t = { c with frameLog := log }) ?_ ?_
  · exact Fallible.zoom (FrameLog.append_seq _ _ _ _ c.frameLog plan) (fun log _ => hsame log)
      (fun seq log _ ⟨hseq, hnext⟩ => ⟨log, hnext, hseq, rfl⟩) fun log _ => hsame log
  · rintro seq _ plan₁ ⟨log, hnext, rfl, rfl⟩
    exact Fallible.modify ⟨log, hnext, rfl⟩

omit [Crc32c] in
theorem flush_fallible : Fallible (flush ledger) c plan (During ledger c)
    (fun _ t _ => Flushes ledger c t) fun t => Same c t ∨ During ledger c t := by
  refine Fallible.bind_get ?_
  cases hhashes : resolveWindowHashes (commitLsns c.window) ledger with
  | error e =>
    exact Fallible.bind (Q := fun _ _ _ => False)
      (Fallible.throw (Or.inl ⟨rfl, rfl, rfl, rfl, rfl, rfl⟩)) fun _ _ _ hfalse => hfalse.elim
  | ok hashes =>
  refine Fallible.bind (Q := fun a s p => hashes = a ∧ c = s ∧ plan = p)
    (Fallible.pure ⟨rfl, rfl, rfl⟩) ?_
  rintro _ _ _ ⟨rfl, rfl, rfl⟩
  cases hfeed : feedFrames c.decoder c.window with
  | error e =>
    exact Fallible.bind (Q := fun _ _ _ => False)
      (Fallible.throw (Or.inl ⟨rfl, rfl, rfl, rfl, rfl, rfl⟩)) fun _ _ _ hfalse => hfalse.elim
  | ok fed =>
  obtain ⟨batches, decoder⟩ := fed
  refine Fallible.bind (Q := fun a s p => (batches, decoder) = a ∧ c = s ∧ plan = p)
    (Fallible.pure ⟨rfl, rfl, rfl⟩) ?_
  rintro _ _ _ ⟨rfl, rfl, rfl⟩
  refine Fallible.bind_modify ?_
  cases hcommits : cdcCommits hashes batches with
  | error e =>
    exact Fallible.bind (Q := fun _ _ _ => False)
      (Fallible.throw (Or.inl ⟨rfl, rfl, rfl, rfl, rfl, rfl⟩)) fun _ _ _ hfalse => hfalse.elim
  | ok commits =>
  refine Fallible.bind (Q := fun a s p => commits = a ∧ { c with decoder } = s ∧ plan = p)
    (Fallible.pure ⟨rfl, rfl, rfl⟩) ?_
  rintro _ _ _ ⟨rfl, rfl, rfl⟩
  have hdecodes : Decodes ledger c commits decoder := ⟨hashes, batches, hhashes, hfeed, hcommits⟩
  have hduring : ∀ log w sent flushed, Began c.server.db (requests commits) w →
      c.flushed <+: flushed → During ledger c
        { c with decoder, frameLog := log, server := w, sent, flushed } :=
    fun _ _ _ _ hbegan hflushed => ⟨commits, decoder, hdecodes, hbegan, rfl, rfl, hflushed⟩
  refine Fallible.bind (Q := fun last t _ => commits ≠ [] ∧ last = lastLsn commits ∧
    ∃ w : World, w.db = c.server.db.after (requests commits) ∧
      t = { c with decoder, server := w }) ?_ ?_
  · exact Fallible.zoom (applyWindow_fallible commits c.server plan)
      (fun w hw => hduring _ _ _ _ hw List.prefix_rfl)
      (fun last w _ ⟨hne, hlast, _, hdb⟩ => ⟨hne, hlast, w, hdb, rfl⟩)
      fun w hw => Or.inr (hduring _ _ _ _ hw List.prefix_rfl)
  rintro last _ plan₁ ⟨hne, rfl, w, hdb, rfl⟩
  have hwhole : Began c.server.db (requests commits) w :=
    ⟨_, by rw [List.take_length]; exact hdb⟩
  have hgrown : c.flushed <+: c.flushed ++ [commits] := List.prefix_append _ _
  refine Fallible.bind_modify ?_
  refine Fallible.bind (Q := fun _ t _ => ∃ log, log.nextSeq = c.frameLog.nextSeq ∧
    t = { c with decoder, frameLog := log, server := w, flushed := c.flushed ++ [commits] }) ?_ ?_
  · exact Fallible.zoom (FrameLog.flushPending_nextSeq c.frameLog plan₁)
      (fun log _ => hduring log w _ _ hwhole hgrown) (fun _ log _ hlog => ⟨log, hlog, rfl⟩)
      fun log _ => Or.inr (hduring log w _ _ hwhole hgrown)
  rintro _ _ plan₂ ⟨log, hlog, rfl⟩
  refine Fallible.bind (Q := fun _ t _ => t = { c with
    decoder
    frameLog := log
    server := w
    flushed := c.flushed ++ [commits]
    sent := c.sent ++ [lastLsn commits] }) ?_ ?_
  · exact Fallible.call (fun _ => ⟨hduring log w _ _ hwhole hgrown, rfl⟩)
      fun k _ => ⟨hduring log w _ _ hwhole hgrown, Or.inr (hduring log w _ _ hwhole hgrown)⟩
  rintro _ _ plan₃ rfl
  exact Fallible.modify ⟨commits, decoder, log, w, hdecodes, hne, hdb, hlog, rfl⟩

/-- Status updates at `applied_lsn`, and perhaps a record of the position. -/
def Published (walEnd : Nat) (c t : CdcLoop) : Prop :=
  ∃ n visibility last, t = { c with
      sent := c.sent ++ List.replicate n c.appliedLsn
      visibility := visibility
      lastVisibilityLsn := last } ∧
    (visibility = c.visibility ∨ visibility = c.visibility ++ [walEnd])

omit [Crc32c] [SinkText] in
theorem onKeepalive_fallible (walEnd : UInt64) : Fallible (onKeepalive walEnd) c plan
    (Published walEnd.toNat c) (fun _ t _ => Published walEnd.toNat c t)
    (Published walEnd.toNat c) := by
  have hpublished : ∀ n visibility last,
      visibility = c.visibility ∨ visibility = c.visibility ++ [walEnd.toNat] →
      Published walEnd.toNat c { c with
        sent := c.sent ++ List.replicate n c.appliedLsn
        visibility := visibility
        lastVisibilityLsn := last } :=
    fun n visibility last h => ⟨n, visibility, last, rfl, h⟩
  have hnothing : Published walEnd.toNat c c :=
    ⟨0, c.visibility, c.lastVisibilityLsn, by rw [List.replicate_zero, List.append_nil], Or.inl rfl⟩
  refine Fallible.bind_get (Fallible.bind (Q := fun _ t _ =>
    t = { c with sent := c.sent ++ List.replicate 1 c.appliedLsn }) ?_ ?_)
  · exact Fallible.call (fun _ => ⟨hpublished 1 _ _ (Or.inl rfl), rfl⟩)
      fun _ _ => ⟨hnothing, hnothing⟩
  rintro _ _ plan₁ rfl
  refine Fallible.bind_get ?_
  split
  · exact Fallible.pure (hpublished 1 _ _ (Or.inl rfl))
  · refine Fallible.attempt (Fallible.bind (Q := fun _ t _ => t = { c with
      sent := c.sent ++ List.replicate 1 c.appliedLsn
      visibility := c.visibility ++ [walEnd.toNat] }) ?_ ?_)
    · refine Fallible.call (fun _ => ⟨hpublished 1 _ _ (Or.inr rfl), rfl⟩) fun k _ => ?_
      split
      · exact ⟨hpublished 1 _ _ (Or.inl rfl), fun _ => hpublished 1 _ _ (Or.inl rfl)⟩
      · exact ⟨hpublished 1 _ _ (Or.inr rfl), fun _ => hpublished 1 _ _ (Or.inr rfl)⟩
    · rintro _ _ plan₂ rfl
      exact Fallible.modify (hpublished 1 _ _ (Or.inr rfl))

/-- What is found during a round, and behind one that has failed. -/
inductive Moment (c : CdcLoop) : CdcEvent → CdcLoop → Prop
  | same {e : CdcEvent} {t : CdcLoop} (h : Same c t) : Moment c e t
  | kept {walStart : UInt64} {payload : Bytes} {elapsed : Bool}
      {ledger : List (Except LedgerError (List LedgerEntry))} {log : FrameLog} {t : CdcLoop}
      (hseq : log.nextSeq = c.frameLog.nextSeq + 1) (h : Same (c.kept log walStart payload) t) :
      Moment c (.message (.xLogData walStart payload) elapsed ledger) t
  | flushing {walStart : UInt64} {payload : Bytes} {elapsed : Bool}
      {ledger : List (Except LedgerError (List LedgerEntry))} {log : FrameLog} {t : CdcLoop}
      (hseq : log.nextSeq = c.frameLog.nextSeq + 1)
      (h : During ledger (c.kept log walStart payload) t) :
      Moment c (.message (.xLogData walStart payload) elapsed ledger) t
  | published {walEnd : UInt64} {elapsed : Bool}
      {ledger : List (Except LedgerError (List LedgerEntry))} {t : CdcLoop}
      (h : Published walEnd.toNat c t) : Moment c (.message (.keepalive walEnd true) elapsed ledger) t
  | stopped (n : Nat) :
      Moment c (.changed true) { c with sent := c.sent ++ List.replicate n c.appliedLsn }

/-- What a round that returns leaves behind. -/
inductive Next (c : CdcLoop) : CdcEvent → Bool → CdcLoop → Prop
  | unchanged : Next c (.changed false) true c
  | ignored {walEnd : UInt64} {elapsed : Bool}
      {ledger : List (Except LedgerError (List LedgerEntry))} :
      Next c (.message (.keepalive walEnd false) elapsed ledger) true c
  | stopped (n : Nat) :
      Next c (.changed true) false { c with sent := c.sent ++ List.replicate n c.appliedLsn }
  | interrupted : Next c (.interrupted false) true { c with decoder := {} }
  | kept {walStart : UInt64} {payload : Bytes} {elapsed : Bool}
      {ledger : List (Except LedgerError (List LedgerEntry))} {log : FrameLog}
      (hseq : log.nextSeq = c.frameLog.nextSeq + 1)
      (hdue : (c.kept log walStart payload).due elapsed = false) :
      Next c (.message (.xLogData walStart payload) elapsed ledger) true (c.kept log walStart payload)
  | flushed {walStart : UInt64} {payload : Bytes} {elapsed : Bool}
      {ledger : List (Except LedgerError (List LedgerEntry))} {log : FrameLog} {t : CdcLoop}
      (hseq : log.nextSeq = c.frameLog.nextSeq + 1)
      (h : Flushes ledger (c.kept log walStart payload) t) :
      Next c (.message (.xLogData walStart payload) elapsed ledger) true t
  | published {walEnd : UInt64} {elapsed : Bool}
      {ledger : List (Except LedgerError (List LedgerEntry))} {t : CdcLoop}
      (h : Published walEnd.toNat c t) :
      Next c (.message (.keepalive walEnd true) elapsed ledger) true t

theorem onXLogData_fallible (walStart : UInt64) (payload : Bytes) (elapsed : Bool) :
    let e := CdcEvent.message (.xLogData walStart payload) elapsed ledger
    Fallible (onXLogData walStart payload elapsed ledger) c plan (Moment c e)
      (fun _ t _ => Next c e true t) (Moment c e) := by
  intro e
  refine Fallible.bind ((keep_fallible walStart payload).imp (fun _ => .same) (fun _ _ _ h => h)
    fun _ => .same) ?_
  rintro _ _ plan₁ ⟨log, hseq, rfl⟩
  refine Fallible.bind_get ?_
  split
  · refine flush_fallible.imp (fun _ h => .flushing hseq h) (fun _ _ _ h => .flushed hseq h)
      fun _ h => ?_
    exact h.elim (.kept hseq) (.flushing hseq)
  · rename_i hdue
    exact Fallible.pure (.kept hseq (by simpa using hdue))

/-- One round, whatever fails. -/
theorem round_fallible (e : CdcEvent) : Fallible (round e) c plan (Moment c e)
    (fun go t _ => Next c e go t) (Moment c e) := by
  have hsame : Same c { c with decoder := {} } := ⟨rfl, rfl, rfl, rfl, rfl, rfl⟩
  match e with
  | .changed false => exact Fallible.pure .unchanged
  | .changed true =>
    have hone := Next.stopped (c := c) 1
    have hnone := Next.stopped (c := c) 0
    rw [List.replicate_zero, List.append_nil] at hnone
    refine Fallible.bind_get (Fallible.bind (Q := fun _ t _ => Next c (.changed true) false t) ?_
      fun _ _ _ h => Fallible.pure h)
    refine Fallible.attempt (Fallible.call (fun _ => ⟨.stopped 1, hone⟩) fun _ _ => ?_)
    exact ⟨.same ⟨rfl, rfl, rfl, rfl, rfl, rfl⟩, fun _ => hnone⟩
  | .interrupted true =>
    exact Fallible.bind_modify (Fallible.throw (.same hsame))
  | .interrupted false =>
    exact Fallible.bind_modify (Fallible.pure .interrupted)
  | .message (.xLogData walStart payload) elapsed ledger =>
    exact Fallible.bind (onXLogData_fallible walStart payload elapsed)
      fun _ _ _ h => Fallible.pure h
  | .message (.keepalive walEnd true) _ _ =>
    refine Fallible.bind ((onKeepalive_fallible walEnd).imp (fun _ h => .published h)
      (fun _ _ _ h => h) fun _ h => .published h) ?_
    exact fun _ _ _ h => Fallible.pure (.published h)
  | .message (.keepalive _ false) _ _ => exact Fallible.pure .ignored

/-! ## A lost connection -/

/-- Rounds after which the loop goes on, whatever fails in them. -/
def Runs : CdcLoop → CdcLoop → Prop :=
  Relation.ReflTransGen fun c t => ∃ e plan r, round e ⟨c, plan, []⟩ = (.ok true, r) ∧ r.state = t

/-- The task before its first round. -/
structure Start (c : CdcLoop) : Prop where
  decoder : c.decoder = {}
  window : c.window = []
  windowCommits : c.windowCommits = 0
  flushed : c.flushed = []

/-- The number of the first frame that is not flushed. -/
def firstSeq (c : CdcLoop) : Nat := (c.window.head?.map Frame.seq).getD c.frameLog.nextSeq

/-- A round with this event has to flush the window. -/
def flushDue (c : CdcLoop) : CdcEvent → Bool
  | .message (.xLogData walStart payload) elapsed _ =>
    (c.kept c.frameLog walStart payload).due elapsed
  | _ => false

/-- Nothing has been applied or acknowledged since. -/
structure Still (c t : CdcLoop) : Prop where
  server : t.server = c.server
  appliedLsn : t.appliedLsn = c.appliedLsn
  flushed : t.flushed = c.flushed
  sent : ∃ n, t.sent = c.sent ++ List.replicate n c.appliedLsn

/-- The decoder does not fit the window. -/
structure Adrift (c t : CdcLoop) : Prop extends Still c t where
  decoder : t.decoder.nextSeq = 0
  seq : 0 < t.firstSeq

variable {c₀ c₁ : CdcLoop} {e : CdcEvent}

omit [Crc32c] [SinkText] in
theorem firstSeq_kept (log : FrameLog) (walStart : UInt64) (payload : Bytes) :
    (c.kept log walStart payload).firstSeq = c.firstSeq := by
  unfold firstSeq kept
  cases c.window with
  | nil => rfl
  | cons frame window => rfl

omit [Crc32c] [SinkText] in
theorem feedFrames_gap {d : StreamDecoder} {frame : Frame} (h : frame.seq ≠ d.nextSeq)
    (frames : List Frame) :
    feedFrames d (frame :: frames) = .error (.feed (.frameGap d.nextSeq frame.seq)) := by
  have hfeed : d.feed [frame] = (.error (.frameGap d.nextSeq frame.seq), d) := by
    rw [StreamDecoder.feed, StreamDecoder.feedAux, StreamDecoder.feedFrame, if_pos h]
  rw [feedFrames, hfeed]

omit [Crc32c] [SinkText] in
theorem Still.refl (c : CdcLoop) : Still c c :=
  ⟨rfl, rfl, rfl, 0, by rw [List.replicate_zero, List.append_nil]⟩

omit [Crc32c] [SinkText] in
theorem Still.acked (h : Still c t) (n : Nat) (visibility : List Nat) (last : Nat) :
    Still c { t with
      sent := t.sent ++ List.replicate n t.appliedLsn
      visibility := visibility
      lastVisibilityLsn := last } := by
  obtain ⟨hserver, happlied, hflushed, k, hsent⟩ := h
  refine ⟨hserver, happlied, hflushed, k + n, ?_⟩
  show t.sent ++ _ = _
  rw [hsent, happlied, List.append_assoc, List.replicate_append_replicate]

omit [Crc32c] [SinkText] in
theorem Still.same {s : CdcLoop} (h : Still c t) (hs : Same t s) : Still c s :=
  ⟨hs.server.trans h.server, hs.appliedLsn.trans h.appliedLsn, hs.flushed.trans h.flushed,
    hs.sent ▸ h.sent⟩

omit [Crc32c] [SinkText] in
theorem Still.kept (h : Still c t) (log : FrameLog) (walStart : UInt64) (payload : Bytes) :
    Still c (t.kept log walStart payload) :=
  ⟨h.server, h.appliedLsn, h.flushed, h.sent⟩

omit [Crc32c] [SinkText] in
/-- The window of a task that is adrift cannot be decoded. -/
theorem Adrift.not_decodes (h : Adrift c t) (log : FrameLog) (walStart : UInt64) (payload : Bytes)
    (commits : List CdcCommit) (decoder : StreamDecoder) :
    ¬ Decodes ledger (t.kept log walStart payload) commits decoder := by
  rintro ⟨hashes, batches, -, hfeed, -⟩
  have hseq : 0 < (t.kept log walStart payload).firstSeq := (firstSeq_kept ..).symm ▸ h.seq
  have hdecoder : (t.kept log walStart payload).decoder.nextSeq = 0 := h.decoder
  have hne : (t.kept log walStart payload).window ≠ [] := List.concat_ne_nil _ _
  obtain ⟨frame, window, hwindow⟩ := List.exists_cons_of_ne_nil hne
  rw [firstSeq, hwindow] at hseq
  rw [hwindow, feedFrames_gap (Nat.ne_of_gt (hdecoder.symm ▸ hseq))] at hfeed
  exact absurd hfeed (by simp)

omit [Crc32c] in
theorem Adrift.moment {s : CdcLoop} (h : Adrift c t) (hs : Moment t e s) : Still c s := by
  cases hs with
  | same hsame => exact h.toStill.same hsame
  | kept _ hsame => exact (h.toStill.kept _ _ _).same hsame
  | flushing _ hduring =>
    obtain ⟨commits, decoder, hdecodes, -⟩ := hduring
    exact absurd hdecodes (h.not_decodes _ _ _ _ _)
  | published hpublished =>
    obtain ⟨n, visibility, last, rfl, -⟩ := hpublished
    exact h.toStill.acked _ _ _
  | stopped n => exact h.toStill.acked _ _ _

omit [Crc32c] in
/-- A round that goes on has not flushed. -/
theorem Adrift.next {s : CdcLoop} {go : Bool} (h : Adrift c t) (hs : Next t e go s) :
    Adrift c s ∧ t.flushDue e = false := by
  cases hs with
  | unchanged => exact ⟨h, rfl⟩
  | ignored => exact ⟨h, rfl⟩
  | stopped n => exact ⟨⟨h.toStill.acked _ _ _, h.decoder, h.seq⟩, rfl⟩
  | interrupted =>
    exact ⟨⟨⟨h.server, h.appliedLsn, h.flushed, h.sent⟩, rfl, h.seq⟩, rfl⟩
  | kept _ hdue =>
    exact ⟨⟨h.toStill.kept _ _ _, h.decoder, (firstSeq_kept ..).symm ▸ h.seq⟩, hdue⟩
  | flushed _ hflushes =>
    obtain ⟨commits, decoder, log, w, hdecodes, -⟩ := hflushes
    exact absurd hdecodes (h.not_decodes _ _ _ _ _)
  | published hpublished =>
    obtain ⟨n, visibility, last, rfl, -⟩ := hpublished
    exact ⟨⟨h.toStill.acked _ _ _, h.decoder, h.seq⟩, rfl⟩

omit [Crc32c] in
/-- Behind a flush, the frames that are not flushed do not start at zero. -/
theorem seq_next {s : CdcLoop} {go : Bool} (h : t.flushed ≠ [] → 0 < t.firstSeq)
    (hs : Next t e go s) : s.flushed ≠ [] → 0 < s.firstSeq := by
  cases hs with
  | unchanged | ignored | interrupted => exact h
  | stopped n => exact h
  | kept _ _ => exact fun hne => (firstSeq_kept ..).symm ▸ h hne
  | flushed hseq hflushes =>
    obtain ⟨commits, decoder, log, w, -, -, -, hlog, rfl⟩ := hflushes
    have hnext : log.nextSeq = t.frameLog.nextSeq + 1 := hlog.trans hseq
    have hpos : 0 < log.nextSeq := hnext ▸ Nat.succ_pos _
    exact fun _ => hpos
  | published hpublished =>
    obtain ⟨n, visibility, last, rfl, -⟩ := hpublished
    exact h

theorem Runs.invariant {Inv : CdcLoop → Prop} (hrun : Runs c t)
    (hnext : ∀ s s' e go, Inv s → Next s e go s' → Inv s') (h : Inv c) : Inv t := by
  induction hrun with
  | refl => exact h
  | tail _ hstep ih =>
    obtain ⟨e, plan, r, hround, rfl⟩ := hstep
    exact hnext _ _ e true ih ((round_fallible e).of_ok hround)

/-- Rounds without failures, one after the other. -/
def rounds (es : List CdcEvent) (c : CdcLoop) : Option CdcLoop :=
  es.foldlM (fun c e => ((round e).outcome c).bind fun r => if r.1 then some r.2 else none) c

theorem rounds_runs {es : List CdcEvent} (h : rounds es c = some t) : Runs c t := by
  induction es generalizing c with
  | nil =>
    obtain rfl : c = t := by simpa [rounds] using h
    exact .refl
  | cons e es ih =>
    rw [rounds, List.foldlM_cons] at h
    obtain ⟨s, hs, hrest⟩ := Option.bind_eq_some_iff.mp h
    obtain ⟨⟨go, s'⟩, hround, hgo⟩ := Option.bind_eq_some_iff.mp hs
    cases go with
    | false => exact absurd hgo (by simp)
    | true =>
      obtain rfl : s' = s := by simpa using hgo
      refine .head ⟨e, [], ((round e).exec c).2, ?_⟩ (ih hrest)
      unfold IoM.outcome at hround
      cases hexec : (round e).exec c with
      | mk res r =>
        rw [hexec] at hround
        cases res with
        | error err => exact absurd hround (Option.some_ne_none _).symm
        | ok go =>
          obtain ⟨rfl, rfl⟩ := Prod.mk.inj (Option.some.inj hround)
          exact ⟨hexec, rfl⟩

end Rounds

/-! A tenant is inserted. -/

@[reducible] def insertText : SinkText where
  rowJson _ _ :=
    "\x7b\"_change_ordinal\":1,\"_deleted\":0,\"_source_lsn\":20,\"_version\":\"85899345921\"," ++
      "\"created_at\":\"2024-01-01 00:00:00+00\",\"plan\":\"free\",\"region\":\"eu\"," ++
      "\"settings\":\"[]\",\"tenant_id\":\"1\"\x7d"
  windowSha256 bytes :=
    if bytes.length = 365 then "ff1eba3f8e47044c9a5e45f465cc3678d8e19a8bce6dc8eb55fe27e917b4b8c4"
    else "ccc2c33038941a45b590f02834517f01c4c7fdbcbae82952ef3297a344f70e39"

/-- The messages of the transaction that ends at 20. -/
def tenantMessages : List Data :=
  [(0, beginMessage 20 1), (0, relationMessage 1 "r1" "tenants" tenants.columns),
    (0, insertMessage 1 ["1", "eu", "free", "2024-01-01 00:00:00+00", "[]"]), (20, commitMessage 20)]

def tenantLedger : List LedgerEntry :=
  [{ sequence := 1, xid := 1, sourceLsn := 20, operationSha256 := someDigest, committedUnixMs := 0
     previousEntrySha256 := "", entrySha256 := "" }]

/-- The rounds that take the messages.  The window is old at each of them. -/
def tenantRounds : List CdcEvent :=
  tenantMessages.map fun m => .message (.xLogData m.1 m.2) true [.ok tenantLedger]

def emptyLoop : CdcLoop where
  frameLog := emptyLog 1000
  server := {}
  appliedLsn := 10
  lastVisibilityLsn := 10

end GrayDB.R1.CdcLoop
