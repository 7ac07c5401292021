import GrayDB.Log.Marks
import GrayDB.R1.ControlStream

/-!
# Runs of the control stream

* `Logged` is what the loop relies on in the frame log: its frames, and that the last Commit
  of them is pending or published.
* `Ready` is the invariant of the loop: the log holds the frames that were received, the
  mapper is behind the transactions that are complete, and the frames of the open one are
  pending.
* `event_ends` is one round of the loop, and `control_exact` the result for every run.
-/

namespace GrayDB.R1

open Lib Lib.Crash Log Registry

/-! ## The frames of the loop -/

theorem encode_head_ne {m : Message} (h : m.commitEnd = none) :
    ∃ tag rest, m.encode = tag :: rest ∧ tag ≠ 0x43 := by
  cases m with
  | commit flags commitLsn endLsn commitTs => exact nomatch h
  | update relid old new =>
    cases old with
    | none => exact ⟨_, _, rfl, by decide⟩
    | some old => exact ⟨_, _, rfl, by decide⟩
  | _ => exact ⟨_, _, rfl, by decide⟩

/-- What the loop reads off a payload is the `end_lsn` of a Commit. -/
theorem pgoutputCommitEndLsn_encode (m : Message) (h : m.Fits) :
    (ControlState.pgoutputCommitEndLsn m.encode).map UInt64.toNat = m.commitEnd := by
  unfold ControlState.pgoutputCommitEndLsn
  cases hend : m.commitEnd with
  | none =>
    obtain ⟨tag, rest, hencode, htag⟩ := encode_head_ne hend
    rw [if_neg]
    · rfl
    · rw [hencode]
      exact fun hand => htag (Option.some.inj hand.2)
  | some endLsn =>
    cases m with
    | commit flags commitLsn endLsn' commitTs =>
      obtain rfl := Option.some.inj hend
      obtain ⟨-, hlsn, -⟩ := h
      have hdrop : (Message.commit flags commitLsn endLsn' commitTs).encode.drop 10
          = beBytes 8 endLsn' ++ beI64 commitTs := by
        show ((0x43 : UInt8) :: ([flags] ++ beBytes 8 commitLsn ++ beBytes 8 endLsn' ++
          beI64 commitTs)).drop 10 = _
        rw [List.append_assoc, ← List.cons_append]
        exact List.drop_left' (by simp [length_beBytes])
      have hlength : (Message.commit flags commitLsn endLsn' commitTs).encode.length = 26 := by
        simp [Message.encode, beI64, length_beBytes]
      rw [if_pos ⟨Nat.le_of_eq hlength.symm, rfl⟩, hdrop, getNat_beBytes (by simpa using hlsn),
        Option.map_some, UInt64.toNat_ofNat_of_lt' hlsn]
    | _ => exact nomatch hend

/-! ## The frame log of the loop -/

/-- The last commit that is pending or published. -/
def latestCommit (m : MarkState) : Option (Nat × Nat) :=
  m.pending.or (if m.durable.valid then some m.durable.commit else none)

theorem latestCommit_appendDeferred {m : MarkState} (hm : m.stalled = false) (full : Bool)
    (lsnStart lsnEnd : UInt64) (complete : Bool) (payload : Bytes) :
    latestCommit (m.next full (.appendDeferred lsnStart lsnEnd complete payload))
      = (if complete then some (m.nextSeq, lsnEnd.toNat) else none).or (latestCommit m) := by
  have hnext : m.next full (.appendDeferred lsnStart lsnEnd complete payload) = _ :=
    if_neg (by simp [hm])
  rw [hnext]
  cases complete with
  | true =>
    cases full with
    | true => rfl
    | false => rfl
  | false =>
    cases full with
    | true => rfl
    | false => rfl

theorem latestCommit_flush (m : MarkState) :
    latestCommit (m.next false .flushPending) = latestCommit m := by
  unfold latestCommit MarkState.next
  cases m.pending with
  | none => rfl
  | some q => rfl

/-- The log of the loop: its frames, all in the files. -/
structure Logged [Crc32c] (log : FrameLog) (frames : List Frame) : Prop where
  rep : ∃ l, Rep log l [] ∧ l.frames = frames
  unstalled : log.stalled = false
  latest : latestCommit log.marks = lastCommit frames

section Logged

variable [Crc32c] {log : FrameLog} {frames : List Frame}

theorem Logged.nextSeq (h : Logged log frames) : log.nextSeq = frames.length := by
  obtain ⟨l, hrep, rfl⟩ := h.rep
  rw [hrep.nextSeq, List.append_nil]

theorem Logged.append (h : Logged log frames) (hroom : log.nextSeq + 1 < 2 ^ 64)
    {lsnStart lsnEnd : UInt64} {complete : Bool} {payload : Bytes} (hp : payload.length < 2 ^ 32) :
    Spec (FrameLog.appendDeferred lsnStart lsnEnd complete payload) log Shown fun seq log' =>
      seq = log.nextSeq ∧
        Logged log' (frames ++ [log.nextFrame lsnStart lsnEnd complete payload]) := by
  obtain ⟨l, hrep, rfl⟩ := h.rep
  let op : LogOp := .appendDeferred lsnStart lsnEnd complete payload
  have hop : op.HasRoom log := hroom
  have hmarks := (LogOp.marks_spec hop).ensures.of_drop
  refine (Spec.and_ensures (FrameLog.appendDeferred_spec hrep hroom hp) hmarks).weaken ?_
  rintro seq log' ⟨⟨hseq, l', spilled', hrep', hstalled, -, hadded⟩, hmark⟩
  rw [if_neg (by simp [h.unstalled])] at hadded
  obtain ⟨hframes, rfl⟩ := hadded
  refine ⟨hseq, ⟨l', hrep', hframes⟩, hstalled.trans h.unstalled, ?_⟩
  rw [hmark, latestCommit_appendDeferred h.unstalled, h.latest, lastCommit_append]
  rfl

/-- Behind a flush the last commit is published. -/
theorem Logged.flush (h : Logged log frames) :
    Spec FrameLog.flushPending log Shown fun _ log' => Logged log' frames ∧
      (if log'.durable.valid then some log'.durable.commit else none) = lastCommit frames := by
  obtain ⟨l, hrep, rfl⟩ := h.rep
  have hop : LogOp.flushPending.HasRoom log := trivial
  have hmarks := (LogOp.marks_spec hop).ensures
  refine (Spec.and_ensures (FrameLog.flushPending_rep hrep) hmarks).weaken ?_
  rintro _ log' ⟨⟨l', hrep', hstalled, -, hframes⟩, hmark⟩
  have hlatest : latestCommit log'.marks = lastCommit l.frames := by
    rw [hmark, ← h.latest]
    exact latestCommit_flush _
  have hpending : log'.marks.pending = none := by
    rw [hmark]
    rfl
  refine ⟨⟨⟨l', hrep', hframes⟩, hstalled.trans h.unstalled, hlatest⟩, ?_⟩
  unfold latestCommit at hlatest
  rwa [hpending] at hlatest

/-- What the log says to be durable is. -/
theorem Logged.durable (h : Logged log frames) (hvalid : log.durable.valid = true) :
    ∃ fs, decodeFiles (log.dir.segs.map (·.2.durable)) = .ok fs ∧ fs <+: frames ∧
      ∃ f ∈ fs, f.txnComplete = true ∧ f.lsnEnd = log.durable.lsn := by
  obtain ⟨l, hrep, rfl⟩ := h.rep
  obtain ⟨f, hf, hcomplete, hlsn⟩ := hrep.mark hvalid
  refine ⟨l.durableFrames, ?_, l.durableFrames_isPrefix, f, List.mem_of_getElem? hf, hcomplete,
    hlsn⟩
  rw [hrep.segs]
  exact decodeFiles_durable hrep.proper.fits

/-- A new log is empty. -/
theorem logged_create {segmentMaxBytes : Nat} {disk disk' : Disk}
    (h : (FrameLog.create segmentMaxBytes).outcome disk = some (log, disk')) : Logged log [] := by
  have hrep : Rep log .empty [] := (create_spec segmentMaxBytes disk).of_outcome h
  have hnew : log.stalled = false ∧ latestCommit log.marks = none := by
    obtain ⟨rfl, -⟩ := Prod.mk.inj (Option.some.inj h)
    exact ⟨rfl, rfl⟩
  exact ⟨⟨.empty, hrep, rfl⟩, hnew.1, hnew.2⟩

end Logged

/-! ## The mapper over a transaction -/

namespace ControlState

section Map

variable {s : ControlState} {live : LiveRel} {n : Nat}
  {E : ControlError → ControlState → Prop}

theorem mapFrames_append (fs gs : List Frame) :
    mapFrames (fs ++ gs) = mapFrames fs >>= fun _ => mapFrames gs := by
  induction fs with
  | nil => rfl
  | cons f fs ih =>
    show (mapFrame f >>= fun _ => mapFrames (fs ++ gs)) = _
    rw [ih, ← IoM.bind_assoc]
    rfl

/-- Frames on which the mapper says nothing. -/
theorem mapFrame_none {frame : Frame} {d' : StreamDecoder}
    (hfeed : ControlLsnMapper.feed s.mapper frame = (.ok none, d')) :
    Ends (mapFrame frame) s (fun _ s' => s' = { s with mapper := d' }) E := by
  refine Ends.bind_get (Ends.bind_modify ?_)
  rw [hfeed]
  exact Ends.pure rfl

/-- Messages that are neither a Begin nor a Commit. -/
theorem mapFrames_inner {inTxn : Option (Nat × List (Option Named))} {xs : List WireMessage}
    (h : Decodes s.mapper live n inTxn) (hinner : ∀ x ∈ xs, x.2.Inner)
    (hopen : inTxn = none → ∀ x ∈ xs, x.2.Outer) (hdescribed : Described live xs)
    (hfits : ∀ x ∈ xs, x.2.Fits) :
    Ends (mapFrames (wireFrames n xs)) s (fun _ s' => ∃ d', s' = { s with mapper := d' } ∧
      Decodes d' (behindMessages live xs) (n + xs.length)
        (inTxn.map fun p => (p.1, p.2 ++ markerChanges live xs))) E := by
  induction xs generalizing s live n inTxn with
  | nil =>
    refine Ends.pure ⟨s.mapper, rfl, ?_⟩
    simpa [markerChanges, behindMessages] using h
  | cons x xs ih =>
    obtain ⟨d', hfeed, hd'⟩ := h.inner (hinner x List.mem_cons_self)
      (fun hnone => hopen hnone x List.mem_cons_self) hdescribed.1 (hfits x List.mem_cons_self)
    refine Ends.bind (mapFrame_none hfeed) ?_
    rintro _ _ rfl
    refine (ih (s := { s with mapper := d' }) hd' (fun y hy => hinner y (List.mem_cons_of_mem x hy))
      (fun hnone y hy => hopen (by simpa using hnone) y (List.mem_cons_of_mem x hy)) hdescribed.2
      fun y hy => hfits y (List.mem_cons_of_mem x hy)).weaken ?_ fun _ _ he => he
    rintro _ _ ⟨d'', rfl, hd''⟩
    refine ⟨d'', rfl, ?_⟩
    simpa [markerChanges, behindMessages, Function.comp_def, Nat.add_assoc, Nat.add_comm 1] using hd''

/-- Outside of a transaction no row is changed. -/
theorem markerChanges_outer {xs : List WireMessage} (h : ∀ x ∈ xs, x.2.Outer) :
    markerChanges live xs = [] := by
  induction xs generalizing live with
  | nil => rfl
  | cons x xs ih =>
    have hx := h x List.mem_cons_self
    rw [markerChanges, ih fun y hy => h y (List.mem_cons_of_mem x hy), List.append_nil]
    cases hm : x.2 with
    | relation rel => rfl
    | origin commitLsn name => rfl
    | type typeOid ns name => rfl
    | logicalMessage transactional lsn tag payload => rfl
    | _ =>
      rw [hm] at hx
      exact hx.elim

/-- A transaction up to its Commit. -/
theorem mapFrames_messages {t : ControlTxn} (h : Decodes s.mapper live n none)
    (hdescribed : Described live t.messages) (hfits : ∀ x ∈ t.messages, x.2.Fits) :
    Ends (mapFrames (wireFrames n t.messages)) s (fun _ s' => ∃ d', s' = { s with mapper := d' } ∧
      Decodes d' (behindMessages live t.messages) (n + t.messages.length)
        (some (t.xid, markerChanges live t.messages))) E := by
  have hdescribed' := hdescribed
  unfold ControlTxn.messages at hdescribed' hfits ⊢
  obtain ⟨hbefore, -, hbody⟩ := (described_append live _ _).mp hdescribed'
  rw [wireFrames_append, mapFrames_append]
  refine Ends.bind (mapFrames_inner h (fun x hx => (t.before_outer x hx).inner)
    (fun _ => t.before_outer) hbefore fun x hx => hfits x (List.mem_append_left _ hx)) ?_
  rintro _ _ ⟨d₁, rfl, hd₁⟩
  obtain ⟨d₂, hfeed, hd₂⟩ := hd₁.begin t
    (hfits t.start (List.mem_append_right _ List.mem_cons_self))
  refine Ends.bind (mapFrame_none hfeed) ?_
  rintro _ _ rfl
  refine (mapFrames_inner (s := { s with mapper := d₂ }) hd₂ t.body_inner nofun hbody fun x hx =>
    hfits x (List.mem_append_right _ (List.mem_cons_of_mem _ hx))).weaken ?_ fun _ _ he => he
  rintro _ _ ⟨d₃, rfl, hd₃⟩
  have hmarkers : markerChanges live (t.before ++ t.start :: t.body)
      = markerChanges (behindMessages live t.before) t.body := by
    rw [markerChanges_append, markerChanges_outer t.before_outer]
    rfl
  refine ⟨d₃, rfl, ?_⟩
  rw [hmarkers, behindMessages_append, List.length_append, List.length_cons]
  rw [show n + (t.before.length + (t.body.length + 1)) = n + t.before.length + 1 + t.body.length by
    omega]
  exact hd₃

/-- The frames of a whole transaction: its mapping is sent, or the loop fails and there is no
mapping. -/
theorem mapFrames_wire {t : ControlTxn} (h : Decodes s.mapper live n none)
    (hdescribed : Described live t.wire) (hfits : ∀ x ∈ t.wire, x.2.Fits) :
    Ends (mapFrames (wireFrames n t.wire)) s
      (fun _ s' => ∃ d', s' = { s with
          mapper := d', sent := s.sent ++ (t.mapping live).toList } ∧
        Decodes d' (behindMessages live t.wire) (n + t.wire.length) none)
      fun e s' => (∃ m, e = .map (.marker m)) ∧ t.mapping live = none ∧
        s'.sent = s.sent ∧ s'.statuses = s.statuses := by
  unfold ControlTxn.wire at hdescribed hfits ⊢
  rw [wireFrames_append, mapFrames_append]
  refine Ends.bind (mapFrames_messages h ((described_append live _ _).mp hdescribed).1
    fun x hx => hfits x (List.mem_append_left _ hx)) ?_
  rintro _ _ ⟨d₁, rfl, hd₁⟩
  have hcommit := hd₁.commit
    (hfits t.commit (List.mem_append_right _ List.mem_cons_self))
  refine Ends.bind (Q := fun _ s' => ∃ d', s' = { s with
      mapper := d', sent := s.sent ++ (t.mapping live).toList } ∧
    Decodes d' (behindMessages live t.messages) (n + t.messages.length + 1) none)
    (Ends.bind_get (Ends.bind_modify ?_)) ?_
  · rcases hcommit with ⟨d₂, hfeed, hd₂⟩ | ⟨e, d₂, hfeed, hnone⟩
    · rw [hfeed]
      cases hmapping : t.mappingOf (markerChanges live t.messages) with
      | none =>
        refine Ends.pure ⟨d₂, ?_, hd₂⟩
        rw [ControlTxn.mapping, hmapping, Option.toList_none, List.append_nil]
      | some m =>
        refine Ends.call ⟨d₂, ?_, hd₂⟩
        rw [ControlTxn.mapping, hmapping]
        rfl
    · rw [hfeed]
      exact Ends.throw ⟨⟨e, rfl⟩, hnone, rfl, rfl⟩
  · rintro _ _ ⟨d₂, rfl, hd₂⟩
    refine Ends.pure ⟨d₂, rfl, ?_⟩
    rw [behindMessages_append, List.length_append]
    exact hd₂

end Map

end ControlState

/-! ## What was received -/

/-- What was received of a stream: `done` are the transactions whose Commit was received, and
`part` is the begin of the next one. -/
structure Received (txns done : List ControlTxn) (part received : List WireMessage) : Prop where
  split : received = done.flatMap ControlTxn.wire ++ part
  next : (txns = done ∧ part = []) ∨ ∃ t ts, txns = done ++ t :: ts ∧ part <+: t.messages

theorem Received.start (txns : List ControlTxn) : Received txns [] [] [] where
  split := rfl
  next := by
    cases txns with
    | nil => exact .inl ⟨rfl, rfl⟩
    | cons t ts => exact .inr ⟨t, ts, rfl, List.nil_prefix⟩

/-- One more message: of the open transaction, or its Commit. -/
theorem Received.snoc {txns done : List ControlTxn} {part received : List WireMessage}
    (h : Received txns done part received) {x : WireMessage}
    (hx : received ++ [x] <+: txns.flatMap ControlTxn.wire) :
    Received txns done (part ++ [x]) (received ++ [x]) ∧ x.2.commitEnd = none ∨
      ∃ t, Received txns (done ++ [t]) [] (received ++ [x]) ∧ part = t.messages ∧ x = t.commit := by
  rw [h.split] at hx ⊢
  rcases h.next with ⟨rfl, rfl⟩ | ⟨t, ts, rfl, tail, htail⟩
  · have hlen := hx.length_le
    rw [List.append_nil, List.length_append, List.length_singleton] at hlen
    omega
  · rw [List.flatMap_append, List.flatMap_cons, List.append_assoc, List.prefix_append_right_inj,
      ControlTxn.wire, ← htail, List.append_assoc, List.append_assoc,
      List.prefix_append_right_inj] at hx
    cases tail with
    | nil =>
      obtain ⟨rest, hrest⟩ := hx
      have hcommit : x = t.commit := (List.cons.inj hrest).1
      rw [List.append_nil] at htail
      refine .inr ⟨t, ⟨?_, ?_⟩, htail, hcommit⟩
      · rw [List.flatMap_append, List.flatMap_singleton, ControlTxn.wire, htail, hcommit,
          List.append_nil, List.append_assoc]
      · cases ts with
        | nil => exact .inl ⟨rfl, rfl⟩
        | cons t' ts => exact .inr ⟨t', ts, by simp, List.nil_prefix⟩
    | cons y tail =>
      obtain ⟨rest, hrest⟩ := hx
      obtain rfl : x = y := (List.cons.inj hrest).1
      refine .inl ⟨⟨by rw [List.append_assoc], .inr ⟨t, ts, rfl, tail, ?_⟩⟩, ?_⟩
      · rw [← htail, List.append_assoc]
        rfl
      · have hmem : x ∈ t.messages := by
          rw [← htail]
          exact List.mem_append_right _ List.mem_cons_self
        exact ControlTxn.commitEnd_messages hmem

/-! ## The loop -/

/-- The update carries the start position, or the end of a Commit that is durable with all
frames before it. -/
def Acked [Crc32c] (startLsn : Nat) (received : List WireMessage) (st : StandbyStatus) : Prop :=
  st.lsn = startLsn ∨ ∃ fs, decodeFiles (st.dir.segs.map (·.2.durable)) = .ok fs ∧
    fs <+: wireFrames 0 received ∧ ∃ f ∈ fs, commitEnd f = some st.lsn

/-- What the outside has seen. -/
structure Told [Crc32c] (startLsn : Nat) (done : List ControlTxn) (received : List WireMessage)
    (s : ControlState) : Prop where
  sent : s.sent = mappings ∅ done
  statuses : ∀ st ∈ s.statuses, Acked startLsn received st

/-- The loop waits for an event. -/
structure Ready [Crc32c] (startLsn : Nat) (done : List ControlTxn)
    (part received : List WireMessage) (s : ControlState) : Prop
    extends Told startLsn done received s where
  logged : Logged s.log (wireFrames 0 received)
  mapper : Decodes s.mapper (behindMessages ∅ (done.flatMap ControlTxn.wire))
    (done.flatMap ControlTxn.wire).length none
  pending : s.pending = wireFrames (done.flatMap ControlTxn.wire).length part

theorem wireFrames_snoc (received : List WireMessage) (x : WireMessage) :
    wireFrames 0 (received ++ [x]) = wireFrames 0 received ++ [wireFrame received.length x] := by
  rw [wireFrames_append, Nat.zero_add]
  rfl

section Loop

variable [Crc32c] {startLsn : Nat} {txns done : List ControlTxn} {part received : List WireMessage}
  {s : ControlState} {x : WireMessage}

theorem Acked.snoc {st : StandbyStatus} (h : Acked startLsn received st) :
    Acked startLsn (received ++ [x]) st := by
  refine h.imp_right fun ⟨fs, hfs, hpre, hcommit⟩ => ⟨fs, hfs, hpre.trans ?_, hcommit⟩
  rw [wireFrames_snoc]
  exact List.prefix_append _ _

omit [Crc32c] in
/-- A Commit among the frames of messages. -/
theorem commitEnd_wireFrames {n : Nat} {xs : List WireMessage} (hfits : ∀ x ∈ xs, x.2.Fits)
    {f : Frame} (hf : f ∈ wireFrames n xs) (hcomplete : f.txnComplete = true) :
    commitEnd f = some f.lsnEnd := by
  induction xs generalizing n with
  | nil => exact nomatch hf
  | cons x xs ih =>
    rcases List.mem_cons.mp hf with rfl | hrest
    · unfold commitEnd
      rw [parse_wireFrame (hfits x List.mem_cons_self)]
      obtain ⟨endLsn, hend⟩ := Option.isSome_iff_exists.mp hcomplete
      show x.2.commitEnd = some (x.2.commitEnd.getD x.1.toNat)
      rw [hend]
      rfl
    · exact ih (fun y hy => hfits y (List.mem_cons_of_mem x hy)) hrest

/-- An update that carries the mark of the log. -/
theorem Logged.acked {log : FrameLog} (h : Logged log (wireFrames 0 received))
    (hfits : ∀ x ∈ received, x.2.Fits) (startLsn : Nat) :
    Acked startLsn received
      { lsn := if log.durable.valid then log.durable.lsn else startLsn, dir := log.dir } := by
  by_cases hvalid : log.durable.valid = true
  · obtain ⟨fs, hfs, hpre, f, hf, hcomplete, hlsn⟩ := h.durable hvalid
    refine .inr ⟨fs, hfs, hpre, f, hf, ?_⟩
    rw [commitEnd_wireFrames hfits (hpre.subset hf) hcomplete, if_pos hvalid, hlsn]
  · exact .inl (if_neg hvalid)

namespace ControlState

omit [Crc32c] in
theorem onLog_ends {α : Type} {m : LogM α} {P : α → FrameLog → Prop} {F : LogError → FrameLog → Prop}
    {Q : α → ControlState → Prop} {E : ControlError → ControlState → Prop} (hm : Ends m s.log P F)
    (hQ : ∀ a log, P a log → Q a { s with log })
    (hE : ∀ e log, F e log → E (.log e) { s with log }) : Ends (onLog m) s Q E :=
  Ends.bind_get (Ends.embed hm hQ hE)

/-- One frame is appended, or the counter of the log has run out. -/
theorem append_ends (h : Logged s.log (wireFrames 0 received)) (hfits : x.2.Fits)
    (hlen : x.2.encode.length < 2 ^ 32) :
    Ends (onLog (FrameLog.appendDeferred x.1 ((pgoutputCommitEndLsn x.2.encode).getD x.1)
        (pgoutputCommitEndLsn x.2.encode).isSome x.2.encode)) s
      (fun seq s' => seq = received.length ∧ ∃ log, s' = { s with log } ∧
        Logged log (wireFrames 0 (received ++ [x])))
      fun e s' => e = .log .overflow ∧ 2 ^ 64 ≤ (received ++ [x]).length ∧ s' = s := by
  have hnext : s.log.nextSeq = received.length := by
    rw [h.nextSeq, length_wireFrames]
  have hframe : s.log.nextFrame x.1 ((pgoutputCommitEndLsn x.2.encode).getD x.1)
      (pgoutputCommitEndLsn x.2.encode).isSome x.2.encode = wireFrame received.length x := by
    unfold FrameLog.nextFrame wireFrame
    rw [hnext, ← pgoutputCommitEndLsn_encode x.2 hfits]
    cases pgoutputCommitEndLsn x.2.encode with
    | none => rfl
    | some lsn => rfl
  by_cases hroom : s.log.nextSeq + 1 < 2 ^ 64
  · refine onLog_ends (F := fun _ _ => False) (Ends.of_spec (h.append hroom hlen)) ?_
      fun _ _ hno => hno.elim
    intro seq log ⟨hseq, hlog⟩
    rw [hframe, ← wireFrames_snoc] at hlog
    exact ⟨hseq.trans hnext, log, rfl, hlog⟩
  · refine onLog_ends (P := fun _ _ => False) (F := fun e log => e = .overflow ∧ log = s.log) ?_
      (fun _ _ hno => hno.elim) ?_
    · refine Ends.bind (Q := fun _ _ => False) (Ends.bind_get ?_) fun _ _ hno => hno.elim
      rw [if_neg hroom]
      exact Ends.throw ⟨rfl, rfl⟩
    · rintro _ _ ⟨rfl, rfl⟩
      refine ⟨rfl, ?_, rfl⟩
      rw [List.length_append, List.length_singleton]
      omega

/-- A frame is appended and pending; what comes then, depends on whether it is a Commit. -/
theorem xLogData_ends {Q : Unit → ControlState → Prop} {E : ControlError → ControlState → Prop}
    (h : Ready startLsn done part received s)
    (hsplit : received = done.flatMap ControlTxn.wire ++ part) (hfits : x.2.Fits)
    (hlen : x.2.encode.length < 2 ^ 32)
    (hoverflow : 2 ^ 64 ≤ (received ++ [x]).length → E (.log .overflow) s)
    (hrest : ∀ log, Logged log (wireFrames 0 (received ++ [x])) →
      Ends (if x.2.commitEnd.isSome then txnComplete (x.2.commitEnd.getD x.1.toNat) else pure ())
        { s with
          log
          pending := wireFrames (done.flatMap ControlTxn.wire).length (part ++ [x]) } Q E) :
    Ends (xLogData x.1 x.2.encode) s Q E := by
  refine Ends.bind (Q := fun seq s' => seq = received.length ∧ ∃ log, s' = { s with log } ∧
    Logged log (wireFrames 0 (received ++ [x])))
    ((append_ends h.logged hfits hlen).weaken (fun _ _ hq => hq) ?_) ?_
  · rintro _ _ ⟨rfl, hlength, rfl⟩
    exact hoverflow hlength
  · rintro _ _ ⟨rfl, log, rfl, hlog⟩
    have hpending : s.pending ++ [wireFrame received.length x]
        = wireFrames (done.flatMap ControlTxn.wire).length (part ++ [x]) := by
      rw [h.pending, wireFrames_append, hsplit, List.length_append]
      rfl
    have hafter := hrest log hlog
    rw [← hpending] at hafter
    have hend := pgoutputCommitEndLsn_encode x.2 hfits
    refine Ends.bind_modify ?_
    unfold wireFrame at hafter
    rw [← hend] at hafter
    cases hlsn : pgoutputCommitEndLsn x.2.encode with
    | none =>
      rw [hlsn] at hafter
      exact hafter
    | some lsn =>
      rw [hlsn] at hafter
      exact hafter

end ControlState

theorem Ready.unacked (h : Ready startLsn done part received s) (n : Nat) :
    Ready startLsn done part received { s with unackedCommits := n } :=
  ⟨⟨h.sent, h.statuses⟩, h.logged, h.mapper, h.pending⟩

theorem Ready.withLog (h : Ready startLsn done part received s) {log : FrameLog}
    (hlog : Logged log (wireFrames 0 received)) :
    Ready startLsn done part received { s with log } :=
  ⟨⟨h.sent, h.statuses⟩, hlog, h.mapper, h.pending⟩

theorem Told.status (h : Told startLsn done received s) {st : StandbyStatus}
    (hst : Acked startLsn received st) :
    Told startLsn done received { s with statuses := s.statuses ++ [st] } where
  sent := h.sent
  statuses := fun st' hst' => by
    rcases List.mem_append.mp hst' with hold | hnew
    · exact h.statuses st' hold
    · rw [List.mem_singleton.mp hnew]
      exact hst

theorem Ready.status (h : Ready startLsn done part received s) {st : StandbyStatus}
    (hst : Acked startLsn received st) :
    Ready startLsn done part received { s with statuses := s.statuses ++ [st] } :=
  ⟨h.toTold.status hst, h.logged, h.mapper, h.pending⟩

namespace ControlState

/-- A keepalive is answered, also inside of a transaction. -/
theorem reply_ends {E : ControlError → ControlState → Prop}
    (h : Ready startLsn done part received s) (hfits : ∀ x ∈ received, x.2.Fits) :
    Ends (reply startLsn) s (fun _ s' => Ready startLsn done part received s') E := by
  refine Ends.bind (Q := fun _ s' => Ready startLsn done part received s')
    (onLog_ends (F := fun _ _ => False) (Ends.of_spec h.logged.flush) ?_ fun _ _ hno => hno.elim) ?_
  · exact fun _ _ hlog => h.withLog hlog.1
  · intro _ s' h'
    refine Ends.bind_get (Ends.bind_call (Ends.modify ?_))
    exact (h'.status (h'.logged.acked hfits startLsn)).unacked 0

/-- A full batch is acknowledged: the mark is the Commit that was just appended. -/
theorem ackBatch_ends {E : ControlError → ControlState → Prop} {seq lsnEnd : Nat}
    (h : Ready startLsn done part received s) (hfits : ∀ x ∈ received, x.2.Fits)
    (hlast : lastCommit (wireFrames 0 received) = some (seq, lsnEnd)) :
    Ends (ackBatch lsnEnd) s (fun _ s' => Ready startLsn done part received s') E := by
  refine Ends.bind (Q := fun _ s' => Ready startLsn done part received s' ∧
      s'.log.durable.valid = true ∧ s'.log.durable.lsn = lsnEnd)
    (onLog_ends (F := fun _ _ => False) (Ends.of_spec h.logged.flush) ?_ fun _ _ hno => hno.elim) ?_
  · intro _ log ⟨hlog, hmark⟩
    rw [hlast] at hmark
    by_cases hvalid : log.durable.valid = true
    · rw [if_pos hvalid] at hmark
      exact ⟨h.withLog hlog, hvalid, (Prod.mk.inj (Option.some.inj hmark)).2⟩
    · rw [if_neg hvalid] at hmark
      exact nomatch hmark
  · intro _ s' ⟨h', hvalid, hlsn⟩
    have hacked : Acked startLsn received { lsn := s'.log.durable.lsn, dir := s'.log.dir } := by
      have hmark := h'.logged.acked hfits startLsn
      rwa [if_pos hvalid] at hmark
    refine Ends.bind_get ?_
    rw [if_pos (by simp [hvalid, hlsn])]
    exact Ends.bind_call (Ends.modify ((h'.status hacked).unacked 0))

/-- The last update, behind the loop. -/
theorem finish_ends {E : ControlError → ControlState → Prop}
    (h : Ready startLsn done part received s) (hfits : ∀ x ∈ received, x.2.Fits) :
    Ends finish s (fun _ s' => Told startLsn done received s') E := by
  refine Ends.bind_get ?_
  split
  · rename_i hvalid
    have hacked : Acked startLsn received { lsn := s.log.durable.lsn, dir := s.log.dir } := by
      have hmark := h.logged.acked hfits startLsn
      rwa [if_pos hvalid] at hmark
    exact fun seen => ⟨_, rfl, .inl ⟨(), rfl, h.toTold.status hacked⟩⟩
  · exact Ends.pure h.toTold

end ControlState

/-- How the loop fails: the counter of the log has run out, or a transaction changes the
marker table in another way than by one marker. -/
def Failed (startLsn : Nat) (done : List ControlTxn) (received : List WireMessage)
    (e : ControlError) (s : ControlState) : Prop :=
  (e = .log .overflow ∧ 2 ^ 64 ≤ received.length) ∨
    (∃ m, e = .map (.marker m)) ∧ Told startLsn done received s

namespace ControlState

/-- A message before the Commit. -/
theorem xLogData_open (h : Ready startLsn done part received s)
    (hsplit : received = done.flatMap ControlTxn.wire ++ part) (hx : x.2.commitEnd = none)
    (hfits : x.2.Fits) (hlen : x.2.encode.length < 2 ^ 32) :
    Ends (xLogData x.1 x.2.encode) s
      (fun _ s' => Ready startLsn done (part ++ [x]) (received ++ [x]) s')
      (Failed startLsn done (received ++ [x])) := by
  refine xLogData_ends h hsplit hfits hlen (fun hlength => .inl ⟨rfl, hlength⟩) fun log hlog => ?_
  rw [hx]
  exact Ends.pure ⟨⟨h.sent, fun st hst => (h.statuses st hst).snoc⟩, hlog, h.mapper, rfl⟩

/-- The Commit of a transaction. -/
theorem xLogData_commit {t : ControlTxn} (h : Ready startLsn done t.messages received s)
    (hsplit : received = done.flatMap ControlTxn.wire ++ t.messages)
    (hdescribed : Described (behindMessages ∅ (done.flatMap ControlTxn.wire)) t.wire)
    (hfits : ∀ x ∈ received ++ [t.commit], x.2.Fits) (hlen : t.commit.2.encode.length < 2 ^ 32) :
    Ends (xLogData t.commit.1 t.commit.2.encode) s
      (fun _ s' => Ready startLsn (done ++ [t]) [] (received ++ [t.commit]) s')
      (Failed startLsn (done ++ [t]) (received ++ [t.commit])) := by
  have hcommit : t.commit.2.Fits := hfits _ (List.mem_append_right _ List.mem_cons_self)
  refine xLogData_ends h hsplit hcommit hlen (fun hlength => .inl ⟨rfl, hlength⟩) fun log hlog => ?_
  have hwire : t.messages ++ [t.commit] = t.wire := rfl
  have hwires : (done ++ [t]).flatMap ControlTxn.wire = done.flatMap ControlTxn.wire ++ t.wire := by
    rw [List.flatMap_append, List.flatMap_singleton]
  have hsent : mappings ∅ (done ++ [t]) = mappings ∅ done ++
      (t.mapping (behindMessages ∅ (done.flatMap ControlTxn.wire))).toList := by
    rw [mappings_append]
    exact congrArg _ (List.append_nil _)
  have hstatuses : ∀ st ∈ s.statuses, Acked startLsn (received ++ [t.commit]) st :=
    fun st hst => (h.statuses st hst).snoc
  have htxn : ∀ y ∈ t.wire, y.2.Fits := by
    intro y hy
    apply hfits y
    rw [hsplit, List.append_assoc, hwire]
    exact List.mem_append_right _ hy
  show Ends (txnComplete t.endLsn) _ _ _
  rw [hwire]
  refine Ends.bind_get (Ends.bind_modify ?_)
  refine Ends.bind (Q := fun _ s' => Ready startLsn (done ++ [t]) [] (received ++ [t.commit]) s')
    ((mapFrames_wire (s := { s with log, pending := [] }) h.mapper hdescribed htxn).weaken ?_ ?_) ?_
  · rintro _ _ ⟨d', rfl, hd'⟩
    refine ⟨⟨?_, hstatuses⟩, hlog, ?_, rfl⟩
    · show s.sent ++ _ = _
      rw [h.sent, hsent]
    · rw [hwires, behindMessages_append, List.length_append]
      exact hd'
  · rintro e s' ⟨hmarker, hnone, hsame, hstatus⟩
    refine .inr ⟨hmarker, ?_, ?_⟩
    · rw [hsame, hsent, hnone]
      exact h.sent.trans (List.append_nil _).symm
    · rw [hstatus]
      exact hstatuses
  · intro _ s' h'
    refine Ends.bind_modify (Ends.bind_get ?_)
    have hready := h'.unacked (s'.unackedCommits + 1)
    split
    · have hlast : lastCommit (wireFrames 0 (received ++ [t.commit]))
          = some (received.length, t.endLsn) := by
        rw [wireFrames_snoc, lastCommit_append]
        rfl
      exact ackBatch_ends hready hfits hlast
    · exact Ends.pure hready

/-- One round of the loop that receives no data. -/
theorem event_quiet (h : Ready startLsn done part received s) (hfits : ∀ x ∈ received, x.2.Fits)
    {e : ControlEvent} (he : ∀ walStart payload, e ≠ .xLogData walStart payload) :
    Ends (event startLsn e) s
      (fun on s' => Told startLsn done received s' ∧
        (on = true → Ready startLsn done part received s')) (Failed startLsn done received) := by
  cases e with
  | xLogData walStart payload => exact absurd rfl (he walStart payload)
  | stop set =>
    cases set with
    | true =>
      refine Ends.bind (finish_ends h hfits) ?_
      exact fun _ s' htold => Ends.pure ⟨htold, nofun⟩
    | false => exact Ends.pure ⟨h.toTold, fun _ => h⟩
  | keepalive walEnd replyRequested =>
    cases replyRequested with
    | true =>
      refine Ends.bind (reply_ends h hfits) ?_
      exact fun _ s' h' => Ends.pure ⟨h'.toTold, fun _ => h'⟩
    | false => exact Ends.pure ⟨h.toTold, fun _ => h⟩

/-- One round that receives data. -/
theorem event_data {walStart : UInt64} {payload : Bytes} {part' received' : List WireMessage}
    {done' : List ControlTxn}
    (h : Ends (xLogData walStart payload) s (fun _ s' => Ready startLsn done' part' received' s')
      (Failed startLsn done' received')) :
    Ends (event startLsn (.xLogData walStart payload)) s
      (fun on s' => Told startLsn done' received' s' ∧
        (on = true → Ready startLsn done' part' received' s')) (Failed startLsn done' received') :=
  Ends.bind h fun _ _ h' => Ends.pure ⟨h'.toTold, fun _ => h'⟩

end ControlState

end Loop

/-! ## Runs -/

def wireBytes (x : WireMessage) : UInt64 × Bytes := (x.1, x.2.encode)

/-- What the events have brought of the stream. -/
def dataOf (es : List ControlEvent) : List (UInt64 × Bytes) :=
  es.filterMap fun
    | .xLogData walStart payload => some (walStart, payload)
    | _ => none

/-- After some data: the mappings of the transactions whose Commit was received were sent, in
commit order and no others, the status updates keep their promise, and the loop did not fail at
its check of the mark. -/
structure ControlExact [Crc32c] (startLsn : Nat) (txns done : List ControlTxn)
    (part received : List WireMessage) (data : List (UInt64 × Bytes)) (r : ControlRun) : Prop
    extends Received txns done part received, Told startLsn done received r.state where
  data : data = received.map wireBytes
  check : r.result ≠ some (.error .noDurableMark)
  /-- It only fails at a transaction that changes the marker table in another way. -/
  fails : ∀ e, r.result = some (.error e) → ∃ m, e = .map (.marker m)

theorem Received.isPrefix {txns done : List ControlTxn} {part received : List WireMessage}
    (h : Received txns done part received) : received <+: txns.flatMap ControlTxn.wire := by
  rw [h.split]
  rcases h.next with ⟨rfl, rfl⟩ | ⟨t, ts, rfl, hpart⟩
  · rw [List.append_nil]
  · rw [List.flatMap_append, List.prefix_append_right_inj, List.flatMap_cons, ControlTxn.wire,
      List.append_assoc]
    exact hpart.trans (List.prefix_append _ _)

/-- The next data are the next message. -/
theorem Received.next_data {txns done : List ControlTxn} {part received : List WireMessage}
    (h : Received txns done part received) {d : UInt64 × Bytes}
    (hd : received.map wireBytes ++ [d] <+: (txns.flatMap ControlTxn.wire).map wireBytes) :
    ∃ x, d = wireBytes x ∧ received ++ [x] <+: txns.flatMap ControlTxn.wire := by
  obtain ⟨tail, htail⟩ := h.isPrefix
  rw [← htail, List.map_append, List.prefix_append_right_inj] at hd
  obtain ⟨rest, hrest⟩ := hd
  cases tail with
  | nil => exact nomatch hrest
  | cons x tail =>
    refine ⟨x, (List.cons.inj hrest).1, tail, ?_⟩
    rw [← htail, List.append_assoc]
    rfl

section Runs

variable [Crc32c] {startLsn : Nat} {txns : List ControlTxn}

/-- An event whose ends are known. -/
theorem exact_of_ends {done : List ControlTxn} {part received : List WireMessage}
    {r r' : ControlRun} {e : ControlEvent}
    (hends : Ends (ControlState.event startLsn e) r.state
      (fun on s' => Told startLsn done received s' ∧
        (on = true → Ready startLsn done part received s')) (Failed startLsn done received))
    (hreceived : Received txns done part received) (hplay : r.play startLsn e = some r') :
    (r'.result = some (.error (.log .overflow)) ∧ 2 ^ 64 ≤ received.length) ∨
      ControlExact startLsn txns done part received (received.map wireBytes) r' ∧
        (r'.result = none → Ready startLsn done part received r'.state) := by
  unfold ControlRun.play at hplay
  cases hresult : r.result with
  | some result =>
    rw [hresult] at hplay
    exact nomatch hplay
  | none =>
    rw [hresult] at hplay
    rcases hends.exec with ⟨on, t, hrun, htold, hready⟩ | ⟨err, t, hrun, hfailed⟩
    · rw [hrun] at hplay
      cases on with
      | true =>
        obtain rfl := Option.some.inj hplay
        exact .inr ⟨⟨hreceived, htold, rfl, nofun, nofun⟩, fun _ => hready rfl⟩
      | false =>
        obtain rfl := Option.some.inj hplay
        exact .inr ⟨⟨hreceived, htold, rfl, nofun, nofun⟩, nofun⟩
    · rw [hrun] at hplay
      obtain rfl := Option.some.inj hplay
      rcases hfailed with ⟨rfl, hlength⟩ | ⟨⟨m, rfl⟩, htold⟩
      · exact .inl ⟨rfl, hlength⟩
      · refine .inr ⟨⟨hreceived, htold, rfl, nofun, ?_⟩, nofun⟩
        intro e' he'
        exact ⟨m, (Except.error.inj (Option.some.inj he')).symm⟩

omit [Crc32c] in
/-- The relations of a transaction are described before they are used. -/
theorem ControlStream.described_wire (hstream : ControlStream txns) {done : List ControlTxn}
    {t : ControlTxn} {part received : List WireMessage}
    (h : Received txns (done ++ [t]) part received) :
    Described (behindMessages ∅ (done.flatMap ControlTxn.wire)) t.wire := by
  obtain ⟨ts, rfl⟩ : ∃ ts, txns = done ++ t :: ts := by
    rcases h.next with ⟨rfl, -⟩ | ⟨t', ts, rfl, -⟩
    · exact ⟨[], rfl⟩
    · exact ⟨t' :: ts, by simp⟩
  have hdescribed := hstream.described
  rw [List.flatMap_append, List.flatMap_cons, described_append, described_append] at hdescribed
  exact hdescribed.2.1

/-- One event. -/
theorem play_exact (hstream : ControlStream txns) {done : List ControlTxn}
    {part received : List WireMessage} {r r' : ControlRun} {e : ControlEvent}
    (hreceived : Received txns done part received)
    (hready : Ready startLsn done part received r.state) (hplay : r.play startLsn e = some r')
    (hdata : received.map wireBytes ++ dataOf [e]
      <+: (txns.flatMap ControlTxn.wire).map wireBytes) :
    (r'.result = some (.error (.log .overflow)) ∧
        2 ^ 64 ≤ (received.map wireBytes ++ dataOf [e]).length) ∨
      ∃ done' part' received', ControlExact startLsn txns done' part' received'
          (received.map wireBytes ++ dataOf [e]) r' ∧
        (r'.result = none → Ready startLsn done' part' received' r'.state) := by
  have hfits : ∀ {xs : List WireMessage}, xs <+: txns.flatMap ControlTxn.wire →
      ∀ x ∈ xs, x.2.Fits ∧ x.2.encode.length < 2 ^ 32 :=
    fun hpre x hx => hstream.fits x (hpre.subset hx)
  by_cases hx : ∀ walStart payload, e ≠ .xLogData walStart payload
  · have hnone : dataOf [e] = [] := by
      cases e with
      | xLogData walStart payload => exact absurd rfl (hx walStart payload)
      | _ => rfl
    rw [hnone, List.append_nil]
    rcases exact_of_ends (ControlState.event_quiet hready
      (fun x hx => (hfits hreceived.isPrefix x hx).1) hx) hreceived hplay with hover | hexact
    · exact .inl ⟨hover.1, by simpa using hover.2⟩
    · exact .inr ⟨done, part, received, hexact⟩
  · push Not at hx
    obtain ⟨walStart, payload, rfl⟩ := hx
    obtain ⟨x, hxd, hpre⟩ := hreceived.next_data (d := (walStart, payload)) hdata
    obtain ⟨rfl, rfl⟩ := Prod.mk.inj hxd
    have hall : received.map wireBytes ++ dataOf [.xLogData x.1 x.2.encode]
        = (received ++ [x]).map wireBytes := by
      rw [List.map_append]
      rfl
    rw [hall]
    have hlast := hfits hpre x (List.mem_append_right _ List.mem_cons_self)
    rcases hreceived.snoc hpre with ⟨hnext, hend⟩ | ⟨t, hnext, rfl, rfl⟩
    · have hends := ControlState.xLogData_open hready hreceived.split hend hlast.1 hlast.2
      rcases exact_of_ends (ControlState.event_data hends) hnext hplay with hover | hexact
      · exact .inl ⟨hover.1, by simpa using hover.2⟩
      · exact .inr ⟨_, _, _, hexact⟩
    · have hends := ControlState.xLogData_commit hready hreceived.split
        (hstream.described_wire hnext) (fun y hy => (hfits hpre y hy).1) hlast.2
      rcases exact_of_ends (ControlState.event_data hends) hnext hplay with hover | hexact
      · exact .inl ⟨hover.1, by simpa using hover.2⟩
      · exact .inr ⟨_, _, _, hexact⟩

/-- In every run of the loop the mappings that are sent are exactly those of the transactions
that insert one control marker, in commit order, each once and behind its Commit; every status
update carries the start position or the end of a durable Commit; and the check of the mark does
not fail.  The run ends before 2^64 frames, when the counter of the log has run out. -/
theorem control_exact {segmentMaxBytes : Nat} {disk disk' : Disk} {log : FrameLog}
    (hcreate : (FrameLog.create segmentMaxBytes).outcome disk = some (log, disk'))
    (hstream : ControlStream txns) {es : List ControlEvent}
    (hdata : dataOf es <+: (txns.flatMap ControlTxn.wire).map wireBytes) {r : ControlRun}
    (hrun : es.foldlM (ControlRun.play startLsn) (ControlRun.start log) = some r) :
    (r.result = some (.error (.log .overflow)) ∧ 2 ^ 64 ≤ (dataOf es).length) ∨
      ∃ done part received, ControlExact startLsn txns done part received (dataOf es) r := by
  let Inv (es : List ControlEvent) (r : ControlRun) : Prop :=
    dataOf es <+: (txns.flatMap ControlTxn.wire).map wireBytes →
      (r.result = some (.error (.log .overflow)) ∧ 2 ^ 64 ≤ (dataOf es).length) ∨
        ∃ done part received, ControlExact startLsn txns done part received (dataOf es) r ∧
          (r.result = none → Ready startLsn done part received r.state)
  have hstep : ∀ es r e r', Inv es r → ControlRun.play startLsn r e = some r' →
      Inv (es ++ [e]) r' := by
    intro es r e r' hinv hplay hpre
    have hsplit : dataOf (es ++ [e]) = dataOf es ++ dataOf [e] := List.filterMap_append
    rw [hsplit] at hpre ⊢
    have hnone : r.result = none := by
      unfold ControlRun.play at hplay
      cases hresult : r.result with
      | none => rfl
      | some result =>
        rw [hresult] at hplay
        exact nomatch hplay
    rcases hinv ((List.prefix_append _ _).trans hpre) with
      ⟨hover, -⟩ | ⟨done, part, received, h, hready⟩
    · exact nomatch hnone.symm.trans hover
    · rw [h.data] at hpre ⊢
      exact play_exact hstream h.toReceived (hready hnone) hplay hpre
  have hstart : Inv [] (ControlRun.start log) := by
    intro _
    have htold : Told startLsn [] [] (ControlRun.start log).state :=
      ⟨rfl, fun _ hst => absurd hst List.not_mem_nil⟩
    exact .inr ⟨[], [], [], ⟨Received.start txns, htold, rfl, nofun, nofun⟩, fun _ =>
      ⟨htold, logged_create hcreate, ⟨rfl, rfl, fun _ => rfl, nofun⟩, rfl⟩⟩
  rcases foldlM_invariant hstep hrun hstart hdata with hover | ⟨done, part, received, h, -⟩
  · exact .inl hover
  · exact .inr ⟨done, part, received, h⟩

end Runs

def markerRelation : RelationDesc where
  relid := 42
  ns := "r1_control"
  name := "tx_marker"
  replident := 0x64
  columns := [⟨"sequence", 20, -1, true⟩, ⟨"operation_sha256", 25, -1, false⟩]

/-- A transaction that inserts one marker. -/
def markerTxn : ControlTxn where
  beginAt := 100
  finalLsn := 190
  beginTs := 0
  xid := 9001
  body := [(101, .relation markerRelation), (102, .insert 42 [.text "77", .text "abc"])]
  commitAt := 190
  flags := 0
  commitLsn := 190
  endLsn := 200
  commitTs := 0
  before_outer := fun _ hx => absurd hx List.not_mem_nil
  body_inner := by simp [Message.Inner]
  endLsn_pos := by decide

theorem markerRelation_fits : markerRelation.Fits where
  relid := by decide
  ns := by
    unfold NulFree
    decide +kernel
  name := by
    unfold NulFree
    decide +kernel
  count := by decide
  columns := by
    intro c hc
    simp only [markerRelation, List.mem_cons, List.not_mem_nil, or_false] at hc
    obtain rfl | rfl := hc
    · exact ⟨by unfold NulFree; decide +kernel, by decide, by decide⟩
    · exact ⟨by unfold NulFree; decide +kernel, by decide, by decide⟩

theorem controlStream_markerTxn : ControlStream [markerTxn] where
  fits := by
    intro x hx
    have hall : x = markerTxn.start ∨ x = (101, .relation markerRelation) ∨
        x = (102, .insert 42 [.text "77", .text "abc"]) ∨ x = markerTxn.commit := by
      simpa [ControlTxn.wire, ControlTxn.messages, markerTxn] using hx
    obtain rfl | rfl | rfl | rfl := hall
    · exact ⟨⟨by decide, ⟨by decide, by decide⟩, by decide⟩, by decide +kernel⟩
    · exact ⟨markerRelation_fits, by decide +kernel⟩
    · refine ⟨⟨by decide, by decide, fun v hv => ?_⟩, by decide +kernel⟩
      simp only [List.mem_cons, List.not_mem_nil, or_false] at hv
      obtain rfl | rfl := hv
      · show "77".toUTF8.toList.length < 2 ^ 32
        decide +kernel
      · show "abc".toUTF8.toList.length < 2 ^ 32
        decide +kernel
    · exact ⟨⟨by decide, by decide, ⟨by decide, by decide⟩⟩, by decide +kernel⟩
  described := by
    have hnone : ∀ (live : LiveRel), ∀ relid ∈ ([] : List Nat), (live.lookup relid).isSome :=
      fun _ _ h => absurd h List.not_mem_nil
    refine ⟨hnone _, hnone _, fun relid hrelid => ?_, hnone _, trivial⟩
    obtain rfl := List.mem_singleton.mp hrelid
    rfl

/-- A keepalive comes inside of the transaction, and another behind it. -/
def markerEvents : List ControlEvent :=
  [.xLogData markerTxn.start.1 markerTxn.start.2.encode, .keepalive 100 true,
    .xLogData 101 (Message.relation markerRelation).encode,
    .xLogData 102 (Message.insert 42 [.text "77", .text "abc"]).encode, .keepalive 150 false,
    .xLogData markerTxn.commit.1 markerTxn.commit.2.encode, .keepalive 200 true, .stop true]

theorem control_exact_marker :
    letI := castagnoli
    ∃ r, r.result = some (.ok ()) ∧
      r.state.sent = [⟨77, 9001, 200, "abc"⟩] ∧ r.state.statuses.map StandbyStatus.lsn = [90, 200, 200] ∧
      ∃ done part received,
        ControlExact 90 [markerTxn] done part received (dataOf markerEvents) r := by
  let _ := castagnoli
  have hend : (markerEvents.foldlM (ControlRun.play 90) (ControlRun.start (emptyLog 64))).map
      (fun r => (r.result, r.state.sent, r.state.statuses.map StandbyStatus.lsn)) =
        some (some (.ok ()), [⟨77, 9001, 200, "abc"⟩], [90, 200, 200]) := by
    decide +kernel
  obtain ⟨r, hr, hview⟩ := Option.map_eq_some_iff.mp hend
  obtain ⟨hresult, hrest⟩ := Prod.mk.inj hview
  obtain ⟨hsent, hstatuses⟩ := Prod.mk.inj hrest
  have hdata : dataOf markerEvents <+: ([markerTxn].flatMap ControlTxn.wire).map wireBytes :=
    List.prefix_refl _
  refine ⟨r, hresult, hsent, hstatuses, ?_⟩
  exact (control_exact (create_outcome 64) controlStream_markerTxn hdata hr).resolve_left
    fun hover => nomatch hresult.symm.trans hover.1

end GrayDB.R1
