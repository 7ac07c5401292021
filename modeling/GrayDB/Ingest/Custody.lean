import GrayDB.Ingest.Slot

/-!
# Custody of the source's transactions

The slot sends what its consumer has not confirmed, the pump moves it into the frame log, and
a status of the pump lets the slot forget.  The pump can stop at every call, and what it has
left behind is resumed and goes on with a new session.

* `Custody.Step` is one step of the source, the slot, the wire or the pump.
* `Custody.Inv` says how the log, the wire and the slot share the transactions out.
* `custody`: over every run, recovery finds whole transactions, from the first one on, each
  of them once, and the slot has not forgotten one that is not durable.
-/

namespace GrayDB.Ingest

open Lib Lib.Crash Log

/-- A pump between two rounds, or what a pump has left behind. -/
inductive Holder where
  | running (p : Pump)
  | stopped (dir : Dir) (sent : List StandbyStatus)

namespace Holder

/-- The statuses that have been sent to the slot. -/
def sent : Holder → List StandbyStatus
  | .running p => p.sent
  | .stopped _ sent => sent

def dir : Holder → Dir
  | .running p => p.log.dir
  | .stopped dir _ => dir

end Holder

/-- The source with its slot, and the consumer of the slot. -/
structure Custody (T : Type) where
  /-- The transactions of the source, in the order of their commits. -/
  txns : List T
  /-- The position of the slot. -/
  confirmed : Nat
  /-- What the slot still has to send in this session. -/
  queue : List T
  /-- What is sent and not read. -/
  wire : List ReplMsg
  holder : Holder

namespace Custody

variable [Crc32c] {T : Type}

/-- The first session, over a new log. -/
def Start (lsn0 : Nat) (s : Custody T) : Prop :=
  ∃ segmentMaxBytes disk disk' log,
    (FrameLog.create segmentMaxBytes).outcome disk = some (log, disk') ∧
      s = { txns := [], confirmed := lsn0, queue := [], wire := []
            holder := .running { log, startLsn := lsn0 } }

/-- One step, without an I/O failure that the pump outlives. -/
inductive Step (slot : Slot T) (lsn0 : Nat) : Custody T → Custody T → Prop
  | commit {s : Custody T} {t : T} (hlow : lsn0 < slot.position t)
      (hnew : ∀ x ∈ s.txns, slot.position x < slot.position t) :
      Step slot lsn0 s { s with txns := s.txns ++ [t], queue := s.queue ++ [t] }
  | send {s : Custody T} {t : T} {queue : List T} {ms : List Data} (hq : s.queue = t :: queue)
      (hs : slot.Sends t ms) :
      Step slot lsn0 s
        { s with queue := queue, wire := s.wire ++ ms.map fun m => .xLogData m.1 m.2 }
  | keepalive {s : Custody T} {front back : List ReplMsg} (walEnd : UInt64)
      (replyRequested : Bool) (hw : s.wire = front ++ back) :
      Step slot lsn0 s { s with wire := front ++ .keepalive walEnd replyRequested :: back }
  | confirm {s : Custody T} {st : StandbyStatus} (hst : st ∈ s.holder.sent) :
      Step slot lsn0 s { s with confirmed := max s.confirmed st.lsn }
  | round {s : Custody T} {p p' : Pump} {e : PumpEvent} {wire : List ReplMsg}
      (hp : s.holder = .running p) (hw : s.wire = e.taken ++ wire)
      (hr : (Pump.round e).outcome p = some (true, p')) :
      Step slot lsn0 s { s with wire := wire, holder := .running p' }
  | leave {s : Custody T} {p p' p'' : Pump} {e : PumpEvent} {wire : List ReplMsg} {d : Dir}
      (hp : s.holder = .running p) (hw : s.wire = e.taken ++ wire)
      (hr : (Pump.round e).outcome p = some (false, p'))
      (hc : Pump.close.outcome p' = some ((), p'')) (hd : p''.log.dir.CrashImage d) :
      Step slot lsn0 s { s with holder := .stopped d p''.sent }
  | crash {s : Custody T} {p : Pump} {d : Dir} (hp : s.holder = .running p)
      (hd : p.log.dir.CrashImage d) : Step slot lsn0 s { s with holder := .stopped d p.sent }
  | crashInside {s : Custody T} {p t : Pump} {e : PumpEvent} {wire : List ReplMsg} {d : Dir}
      (hp : s.holder = .running p) (hw : s.wire = e.taken ++ wire)
      (ht : t ∈ (Pump.round e).passes p) (hd : t.log.dir.CrashImage d) :
      Step slot lsn0 s { s with holder := .stopped d t.sent }
  | restart {s : Custody T} {d : Dir} {sent : List StandbyStatus} {segmentMaxBytes : Nat}
      {disk : Disk} {log : FrameLog} (hp : s.holder = .stopped d sent)
      (hr : (FrameLog.resume segmentMaxBytes).outcome (some d) = some (log, disk)) :
      Step slot lsn0 s
        { s with
          queue := s.txns.filter fun t =>
            decide (max log.durable.lsn s.confirmed < slot.position t)
          wire := []
          holder := .running { log, startLsn := log.durable.lsn } }

/-- The states of a run. -/
inductive Reachable (slot : Slot T) (lsn0 : Nat) : Custody T → Prop
  | start {s : Custody T} (h : s.Start lsn0) : Reachable slot lsn0 s
  | step {s s' : Custody T} (hs : Reachable slot lsn0 s) (h : Step slot lsn0 s s') :
      Reachable slot lsn0 s'

/-! ## What is held -/

/-- A running pump has what the slot has sent and the wire does not hold. -/
structure Pumps (slot : Slot T) (lsn0 : Nat) (s : Custody T) (p : Pump) (l : Layout)
    (spilled : List Frame) (ms : List Data) (ts : List T) (blocks : List (List Data)) : Prop where
  rep : p.Rep l spilled
  frames : l.frames ++ spilled = logged ms
  txns : s.txns = ts ++ s.queue
  sends : List.Forall₂ slot.Sends ts blocks
  wire : blocks.flatten = ms ++ s.wire.filterMap ReplMsg.data
  startLsn : p.startLsn ≤ reach lsn0 l.durableFrames
  confirmed : s.confirmed ≤ reach lsn0 l.durableFrames

/-- What is left behind is the beginning of what the slot has sent, and the slot can be asked
for the rest. -/
structure Left (slot : Slot T) (lsn0 : Nat) (s : Custody T) (d : Dir) (sent : List StandbyStatus) :
    Prop where
  files : ∃ L ms, Recoverable d.segs L ∧ L.flatten = d.frames ∧ d.frames = logged ms ∧
    slot.Begins s.txns ms
  durable : d.durableFrames <+: d.frames
  confirmed : s.confirmed ≤ reach lsn0 d.durableFrames
  sent : ∀ st ∈ sent, st.lsn ≤ reach lsn0 d.durableFrames

/-- How the consumer stands to the source. -/
def Held (slot : Slot T) (lsn0 : Nat) (s : Custody T) : Holder → Prop
  | .running p => ∃ l spilled ms ts blocks, Pumps slot lsn0 s p l spilled ms ts blocks
  | .stopped d sent => Left slot lsn0 s d sent

structure Inv (slot : Slot T) (lsn0 : Nat) (s : Custody T) : Prop where
  ascending : slot.Ascending lsn0 s.txns
  low : lsn0 ≤ s.confirmed
  held : Held slot lsn0 s s.holder

variable {slot : Slot T} {lsn0 start stream : Nat} {ts : List T} {ms : List Data}
  {fs : List Frame} {s s' : Custody T} {p p' t : Pump} {l l' : Layout} {spilled : List Frame}
  {blocks : List (List Data)} {d : Dir}

/-! ## The steps -/

omit [Crc32c] in
/-- The frames of an event are those of the data that it takes. -/
theorem frames_taken {fs : List Frame} (e : PumpEvent) (h : fs = logged ms) :
    fs ++ e.frames fs.length = logged (ms ++ e.taken.filterMap ReplMsg.data) := by
  subst h
  rw [length_logged]
  match e with
  | .message (some (.xLogData walStart payload)) => exact (logged_concat ms (walStart, payload)).symm
  | .message (some (.keepalive _ _)) | .message none | .changed _ | .tick =>
    show logged ms ++ [] = logged (ms ++ [])
    rw [List.append_nil, List.append_nil]

theorem Pumps.begins (h : Pumps slot lsn0 s p l spilled ms ts blocks) {front back : List ReplMsg}
    (hw : s.wire = front ++ back) : slot.Begins s.txns (ms ++ front.filterMap ReplMsg.data) := by
  refine ⟨ts, blocks, ⟨s.queue, h.txns.symm⟩, h.sends, ?_⟩
  rw [h.wire, hw, List.filterMap_append, ← List.append_assoc]
  exact List.prefix_append _ _

/-- A message of the slot is short enough for a frame. -/
theorem Pumps.fits (h : Pumps slot lsn0 s p l spilled ms ts blocks) {e : PumpEvent}
    {wire : List ReplMsg} (hw : s.wire = e.taken ++ wire) : e.Fits := by
  match e with
  | .message (some (.xLogData walStart payload)) =>
    have hmem : (walStart, payload) ∈ blocks.flatten := by
      rw [h.wire, hw]
      exact List.mem_append_right _ (List.mem_filterMap.mpr ⟨_, List.mem_cons_self, rfl⟩)
    exact Slot.fits_flatten h.sends _ hmem
  | .message (some (.keepalive _ _)) | .message none | .changed _ | .tick => exact trivial

/-- What a pump leaves behind, wherever in a round it stops. -/
theorem left_of_seen (ha : slot.Ascending lsn0 s.txns) (hb : slot.Begins s.txns ms)
    (hseen : Pump.SeenIn start stream fs (logged ms) t) (hstart : start ≤ reach lsn0 fs)
    (hconfirmed : s.confirmed ≤ reach lsn0 fs) (hd : t.log.dir.CrashImage d) :
    Left slot lsn0 s d t.sent := by
  obtain ⟨l, hshows⟩ := hseen
  obtain ⟨L, hrec, hflat, hkept, hdurable, hframes⟩ := hshows.shows.crash_frames hd
  have hall : d.frames <+: logged ms := hframes.trans hshows.within.frames
  have hl : l.durableFrames <+: logged ms := (hkept.trans hdurable).trans hall
  have hlo := hb.reach_mono ha hshows.within.durable hl
  have hhi := hb.reach_mono ha hkept (hdurable.trans hall)
  obtain ⟨ms', hms', hlogged⟩ := exists_logged hall
  refine ⟨⟨L, ms', hrec, hflat, hlogged, hb.of_isPrefix hms'⟩, hdurable,
    hconfirmed.trans (hlo.trans hhi), fun st hst => ?_⟩
  exact (hb.backed_le ha hl (hshows.backed st hst) (hstart.trans hlo)).trans hhi

theorem Pumps.isPrefix (h : Pumps slot lsn0 s p l spilled ms ts blocks) :
    l.durableFrames <+: logged ms := by
  rw [← h.frames]
  exact l.durableFrames_isPrefix.trans (List.prefix_append _ _)

/-- What a pump leaves behind between two rounds. -/
theorem Pumps.left (h : Pumps slot lsn0 s p l spilled ms ts blocks)
    (ha : slot.Ascending lsn0 s.txns) (hd : p.log.dir.CrashImage d) : Left slot lsn0 s d p.sent := by
  have hb : slot.Begins s.txns ms := by simpa using h.begins (List.nil_append _).symm
  have hin : l.Within l.durableFrames (logged ms) :=
    ⟨List.prefix_rfl, h.frames ▸ List.prefix_append _ _⟩
  exact left_of_seen ha hb ⟨l, h.rep.seen hin⟩ h.startLsn h.confirmed hd

/-- What a pump leaves behind in the middle of a round. -/
theorem Pumps.left_inside (h : Pumps slot lsn0 s p l spilled ms ts blocks)
    (ha : slot.Ascending lsn0 s.txns) {e : PumpEvent} {wire : List ReplMsg}
    (hw : s.wire = e.taken ++ wire) (ht : t ∈ (Pump.round e).passes p)
    (hd : t.log.dir.CrashImage d) : Left slot lsn0 s d t.sent := by
  have hseen := (Pump.round_step h.rep (h.fits hw)).1 t ht
  rw [h.rep.log.nextSeq, frames_taken e h.frames] at hseen
  exact left_of_seen ha (h.begins hw) hseen h.startLsn h.confirmed hd

/-- A round moves the data that it takes from the wire to the log. -/
theorem Pumps.round (h : Pumps slot lsn0 s p l spilled ms ts blocks)
    (ha : slot.Ascending lsn0 s.txns) {e : PumpEvent} {wire : List ReplMsg}
    (hw : s.wire = e.taken ++ wire) {go : Bool} (hr : (Pump.round e).outcome p = some (go, p')) :
    ∃ l' spilled', Pumps slot lsn0 { s with wire := wire } p' l' spilled'
      (ms ++ e.taken.filterMap ReplMsg.data) ts blocks := by
  obtain ⟨l', spilled', hm⟩ := (Pump.round_step h.rep (h.fits hw)).2 go p' hr
  have hframes : l'.frames ++ spilled' = logged (ms ++ e.taken.filterMap ReplMsg.data) := by
    rw [hm.frames, h.rep.log.nextSeq, frames_taken e h.frames]
  have hall : l'.durableFrames <+: logged (ms ++ e.taken.filterMap ReplMsg.data) := by
    rw [← hframes]
    exact l'.durableFrames_isPrefix.trans (List.prefix_append _ _)
  have hreach := (h.begins hw).reach_mono ha hm.grows.durable hall
  refine ⟨l', spilled', hm.rep, hframes, h.txns, h.sends, ?_, ?_, h.confirmed.trans hreach⟩
  · rw [h.wire, hw, List.filterMap_append, List.append_assoc]
  · rw [hm.startLsn]
    exact h.startLsn.trans hreach

/-- The last status changes neither the log nor what is on the wire. -/
theorem Pumps.close (h : Pumps slot lsn0 s p l spilled ms ts blocks)
    (hc : Pump.close.outcome p = some ((), p')) :
    Pumps slot lsn0 s p' l spilled ms ts blocks := by
  have hin : l.Within l.durableFrames l.frames := ⟨List.prefix_rfl, List.prefix_rfl⟩
  have hanswers := (Pump.close_spec h.rep hin).of_outcome hc
  exact ⟨hanswers.rep h.rep, h.frames, h.txns, h.sends, h.wire, hanswers.startLsn ▸ h.startLsn,
    h.confirmed⟩

/-- A session that starts from the resumed mark goes on behind it. -/
theorem Left.restart {sent : List StandbyStatus} {segmentMaxBytes : Nat} {disk : Disk}
    {log : FrameLog} (h : Left slot lsn0 s d sent) (ha : slot.Ascending lsn0 s.txns)
    (hlow : lsn0 ≤ s.confirmed)
    (hr : (FrameLog.resume segmentMaxBytes).outcome (some d) = some (log, disk)) :
    ∃ l ms ts blocks, Pumps slot lsn0
      { s with
        queue := s.txns.filter fun t => decide (max log.durable.lsn s.confirmed < slot.position t)
        wire := [] }
      { log, startLsn := log.durable.lsn } l [] ms ts blocks ∧
        Pump.AtLast { log, startLsn := log.durable.lsn } l := by
  obtain ⟨L, ms, hrec, hflat, hlogged, ts, blocks, hts, hsends, hpre⟩ := h.files
  have hb : slot.Begins s.txns ms := ⟨ts, blocks, hts, hsends, hpre⟩
  obtain ⟨-, hres⟩ := (resume_spec hrec _).of_outcome hr
  obtain ⟨l, hrep, hframes, hdurable⟩ := hres.frames
  have hms : committed L.flatten = logged (blocks.take (ms.countP Data.isCommit)).flatten := by
    rw [hflat, hlogged, committed_logged, (Slot.endsMarked hsends).uptoLast_eq hpre]
  have hreach : reach lsn0 l.durableFrames = reach lsn0 d.frames := by
    rw [hdurable, hflat, reach, lastCommit_committed, ← reach]
  have hconfirmed : s.confirmed ≤ reach lsn0 d.frames := by
    refine h.confirmed.trans (hb.reach_mono ha h.durable ?_)
    rw [hlogged]
  -- without a commit the mark is zero, and the slot is still where it was at first
  have hmark : max log.durable.lsn s.confirmed = reach lsn0 d.frames := by
    rw [hres.durable, hflat]
    rw [reach] at hconfirmed ⊢
    cases hlast : lastCommit d.frames with
    | none =>
      rw [hlast] at hconfirmed
      show max 0 s.confirmed = lsn0
      rw [Nat.zero_max]
      exact Nat.le_antisymm hconfirmed hlow
    | some q =>
      rw [hlast] at hconfirmed
      exact Nat.max_eq_left hconfirmed
  have hposition : reach lsn0 d.frames
      = ((ts.take (ms.countP Data.isCommit)).map slot.position).getLastD lsn0 := by
    rw [hlogged, reach_logged, Slot.ends_of_isPrefix hsends hpre]
  obtain ⟨back, hback⟩ := (List.take_prefix (ms.countP Data.isCommit) ts).trans hts
  refine ⟨l, _, ts.take (ms.countP Data.isCommit), _, ⟨⟨hrep, fun st hst => ?_⟩,
    (List.append_nil _).trans (hframes.trans hms), ?_, List.forall₂_take _ hsends,
    (List.append_nil _).symm, ?_, ?_⟩, ?_⟩
  · exact absurd hst List.not_mem_nil
  · show s.txns = _ ++ s.txns.filter _
    rw [hmark, hposition, ← hback, filter_above (hback ▸ ha.1) (hback ▸ ha.2)]
  · rw [hreach, ← hmark]
    exact Nat.le_max_left _ _
  · rw [hreach, ← hmark]
    exact Nat.le_max_right _ _
  · show log.durable = _
    rw [hres.durable, hframes, lastCommit_committed]

/-! ## Runs -/

theorem Start.inv (h : s.Start lsn0) : Inv slot lsn0 s := by
  obtain ⟨segmentMaxBytes, disk, disk', log, hcreate, rfl⟩ := h
  have hrep : Log.Rep log .empty [] := (create_spec segmentMaxBytes disk).of_outcome hcreate
  refine ⟨⟨.nil, fun t ht => absurd ht List.not_mem_nil⟩, Nat.le_refl lsn0, .empty, [], [], [], [],
    ⟨hrep, fun st hst => absurd hst List.not_mem_nil⟩, rfl, rfl, .nil, rfl, ?_, ?_⟩
  · exact Nat.le_refl lsn0
  · exact Nat.le_refl lsn0

/-- The parts of the invariant that depend on who holds the log. -/
theorem Inv.running (h : Inv slot lsn0 s) (hp : s.holder = .running p) :
    ∃ l spilled ms ts blocks, Pumps slot lsn0 s p l spilled ms ts blocks := by
  have hheld := h.held
  rwa [hp] at hheld

theorem Inv.stopped (h : Inv slot lsn0 s) {sent : List StandbyStatus}
    (hp : s.holder = .stopped d sent) : Left slot lsn0 s d sent := by
  have hheld := h.held
  rwa [hp] at hheld

/-- A status that the slot has taken is backed by what is durable. -/
theorem Inv.confirm (h : Inv slot lsn0 s) {st : StandbyStatus} (hst : st ∈ s.holder.sent) :
    Inv slot lsn0 { s with confirmed := max s.confirmed st.lsn } := by
  refine ⟨h.ascending, h.low.trans (Nat.le_max_left _ _), ?_⟩
  have hheld := h.held
  show Held slot lsn0 _ s.holder
  cases hp : s.holder with
  | running p =>
    rw [hp] at hheld hst
    obtain ⟨l, spilled, ms, ts, blocks, hpumps⟩ := hheld
    have hb : slot.Begins s.txns ms := by simpa using hpumps.begins (List.nil_append _).symm
    refine ⟨l, spilled, ms, ts, blocks, { hpumps with confirmed := Nat.max_le.mpr ⟨?_, ?_⟩ }⟩
    · exact hpumps.confirmed
    · exact hb.backed_le h.ascending hpumps.isPrefix (hpumps.rep.backed st hst) hpumps.startLsn
  | stopped d sent =>
    rw [hp] at hheld hst
    exact ⟨hheld.files, hheld.durable, Nat.max_le.mpr ⟨hheld.confirmed, hheld.sent st hst⟩,
      hheld.sent⟩

theorem Inv.commit (h : Inv slot lsn0 s) {t : T} (hlow : lsn0 < slot.position t)
    (hnew : ∀ x ∈ s.txns, slot.position x < slot.position t) :
    Inv slot lsn0 { s with txns := s.txns ++ [t], queue := s.queue ++ [t] } := by
  refine ⟨h.ascending.concat hlow hnew, h.low, ?_⟩
  have hheld := h.held
  show Held slot lsn0 _ s.holder
  cases hp : s.holder with
  | running p =>
    rw [hp] at hheld
    obtain ⟨l, spilled, ms, ts, blocks, hpumps⟩ := hheld
    refine ⟨l, spilled, ms, ts, blocks, { hpumps with txns := ?_ }⟩
    show s.txns ++ [t] = ts ++ (s.queue ++ [t])
    rw [hpumps.txns, List.append_assoc]
  | stopped d sent =>
    rw [hp] at hheld
    obtain ⟨L, ms, hrec, hflat, hlogged, hb⟩ := hheld.files
    exact { hheld with files := ⟨L, ms, hrec, hflat, hlogged, hb.mono (List.prefix_append _ _)⟩ }

/-- Only what the slot sends and has not sent matters, and the data on the wire. -/
theorem Inv.sending (h : Inv slot lsn0 s) {queue : List T} {wire : List ReplMsg}
    {sent : List T} {new : List (List Data)} (hsends : List.Forall₂ slot.Sends sent new)
    (hq : s.queue = sent ++ queue)
    (hw : wire.filterMap ReplMsg.data = s.wire.filterMap ReplMsg.data ++ new.flatten) :
    Inv slot lsn0 { s with queue := queue, wire := wire } := by
  refine ⟨h.ascending, h.low, ?_⟩
  have hheld := h.held
  show Held slot lsn0 _ s.holder
  cases hp : s.holder with
  | running p =>
    rw [hp] at hheld
    obtain ⟨l, spilled, ms, ts, blocks, hpumps⟩ := hheld
    refine ⟨l, spilled, ms, ts ++ sent, blocks ++ new, { hpumps with
      txns := ?_, sends := List.rel_append hpumps.sends hsends, wire := ?_ }⟩
    · show s.txns = _
      rw [hpumps.txns, hq, List.append_assoc]
    · show _ = ms ++ wire.filterMap ReplMsg.data
      rw [List.flatten_append, hpumps.wire, hw, List.append_assoc]
  | stopped d left =>
    rw [hp] at hheld
    exact { hheld with }

theorem Inv.step (h : Inv slot lsn0 s) (hstep : Step slot lsn0 s s') : Inv slot lsn0 s' := by
  cases hstep with
  | commit hlow hnew => exact h.commit hlow hnew
  | send hq hsends =>
    rename_i t queue ms
    have hone : List.Forall₂ slot.Sends [t] [ms] := .cons hsends .nil
    refine h.sending hone hq ?_
    rw [List.filterMap_append, List.filterMap_map, List.flatten_singleton]
    congr 1
    exact List.filterMap_some
  | keepalive walEnd replyRequested hw =>
    have hnone : List.Forall₂ slot.Sends [] [] := .nil
    refine h.sending hnone rfl ?_
    rw [hw, List.filterMap_append, List.filterMap_append, List.flatten_nil, List.append_nil]
    rfl
  | confirm hst => exact h.confirm hst
  | round hp hw hr =>
    obtain ⟨l, spilled, ms, ts, blocks, hpumps⟩ := h.running hp
    obtain ⟨l', spilled', hpumps'⟩ := hpumps.round h.ascending hw hr
    exact ⟨h.ascending, h.low, l', spilled', _, ts, blocks, { hpumps' with }⟩
  | leave hp hw hr hc hd =>
    obtain ⟨l, spilled, ms, ts, blocks, hpumps⟩ := h.running hp
    obtain ⟨l', spilled', hpumps'⟩ := hpumps.round h.ascending hw hr
    have hleft := (hpumps'.close hc).left h.ascending hd
    exact ⟨h.ascending, h.low, { hleft with }⟩
  | crash hp hd =>
    obtain ⟨l, spilled, ms, ts, blocks, hpumps⟩ := h.running hp
    exact ⟨h.ascending, h.low, { hpumps.left h.ascending hd with }⟩
  | crashInside hp hw ht hd =>
    obtain ⟨l, spilled, ms, ts, blocks, hpumps⟩ := h.running hp
    exact ⟨h.ascending, h.low, { hpumps.left_inside h.ascending hw ht hd with }⟩
  | restart hp hr =>
    obtain ⟨l, ms, ts, blocks, hpumps, -⟩ := (h.stopped hp).restart h.ascending h.low hr
    exact ⟨h.ascending, h.low, l, [], ms, ts, blocks, { hpumps with }⟩

theorem Reachable.inv (h : Reachable slot lsn0 s) : Inv slot lsn0 s := by
  induction h with
  | start h => exact h.inv
  | step _ h ih => exact ih.step h

/-- The files of the log, whoever holds it. -/
theorem Inv.files (h : Inv slot lsn0 s) : ∃ ms, slot.Begins s.txns ms ∧
    s.holder.dir.frames <+: logged ms ∧ s.holder.dir.durableFrames <+: logged ms ∧
    s.confirmed ≤ reach lsn0 s.holder.dir.durableFrames := by
  have hheld := h.held
  cases hp : s.holder with
  | running p =>
    rw [hp] at hheld
    obtain ⟨l, spilled, ms, ts, blocks, hpumps⟩ := hheld
    obtain ⟨hframes, hdurable⟩ := hpumps.rep.log.toShows.dir_frames
    refine ⟨ms, by simpa using hpumps.begins (List.nil_append _).symm, ?_, ?_, ?_⟩
    · show p.log.dir.frames <+: _
      rw [hframes, ← hpumps.frames]
      exact List.prefix_append _ _
    · show p.log.dir.durableFrames <+: _
      rw [hdurable]
      exact hpumps.isPrefix
    · show _ ≤ reach lsn0 p.log.dir.durableFrames
      rw [hdurable]
      exact hpumps.confirmed
  | stopped d sent =>
    rw [hp] at hheld
    obtain ⟨L, ms, -, -, hlogged, hb⟩ := hheld.files
    refine ⟨ms, hb, ?_, ?_, hheld.confirmed⟩
    · exact hlogged ▸ List.prefix_rfl
    · exact hlogged ▸ hheld.durable

theorem Reachable.rounds {es : List PumpEvent} {wire : List ReplMsg} (hs : Reachable slot lsn0 s)
    (hp : s.holder = .running p) (hw : s.wire = es.flatMap PumpEvent.taken ++ wire)
    (h : Pump.rounds es p = some p') :
    Reachable slot lsn0 { s with wire := wire, holder := .running p' } := by
  induction es generalizing s p with
  | nil =>
    obtain rfl : p = p' := by simpa [Pump.rounds] using h
    rw [← hp]
    obtain rfl : s.wire = wire := hw
    exact hs
  | cons e es ih =>
    rw [Pump.rounds, List.foldlM_cons] at h
    obtain ⟨q, hq, hrest⟩ := Option.bind_eq_some_iff.mp h
    obtain ⟨⟨go, q'⟩, hout, hgo⟩ := Option.bind_eq_some_iff.mp hq
    cases go with
    | false => exact absurd hgo (by simp)
    | true =>
      obtain rfl : q' = q := by simpa using hgo
      rw [List.flatMap_cons, List.append_assoc] at hw
      have hall := ih (hs.step (.round hp hw hout)) rfl rfl hrest
      exact hall

end Custody

end GrayDB.Ingest
