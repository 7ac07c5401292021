import GrayDB.Ingest.Commits
import GrayDB.Ingest.Framing
import GrayDB.Log.Runs

/-!
# The pump

`run_pump` moves the replication stream into the frame log and answers with status updates.
Each round of its loop takes what comes first: a command of the controller, a message of the
source, or a tick.

A round is a program over the pump.  Its log is a part of the pump, each call on it and each
status is an I/O call, and each store to a metric is seen at once by the other tasks.

* `SeenIn` is what the others can see in the middle of a round, also when the process stops
  there: the log between two lists of frames, and no status above the durable commits but the
  start.
* `round_spec` says what one round does.  It appends the frame of a message behind those that
  the log has or holds back, and promises nothing that is not durable.
-/

namespace GrayDB.Ingest

open Lib Lib.Crash Log

structure PumpCommand where
  /-- Rung 3: divert frames to staging, freeze the durable mark. -/
  stalled : Bool := false
  shutdown : Bool := false
  deriving DecidableEq, Repr

structure IngestMetrics where
  frames : Nat := 0
  commits : Nat := 0
  spilledFrames : Nat := 0
  durableLsn : Nat := 0
  ackedLsn : Nat := 0
  /-- Highest source WAL position that this session has seen.  Not a durability claim. -/
  streamLsn : Nat := 0
  deriving DecidableEq, Repr

/-- One message of a transaction: its position and its payload. -/
abbrev Data := UInt64 × Bytes

/-- A Standby Status Update. -/
structure StandbyStatus where
  lsn : Nat
  requestReply : Bool
  deriving DecidableEq, Repr

/-- The variables of `run_pump`, and what it has sent, oldest first. -/
structure Pump where
  log : FrameLog
  startLsn : Nat
  metrics : IngestMetrics := {}
  sent : List StandbyStatus := []
  deriving DecidableEq, Repr

/-- `lost` is an error of the connection. -/
inductive PumpError where
  | log (e : LogError)
  | lost
  deriving DecidableEq, Repr

abbrev PumpM := IoM PumpError Pump

/-- What `select!` comes back with.  Without a command the controller is gone, and without a
message the connection. -/
inductive PumpEvent where
  | changed (cmd : Option PumpCommand)
  | message (msg : Option ReplMsg)
  | tick
  deriving DecidableEq, Repr

/-- The data of a message. -/
def ReplMsg.data : ReplMsg → Option Data
  | .xLogData walStart payload => some (walStart, payload)
  | .keepalive _ _ => none

/-- The source position that a message carries. -/
def ReplMsg.position : ReplMsg → Nat
  | .xLogData walStart payload => ((commitEndLsn payload).getD walStart).toNat
  | .keepalive walEnd _ => walEnd.toNat

namespace PumpEvent

/-- What the event takes off the wire. -/
def taken : PumpEvent → List ReplMsg
  | .message (some msg) => [msg]
  | _ => []

/-- The frames that the event adds to the log. -/
def frames (seq : Nat) : PumpEvent → List Frame
  | .message (some (.xLogData walStart payload)) => [taskFrame commitEndLsn seq walStart payload]
  | _ => []

def position : PumpEvent → Nat
  | .message (some msg) => msg.position
  | _ => 0

/-- The payload is shorter than `2^32` bytes. -/
def Fits : PumpEvent → Prop
  | .message (some (.xLogData _ payload)) => payload.length < 2 ^ 32
  | _ => True

end PumpEvent

namespace Pump

/-! ## The rounds -/

section Rounds

variable [Crc32c]

def onLog {α : Type} (m : LogM α) : PumpM α :=
  IoM.zoom Pump.log (fun log p => { p with log }) .log m

def sendStandbyStatus (lsn : Nat) (requestReply : Bool) : PumpM Unit :=
  IoM.call .lost (fun p => { p with sent := p.sent ++ [{ lsn, requestReply }] }) fun _ p => p

/-- A store to the metrics, which the other tasks load. -/
def store (f : IngestMetrics → IngestMetrics) : PumpM Unit :=
  IoM.publish fun p => { p with metrics := f p.metrics }

/-- The pump has seen the source up to this position. -/
def raised (p : Pump) (lsn : Nat) : Pump :=
  { p with metrics := { p.metrics with streamLsn := max p.metrics.streamLsn lsn } }

/-- An `if` without an `else`. -/
def onlyIf (c : Bool) (m : PumpM Unit) : PumpM Unit := if c then m else pure ()

/-- Before anything is durable, a status may only restate the start position. -/
def ackLsn (p : Pump) : Nat := if p.log.durable.valid then p.log.durable.lsn else p.startLsn

def onCommand (cmd : PumpCommand) : PumpM Bool := do
  if cmd.shutdown then
    pure false
  else
    onLog (FrameLog.setStalled cmd.stalled)
    let p ← IoM.get
    -- resumed: the staging is drained, so the recovered mark is acknowledged now
    onlyIf (!cmd.stalled && p.log.durable.valid) do
      sendStandbyStatus p.log.durable.lsn false
      store fun m => { m with ackedLsn := p.log.durable.lsn }
    pure true

def onXLogData (walStart : UInt64) (payload : Bytes) : PumpM Unit := do
  let fin := commitEndLsn payload
  let lsnEnd := fin.getD walStart
  store fun m => { m with streamLsn := max m.streamLsn lsnEnd.toNat }
  let _ ← onLog (FrameLog.append walStart lsnEnd fin.isSome payload)
  store fun m => { m with frames := m.frames + 1 }
  onlyIf fin.isSome (store fun m => { m with commits := m.commits + 1 })
  let p ← IoM.get
  store fun m => { m with spilledFrames := p.log.spilledFrames }
  onlyIf p.log.durable.valid (store fun m => { m with durableLsn := p.log.durable.lsn })
  -- a commit that is durable is acknowledged promptly, never while stalled
  onlyIf (fin.isSome && !p.log.stalled && p.log.durable.valid &&
      decide (p.metrics.ackedLsn < p.log.durable.lsn)) do
    sendStandbyStatus p.log.durable.lsn false
    store fun m => { m with ackedLsn := p.log.durable.lsn }

def onKeepalive (walEnd : UInt64) (replyRequested : Bool) : PumpM Unit := do
  store fun m => { m with streamLsn := max m.streamLsn walEnd.toNat }
  onlyIf replyRequested do
    let p ← IoM.get
    sendStandbyStatus p.ackLsn false

def onTick : PumpM Unit := do
  let p ← IoM.get
  onlyIf (!p.log.stalled) do
    sendStandbyStatus p.ackLsn true
    onlyIf p.log.durable.valid (store fun m => { m with ackedLsn := p.log.durable.lsn })

/-- One round of the loop.  It goes on unless `false` comes back. -/
def round : PumpEvent → PumpM Bool
  | .changed none => pure false
  | .changed (some cmd) => onCommand cmd
  | .message none => IoM.throw .lost
  | .message (some (.xLogData walStart payload)) => do
    onXLogData walStart payload
    pure true
  | .message (some (.keepalive walEnd replyRequested)) => do
    onKeepalive walEnd replyRequested
    pure true
  | .tick => do
    onTick
    pure true

/-- Rounds after which the loop goes on, one after the other. -/
def rounds (es : List PumpEvent) (p : Pump) : Option Pump :=
  es.foldlM (fun p e => ((round e).outcome p).bind fun r => if r.1 then some r.2 else none) p

/-- Behind the loop: a last status, whatever comes of it. -/
def close : PumpM Unit := do
  let p ← IoM.get
  onlyIf p.log.durable.valid (IoM.attempt (sendStandbyStatus p.log.durable.lsn false))

end Rounds

/-! ## What a round keeps -/

section Specs

variable [Crc32c] {start stream : Nat} {lo hi : List Frame} {p t : Pump} {l : Layout}
  {spilled : List Frame}

/-- A status is at the start, or at a commit that is durable. -/
def Backed (start : Nat) (fs : List Frame) (st : StandbyStatus) : Prop :=
  st.lsn = start ∨ ∃ seq, CommitAt fs seq st.lsn

/-- The files hold the layout, between `lo` and `hi`, and every status is backed by it. -/
structure Seen (start stream : Nat) (lo hi : List Frame) (p : Pump) (l : Layout) : Prop where
  shows : Shows p.log l
  within : l.Within lo hi
  startLsn : p.startLsn = start
  streamLsn : p.metrics.streamLsn = stream
  backed : ∀ st ∈ p.sent, Backed start l.durableFrames st

/-- What the others see of a pump in the middle of a round. -/
def SeenIn (start stream : Nat) (lo hi : List Frame) (p : Pump) : Prop :=
  ∃ l, Seen start stream lo hi p l

/-- A pump between two rounds. -/
structure Rep (p : Pump) (l : Layout) (spilled : List Frame) : Prop where
  log : Log.Rep p.log l spilled
  backed : ∀ st ∈ p.sent, Backed p.startLsn l.durableFrames st

omit [Crc32c] in
theorem Backed.mono {fs gs : List Frame} {st : StandbyStatus} (h : Backed start fs st)
    (hp : fs <+: gs) : Backed start gs st :=
  h.imp id fun ⟨seq, hc⟩ => ⟨seq, hc.mono hp⟩

theorem Seen.sendStandbyStatus (h : Seen start stream lo hi p l) {lsn : Nat} (requestReply : Bool)
    (hb : lsn = start ∨ ∃ seq, CommitAt l.durableFrames seq lsn) :
    Seen start stream lo hi { p with sent := p.sent ++ [{ lsn, requestReply }] } l := by
  refine ⟨h.shows, h.within, h.startLsn, h.streamLsn, fun st hst => ?_⟩
  rcases List.mem_append.mp hst with hst | hst
  · exact h.backed st hst
  · rw [List.mem_singleton.mp hst]
    exact hb

/-- The metrics, but for the stream position, do not matter. -/
theorem Seen.store (h : Seen start stream lo hi p l) {f : IngestMetrics → IngestMetrics}
    (hf : (f p.metrics).streamLsn = p.metrics.streamLsn) :
    Seen start stream lo hi { p with metrics := f p.metrics } l :=
  ⟨h.shows, h.within, h.startLsn, hf.trans h.streamLsn, h.backed⟩

/-- Nothing but the metrics and what is sent has changed. -/
structure Answers (p : Pump) (l : Layout) (t : Pump) : Prop where
  log : t.log = p.log
  startLsn : t.startLsn = p.startLsn
  streamLsn : t.metrics.streamLsn = p.metrics.streamLsn
  backed : ∀ st ∈ t.sent, Backed p.startLsn l.durableFrames st

theorem Answers.refl (h : p.Rep l spilled) : Answers p l p := ⟨rfl, rfl, rfl, h.backed⟩

theorem Answers.rep (h : p.Rep l spilled) (ha : Answers p l t) : t.Rep l spilled :=
  ⟨ha.log ▸ h.log, by rw [ha.startLsn]; exact ha.backed⟩

omit [Crc32c] in
theorem Answers.trans {u : Pump} (h : Answers p l t) (h' : Answers t l u) : Answers p l u := by
  refine ⟨h'.log.trans h.log, h'.startLsn.trans h.startLsn, h'.streamLsn.trans h.streamLsn, ?_⟩
  rw [← h.startLsn]
  exact h'.backed

/-- A pump between two rounds is seen as it is. -/
theorem Rep.seen (h : p.Rep l spilled) (hin : l.Within lo hi) :
    Seen p.startLsn p.metrics.streamLsn lo hi p l :=
  ⟨h.log.toShows, hin, rfl, rfl, h.backed⟩

theorem Rep.raised (h : p.Rep l spilled) (lsn : Nat) : (p.raised lsn).Rep l spilled :=
  ⟨h.log, h.backed⟩

/-- A valid mark backs a status. -/
theorem Rep.mark (h : p.Rep l spilled) (hv : p.log.durable.valid = true) :
    p.log.durable.lsn = p.startLsn ∨ ∃ seq, CommitAt l.durableFrames seq p.log.durable.lsn :=
  Or.inr ⟨_, h.log.mark hv⟩

theorem Rep.ackLsn (h : p.Rep l spilled) :
    p.ackLsn = p.startLsn ∨ ∃ seq, CommitAt l.durableFrames seq p.ackLsn := by
  unfold Pump.ackLsn
  split
  · rename_i hv
    exact h.mark hv
  · exact Or.inl rfl

/-- A call on the log. -/
theorem onLog_spec {α : Type} {m : LogM α} {Q : α → FrameLog → Prop} (h : p.Rep l spilled)
    (hm : Spec m p.log (ShownIn l.durableFrames hi) Q) :
    Spec (onLog m) p (SeenIn p.startLsn p.metrics.streamLsn l.durableFrames hi)
      fun a t => Q a t.log ∧ t = { p with log := t.log } := by
  refine Spec.zoom hm ?_ fun a t hq => ⟨hq, rfl⟩
  rintro t ⟨l', hshows, hin⟩
  exact ⟨l', hshows, hin, rfl, rfl, fun st hst => (h.backed st hst).mono hin.durable⟩

section Answering

variable (h : p.Rep l spilled) (hin : l.Within lo hi)

include h hin

theorem store_spec {f : IngestMetrics → IngestMetrics}
    (hf : (f p.metrics).streamLsn = p.metrics.streamLsn) :
    Spec (store f) p (SeenIn p.startLsn p.metrics.streamLsn lo hi) fun _ t => Answers p l t :=
  Spec.publish ⟨l, (h.seen hin).store hf⟩ ⟨rfl, rfl, hf, h.backed⟩

theorem send_spec {lsn : Nat} {requestReply : Bool}
    (hb : lsn = p.startLsn ∨ ∃ seq, CommitAt l.durableFrames seq lsn) :
    Spec (sendStandbyStatus lsn requestReply) p (SeenIn p.startLsn p.metrics.streamLsn lo hi)
      fun _ t => Answers p l t := by
  have hsent := (h.seen hin).sendStandbyStatus requestReply hb
  exact Spec.call ⟨l, hsent⟩ ⟨rfl, rfl, rfl, hsent.backed⟩

end Answering

/-- What follows an answer answers too. -/
theorem Answers.bind {m : PumpM Unit} {k : Unit → PumpM Unit}
    (hm : Spec m p (SeenIn p.startLsn p.metrics.streamLsn lo hi) fun _ t => Answers p l t)
    (hk : ∀ t, Answers p l t → Spec (k ()) t (SeenIn t.startLsn t.metrics.streamLsn lo hi)
      fun _ u => Answers t l u) :
    Spec (m >>= k) p (SeenIn p.startLsn p.metrics.streamLsn lo hi) fun _ u => Answers p l u := by
  refine Spec.bind hm fun _ t ht => ?_
  rw [← ht.startLsn, ← ht.streamLsn]
  exact (hk t ht).weaken fun _ u hu => ht.trans hu

theorem Answers.onlyIf {c : Bool} {m : PumpM Unit} (h : p.Rep l spilled)
    (hm : c = true →
      Spec m p (SeenIn p.startLsn p.metrics.streamLsn lo hi) fun _ t => Answers p l t) :
    Spec (onlyIf c m) p (SeenIn p.startLsn p.metrics.streamLsn lo hi) fun _ t => Answers p l t := by
  unfold Pump.onlyIf
  split
  · rename_i hc
    exact hm hc
  · exact Spec.pure (.refl h)

/-! ## One round -/

/-- The mark is at the last commit of the files. -/
def AtLast (p : Pump) (l : Layout) : Prop :=
  p.log.durable = ({} : DurableMark).after (lastCommit l.frames)

omit [Crc32c] in
theorem AtLast.append {l' : Layout} (h : p.AtLast l) {fs : List Frame}
    (hframes : l'.frames = l.frames ++ fs)
    (hmark : t.log.durable = p.log.durable.after (lastCommit fs)) : t.AtLast l' := by
  rw [AtLast, hmark, h, hframes, lastCommit_append]
  cases lastCommit fs with
  | none => rfl
  | some q => rfl

/-- What a round has done: the new frames are behind the others, in the files or in the
spill, and what was durable still is. -/
structure Moved (p : Pump) (l : Layout) (spilled new : List Frame) (stream : Nat) (t : Pump)
    (l' : Layout) (spilled' : List Frame) : Prop where
  rep : t.Rep l' spilled'
  startLsn : t.startLsn = p.startLsn
  streamLsn : t.metrics.streamLsn = stream
  grows : Grows l l'
  frames : l'.frames ++ spilled' = l.frames ++ spilled ++ new
  mark : p.AtLast l → t.AtLast l'

omit [Crc32c] in
theorem Answers.atLast (ha : Answers p l t) (h : p.AtLast l) : t.AtLast l := by
  rw [AtLast, ha.log]
  exact h

theorem Answers.moved (ha : Answers p l t) (h : p.Rep l spilled) :
    Moved p l spilled [] p.metrics.streamLsn t l spilled :=
  ⟨ha.rep h, ha.startLsn, ha.streamLsn, .refl l, (List.append_nil _).symm, ha.atLast⟩

theorem onCommand_spec (h : p.Rep l spilled) (cmd : PumpCommand) :
    Spec (onCommand cmd) p
      (SeenIn p.startLsn p.metrics.streamLsn l.durableFrames (l.frames ++ spilled))
      fun _ t => ∃ l' spilled', Moved p l spilled [] p.metrics.streamLsn t l' spilled' := by
  unfold onCommand
  split
  · exact Spec.pure ⟨l, spilled, (Answers.refl h).moved h⟩
  · refine Spec.bind (onLog_spec h (FrameLog.setStalled_within h.log cmd.stalled)) ?_
    rintro _ t ⟨⟨l', spilled', hlog, -, hgrows, hframes, hstalled⟩, ht⟩
    have hrep : t.Rep l' spilled' := by
      refine ⟨hlog, fun st hst => ?_⟩
      rw [ht] at hst ⊢
      exact (h.backed st hst).mono hgrows.durable
    have hin : l'.Within l.durableFrames (l.frames ++ spilled) :=
      ⟨hgrows.durable, hframes ▸ List.prefix_append _ _⟩
    have hstart : t.startLsn = p.startLsn := by rw [ht]
    have hstream : t.metrics.streamLsn = p.metrics.streamLsn := by rw [ht]
    have hmark : p.AtLast l → t.AtLast l' := by
      intro hlast
      split at hstalled
      · obtain ⟨rfl, hdurable⟩ := hstalled
        exact hdurable.trans hlast
      · obtain ⟨rfl, hdurable⟩ := hstalled
        exact hlast.append (by rw [← hframes, List.append_nil]) hdurable
    refine Spec.bind_get ?_
    rw [← hstart, ← hstream]
    refine Spec.bind (Q := fun _ u => Answers t l' u) (Answers.onlyIf hrep fun hc => ?_) ?_
    · exact Answers.bind (send_spec hrep hin (hrep.mark (Bool.and_eq_true_iff.mp hc).2))
        fun u hu => store_spec (hu.rep hrep) hin rfl
    · intro _ u hu
      exact Spec.pure ⟨l', spilled', hu.rep hrep, hu.startLsn.trans hstart, hu.streamLsn, hgrows,
        by rw [List.append_nil, hframes], fun hlast => hu.atLast (hmark hlast)⟩

theorem onTick_spec (h : p.Rep l spilled) (hin : l.Within lo hi) :
    Spec onTick p (SeenIn p.startLsn p.metrics.streamLsn lo hi) fun _ t => Answers p l t := by
  refine Spec.bind_get ?_
  refine Answers.onlyIf h fun _ => ?_
  refine Answers.bind (send_spec h hin h.ackLsn) fun t ht => ?_
  exact Answers.onlyIf (ht.rep h) fun _ => store_spec (ht.rep h) hin rfl

theorem close_spec (h : p.Rep l spilled) (hin : l.Within lo hi) :
    Spec close p (SeenIn p.startLsn p.metrics.streamLsn lo hi) fun _ t => Answers p l t :=
  Spec.bind_get (Answers.onlyIf h fun hv => Spec.attempt (send_spec h hin (h.mark hv)))

theorem onKeepalive_spec (h : p.Rep l spilled) (hin : l.Within lo hi) (walEnd : UInt64)
    (replyRequested : Bool) :
    Spec (onKeepalive walEnd replyRequested) p
      (SeenIn p.startLsn (max p.metrics.streamLsn walEnd.toNat) lo hi)
      fun _ t => Moved p l spilled [] (max p.metrics.streamLsn walEnd.toNat) t l spilled := by
  have hrep := h.raised walEnd.toNat
  refine Spec.bind_publish ⟨l, hrep.seen hin⟩ ?_
  refine Spec.weaken (Answers.onlyIf hrep fun _ => Spec.bind_get ?_) fun _ t ht =>
    ⟨ht.rep hrep, ht.startLsn, ht.streamLsn, .refl l, (List.append_nil _).symm, ht.atLast⟩
  exact send_spec hrep hin hrep.ackLsn

theorem onXLogData_spec (h : p.Rep l spilled) {walStart : UInt64} {payload : Bytes}
    (hroom : p.log.nextSeq + 1 < 2 ^ 64) (hp : payload.length < 2 ^ 32) :
    let f := taskFrame commitEndLsn p.log.nextSeq walStart payload
    Spec (onXLogData walStart payload) p
      (SeenIn p.startLsn (max p.metrics.streamLsn f.lsnEnd) l.durableFrames
        (l.frames ++ spilled ++ [f]))
      fun _ t => ∃ l' spilled',
        Moved p l spilled [f] (max p.metrics.streamLsn f.lsnEnd) t l' spilled' := by
  intro f
  have hrep := h.raised f.lsnEnd
  refine Spec.bind_publish ⟨l, hrep.seen (h.log.within f).1⟩ ?_
  refine Spec.bind (onLog_spec hrep (FrameLog.append_within h.log hroom hp)) ?_
  rintro _ t ⟨⟨-, l', spilled', hlog, hadded, hdurable⟩, ht⟩
  have hput : l'.frames ++ spilled' = l.frames ++ spilled ++ [f] ∧ (p.AtLast l → t.AtLast l') := by
    obtain ⟨-, -, hadded⟩ := hadded
    split at hadded
    · obtain ⟨rfl, rfl, hsame⟩ := hadded
      exact ⟨(List.append_assoc _ _ _).symm, fun hlast => hsame.trans hlast⟩
    · rename_i hst
      obtain ⟨hl', rfl⟩ := hadded
      have hst := Bool.eq_false_iff.mpr hst
      rw [h.log.unstalled hst, List.append_nil, List.append_nil]
      exact ⟨hl', fun hlast => hlast.append hl' (hdurable hst)⟩
  obtain ⟨hframes, hmark⟩ := hput
  have hgrows : Grows l l' := hadded.2.1
  have hrep' : t.Rep l' spilled' := by
    refine ⟨hlog, fun st hst => ?_⟩
    rw [ht] at hst ⊢
    exact (h.backed st hst).mono hgrows.durable
  have hin : l'.Within l.durableFrames (l.frames ++ spilled ++ [f]) :=
    ⟨hgrows.durable, hframes ▸ List.prefix_append _ _⟩
  have hstart : t.startLsn = p.startLsn := by rw [ht]
  have hstream : t.metrics.streamLsn = max p.metrics.streamLsn f.lsnEnd := by
    rw [ht]
    rfl
  rw [← hstart, ← hstream]
  refine Spec.weaken (Q := fun _ u => Answers t l' u) ?_ fun _ u hu =>
    ⟨l', spilled', hu.rep hrep', hu.startLsn.trans hstart, hu.streamLsn, hgrows, hframes,
      fun hlast => hu.atLast (hmark hlast)⟩
  refine Answers.bind (store_spec hrep' hin rfl) fun t₁ h₁ => ?_
  have hrep₁ := h₁.rep hrep'
  refine Answers.bind ?_ fun t₂ h₂ => ?_
  · refine Answers.onlyIf hrep₁ fun _ => ?_
    exact store_spec hrep₁ hin rfl
  have hrep₂ := h₂.rep hrep₁
  refine Spec.bind_get ?_
  refine Answers.bind (store_spec hrep₂ hin rfl) fun t₃ h₃ => ?_
  have hrep₃ := h₃.rep hrep₂
  refine Answers.bind ?_ fun t₄ h₄ => ?_
  · refine Answers.onlyIf hrep₃ fun _ => ?_
    exact store_spec hrep₃ hin rfl
  have hrep₄ := h₄.rep hrep₃
  have hlog₄ : t₄.log = t₂.log := h₄.log.trans h₃.log
  refine Answers.onlyIf hrep₄ fun hc => ?_
  rw [Bool.and_eq_true, Bool.and_eq_true] at hc
  have hb : t₂.log.durable.lsn = t₄.startLsn ∨
      ∃ seq, CommitAt l'.durableFrames seq t₂.log.durable.lsn := by
    rw [← hlog₄]
    exact hrep₄.mark (by rw [hlog₄]; exact hc.1.2)
  refine Answers.bind (send_spec hrep₄ hin hb) fun t₅ h₅ => ?_
  exact store_spec (h₅.rep hrep₄) hin rfl

/-- What a round shows on its way, and where it ends. -/
def Advances (p : Pump) (l : Layout) (spilled new : List Frame) (stream : Nat) (m : PumpM Bool) :
    Prop :=
  (∀ t ∈ m.passes p, SeenIn p.startLsn stream l.durableFrames (l.frames ++ spilled ++ new) t) ∧
    ∀ go t, m.outcome p = some (go, t) →
      ∃ l' spilled', Moved p l spilled new stream t l' spilled'

theorem Advances.of_spec {new : List Frame} {m : PumpM Bool}
    (hm : Spec m p (SeenIn p.startLsn stream l.durableFrames (l.frames ++ spilled ++ new))
      fun _ t => ∃ l' spilled', Moved p l spilled new stream t l' spilled') :
    Advances p l spilled new stream m := by
  obtain ⟨_, _, -, -, hpasses⟩ := hm.exec
  exact ⟨hpasses, fun go t hout => hm.of_outcome hout⟩

theorem Advances.of_error {new : List Frame} {m : PumpM Bool} {e : PumpError} {r : Flight Pump}
    (hm : m.exec p = (.error e, r)) (hseen : ∀ t ∈ r.seen,
      SeenIn p.startLsn stream l.durableFrames (l.frames ++ spilled ++ new) t) :
    Advances p l spilled new stream m := by
  refine ⟨fun t ht => hseen t ?_, fun go t hout => ?_⟩
  · rwa [IoM.passes, hm] at ht
  · unfold IoM.outcome at hout
    rw [hm] at hout
    cases hout

/-- Without a number for the frame, the pump panics behind its first store. -/
theorem onXLogData_no_room (walStart : UInt64) (payload : Bytes)
    (hroom : ¬ p.log.nextSeq + 1 < 2 ^ 64) :
    (onXLogData walStart payload).exec p = (.error (.log .overflow),
      ⟨p.raised ((commitEndLsn payload).getD walStart).toNat, [],
        [p.raised ((commitEndLsn payload).getD walStart).toNat]⟩) := by
  generalize ht : p.raised ((commitEndLsn payload).getD walStart).toNat = t
  have htake : (FrameLog.takeSeq (commitEndLsn payload).isSome).exec p.log
      = (.error .overflow, ⟨p.log, [], []⟩) := by
    show (if _ then _ else _ : LogM Nat) _ = _
    rw [if_neg hroom]
    rfl
  have happend : (FrameLog.append walStart ((commitEndLsn payload).getD walStart)
      (commitEndLsn payload).isSome payload) ⟨p.log, [], []⟩
        = (.error .overflow, ⟨p.log, [], []⟩) :=
    IoM.exec_bind_error htake
  have hlog : onLog (FrameLog.append walStart ((commitEndLsn payload).getD walStart)
      (commitEndLsn payload).isSome payload) ⟨t, [], [t]⟩
        = (.error (.log .overflow), ⟨t, [], [t]⟩) := by
    subst ht
    rw [onLog, IoM.zoom, raised]
    simp only [happend]
    rfl
  subst ht
  show IoM.bind (onLog _) _ ⟨p.raised _, [], [p.raised _]⟩ = _
  rw [IoM.bind, hlog]

theorem round_message_step (h : p.Rep l spilled) {msg : ReplMsg}
    (hfits : (PumpEvent.message (some msg)).Fits) :
    Advances p l spilled ((PumpEvent.message (some msg)).frames p.log.nextSeq)
      (max p.metrics.streamLsn (PumpEvent.message (some msg)).position)
      (round (.message (some msg))) := by
  cases msg with
  | keepalive walEnd replyRequested =>
    have hin : l.Within l.durableFrames (l.frames ++ spilled ++ []) := by
      rw [List.append_nil]
      exact ⟨List.prefix_rfl, List.prefix_append _ _⟩
    refine .of_spec (Spec.bind (onKeepalive_spec h hin walEnd replyRequested) fun _ t ht => ?_)
    exact Spec.pure ⟨l, spilled, ht⟩
  | xLogData walStart payload =>
    by_cases hroom : p.log.nextSeq + 1 < 2 ^ 64
    · refine .of_spec (Spec.bind (onXLogData_spec h hroom hfits) fun _ t ht => ?_)
      exact Spec.pure ht
    · refine .of_error (IoM.exec_bind_error (onXLogData_no_room walStart payload hroom)) ?_
      intro t ht
      obtain rfl := List.mem_singleton.mp ht
      exact ⟨l, (h.raised _).seen (h.log.within _).1⟩

/-- One round, from a pump between two rounds. -/
theorem round_step (h : p.Rep l spilled) {e : PumpEvent} (hfits : e.Fits) :
    Advances p l spilled (e.frames p.log.nextSeq) (max p.metrics.streamLsn e.position)
      (round e) := by
  have hstill : max p.metrics.streamLsn 0 = p.metrics.streamLsn := Nat.max_eq_left (Nat.zero_le _)
  cases e with
  | changed cmd =>
    show Advances p l spilled [] (max _ 0) _
    rw [hstill]
    cases cmd with
    | none => exact .of_spec (Spec.pure ⟨l, spilled, (Answers.refl h).moved h⟩)
    | some cmd =>
      refine .of_spec ?_
      rw [List.append_nil]
      exact onCommand_spec h cmd
  | tick =>
    show Advances p l spilled [] (max _ 0) _
    rw [hstill]
    refine .of_spec ?_
    rw [List.append_nil]
    refine Spec.bind (onTick_spec h ⟨List.prefix_rfl, List.prefix_append _ _⟩) fun _ t ht => ?_
    exact Spec.pure ⟨l, spilled, ht.moved h⟩
  | message msg =>
    cases msg with
    | none => exact .of_error rfl fun t ht => absurd ht List.not_mem_nil
    | some msg => exact round_message_step h hfits

end Specs

/-! ## The frames that are counted -/

section Counting

variable {α β : Type} {m : PumpM α} {f : α → PumpM β} {n k : Nat}

/-- A run that returns has counted `n` frames. -/
def Counts (n : Nat) (m : PumpM α) : Prop :=
  ∀ r a r', m r = (.ok a, r') → r'.state.metrics.frames = r.state.metrics.frames + n

theorem Counts.pure {a : α} : Counts 0 (Pure.pure a : PumpM α) := by
  intro r b r' hrun
  obtain ⟨-, rfl⟩ := Prod.mk.inj hrun
  rfl

theorem Counts.bind (hm : Counts n m) (hf : ∀ a, Counts k (f a)) : Counts (n + k) (m >>= f) := by
  intro r b r' hrun
  obtain ⟨a, r₁, hfirst, hrest⟩ := IoM.bind_ok_iff.mp hrun
  rw [hf a r₁ b r' hrest, hm r a r₁ hfirst, Nat.add_assoc]

theorem Counts.of_outcome (hm : Counts n m) {p t : Pump} {a : α} (h : m.outcome p = some (a, t)) :
    t.metrics.frames = p.metrics.frames + n := by
  unfold IoM.outcome IoM.exec at h
  rcases hrun : m ⟨p, [], []⟩ with ⟨e | b, r⟩
  · rw [hrun] at h
    exact absurd h.symm (Option.some_ne_none _)
  · rw [hrun] at h
    obtain ⟨rfl, rfl⟩ := Prod.mk.inj (Option.some.inj h)
    exact hm _ _ _ hrun

/-- The frames are counted in the rest. -/
theorem Counts.later (hm : Counts 0 m) (hf : ∀ a, Counts k (f a)) : Counts k (m >>= f) :=
  Nat.zero_add k ▸ hm.bind hf

theorem Counts.bind_get {f : Pump → PumpM β} (h : ∀ p, Counts n (f p)) :
    Counts n (IoM.get >>= f) :=
  fun r => h r.state r

theorem Counts.store {g : IngestMetrics → IngestMetrics} (hg : ∀ c, (g c).frames = c.frames + n) :
    Counts n (Pump.store g) := by
  intro r a r' hrun
  obtain ⟨-, rfl⟩ := Prod.mk.inj hrun
  exact hg r.state.metrics

theorem Counts.sendStandbyStatus (lsn : Nat) (requestReply : Bool) :
    Counts 0 (Pump.sendStandbyStatus lsn requestReply) := by
  rintro ⟨p, plan, seen⟩ a r' hrun
  match plan with
  | .failed _ :: _ => exact absurd (Prod.mk.inj hrun).1 (by simp)
  | .done :: _ | [] =>
    obtain ⟨-, rfl⟩ := Prod.mk.inj hrun
    rfl

theorem Counts.onLog [Crc32c] (m : LogM α) : Counts 0 (Pump.onLog m) := by
  intro r a r' hrun
  unfold Pump.onLog IoM.zoom at hrun
  rcases hm : m ⟨r.state.log, r.plan, []⟩ with ⟨e | b, r₁⟩
  · rw [hm] at hrun
    exact absurd (Prod.mk.inj hrun).1 (by simp)
  · rw [hm] at hrun
    obtain ⟨-, rfl⟩ := Prod.mk.inj hrun
    rfl

theorem Counts.onlyIf (c : Bool) {m : PumpM Unit} (hm : Counts 0 m) :
    Counts 0 (Pump.onlyIf c m) := by
  unfold Pump.onlyIf
  split
  · exact hm
  · exact .pure

variable [Crc32c]

theorem onXLogData_counts (walStart : UInt64) (payload : Bytes) :
    Counts 1 (onXLogData walStart payload) := by
  refine Counts.later (.store fun _ => rfl) fun _ => Counts.later (.onLog _) fun _ => ?_
  refine Counts.bind (n := 1) (k := 0) (.store fun _ => rfl) fun _ => ?_
  refine Counts.later (.onlyIf _ (.store fun _ => rfl)) fun _ => .bind_get fun p => ?_
  refine Counts.later (.store fun _ => rfl) fun _ => ?_
  refine Counts.later (.onlyIf _ (.store fun _ => rfl)) fun _ => .onlyIf _ ?_
  exact Counts.later (.sendStandbyStatus _ _) fun _ => .store fun _ => rfl

/-- A round counts the frame that it has taken. -/
theorem round_counts (e : PumpEvent) :
    Counts (e.taken.filterMap ReplMsg.data).length (round e) := by
  match e with
  | .changed none => exact .pure
  | .changed (some cmd) =>
    show Counts 0 (onCommand cmd)
    unfold onCommand
    split
    · exact .pure
    · refine Counts.later (.onLog _) fun _ => .bind_get fun p => ?_
      refine Counts.later (.onlyIf _ ?_) fun _ => .pure
      exact Counts.later (.sendStandbyStatus _ _) fun _ => .store fun _ => rfl
  | .message none =>
    intro r a r' hrun
    exact absurd (Prod.mk.inj hrun).1 (by simp)
  | .message (some (.xLogData walStart payload)) =>
    exact Counts.bind (n := 1) (k := 0) (onXLogData_counts walStart payload) fun _ => .pure
  | .message (some (.keepalive walEnd replyRequested)) =>
    refine Counts.later ?_ fun _ => .pure
    refine Counts.later (.store fun _ => rfl) fun _ => .onlyIf _ (.bind_get fun p => ?_)
    exact .sendStandbyStatus _ _
  | .tick =>
    refine Counts.later (.bind_get fun p => .onlyIf _ ?_) fun _ => .pure
    exact Counts.later (.sendStandbyStatus _ _) fun _ => .onlyIf _ (.store fun _ => rfl)

end Counting

end Pump

end GrayDB.Ingest
