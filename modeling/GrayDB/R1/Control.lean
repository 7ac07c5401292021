import GrayDB.Log.FrameLog
import GrayDB.R1.Writer
import GrayDB.Registry.Decoder

/-!
# The control stream

`run_control_replication` receives the replication messages of the control slot, one by
one.  A frame is appended to a frame log without a sync and kept back until its
transaction's Commit.  Then the frames of the transaction go through `ControlLsnMapper`,
and a transaction that has inserted a marker is sent to the writer as a `LedgerCommit`.
The log is synced, and the slot is acknowledged, at every 64th Commit and whenever the
server asks for a reply.

The loop waits for one event at a time, `ControlEvent`, and `event` is one round of it.
What it does to the outside is in the state: the commits that were sent, and the status
updates, each with the log directory as it was then.
-/

namespace GrayDB.R1

open Lib.Crash Log Registry

def controlMarkerTable : String := "r1_control.tx_marker"

/-- Slot advancement is batched to this many commits. -/
def controlAckBatchCommits : Nat := 64

inductive MarkerError where
  | multiple
  | notInsert
  | lsnDisagrees
  | noNewImage
  | missing (name : String)
  | notText (name : String)
  | sequence
  deriving DecidableEq, Repr

def MarkerError.message : MarkerError → String
  | .multiple => "multiple r1 control markers in one transaction"
  | .notInsert => "control marker must be an insert"
  | .lsnDisagrees => "control marker commit LSN disagrees with decoded batch"
  | .noNewImage => "control marker has no new row image"
  | .missing name => s!"control marker is missing {name}"
  | .notText name => s!"control marker column {name} is not a text pgoutput value"
  | .sequence => "parsing control marker sequence"

/-! ## The mapper -/

/-- `str::parse::<u64>` -/
def parseU64 (s : String) : Option Nat :=
  let digits : List Char :=
    match s.toList with
    | '+' :: digits => digits
    | digits => digits
  let n := digits.foldl (fun n c => 10 * n + (c.toNat - '0'.toNat)) 0
  if digits ≠ [] ∧ digits.all Char.isDigit ∧ n < 2 ^ 64 then some n else none

/-- The text of the first column of that name. -/
def markerField (values : Named) (name : String) : Except MarkerError String :=
  match values.find? fun v => v.1 = name with
  | none => .error (.missing name)
  | some (_, .text value) => .ok value
  | some _ => .error (.notText name)

def markerFromChange (change : TypedChange) (commitLsn : Nat) : Except MarkerError LedgerCommit :=
  if change.op ≠ .insert then .error .notInsert
  else if change.commitLsn ≠ commitLsn then .error .lsnDisagrees
  else
    match change.new with
    | none => .error .noNewImage
    | some values => do
      let text ← markerField values "sequence"
      match parseU64 text with
      | none => .error .sequence
      | some sequence =>
        let operationSha256 ← markerField values "operation_sha256"
        .ok { sequence, xid := change.xid, sourceLsn := commitLsn, operationSha256 }

namespace ControlLsnMapper

/-- The loop over the changes of the marker table. -/
def marker (commitLsn : Nat) :
    List TypedChange → Option LedgerCommit → Except MarkerError (Option LedgerCommit)
  | [], marker => .ok marker
  | change :: changes, none => do
    let commit ← markerFromChange change commitLsn
    marker commitLsn changes (some commit)
  | _ :: _, some _ => .error .multiple

inductive MapError where
  | decoding (e : FeedError)
  | marker (e : MarkerError)
  deriving DecidableEq, Repr

/-- One frame.  The mapper is its decoder. -/
def feed (decoder : StreamDecoder) (frame : Frame) :
    Except MapError (Option LedgerCommit) × StreamDecoder :=
  match decoder.feed [frame] with
  | (.error e, decoder) => (.error (.decoding e), decoder)
  | (.ok batch, decoder) =>
    if batch.lastCommitLsn = 0 then (.ok none, decoder)
    else
      let changes := batch.changes.filter fun change => change.table = controlMarkerTable
      ((marker batch.lastCommitLsn changes none).mapError .marker, decoder)

end ControlLsnMapper

/-! ## The loop -/

/-- A Standby Status Update, with the directory of the frame log when it was sent. -/
structure StandbyStatus where
  lsn : Nat
  dir : Dir
  deriving DecidableEq, Repr

structure ControlState where
  log : FrameLog
  mapper : StreamDecoder := {}
  pending : List Frame := []
  unackedCommits : Nat := 0
  /-- What was sent on `mapped_tx`. -/
  sent : List LedgerCommit := []
  statuses : List StandbyStatus := []
  deriving DecidableEq

inductive ControlError where
  | map (e : ControlLsnMapper.MapError)
  | log (e : LogError)
  /-- `control frame log has no durable commit mark` -/
  | noDurableMark
  /-- `control commit receiver dropped` -/
  | receiverDropped
  | status
  deriving DecidableEq, Repr

abbrev ControlM := IoM ControlError ControlState

namespace ControlState

variable [Crc32c]

def onLog {α : Type} (m : LogM α) : ControlM α := do
  let s ← IoM.get
  IoM.embed s.log (fun log s => { s with log }) .log m

def send (commit : LedgerCommit) : ControlM Unit :=
  IoM.call .receiverDropped (fun s => { s with sent := s.sent ++ [commit] }) (fun _ s => s)

def sendStandbyStatus (lsn : Nat) : ControlM Unit :=
  IoM.call .status
    (fun s => { s with statuses := s.statuses ++ [{ lsn, dir := s.log.dir }] }) (fun _ s => s)

/-- A pending frame goes through the mapper, and its commit is sent. -/
def mapFrame (frame : Frame) : ControlM Unit := do
  let s ← IoM.get
  IoM.modify fun s => { s with mapper := (ControlLsnMapper.feed s.mapper frame).2 }
  match (ControlLsnMapper.feed s.mapper frame).1 with
  | .error e => IoM.throw (.map e)
  | .ok none => pure ()
  | .ok (some commit) => send commit

def mapFrames : List Frame → ControlM Unit
  | [] => pure ()
  | frame :: frames => do
    mapFrame frame
    mapFrames frames

/-- The acknowledgement of a full batch, behind the Commit that ends at `lsnEnd`. -/
def ackBatch (lsnEnd : Nat) : ControlM Unit := do
  onLog FrameLog.flushPending
  let s ← IoM.get
  if s.log.durable.valid && s.log.durable.lsn == lsnEnd then do
    sendStandbyStatus s.log.durable.lsn
    IoM.modify fun s => { s with unackedCommits := 0 }
  else
    IoM.throw .noDurableMark

/-- A transaction is complete. -/
def txnComplete (lsnEnd : Nat) : ControlM Unit := do
  let s ← IoM.get
  IoM.modify fun s => { s with pending := [] }
  mapFrames s.pending
  IoM.modify fun s => { s with unackedCommits := s.unackedCommits + 1 }
  let s ← IoM.get
  if s.unackedCommits ≥ controlAckBatchCommits then
    ackBatch lsnEnd

/-- The `end_lsn` of a Commit. -/
def pgoutputCommitEndLsn (payload : Bytes) : Option UInt64 :=
  if payload.length ≥ 26 ∧ payload.head? = some 0x43 then
    some (UInt64.ofNat (getNat 8 (payload.drop 10)).1)
  else none

/-- Deferred append: the mapping is delivered at once, while the batch covers the
durability of the slot. -/
def xLogData (walStart : UInt64) (payload : Bytes) : ControlM Unit := do
  let lsnEnd := (pgoutputCommitEndLsn payload).getD walStart
  let complete := (pgoutputCommitEndLsn payload).isSome
  let seq ← onLog (FrameLog.appendDeferred walStart lsnEnd complete payload)
  let frame : Frame :=
    { seq, lsnStart := walStart.toNat, lsnEnd := lsnEnd.toNat, txnComplete := complete, payload }
  IoM.modify fun s => { s with pending := s.pending ++ [frame] }
  if complete then
    txnComplete lsnEnd.toNat

/-- A keepalive that wants a reply. -/
def reply (startLsn : Nat) : ControlM Unit := do
  onLog FrameLog.flushPending
  let s ← IoM.get
  sendStandbyStatus (if s.log.durable.valid then s.log.durable.lsn else startLsn)
  IoM.modify fun s => { s with unackedCommits := 0 }

/-- `.ok()`: a failure is passed over. -/
def ok (m : ControlM Unit) : ControlM Unit := fun r => (.ok (), (m r).2)

/-- Behind the loop. -/
def finish : ControlM Unit := do
  let s ← IoM.get
  if s.log.durable.valid then
    ok (sendStandbyStatus s.log.durable.lsn)

end ControlState

inductive ControlEvent where
  /-- `stop` has changed: whether it is set, or its sender gone. -/
  | stop (set : Bool)
  | xLogData (walStart : UInt64) (payload : Bytes)
  | keepalive (walEnd : UInt64) (replyRequested : Bool)
  deriving DecidableEq, Repr

/-- One round of the loop, and whether it goes on. -/
def ControlState.event [Crc32c] (startLsn : Nat) : ControlEvent → ControlM Bool
  | .stop true => do
    finish
    pure false
  | .stop false => pure true
  | .xLogData walStart payload => do
    xLogData walStart payload
    pure true
  | .keepalive _ true => do
    reply startLsn
    pure true
  | .keepalive _ false => pure true

/-- The task: its state, and its result once it has returned. -/
structure ControlRun where
  state : ControlState
  result : Option (Except ControlError Unit) := none
  deriving DecidableEq

namespace ControlRun

def start (log : FrameLog) : ControlRun := { state := { log } }

/-- An event, in a loop that has not returned. -/
def play [Crc32c] (startLsn : Nat) (r : ControlRun) (e : ControlEvent) : Option ControlRun :=
  match r.result with
  | some _ => none
  | none =>
    match (ControlState.event startLsn e).exec r.state with
    | (.ok true, t) => some { state := t.state }
    | (.ok false, t) => some { state := t.state, result := some (.ok ()) }
    | (.error e, t) => some { state := t.state, result := some (.error e) }

end ControlRun

end GrayDB.R1
