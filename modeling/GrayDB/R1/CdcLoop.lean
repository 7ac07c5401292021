import GrayDB.Ingest.Stream
import GrayDB.Log.Faults
import GrayDB.R1.Ledger
import GrayDB.R1.Windows

/-!
# The CDC loop of ClickHouse

The task reads a slot of its own, logs each frame, and keeps the frames of some commits in a
window.  The window is flushed once it is full or old: it is decoded, each commit gets its hash
from the ledger, and the sink applies the commits.  Only then they are acknowledged.

A round is a program over the variables of the task, with the server among them.

* A lost connection gives the task a new decoder, but it keeps the window and the numbers of
  the frame log.  `reconnect_fatal` says what comes of it once a window has been flushed: no
  later round changes the tables, and the flush that is due next ends the task.
-/

namespace GrayDB.R1

open Lib Lib.Crash Log Registry Ingest ClickHouseSink

/-- The variables of the task, the server, and the positions of the status updates, oldest
first.  None of these updates asks for a reply. -/
structure CdcLoop where
  frameLog : FrameLog
  /-- The decoder of `cdc`. -/
  decoder : StreamDecoder := {}
  server : World
  /-- `r1_meta.visibility` -/
  visibility : List Nat := []
  appliedLsn : Nat
  lastVisibilityLsn : Nat
  window : List Frame := []
  windowCommits : Nat := 0
  sent : List Nat := []
  /-- The windows that have been flushed, which the task itself does not keep. -/
  flushed : List (List CdcCommit) := []

inductive CdcError where
  | log (e : LogError)
  | feed (e : FeedError)
  | ledger (e : LedgerError)
  | sink (e : SinkError)
  | notOne
  | early
  | noHash (lsn : Nat)
  | lost
  | expired
  /-- The round is not over: the ledger has no entry for a commit yet. -/
  | waits
  deriving DecidableEq, Repr

def CdcError.message : CdcError → String
  | .notOne => "expected exactly one committed pgoutput transaction per frame"
  | .early => "StreamDecoder emitted changes before transaction Commit"
  | .noHash lsn => "no ledger hash for window commit LSN " ++ toString lsn
  | .expired => "ClickHouse CDC could not reconnect within 30 minutes"
  | .ledger e => e.message
  | .sink e => e.message
  | .log _ | .feed _ | .lost | .waits => ""

abbrev CdcM := IoM CdcError CdcLoop

/-- What `select!` comes back with.  With a message comes what the round finds besides: whether
the window is old, and the ledger as each refresh leaves it. -/
inductive CdcEvent where
  | changed (stop : Bool)
  /-- The connection is lost; `expired` when that is so for half an hour. -/
  | interrupted (expired : Bool)
  | message (msg : ReplMsg) (elapsed : Bool) (ledger : List (Except LedgerError (List LedgerEntry)))

def CdcEvent.taken : CdcEvent → List ReplMsg
  | .message msg _ _ => [msg]
  | _ => []

namespace CdcLoop

/-! ## The rounds -/

/-- `WINDOW_COMMITS` -/
def maxCommits : Nat := 256

section Rounds

variable [Crc32c] [SinkText]

def onLog {α : Type} (m : LogM α) : CdcM α :=
  IoM.zoom CdcLoop.frameLog (fun log c => { c with frameLog := log }) .log m

def onSink {α : Type} (m : SinkM α) : CdcM α :=
  IoM.zoom CdcLoop.server (fun w c => { c with server := w }) .sink m

def orThrow {α : Type} : Except CdcError α → CdcM α
  | .ok a => pure a
  | .error e => IoM.throw e

def sendStandbyStatus (lsn : Nat) : CdcM Unit :=
  IoM.call .lost (fun c => { c with sent := c.sent ++ [lsn] }) fun _ c => c

/-- The hashes of the commits, if the ledger has them all.  Its entries go by their LSNs. -/
def windowHashes (entries : List LedgerEntry) (commitLsns : List Nat) :
    Option (List (Nat × String)) :=
  commitLsns.mapM fun lsn =>
    match (entries.dropWhile fun e => decide (e.sourceLsn < lsn)).head? with
    | some e => if e.sourceLsn = lsn then some (lsn, e.operationSha256) else none
    | none => none

/-- `resolve_window_hashes` goes on until a refresh has them. -/
def resolveWindowHashes (commitLsns : List Nat) :
    List (Except LedgerError (List LedgerEntry)) → Except CdcError (List (Nat × String))
  | [] => .error .waits
  | .error e :: _ => .error (.ledger e)
  | .ok entries :: ledger =>
    match windowHashes entries commitLsns with
    | some hashes => .ok hashes
    | none => resolveWindowHashes commitLsns ledger

/-- The batches of the commits, frame by frame. -/
def feedFrames (d : StreamDecoder) :
    List Frame → Except CdcError (List DecodedBatch × StreamDecoder)
  | [] => .ok ([], d)
  | frame :: frames =>
    match d.feed [frame] with
    | (.error e, _) => .error (.feed e)
    | (.ok batch, d) =>
      if 0 < batch.txns then
        if batch.txns = 1 ∧ batch.lastCommitLsn ≠ 0 then do
          let (batches, d) ← feedFrames d frames
          return (batch :: batches, d)
        else .error .notOne
      else if batch.changes = [] then feedFrames d frames
      else .error .early

/-- The commits of the batches, with their hashes. -/
def cdcCommits (hashes : List (Nat × String)) (batches : List DecodedBatch) :
    Except CdcError (List CdcCommit) :=
  batches.mapM fun batch =>
    match hashes.lookup batch.lastCommitLsn with
    | some hash => .ok { lsn := batch.lastCommitLsn, hash, changes := batch.changes }
    | none => .error (.noHash batch.lastCommitLsn)

/-- The LSNs of the commits in some frames. -/
def commitLsns (frames : List Frame) : List Nat :=
  (frames.filter Frame.txnComplete).map Frame.lsnEnd

def flush (ledger : List (Except LedgerError (List LedgerEntry))) : CdcM Unit := do
  let c ← IoM.get
  let hashes ← orThrow (resolveWindowHashes (commitLsns c.window) ledger)
  let (batches, decoder) ← orThrow (feedFrames c.decoder c.window)
  IoM.modify fun c => { c with decoder }
  let commits ← orThrow (cdcCommits hashes batches)
  let last ← onSink (applyWindow commits)
  IoM.modify fun c => { c with flushed := c.flushed ++ [commits] }
  onLog FrameLog.flushPending
  sendStandbyStatus last
  IoM.modify fun c => { c with appliedLsn := last, window := [], windowCommits := 0 }

/-- The frame goes to the log and to the window. -/
def keep (walStart : UInt64) (payload : Bytes) : CdcM Unit := do
  let commitLsn := pgoutputCommitLsn payload
  let seq ← onLog
    (FrameLog.append walStart (commitLsn.getD walStart) commitLsn.isSome payload)
  IoM.modify fun c =>
    { c with
      window := c.window ++ [taskFrame pgoutputCommitLsn seq walStart payload]
      windowCommits := if commitLsn.isSome then c.windowCommits + 1 else c.windowCommits }

/-- The window is full, or it holds a commit and is old. -/
def due (c : CdcLoop) (elapsed : Bool) : Bool :=
  decide (maxCommits ≤ c.windowCommits) || (decide (0 < c.windowCommits) && elapsed)

def onXLogData (walStart : UInt64) (payload : Bytes) (elapsed : Bool)
    (ledger : List (Except LedgerError (List LedgerEntry))) : CdcM Unit := do
  keep walStart payload
  let c ← IoM.get
  if c.due elapsed then flush ledger else pure ()

/-- `record_clickhouse_visibility`, whose errors are dropped. -/
def recordVisibility (walEnd : Nat) : CdcM Unit := do
  let c ← IoM.get
  if walEnd ≤ c.lastVisibilityLsn then pure ()
  else IoM.attempt do
    IoM.call (.sink .request) (fun c => { c with visibility := c.visibility ++ [walEnd] })
      (fun k c => if k = 0 then c else { c with visibility := c.visibility ++ [walEnd] })
    IoM.modify fun c => { c with lastVisibilityLsn := walEnd }

def onKeepalive (walEnd : UInt64) : CdcM Unit := do
  let c ← IoM.get
  sendStandbyStatus c.appliedLsn
  recordVisibility walEnd.toNat

/-- One round of the loop.  It goes on unless `false` comes back. -/
def round : CdcEvent → CdcM Bool
  | .changed false => pure true
  | .changed true => do
    let c ← IoM.get
    IoM.attempt (sendStandbyStatus c.appliedLsn)
    pure false
  | .interrupted expired => do
    IoM.modify fun c => { c with decoder := {} }
    if expired then IoM.throw .expired else pure true
  | .message (.xLogData walStart payload) elapsed ledger => do
    onXLogData walStart payload elapsed ledger
    pure true
  | .message (.keepalive walEnd true) _ _ => do
    onKeepalive walEnd
    pure true
  | .message (.keepalive _ false) _ _ => pure true

end Rounds

end CdcLoop

end GrayDB.R1
