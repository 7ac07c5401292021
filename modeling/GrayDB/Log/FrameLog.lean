import GrayDB.Lib.Crash
import GrayDB.Log.Dir

/-!
# `FrameLog`

The append path of the durable frame log, its recovery and its verification,
as the source has them.

* `append` and `appendDeferred` give a frame the next sequence number.  A
  commit frame that `append` writes is synced and published at once; the one
  that `appendDeferred` writes waits for `flushPending`.
* While the log is stalled, both divert the frame to the staging spill, and
  `setStalled false` drains the spill into the segment.
* A segment that has reached `segmentMaxBytes` at a commit or after a drain is
  followed by a new one: `rollSegment`.
* `resume` cuts the log back to its last commit frame, and `verifyLog` reads
  all of it.

Every write, sync and file creation is one `IoM.call`, so the states between
two of them are the states a crash can hit.  Reading a file does not change
the disk and is not a call.
-/

namespace GrayDB.Log

open Lib Lib.Crash

structure DurableMark where
  /-- Sequence of the last durably-synced transaction-complete frame. -/
  seq : Nat := 0
  /-- Its `lsn_end`. -/
  lsn : Nat := 0
  /-- True once any commit frame is durable. -/
  valid : Bool := false
  deriving DecidableEq, Repr

/-- `overflow` is the panic of `next_seq += 1`. -/
inductive LogError where
  | io (context : Option String)
  | overflow
  | noLog
  deriving DecidableEq, Repr

structure FrameLog where
  dir : Dir
  segmentMaxBytes : Nat
  /-- The first sequence number of the segment that `file` is open on. -/
  file : Nat
  segmentLen : Nat
  nextSeq : Nat
  /-- Appended-but-not-yet-synced highest commit frame (`seq`, `lsn_end`). -/
  pendingCommit : Option (Nat × Nat)
  /-- What the watch channel holds. -/
  durable : DurableMark
  stalled : Bool
  spill : List Bytes
  /-- Whether the staging file is open. -/
  spillFile : Bool
  spilledFrames : Nat
  totalFrames : Nat
  totalCommits : Nat
  deriving DecidableEq, Repr

abbrev LogM := IoM LogError FrameLog

/-- The place of the log: a directory, once it has been created. -/
abbrev Disk := Option Dir

/-! ## The append path -/

namespace FrameLog

variable [Crc32c]

/-- `self.file.write_all` and the update of `segment_len`. -/
def writeAll (encoded : Bytes) : LogM Unit := do
  IoM.call (.io none) (fun s => { s with dir := s.dir.update s.file (·.write encoded) })
    (fun k s => { s with dir := s.dir.update s.file (·.write (encoded.take k)) })
  IoM.modify fun s => { s with segmentLen := s.segmentLen + encoded.length }

/-- `self.file.sync_all().await.context(..)` -/
def syncAll (context : String) : LogM Unit :=
  IoM.call (.io (some context)) (fun s => { s with dir := s.dir.update s.file (·.sync) })
    (fun _ s => s)

/-- `self.durable_tx.send_replace` -/
def sendReplace (seq lsn : Nat) : LogM Unit :=
  IoM.publish fun s => { s with durable := { seq, lsn, valid := true } }

def rollSegment : LogM Unit := do
  IoM.call (.io none) (fun s => { s with dir := s.dir.create s.nextSeq, file := s.nextSeq })
    (fun _ s => s)
  IoM.modify fun s => { s with segmentLen := 0 }

def flushPending : LogM Unit := do
  let s ← IoM.get
  IoM.modify fun s => { s with pendingCommit := none }
  match s.pendingCommit with
  | some (dseq, dlsn) =>
    syncAll "fsync frame segment"
    sendReplace dseq dlsn
  | none => pure ()

/-- Roll once the segment has reached its size. -/
def rollIfFull : LogM Unit := do
  let s ← IoM.get
  if s.segmentLen ≥ s.segmentMaxBytes then
    rollSegment

def writeDurable (seq lsnEnd : Nat) (txnComplete : Bool) (encoded : Bytes) : LogM Unit := do
  writeAll encoded
  if txnComplete then
    IoM.modify fun s => { s with pendingCommit := some (seq, lsnEnd) }
    syncAll "fsync frame segment"
    IoM.modify fun s => { s with pendingCommit := none }
    sendReplace seq lsnEnd
    rollIfFull

/-- The sequence number of the next frame, and the counters. -/
def takeSeq (txnComplete : Bool) : LogM Nat := do
  let s ← IoM.get
  if s.nextSeq + 1 < 2 ^ 64 then
    IoM.modify fun s =>
      { s with
        nextSeq := s.nextSeq + 1
        totalFrames := s.totalFrames + 1
        totalCommits := if txnComplete then s.totalCommits + 1 else s.totalCommits }
    pure s.nextSeq
  else
    IoM.throw .overflow

/-- The staging file is created for the first frame that goes to it. -/
def ensureSpillFile : LogM Unit := do
  let s ← IoM.get
  if s.spillFile = false then
    IoM.call (.io none)
      (fun s => { s with dir := { s.dir with staging := some [] }, spillFile := true })
      (fun _ s => s)

/-- Rung 3: the frame goes to the staging file and to `spill`. -/
def divert (encoded : Bytes) : LogM Unit := do
  ensureSpillFile
  IoM.call (.io none)
    (fun s => { s with dir := { s.dir with staging := s.dir.staging.map (· ++ encoded) } })
    (fun k s =>
      { s with dir := { s.dir with staging := s.dir.staging.map (· ++ encoded.take k) } })
  IoM.modify fun s =>
    { s with spill := s.spill ++ [encoded], spilledFrames := s.spilledFrames + 1 }

def append (lsnStart lsnEnd : UInt64) (txnComplete : Bool) (payload : Bytes) : LogM Nat := do
  let seq ← takeSeq txnComplete
  let encoded := encodeFrame
    { seq, lsnStart := lsnStart.toNat, lsnEnd := lsnEnd.toNat, txnComplete, payload }
  let s ← IoM.get
  if s.stalled then
    divert encoded
    pure seq
  else
    writeDurable seq lsnEnd.toNat txnComplete encoded
    pure seq

/-- The unstalled branch of `append_deferred`: the commit stays pending, unless
the segment is full. -/
def writeDeferred (seq lsnEnd : Nat) (txnComplete : Bool) (encoded : Bytes) : LogM Unit := do
  writeAll encoded
  if txnComplete then
    IoM.modify fun s => { s with pendingCommit := some (seq, lsnEnd) }
    let s ← IoM.get
    if s.segmentLen ≥ s.segmentMaxBytes then
      flushPending
      rollSegment

/-- `append` without the sync: the commit waits for `flushPending`. -/
def appendDeferred (lsnStart lsnEnd : UInt64) (txnComplete : Bool) (payload : Bytes) :
    LogM Nat := do
  let seq ← takeSeq txnComplete
  let encoded := encodeFrame
    { seq, lsnStart := lsnStart.toNat, lsnEnd := lsnEnd.toNat, txnComplete, payload }
  let s ← IoM.get
  if s.stalled then
    divert encoded
    pure seq
  else
    writeDeferred seq lsnEnd.toNat txnComplete encoded
    pure seq

/-- `(seq, lsn_end)` of an encoded frame, when its flag says that it completes a
transaction. -/
def commitOfEncoded (encoded : Bytes) : Option (Nat × Nat) :=
  let view := encoded.drop 4
  let (seq, view) := getNat 8 view
  let (_lsnStart, view) := getNat 8 view
  let (lsnEnd, view) := getNat 8 view
  let flags := view.headD 0
  if flags &&& flagTxnComplete != 0 then some (seq, lsnEnd) else none

/-- The loop of `set_stalled(false)`: the last commit among the drained frames. -/
def drain : List Bytes → Option (Nat × Nat) → LogM (Option (Nat × Nat))
  | [], lastCommit => pure lastCommit
  | encoded :: frames, lastCommit => do
    writeAll encoded
    drain frames ((commitOfEncoded encoded).or lastCommit)

/-- The mark advances past the drained commits, if there are any. -/
def publishDrained : Option (Nat × Nat) → LogM Unit
  | some (seq, lsn) => sendReplace seq lsn
  | none => pure ()

def setStalled (stalled : Bool) : LogM Unit := do
  let s ← IoM.get
  if stalled = s.stalled then
    pure ()
  else if stalled then
    IoM.modify fun s => { s with stalled := true }
  else
    IoM.modify fun s => { s with spill := [] }
    let lastCommit ← drain s.spill none
    syncAll "fsync drained staging"
    publishDrained lastCommit
    IoM.modify fun s => { s with spillFile := false }
    IoM.publish fun s => { s with dir := { s.dir with staging := none } }
    IoM.modify fun s => { s with stalled := false }
    rollIfFull

end FrameLog

/-! ## Opening a log -/

namespace FrameLog

variable [Crc32c]

/-- One call on the directory. -/
def onDir (g : Dir → Dir) : IoM LogError Disk Unit :=
  IoM.call (.io none) (Option.map g) (fun _ d => d)

def create (segmentMaxBytes : Nat) : IoM LogError Disk FrameLog := do
  IoM.publish fun _ => none
  IoM.call (.io none) (fun d => some (d.getD {})) (fun _ d => d)
  onDir (·.create 0)
  let disk ← IoM.get
  pure
    { dir := disk.getD {}, segmentMaxBytes, file := 0, segmentLen := 0, nextSeq := 0
      pendingCommit := none, durable := {}, stalled := false, spill := [], spillFile := false
      spilledFrames := 0, totalFrames := 0, totalCommits := 0 }

/-- The last transaction-complete frame that recovery has found. -/
structure Boundary where
  segIdx : Nat
  endOffset : Nat
  seq : Nat
  lsn : Nat
  deriving DecidableEq, Repr

structure Scan where
  boundary : Option Boundary := none
  frames : Nat := 0
  commits : Nat := 0
  deriving DecidableEq, Repr

/-- One round of the scan, with the offset behind the frame. -/
def Scan.frame (segIdx : Nat) (s : Scan × Nat) (f : Frame × Nat) : Scan × Nat :=
  let offset := s.2 + f.2
  if f.1.txnComplete then
    ({ boundary := some { segIdx, endOffset := offset, seq := f.1.seq, lsn := f.1.lsnEnd }
       frames := s.1.frames + 1
       commits := s.1.commits + 1 }, offset)
  else
    ({ s.1 with frames := s.1.frames + 1 }, offset)

def Scan.segment (s : Scan) (seg : (Nat × SegFile) × Nat) : Scan :=
  ((readFrames seg.1.2.data).1.foldl (Scan.frame seg.2) (s, 0)).1

def scan (segs : List (Nat × SegFile)) : Scan := segs.zipIdx.foldl Scan.segment {}

def removeAll : List Nat → IoM LogError Disk Unit
  | [] => pure ()
  | seg :: segs => do
    onDir (·.remove seg)
    removeAll segs

/-- Truncate past the boundary and drop the later segments; what comes back is
`next_seq` and the mark. -/
def truncate (segs : List Nat) : Option Boundary → IoM LogError Disk (Nat × DurableMark)
  | some b => do
    onDir (·.update (segs.getD b.segIdx 0) (·.setLen b.endOffset))
    onDir (·.update (segs.getD b.segIdx 0) (·.sync))
    removeAll (segs.drop (b.segIdx + 1))
    pure (b.seq + 1, { seq := b.seq, lsn := b.lsn, valid := true })
  | none => do
    removeAll segs
    pure (0, {})

def resume (segmentMaxBytes : Nat) : IoM LogError Disk FrameLog := do
  let disk ← IoM.get
  match disk with
  | none => IoM.throw .noLog
  | some dir =>
    let found := scan dir.segs
    let (nextSeq, mark) ← truncate (dir.segs.map Prod.fst) found.boundary
    IoM.publish (Option.map fun d => { d with staging := none })
    onDir (·.create nextSeq)
    let disk ← IoM.get
    pure
      { dir := disk.getD {}, segmentMaxBytes, file := nextSeq, segmentLen := 0, nextSeq
        pendingCommit := none, durable := mark, stalled := false, spill := []
        spillFile := false, spilledFrames := 0, totalFrames := found.frames
        totalCommits := found.commits }

end FrameLog

/-! ## Verification -/

structure LogVerification where
  frames : Nat := 0
  commits : Nat := 0
  firstSeq : Option Nat := none
  lastSeq : Option Nat := none
  maxLsnEnd : Nat := 0
  seqContiguous : Bool := true
  lsnMonotone : Bool := true
  tornTail : Bool := false
  deriving DecidableEq, Repr

/-- The variables of the loop of `verify_log`, and the frames it has handed to
`inspect`. -/
structure Verifying where
  v : LogVerification := {}
  expectedSeq : Option Nat := none
  lastCommitEnd : Nat := 0
  inspected : List Frame := []
  deriving DecidableEq, Repr

def Verifying.frame (w : Verifying) (frame : Frame) : Verifying :=
  { v :=
      { w.v with
        frames := w.v.frames + 1
        commits := if frame.txnComplete then w.v.commits + 1 else w.v.commits
        firstSeq := w.v.firstSeq.or (some frame.seq)
        lastSeq := some frame.seq
        maxLsnEnd := max w.v.maxLsnEnd frame.lsnEnd
        seqContiguous := w.v.seqContiguous && w.expectedSeq.all (frame.seq == ·)
        lsnMonotone := w.v.lsnMonotone &&
          !(frame.txnComplete && decide (frame.lsnEnd < w.lastCommitEnd)) }
    expectedSeq := some (frame.seq + 1)
    lastCommitEnd := if frame.txnComplete then frame.lsnEnd else w.lastCommitEnd
    inspected := w.inspected ++ [frame] }

/-- A decode error with the segment it is in. -/
structure VerifyError where
  segment : String
  error : DecodeError
  deriving DecidableEq, Repr

variable [Crc32c]

def verifySegs (allowTornTail : Bool) :
    List (Nat × SegFile) → Verifying → Except VerifyError Verifying
  | [], w => .ok w
  | seg :: segs, w =>
    let (frames, error) := readFrames seg.2.data
    let w := (frames.map Prod.fst).foldl Verifying.frame w
    match error with
    | none => verifySegs allowTornTail segs w
    | some e =>
      if allowTornTail && segs.isEmpty && e.truncated then
        verifySegs allowTornTail segs { w with v := { w.v with tornTail := true } }
      else
        .error { segment := segName seg.1, error := e }

/-- The report on the log, and the frames that `inspect` has seen. -/
def verifyLog (dir : Dir) (allowTornTail : Bool) :
    Except VerifyError (LogVerification × List Frame) :=
  (verifySegs allowTornTail dir.segs {}).map fun w => (w.v, w.inspected)

end GrayDB.Log
