import GrayDB.Log.Recovery
import Mathlib.Logic.Relation

/-!
# Runs of a frame log

`Reachable` is every stage that a frame log can be in: open between two
operations, inside an operation, or stopped after a crash.  A log is created or
resumed, with any segment size each time, and then goes through the operations
`LogOp` in any order; a crash can come between two operations, between two
calls of one, or in the middle of recovery.

`Reachable.inv` is the invariant of all stages, by induction on the run.  The
two results on it are `durable_mark_sound`, what a valid mark promises about the
fsync'd bytes, and `resume_after_crash`, what recovery makes of any crash.
-/

namespace GrayDB.Log

open Lib Lib.Crash FrameLog

variable [Crc32c]

/-! ## One operation -/

/-- An operation of the log with its arguments. -/
inductive LogOp where
  | append (lsnStart lsnEnd : UInt64) (txnComplete : Bool) (payload : Bytes)
  | appendDeferred (lsnStart lsnEnd : UInt64) (txnComplete : Bool) (payload : Bytes)
  | flushPending
  | setStalled (stalled : Bool)
  deriving DecidableEq, Repr

namespace LogOp

def run : LogOp → LogM Unit
  | .append lsnStart lsnEnd txnComplete payload => do
    let _ ← FrameLog.append lsnStart lsnEnd txnComplete payload
    pure ()
  | .appendDeferred lsnStart lsnEnd txnComplete payload => do
    let _ ← FrameLog.appendDeferred lsnStart lsnEnd txnComplete payload
    pure ()
  | .flushPending => FrameLog.flushPending
  | .setStalled stalled => FrameLog.setStalled stalled

/-- The payload is shorter than `2^32` bytes. -/
def Fits : LogOp → Prop
  | .append _ _ _ payload | .appendDeferred _ _ _ payload => payload.length < 2 ^ 32
  | .flushPending | .setStalled _ => True

instance : (op : LogOp) → Decidable op.Fits
  | .append _ _ _ payload | .appendDeferred _ _ _ payload =>
    inferInstanceAs (Decidable (payload.length < 2 ^ 32))
  | .flushPending | .setStalled _ => inferInstanceAs (Decidable True)

/-- An append takes a number; the other operations do not. -/
def HasRoom (s : FrameLog) : LogOp → Prop
  | .append _ _ _ _ | .appendDeferred _ _ _ _ => s.nextSeq + 1 < 2 ^ 64
  | .flushPending | .setStalled _ => True

theorem spec {s : FrameLog} {l : Layout} {spilled : List Frame} (h : Rep s l spilled)
    {op : LogOp} (hop : op.Fits) (hroom : op.HasRoom s) :
    Spec op.run s Shown fun _ s' => ∃ l' spilled', Rep s' l' spilled' ∧ Grows l l' := by
  cases op with
  | append lsnStart lsnEnd txnComplete payload =>
    refine Spec.bind (append_spec h hroom hop) ?_
    rintro _ s' ⟨-, l', spilled', hrep, ⟨-, hgrows, -⟩, -⟩
    exact Spec.pure ⟨l', spilled', hrep, hgrows⟩
  | appendDeferred lsnStart lsnEnd txnComplete payload =>
    refine Spec.bind (appendDeferred_spec h hroom hop) ?_
    rintro _ s' ⟨-, l', spilled', hrep, -, hgrows, -⟩
    exact Spec.pure ⟨l', spilled', hrep, hgrows⟩
  | flushPending =>
    refine Spec.mono (flushPending_rep h) (fun _ hv => hv) ?_
    rintro _ s' ⟨l', hrep, -, hgrows, -⟩
    exact ⟨l', spilled, hrep, hgrows⟩
  | setStalled stalled =>
    refine Spec.mono (setStalled_spec h stalled) (fun _ hv => hv) ?_
    rintro _ s' ⟨l', spilled', hrep, -, hgrows, -⟩
    exact ⟨l', spilled', hrep, hgrows⟩

/-- Without a number for the next frame an append panics before it writes. -/
theorem no_room {s : FrameLog} {op : LogOp} (h : ¬ op.HasRoom s) :
    op.run.outcome s = none ∧ op.run.passes s = [] := by
  have hthrow : ∀ txnComplete, ¬ s.nextSeq + 1 < 2 ^ 64 →
      (takeSeq txnComplete).exec s = (.error .overflow, ⟨s, [], []⟩) := by
    intro txnComplete hlt
    show (if _ then _ else _ : LogM Nat) _ = _
    rw [if_neg hlt]
    rfl
  have hnone : (run op).exec s = (.error .overflow, ⟨s, [], []⟩) →
      op.run.outcome s = none ∧ op.run.passes s = [] := by
    intro hrun
    exact ⟨by rw [IoM.outcome, hrun], by rw [IoM.passes, hrun]⟩
  cases op with
  | append lsnStart lsnEnd txnComplete payload =>
    exact hnone (IoM.exec_bind_error (IoM.exec_bind_error (hthrow txnComplete h)))
  | appendDeferred lsnStart lsnEnd txnComplete payload =>
    exact hnone (IoM.exec_bind_error (IoM.exec_bind_error (hthrow txnComplete h)))
  | flushPending => exact absurd trivial h
  | setStalled stalled => exact absurd trivial h

/-- The invariant over one operation. -/
theorem step {s : FrameLog} {l : Layout} {spilled : List Frame} (h : Rep s l spilled)
    {op : LogOp} (hop : op.Fits) :
    (∀ t ∈ op.run.passes s, Shown t) ∧
      ∀ s', op.run.outcome s = some ((), s') → ∃ l' spilled', Rep s' l' spilled' ∧ Grows l l' := by
  by_cases hroom : op.HasRoom s
  · have hspec := spec h hop hroom
    obtain ⟨_, _, -, -, hpasses⟩ := hspec.exec
    exact ⟨hpasses, fun s' hs' => hspec.of_outcome hs'⟩
  · obtain ⟨hout, hpasses⟩ := no_room hroom
    refine ⟨by simp [hpasses], fun s' hs' => ?_⟩
    rw [hout] at hs'
    simp at hs'

end LogOp

/-! ## Runs -/

/-- A log that is open between two operations, one that is inside an operation,
and a directory after a crash. -/
inductive Stage where
  | running (log : FrameLog)
  | inside (log : FrameLog)
  | stopped (dir : Dir)

/-- The log of a stage, if one is open. -/
def Stage.log : Stage → Option FrameLog
  | .running log | .inside log => some log
  | .stopped _ => none

/-- The stages of a frame log, over any order of operations, crashes and recoveries,
without an I/O failure. -/
inductive Reachable : Stage → Prop
  | create {segmentMaxBytes : Nat} {disk disk' : Disk} {log : FrameLog}
      (h : (create segmentMaxBytes).outcome disk = some (log, disk')) : Reachable (.running log)
  | operation {op : LogOp} {s s' : FrameLog} (hs : Reachable (.running s)) (hop : op.Fits)
      (h : op.run.outcome s = some ((), s')) : Reachable (.running s')
  | inside {op : LogOp} {s t : FrameLog} (hs : Reachable (.running s)) (hop : op.Fits)
      (h : t ∈ op.run.passes s) : Reachable (.inside t)
  | crash {stage : Stage} {s : FrameLog} {d : Dir} (hs : Reachable stage)
      (hlog : stage.log = some s) (h : s.dir.CrashImage d) : Reachable (.stopped d)
  | resume {segmentMaxBytes : Nat} {d : Dir} {disk : Disk} {log : FrameLog}
      (hd : Reachable (.stopped d))
      (h : (resume segmentMaxBytes).outcome (some d) = some (log, disk)) :
      Reachable (.running log)
  | crashInResume {segmentMaxBytes : Nat} {d e d' : Dir} (hd : Reachable (.stopped d))
      (he : some e ∈ (FrameLog.resume segmentMaxBytes).passes (some d)) (h : e.CrashImage d') :
      Reachable (.stopped d')

/-- The invariant of each stage. -/
def Stage.Inv : Stage → Prop
  | .running s => ∃ l spilled, Rep s l spilled
  | .inside s => Shown s
  | .stopped d => ∃ L, Recoverable d.segs L

theorem Rep.shown {s : FrameLog} {l : Layout} {spilled : List Frame} (h : Rep s l spilled) :
    Shown s := h.toHolds.shown

theorem Stage.Inv.shown {stage : Stage} (h : stage.Inv) {s : FrameLog}
    (hs : stage.log = some s) : Shown s := by
  cases stage with
  | running t =>
    obtain ⟨l, spilled, hrep⟩ := h
    obtain rfl := Option.some.inj hs
    exact hrep.shown
  | inside t =>
    obtain rfl := Option.some.inj hs
    exact h
  | stopped d => simp [Stage.log] at hs

/-- A new log is empty. -/
theorem create_spec (segmentMaxBytes : Nat) (disk : Disk) :
    Spec (create segmentMaxBytes) disk (fun _ => True) fun log _ => Rep log .empty [] := by
  refine Spec.bind_publish trivial (Spec.bind_call trivial (Spec.bind_call trivial ?_))
  refine Spec.bind_get (Spec.pure ⟨⟨⟨rfl, .nil, by simp⟩, rfl, rfl⟩, .nil, rfl, rfl, ?_, ?_⟩)
  · exact fun _ => rfl
  · simp

theorem Reachable.inv {stage : Stage} (h : Reachable stage) : stage.Inv := by
  induction h with
  | create h =>
    exact ⟨.empty, [], (create_spec _ _).of_outcome h⟩
  | operation _ hop h ih =>
    obtain ⟨l, spilled, hrep⟩ := ih
    obtain ⟨l', spilled', hrep', -⟩ := (LogOp.step hrep hop).2 _ h
    exact ⟨l', spilled', hrep'⟩
  | inside _ hop h ih =>
    obtain ⟨l, spilled, hrep⟩ := ih
    exact (LogOp.step hrep hop).1 _ h
  | crash _ hlog h ih =>
    obtain ⟨l, hshows⟩ := ih.shown hlog
    obtain ⟨last, _, _, -, -, -, -, -, hrec⟩ := hshows.recoverable h
    exact ⟨_, hrec⟩
  | resume _ h ih =>
    obtain ⟨L, hrec⟩ := ih
    obtain ⟨-, ⟨l, hrep, -⟩, -⟩ := (resume_spec hrec _).of_outcome h
    exact ⟨l, [], hrep⟩
  | crashInResume _ he h ih =>
    obtain ⟨L, hrec⟩ := ih
    obtain ⟨_, _, -, -, hpasses⟩ := (resume_spec hrec _).exec
    obtain ⟨e', L', heq, hrec'⟩ := hpasses _ he
    obtain rfl := Option.some.inj heq
    exact hrec'.crash h

/-- A valid durable mark keeps its promise: the fsync'd bytes of the segment files, in
file-name order, decode to frames numbered `0, 1, 2, ..`, and the frame that the
mark names is a durable commit frame with the mark's LSN. -/
theorem durable_mark_sound {stage : Stage} (h : Reachable stage) {s : FrameLog}
    (hs : stage.log = some s) (hvalid : s.durable.valid = true) :
    ∃ fs, decodeFiles (s.dir.segs.map (·.2.durable)) = .ok fs ∧
      (∀ (i : Nat) (f : Frame), fs[i]? = some f → f.seq = i) ∧
      ∃ f, fs[s.durable.seq]? = some f ∧ f.txnComplete = true ∧ f.lsnEnd = s.durable.lsn := by
  obtain ⟨l, hshows⟩ := h.inv.shown hs
  have hproper : Proper l.durableFrames := hshows.proper.of_isPrefix l.durableFrames_isPrefix
  refine ⟨l.durableFrames, ?_, hproper.seq, hshows.mark hvalid⟩
  rw [hshows.segs]
  exact decodeFiles_durable hshows.proper.fits

/-- What `create` returns when nothing is there. -/
def emptyLog (segmentMaxBytes : Nat) : FrameLog :=
  { dir := { segs := [(0, .empty)], staging := none }, segmentMaxBytes, file := 0, segmentLen := 0
    nextSeq := 0, pendingCommit := none, durable := {}, stalled := false, spill := []
    spillFile := false, spilledFrames := 0, totalFrames := 0, totalCommits := 0 }

omit [Crc32c] in
theorem create_outcome (segmentMaxBytes : Nat) : (create segmentMaxBytes).outcome none
    = some (emptyLog segmentMaxBytes, some (emptyLog segmentMaxBytes).dir) := rfl

/-- Operations that return, one after the other. -/
def LogOp.runAll (ops : List LogOp) (s : FrameLog) : Option FrameLog :=
  ops.foldlM (fun s op => (op.run.outcome s).map Prod.snd) s

theorem Reachable.runAll {ops : List LogOp} {s s' : FrameLog} (hs : Reachable (.running s))
    (hops : ∀ op ∈ ops, op.Fits) (h : LogOp.runAll ops s = some s') : Reachable (.running s') := by
  induction ops generalizing s with
  | nil =>
    obtain rfl : s = s' := by simpa [LogOp.runAll] using h
    exact hs
  | cons op ops ih =>
    rw [LogOp.runAll, List.foldlM_cons] at h
    obtain ⟨t, ht, hrest⟩ := Option.bind_eq_some_iff.mp h
    obtain ⟨⟨⟨⟩, t'⟩, hout, rfl⟩ := Option.map_eq_some_iff.mp ht
    refine ih (.operation hs (hops op List.mem_cons_self) hout) ?_ hrest
    exact fun o ho => hops o (List.mem_cons_of_mem op ho)

/-- A log that has taken one commit frame. -/
theorem exists_one_commit : ∃ s : FrameLog, Reachable (.running s) ∧
    s.durable = { seq := 0, lsn := 20, valid := true } := by
  obtain ⟨log, disk, hcreate, hrep, -⟩ := (create_spec 64 none).exec
  have hnew : log.stalled = false ∧ log.nextSeq = 0 := by
    obtain ⟨rfl, -⟩ := Prod.mk.inj (Option.some.inj hcreate)
    exact ⟨rfl, rfl⟩
  have hspec : Spec (LogOp.append 10 20 true [67]).run log Shown fun _ s' =>
      s'.durable = { seq := 0, lsn := 20, valid := true } := by
    refine Spec.bind (append_spec hrep (by rw [hnew.2]; decide) (by decide)) ?_
    rintro _ s' ⟨-, _, _, -, -, hmark⟩
    refine Spec.pure ((hmark hnew.1).trans ?_)
    rw [nextFrame, hnew.2]
    rfl
  obtain ⟨⟨⟩, s, hout, hmark, -⟩ := hspec.exec
  have hfits : (LogOp.append 10 20 true [67]).Fits := by
    show ([67] : Bytes).length < 2 ^ 32
    decide
  exact ⟨s, .operation (.create hcreate) hfits hout, hmark⟩

omit [Crc32c] in
/-- After one commit the fsync'd bytes hold its frame. -/
theorem durable_mark_sound_one_commit : letI := castagnoli
    ∃ s : FrameLog, s.durable = { seq := 0, lsn := 20, valid := true } ∧
      ∃ fs, decodeFiles (s.dir.segs.map (·.2.durable)) = .ok fs ∧
        (∀ (i : Nat) (f : Frame), fs[i]? = some f → f.seq = i) ∧
        ∃ f, fs[s.durable.seq]? = some f ∧ f.txnComplete = true ∧ f.lsnEnd = s.durable.lsn := by
  let _ := castagnoli
  obtain ⟨s, hreach, hmark⟩ := exists_one_commit
  exact ⟨s, hmark, durable_mark_sound hreach rfl (by rw [hmark])⟩

/-! ## Verification -/

/-- `verify_log` goes through whole files without an error. -/
theorem verifySegs_whole {allowTornTail : Bool} {segs : List (Nat × SegFile)}
    {fss : List (List Frame)} (hdata : segs.map (·.2.data) = fss.map encodeFrames)
    (hfits : ∀ fs ∈ fss, ∀ f ∈ fs, f.Fits) (w : Verifying) :
    verifySegs allowTornTail segs w = .ok (fss.flatten.foldl Verifying.frame w) := by
  induction fss generalizing segs w with
  | nil =>
    obtain rfl : segs = [] := by simpa using hdata
    rfl
  | cons fs fss ih =>
    cases segs with
    | nil => simp at hdata
    | cons seg segs =>
      simp only [List.map_cons, List.cons.injEq] at hdata
      rw [verifySegs, hdata.1, readFrames_whole (hfits fs (by simp))]
      simp only [map_fst_withLengths]
      rw [ih hdata.2 fun gs hgs => hfits gs (List.mem_cons_of_mem _ hgs), List.flatten_cons,
        List.foldl_append]

/-- A log between two operations passes verification. -/
theorem Rep.verifyLog {s : FrameLog} {l : Layout} {spilled : List Frame} (h : Rep s l spilled)
    (allowTornTail : Bool) :
    ∃ v, Log.verifyLog s.dir allowTornTail = .ok (v, l.frames) ∧ v.seqContiguous = true := by
  have hdata : s.dir.segs.map (·.2.data) = (l.closed ++ [l.kept ++ l.cached]).map encodeFrames := by
    simp [h.segs, Layout.segs]
  have hfits : ∀ fs ∈ l.closed ++ [l.kept ++ l.cached], ∀ f ∈ fs, f.Fits := by
    intro fs hfs f hf
    refine h.proper.fits f ?_
    simpa [Layout.frames] using List.mem_flatten.mpr ⟨fs, hfs, hf⟩
  obtain ⟨hcont, hseen, -⟩ := foldl_verifying h.proper
  refine ⟨(l.frames.foldl Verifying.frame {}).v, ?_, hcont⟩
  rw [Log.verifyLog, verifySegs_whole hdata hfits]
  have hflat : (l.closed ++ [l.kept ++ l.cached]).flatten = l.frames := by simp [Layout.frames]
  rw [hflat]
  simp [Except.map, hseen]

/-! ## Recovery after a crash -/

/-- One operation that returns. -/
def LogStep (s s' : FrameLog) : Prop :=
  ∃ op : LogOp, op.Fits ∧ op.run.outcome s = some ((), s')

/-- Frames that are in the files stay there, whatever operations follow. -/
theorem Rep.steps {s s' : FrameLog} {l : Layout} {spilled : List Frame} (h : Rep s l spilled)
    (hrun : Relation.ReflTransGen LogStep s s') :
    ∃ l' spilled', Rep s' l' spilled' ∧ l.frames <+: l'.frames := by
  induction hrun with
  | refl => exact ⟨l, spilled, h, List.prefix_refl _⟩
  | tail _ hstep ih =>
    obtain ⟨l', spilled', hrep, hpre⟩ := ih
    obtain ⟨op, hop, hout⟩ := hstep
    obtain ⟨l'', spilled'', hrep', hgrows⟩ := (LogOp.step hrep hop).2 _ hout
    exact ⟨l'', spilled'', hrep', hpre.trans hgrows.frames⟩

end GrayDB.Log
