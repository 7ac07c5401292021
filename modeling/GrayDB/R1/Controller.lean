import GrayDB.Lib.Crash
import Mathlib.Algebra.Ring.Int.Defs
import Mathlib.Algebra.Ring.Nat
import Mathlib.Logic.Function.Basic

/-!
# The run controller

A benchmark run goes through its stages in order.  Before a stage is executed its start is
persisted, and after it its outcome; an invalid outcome, a failed stage or a call from
outside invalidates the run, which then only writes its report and its checksums.

`World` is the controller with its directory.  `World.begun` lists the stage executions
with the invalidations that they were begun with; the controller does not read it.  What
the runtime does, and the clock, is given by a `Runtime`.
-/

namespace GrayDB.R1.Controller

open Lib.Crash

/-! ## Stages -/

inductive RunStage where
  | preflight
  | seed
  | baselineSnapshot
  | bootstrap
  | initialCheckpoint
  | warmup
  | quiet
  | cdc300
  | cdc1000
  | rateSearch
  | failureSequence
  | finalCheckpoint
  | report
  | checksums
  | complete
  deriving DecidableEq, Repr

namespace RunStage

def ordered : List RunStage :=
  [.preflight, .seed, .baselineSnapshot, .bootstrap, .initialCheckpoint, .warmup, .quiet, .cdc300,
    .cdc1000, .rateSearch, .failureSequence, .finalCheckpoint, .report, .checksums, .complete]

def permitsAfterInvalidation : RunStage → Bool
  | .report | .checksums => true
  | _ => false

/-- The name that messages use. -/
def name : RunStage → String
  | .preflight => "Preflight"
  | .seed => "Seed"
  | .baselineSnapshot => "BaselineSnapshot"
  | .bootstrap => "Bootstrap"
  | .initialCheckpoint => "InitialCheckpoint"
  | .warmup => "Warmup"
  | .quiet => "Quiet"
  | .cdc300 => "Cdc300"
  | .cdc1000 => "Cdc1000"
  | .rateSearch => "RateSearch"
  | .failureSequence => "FailureSequence"
  | .finalCheckpoint => "FinalCheckpoint"
  | .report => "Report"
  | .checksums => "Checksums"
  | .complete => "Complete"

end RunStage

inductive QueryId where
  | q1
  | q2
  | q3
  | q4
  | q5
  deriving DecidableEq, Repr

inductive EngineKind where
  | graydb
  | clickhouse
  deriving DecidableEq, Repr

inductive RunMode where
  | correctness
  | isolated
  deriving DecidableEq, Repr

inductive ScaleProfile where
  | macSmoke
  | macCorrectness
  | macValidation
  | macStress
  | macCeiling
  | awsPhase1
  deriving DecidableEq, Repr

inductive RunInvalidation where
  | datasetHashMismatch
  | workloadHashMismatch
  | missingSequence (sequence : Nat)
  | duplicateSequence (sequence : Nat)
  | stateChangingReorder (before after : Nat)
  | staleResult (targetLsn visibleLsn : Nat)
  | resultDigestMismatch (query : QueryId) (checkpoint : Nat)
  | freshnessP99Exceeded (limitMs actualMs : Nat)
  | sourceRateMissed (target achieved : Nat)
  | resourceSafetyGate (reason : String)
  | unexpectedProcessExit (reason : String)
  | missingArtifact (reason : String)
  deriving DecidableEq, Repr

structure CommandOutcome where
  program : String
  args : List String
  exitCode : Option Int
  stdout : String
  stderr : String
  deriving DecidableEq, Repr

/-- Of a timed query, what the sample counts read. -/
structure StageQueryRecord where
  query : QueryId
  engine : Option EngineKind
  failed : Bool
  deriving DecidableEq, Repr

structure StageOutcome where
  commandOutcomes : List CommandOutcome := []
  artifactPaths : List String := []
  valid : Bool := true
  invalidation : Option RunInvalidation := none
  queryRecords : List StageQueryRecord := []
  controllerRestartRequired : Bool := false
  deriving DecidableEq, Repr

structure ProfileSpec where
  minimumBytes : Nat
  repetitions : Nat
  warmupSecs : Nat
  quietSecs : Nat
  fixedRateSecs : Nat
  searchStepSecs : Nat
  maximumRate : Nat
  deriving DecidableEq, Repr

structure RunPlan where
  profile : ScaleProfile
  spec : ProfileSpec
  mode : RunMode
  engines : List EngineKind
  inputHashes : List (String × String)
  deriving DecidableEq, Repr

structure StageRecord where
  inputHashes : List (String × String) := []
  startedAtUnixMs : Option Nat := none
  endedAtUnixMs : Option Nat := none
  commandOutcomes : List CommandOutcome := []
  artifactPaths : List String := []
  valid : Bool := false
  completed : Bool := false
  executionCount : Nat := 0
  queryRecords : List StageQueryRecord := []
  deriving DecidableEq, Repr

structure RunState where
  runId : String
  stages : RunStage → Option StageRecord
  invalidations : List RunInvalidation
  plan : Option RunPlan

namespace RunState

def new (runId : String) : RunState :=
  { runId, stages := fun _ => none, invalidations := [], plan := none }

def isInvalid (s : RunState) : Bool := !s.invalidations.isEmpty

/-- The stage has a completed record. -/
def completed (s : RunState) (stage : RunStage) : Bool :=
  (s.stages stage).any fun record => record.completed

def nextStage (s : RunState) : Option RunStage :=
  if s.isInvalid then [RunStage.report, .checksums].find? fun stage => !s.completed stage
  else RunStage.ordered.find? fun stage => !s.completed stage

/-- The record of a stage that starts. -/
def start (s : RunState) (stage : RunStage) (inputHashes : List (String × String)) (now : Nat) :
    RunState :=
  let record := (s.stages stage).getD {}
  { s with stages := Function.update s.stages stage (some
      { record with
        inputHashes, startedAtUnixMs := some now, endedAtUnixMs := none, commandOutcomes := [],
        artifactPaths := [], queryRecords := [], valid := true, completed := false }) }

/-- The record of a stage that ends, and the invalidation that an invalid outcome brings. -/
def finish (s : RunState) (stage : RunStage) (record : StageRecord) (outcome : StageOutcome)
    (now : Nat) : RunState :=
  { s with
    stages := Function.update s.stages stage (some
      { record with
        endedAtUnixMs := some now, commandOutcomes := outcome.commandOutcomes,
        artifactPaths := outcome.artifactPaths, queryRecords := outcome.queryRecords,
        valid := outcome.valid, completed := true,
        executionCount := min (record.executionCount + 1) (2 ^ 32 - 1) })
    invalidations := if outcome.valid then s.invalidations else s.invalidations ++
      [outcome.invalidation.getD (.resourceSafetyGate s!"{stage.name} marked invalid")] }

def invalidate (s : RunState) (reason : RunInvalidation) : RunState :=
  { s with invalidations := s.invalidations ++ [reason] }

end RunState

/-! ## Timed stages -/

/-- The nanoseconds of the longest `Duration`. -/
def maxDuration : Nat := 2 ^ 64 * 10 ^ 9 - 1

def saturatingMul (duration n : Nat) : Nat := min (duration * n) maxDuration

structure QueryStagePolicy where
  scheduledDuration : Nat
  maximumDuration : Nat
  minimumSamplesPerQuery : Nat
  deriving DecidableEq, Repr

def searchRates (maximum : Nat) : List Nat :=
  [2000, 4000, 8000, 16000, 32000, 64000].filter fun rate => rate ≤ maximum

namespace QueryStagePolicy

def forStage (profile : ProfileSpec) (stage : RunStage) : Option QueryStagePolicy :=
  let seconds : Option Nat :=
    match stage with
    | .warmup => some profile.warmupSecs
    | .quiet => some profile.quietSecs
    | .cdc300 | .cdc1000 => some profile.fixedRateSecs
    | .rateSearch =>
      some (min (profile.searchStepSecs * (searchRates profile.maximumRate).length) (2 ^ 64 - 1))
    | _ => none
  seconds.map fun seconds =>
    { scheduledDuration := seconds * 10 ^ 9
      maximumDuration := saturatingMul (seconds * 10 ^ 9) 2
      minimumSamplesPerQuery := 30 }

def validates (policy : QueryStagePolicy) (querySamples : List Nat) (elapsed : Nat) : Bool :=
  decide (elapsed ≤ policy.maximumDuration) && !querySamples.isEmpty &&
    querySamples.length % 5 == 0 &&
    querySamples.all fun samples => decide (policy.minimumSamplesPerQuery ≤ samples)

end QueryStagePolicy

def stagePolicy (plan : RunPlan) (stage : RunStage) : Option QueryStagePolicy :=
  (QueryStagePolicy.forStage plan.spec stage).map fun policy =>
    if plan.mode = .isolated then
      let engines := max (min plan.engines.length (2 ^ 32 - 1)) 1
      { policy with
        scheduledDuration := saturatingMul policy.scheduledDuration engines
        maximumDuration := saturatingMul policy.maximumDuration engines }
    else policy

def querySampleCounts (records : List StageQueryRecord) (engines : List EngineKind) : List Nat :=
  [QueryId.q1, .q2, .q3, .q4, .q5].flatMap fun query => engines.map fun engine =>
    (records.filter fun record =>
      record.engine = some engine ∧ record.query = query ∧ record.failed = false).length

/-! ## Isolated replay -/

structure ReplayMapEntry where
  logicalSequence : Nat
  originalSourceLsn : Nat
  replaySourceLsn : Nat
  operationSha256 : String
  deriving DecidableEq, Repr

structure IsolatedReplayEvidence where
  workloadHashes : List (List String)
  replayMaps : List (List ReplayMapEntry)
  logicalCheckpoints : List Nat
  deriving DecidableEq, Repr

/-- The entries stand for the same committed operation. -/
def ReplayMapEntry.matches (a b : ReplayMapEntry) : Bool :=
  a.logicalSequence == b.logicalSequence && a.originalSourceLsn == b.originalSourceLsn &&
    a.operationSha256 == b.operationSha256

def IsolatedReplayEvidence.validate (e : IsolatedReplayEvidence) : Except String Unit :=
  match e.workloadHashes with
  | [] => .error "isolated replay has no workload hash"
  | expected :: _ =>
    if expected.isEmpty then .error "isolated replay committed ledger is empty"
    else if e.workloadHashes.any (fun hashes => hashes != expected) then
      .error "isolated replay workload hashes do not match the canonical intent plan"
    else
      match e.replayMaps, e.logicalCheckpoints with
      | [first, map], [checkpoint, checkpoint'] =>
        if checkpoint ≠ checkpoint' then
          .error "isolated engines did not reach the same logical checkpoint"
        else if first.isEmpty then .error "isolated replay maps contain no committed operation"
        else if first.length ≠ map.length ∨
            (first.zip map).any (fun ab => !ab.1.matches ab.2) = true then
          .error "isolated replay maps do not represent the same committed ledger"
        else .ok ()
      | _, _ => .error "isolated mode requires exactly two replay maps and matching checkpoints"

/-! ## The run directory -/

/-- What a file of the run's state holds: the text of a state, or the first bytes of it. -/
inductive StateText where
  | whole (state : RunState)
  | cut (state : RunState) (bytes : Nat)

/-- The files of the state.  `durable` is what `run-state.json` was when the directory was
last synced. -/
structure Disk where
  stateFile : Option StateText := none
  partialFile : Option StateText := none
  durable : Option StateText := none

/-- A stage execution, and the invalidations that it was begun with. -/
structure StageBegun where
  stage : RunStage
  invalidations : List RunInvalidation
  deriving DecidableEq, Repr

structure World where
  disk : Disk
  /-- The state in the memory of the controller. -/
  state : RunState
  begun : List StageBegun

structure StageContext where
  stage : RunStage
  plan : RunPlan
  policy : Option QueryStagePolicy
  invalidations : List RunInvalidation
  deriving DecidableEq, Repr

/-- What the runtime and the clock do at each execution of a stage. -/
structure Runtime where
  executeStage : Nat → StageContext → Except String StageOutcome
  prepareIsolatedReplay : Nat → StageContext → Except String IsolatedReplayEvidence
  startedAt : Nat → Nat
  endedAt : Nat → Nat
  elapsed : Nat → Nat

inductive ControllerError where
  | invalidRun
  | noStageRemaining
  | outOfOrder (stage expected : RunStage)
  | noStartRecord (stage : RunStage)
  | notStarted (stage : RunStage)
  | planImmutable
  | cannotRun (stage : RunStage)
  | stageFailed (error : String)
  | isolatedReplay (error : String)
  | stateExists
  | reading
  | parsing
  | runIdMismatch
  | io (context : String)
  deriving DecidableEq, Repr

def ControllerError.message : ControllerError → String
  | .invalidRun => "invalid run may only advance report and checksums"
  | .noStageRemaining => "run has no stage remaining"
  | .outOfOrder stage expected => s!"stage {stage.name} is out of order; expected {expected.name}"
  | .noStartRecord stage => s!"stage {stage.name} has no durable start record"
  | .notStarted stage => s!"stage {stage.name} is not a currently durable started stage"
  | .planImmutable => "run plan is immutable once persisted"
  | .cannotRun stage => s!"stage {stage.name} cannot run without a persisted run plan"
  | .stageFailed error => error
  | .isolatedReplay error => s!"preparing isolated replay: {error}"
  | .stateExists => "run state already exists; use resume"
  | .reading => "reading run-state.json"
  | .parsing => "parsing run-state.json"
  | .runIdMismatch => "run-state run_id does not match requested run id"
  | .io context => context

abbrev ControllerM := IoM ControllerError World

/-- A new file, synced and renamed, and its directory synced. -/
def persist : ControllerM Unit := do
  IoM.call (.io "creating run-state.json.partial")
    (fun w => { w with disk.partialFile := some (.cut w.state 0) }) fun _ w => w
  IoM.call (.io "writing run-state.json.partial")
    (fun w => { w with disk.partialFile := some (.whole w.state) })
    fun k w => { w with disk.partialFile := some (.cut w.state k) }
  IoM.call (.io "syncing run-state.json.partial") id fun _ w => w
  IoM.call (.io "renaming run-state.json")
    (fun w => { w with disk.stateFile := w.disk.partialFile, disk.partialFile := none }) fun _ w => w
  IoM.call (.io "syncing state directory")
    (fun w => { w with disk.durable := w.disk.stateFile }) fun _ w => w

/-- An event of the run is written. -/
def emitStage : ControllerM Unit := IoM.call (.io "emitting event") id fun _ w => w

def assertStageAllowed (stage : RunStage) : ControllerM Unit := do
  let w ← IoM.get
  if w.state.isInvalid ∧ !stage.permitsAfterInvalidation then IoM.throw .invalidRun
  else
    match w.state.nextStage with
    | none => IoM.throw .noStageRemaining
    | some expected =>
      if stage ≠ expected then IoM.throw (.outOfOrder stage expected) else pure ()

def setPlan (plan : RunPlan) : ControllerM Unit := do
  let w ← IoM.get
  if w.state.plan.any fun existing => existing != plan then IoM.throw .planImmutable
  else do
    IoM.modify fun w => { w with state.plan := some plan }
    persist

def beginStage (stage : RunStage) (inputHashes : List (String × String)) (now : Nat) :
    ControllerM Unit := do
  assertStageAllowed stage
  IoM.modify fun w => { w with state := w.state.start stage inputHashes now }
  persist
  emitStage

def completeStage (stage : RunStage) (outcome : StageOutcome) (now : Nat) : ControllerM Unit := do
  assertStageAllowed stage
  let w ← IoM.get
  match w.state.stages stage with
  | none => IoM.throw (.noStartRecord stage)
  | some record =>
    if record.startedAtUnixMs.isNone || record.completed then IoM.throw (.notStarted stage)
    else do
      IoM.modify fun w => { w with state := w.state.finish stage record outcome now }
      persist
      emitStage

def invalidate (reason : RunInvalidation) : ControllerM Unit := do
  IoM.modify fun w => { w with state := w.state.invalidate reason }
  persist
  emitStage

/-- The stage is executed, with the invalidations that there are now. -/
def execute (stage : RunStage) : ControllerM Unit :=
  IoM.publish fun w => { w with begun := w.begun ++ [⟨stage, w.state.invalidations⟩] }

inductive LifecycleStatus where
  | complete
  | invalidArchived
  | restartRequired
  deriving DecidableEq, Repr

/-- The run is invalidated, and the error returned. -/
def failStage {α : Type} (reason : RunInvalidation) (error : ControllerError) : ControllerM α := do
  invalidate reason
  IoM.throw error

/-- The replay of an isolated run is prepared behind the baseline. -/
def checkReplay (runtime : Runtime) (n : Nat) (context : StageContext) : ControllerM Unit :=
  if context.stage = .baselineSnapshot ∧ context.plan.mode = .isolated then
    match (runtime.prepareIsolatedReplay n context).bind (·.validate) with
    | .error error => failStage .workloadHashMismatch (.isolatedReplay error)
    | .ok () => pure ()
  else pure ()

/-- The outcome is recorded; a timed stage without its samples is invalid. -/
def closeStage (runtime : Runtime) (n : Nat) (context : StageContext) (outcome : StageOutcome) :
    ControllerM (Option LifecycleStatus) :=
  if (stagePolicy context.plan context.stage).any fun policy =>
      !policy.validates (querySampleCounts outcome.queryRecords context.plan.engines)
        (runtime.elapsed n) then do
    completeStage context.stage
      { outcome with
        valid := false
        invalidation := some (.missingArtifact (s!"{context.stage.name} did not record at least " ++
          "30 successful samples for Q1-Q5 within 2x duration")) } (runtime.endedAt n)
    return none
  else do
    completeStage context.stage outcome (runtime.endedAt n)
    return if outcome.controllerRestartRequired then some .restartRequired else none

/-- One turn of the loop of `run_to_terminal`, for the next stage. -/
def runIteration (runtime : Runtime) (plan : RunPlan) (stage : RunStage) :
    ControllerM (Option LifecycleStatus) := do
  let w ← IoM.get
  let n := w.begun.length
  beginStage stage plan.inputHashes (runtime.startedAt n)
  let w ← IoM.get
  let context : StageContext :=
    { stage, plan, policy := stagePolicy plan stage, invalidations := w.state.invalidations }
  execute stage
  match runtime.executeStage n context with
  | .error error =>
    failStage (.unexpectedProcessExit s!"{stage.name}: {error}") (.stageFailed error)
  | .ok outcome => do
    checkReplay runtime n context
    closeStage runtime n context outcome

/-- The turns of the loop, at most so many: `none` if they were not enough. -/
def runLoop (runtime : Runtime) (plan : RunPlan) : Nat → ControllerM (Option LifecycleStatus)
  | 0 => pure none
  | turns + 1 => do
    let w ← IoM.get
    match w.state.nextStage with
    | none => pure (some (if w.state.isInvalid then .invalidArchived else .complete))
    | some stage => do
      match ← runIteration runtime plan stage with
      | some status => pure (some status)
      | none => runLoop runtime plan turns

/-- What the archive writes itself. -/
def archiveStage (stage : RunStage) : ControllerM StageOutcome :=
  match stage with
  | .report => do
    IoM.call (.io "writing result.json") id fun _ w => w
    pure { artifactPaths := ["result.json", "result.md", "aws-capacity-request.json"] }
  | .checksums => do
    IoM.call (.io "writing SHA256SUMS") id fun _ w => w
    pure { artifactPaths := ["SHA256SUMS"] }
  | other => IoM.throw (.cannotRun other)

def archiveLoop (runtime : Runtime) : Nat → ControllerM (Option LifecycleStatus)
  | 0 => pure none
  | turns + 1 => do
    let w ← IoM.get
    match w.state.nextStage with
    | none => pure (some .invalidArchived)
    | some stage => do
      let n := w.begun.length
      beginStage stage [] (runtime.startedAt n)
      execute stage
      let outcome ← archiveStage stage
      completeStage stage outcome (runtime.endedAt n)
      archiveLoop runtime turns

def archiveUnplanned (runtime : Runtime) (turns : Nat) : ControllerM (Option LifecycleStatus) := do
  let w ← IoM.get
  if w.state.isInvalid then pure ()
  else
    invalidate (.missingArtifact
      "persisted run plan is missing; benchmark stages cannot execute")
  archiveLoop runtime turns

/-- The loop is left after as many turns as there are stages, and one to find that none is
left. -/
def runToTerminal (runtime : Runtime) : ControllerM (Option LifecycleStatus) := do
  let w ← IoM.get
  match w.state.plan with
  | none => archiveUnplanned runtime (RunStage.ordered.length + 1)
  | some plan => runLoop runtime plan (RunStage.ordered.length + 1)

/-- The state is persisted for a restart of the controller. -/
def durableRestart : ControllerM Unit := do
  persist
  emitStage

def create : ControllerM Unit := do
  let w ← IoM.get
  if w.disk.stateFile.isSome then IoM.throw .stateExists else persist

/-- A new run. -/
def World.new (runId : String) : World := { disk := {}, state := .new runId, begun := [] }

/-- What is left on the disk when the controller is stopped: what was there, or, when the
machine stops, what the directory had or has come to have. -/
inductive Disk.Crash (d : Disk) : Disk → Prop where
  | process : Disk.Crash d d
  | machine (visible partialFile : Option StateText)
      (h : visible = d.stateFile ∨ visible = d.durable) :
      Disk.Crash d { stateFile := visible, partialFile, durable := visible }

/-- A controller that resumes from the disk. -/
def resume (disk : Disk) (begun : List StageBegun) (runId : String) :
    Except ControllerError World :=
  match disk.stateFile with
  | none => .error .reading
  | some (.cut _ _) => .error .parsing
  | some (.whole state) =>
    if state.runId ≠ runId then .error .runIdMismatch else .ok { disk, state, begun }

/-! ## The report -/

structure WinnerEvaluation where
  graydbBeatClickhouse : Bool
  deriving DecidableEq, Repr

/-- Of a result, what tells whether it is valid and who wins. -/
structure RunResult where
  valid : Bool := false
  invalidations : List RunInvalidation := []
  winner : Option WinnerEvaluation := none
  deriving DecidableEq, Repr

/-- The last line of the written report. -/
def RunResult.conclusion (r : RunResult) : Option String :=
  if r.valid then
    match r.winner with
    | some winner =>
      if winner.graydbBeatClickhouse then some "Conclusion: GrayDB beat ClickHouse."
      else some "Conclusion: no overall winner."
    | none => some "Conclusion: no overall winner."
  else none

/-- What the report of the system reads besides the state of the run. -/
structure ReportEvidence where
  manifest : Bool
  /-- The final checkpoint, and whether it passed. -/
  finalCheckpoint : Option Bool
  querySamples : Bool

def missingStages (state : RunState) : List RunInvalidation :=
  ((RunStage.ordered.takeWhile fun stage => stage != .report).filter fun stage =>
    !(state.stages stage).any fun record => record.completed && record.valid).map fun stage =>
      .missingArtifact s!"required stage {stage.name} has no valid durable completion"

def writeSystemReport (state : RunState) (invalidations : List RunInvalidation)
    (evidence : ReportEvidence) : RunResult :=
  let reasons := (missingStages state).foldl
    (fun reasons reason => if reason ∈ reasons then reasons else reasons ++ [reason]) invalidations
  let reasons := if evidence.manifest then reasons else
    reasons ++ [.missingArtifact "dataset-manifest.json is absent or invalid"]
  let reasons := if evidence.finalCheckpoint.isSome then reasons else
    reasons ++ [.missingArtifact "final correctness checkpoint is absent or invalid"]
  let reasons := if reasons.isEmpty && !evidence.querySamples then
    reasons ++ [.missingArtifact "no successful timed query samples were recorded"] else reasons
  let reasons := if evidence.finalCheckpoint = some false && reasons.isEmpty then
    reasons ++ [.resultDigestMismatch .q1 0] else reasons
  { valid := reasons.isEmpty, invalidations := reasons }

/-- The report of a run without a plan. -/
def archivedReport (invalidations : List RunInvalidation) : RunResult :=
  let reason := invalidations.head?.getD (.missingArtifact "run plan is missing")
  { invalidations := reason :: invalidations.drop 1 }

end GrayDB.R1.Controller
