import GrayDB.R1.Ledger
import GrayDB.R1.Workload

/-!
# The application writer

`ApplicationWriter::run` is a loop whose iterations have three concurrent parts: the
statements of the pending chunk of plans (exec), the control mappings of these plans (map),
and the next chunk (fill).  When all three are through, the results of exec are compared
with the ledger, and the next chunk is handed over.

The writer is a machine here.  Its state is that of the loop and of the three parts,
together with the source: the markers committed there, in commit order, and how many of
their mappings were received.  An act is a step of one part, or one of the world outside: a
commit, the results of the statements, a mapping that comes or does not come in time.
-/

namespace GrayDB.R1

structure LedgerCommit where
  sequence : Nat
  xid : Nat
  /-- `Commit.end_lsn` of pgoutput. -/
  sourceLsn : Nat
  operationSha256 : String
  deriving DecidableEq, Repr

/-- One pipelined statement's result. -/
inductive StatementOutput where
  | unit
  | xid (value : Nat)
  deriving DecidableEq, Repr

abbrev StatementResult := Except String StatementOutput

inductive WriterError where
  | rate
  | burst (rows : Nat)
  | mapperStopped (sequence : Nat)
  | recovery
  | markerDisagrees
  | neverArrived (sequence : Nat)
  | mappedHash
  | appending (sequence : Nat) (cause : LedgerError)
  | missing (sequence : Nat)
  | xidDiffers (ledgerXid executedXid sequence : Nat)
  deriving DecidableEq, Repr

def WriterError.message : WriterError → String
  | .rate => "rate limiter requires a positive rows-per-second rate"
  | .burst rows => s!"rows {rows} exceed limiter burst 1000"
  | .mapperStopped sequence => s!"control mapper stopped before sequence {sequence} was visible"
  | .recovery => "opening fresh recovery connection"
  | .markerDisagrees => "control marker hash disagrees with transaction intent"
  | .neverArrived sequence =>
    s!"plan {sequence} is marked committed but its control mapping never arrived"
  | .mappedHash => "mapped operation hash mismatch"
  | .appending sequence cause => s!"appending ledger entry {sequence}: {cause.message}"
  | .missing sequence => s!"ledger entry {sequence} missing after mapping"
  | .xidDiffers ledgerXid executedXid sequence =>
    s!"ledger xid {ledgerXid} differs from executed xid {executedXid} for sequence {sequence}"

/-! ## Exec -/

/-- The results of one plan: the last xid, and the last failure. -/
def planResult (results : List StatementResult) : Except String Nat :=
  let xid := results.foldl (fun xid r =>
    match r with
    | .ok (.xid value) => some value
    | _ => xid) none
  let failure := results.foldl (fun failure r =>
    match r with
    | .error e => some e
    | .ok _ => failure) none
  match xid, failure with
  | some xid, none => .ok xid
  | _, some e => .error e
  | none, none => .error "writer chunk produced no xid and no error"

/-- BEGIN, the operations, the marker and COMMIT of each plan. -/
def planResults : List TransactionPlan → List StatementResult → List (Except String Nat)
  | [], _ => []
  | plan :: plans, results =>
    planResult (results.take (plan.operations.length + 3)) ::
      planResults plans (results.drop (plan.operations.length + 3))

def statementCount (plans : List TransactionPlan) : Nat :=
  (plans.map fun plan => plan.operations.length + 3).sum

/-! ## The state -/

inductive Waiting where
  /-- At the head of the loop over the plans. -/
  | head
  | recv
  /-- The marker is looked up, with the mapping in hand, if there is one. -/
  | query (mapped : Option LedgerCommit)
  deriving DecidableEq, Repr

/-- The map part: the plan it is at and those behind it. -/
structure MapPhase where
  plans : List TransactionPlan
  carried : Option LedgerCommit := none
  waiting : Waiting := .head
  deriving DecidableEq, Repr

/-- The locals of one iteration. -/
structure Iteration where
  lastIteration : Bool
  plans : List TransactionPlan
  executed : Option (List (Except String Nat)) := none
  map : MapPhase
  chunk : List TransactionPlan := []
  deriving DecidableEq, Repr

structure WriterState where
  ledger : CommittedLedger
  nextSequence : Nat
  pending : Option (List (TransactionPlan × Except String Nat)) := none
  iteration : Option Iteration := none
  result : Option (Except WriterError Unit) := none
  /-- The plans appended to the intent log. -/
  intents : List TransactionPlan := []
  /-- The plans whose statements were sent. -/
  issued : List TransactionPlan := []
  /-- The markers committed at the source. -/
  committed : List LedgerCommit := []
  /-- How many of their mappings were received. -/
  delivered : Nat := 0
  deriving DecidableEq, Repr

inductive WriterAct where
  /-- The head of the loop, with what `stop` holds. -/
  | head (stop : Bool)
  /-- The source commits. -/
  | commit (c : LedgerCommit)
  /-- All statements of the chunk have ended. -/
  | results (results : List StatementResult)
  /-- The map part goes to its next plan.  Here and below, the time of the clock. -/
  | next (now : Nat)
  | deliver (now : Nat)
  /-- Thirty seconds without a mapping. -/
  | timeout
  | closed
  | query
  | queryFails
  /-- One plan is drawn and its intent appended. -/
  | fill
  | join
  deriving DecidableEq, Repr

namespace WriterState

def fail (e : WriterError) (s : WriterState) : WriterState :=
  { s with iteration := none, result := some (.error e) }

/-- The run starts. -/
def start (ledger : CommittedLedger) : WriterState where
  ledger
  nextSequence := GrayDB.R1.nextSequence ledger.entries

/-! ## The steps -/

/-- The head of the loop. -/
def head (stop : Bool) (s : WriterState) : WriterState :=
  if s.pending.isSome ∨ ¬stop then
    let plans := (s.pending.getD []).map Prod.fst
    { s with
      iteration := some { lastIteration := stop, plans, map := { plans } }
      issued := s.issued ++ plans }
  else { s with result := some (.ok ()) }

/-- A marker is committed by the transaction of a plan that was sent, once. -/
def commit (c : LedgerCommit) (s : WriterState) : Option WriterState :=
  if (∃ plan ∈ s.issued, c.sequence = plan.sequence ∧ c.operationSha256 = plan.operationSha256) ∧
      c.sequence ∉ s.committed.map LedgerCommit.sequence then
    some { s with committed := s.committed ++ [c] }
  else none

section Ledger

variable [LedgerText]

/-- A mapping is there for the plan at hand. -/
def mapped (m : LedgerCommit) (now : Nat) (it : Iteration) (s : WriterState) : WriterState :=
  match it.map.plans with
  | [] => s
  | plan :: plans =>
    if m.sequence ≠ plan.sequence then
      let map := { it.map with carried := none, waiting := .query (some m) }
      { s with iteration := some { it with map } }
    else if m.operationSha256 ≠ plan.operationSha256 then s.fail .mappedHash
    else
      match s.ledger.append {
        sequence := m.sequence
        xid := m.xid
        sourceLsn := m.sourceLsn
        operationSha256 := m.operationSha256
        committedUnixMs := now
        previousEntrySha256 := lastHash s.ledger.entries
        entrySha256 := "" } with
      | .error e => s.fail (.appending m.sequence e)
      | .ok (ledger, _) => { s with ledger, iteration := some { it with map := { plans } } }

/-- The next plan: with the mapping that is carried, or with one to wait for. -/
def next (now : Nat) (it : Iteration) (s : WriterState) : Option WriterState :=
  if it.map.waiting = .head ∧ it.map.plans ≠ [] then
    match it.map.carried with
    | some m => some (s.mapped m now it)
    | none => some { s with iteration := some { it with map := { it.map with waiting := .recv } } }
  else none

def deliver (now : Nat) (it : Iteration) (s : WriterState) : Option WriterState :=
  if it.map.waiting = .recv then
    s.committed[s.delivered]?.map fun m => { s with delivered := s.delivered + 1 }.mapped m now it
  else none

end Ledger

def timeout (it : Iteration) (s : WriterState) : Option WriterState :=
  if it.map.waiting = .recv then
    some { s with iteration := some { it with map := { it.map with waiting := .query none } } }
  else none

def closed (it : Iteration) (s : WriterState) : Option WriterState :=
  match it.map.waiting, it.map.plans with
  | .recv, plan :: _ => some (s.fail (.mapperStopped plan.sequence))
  | _, _ => none

/-- `classify_committed_plan`: the marker, as the source has it now. -/
def query (it : Iteration) (s : WriterState) : Option WriterState :=
  match it.map.waiting, it.map.plans with
  | .query carried, plan :: plans =>
    match s.committed.find? fun c => c.sequence = plan.sequence with
    | some c =>
      if c.operationSha256 = plan.operationSha256 then some (s.fail (.neverArrived plan.sequence))
      else some (s.fail .markerDisagrees)
    | none => some { s with iteration := some { it with map := { plans, carried } } }
  | _, _ => none

def queryFails (it : Iteration) (s : WriterState) : Option WriterState :=
  match it.map.waiting with
  | .query _ => some (s.fail .recovery)
  | _ => none

def results (results : List StatementResult) (it : Iteration) (s : WriterState) :
    Option WriterState :=
  if it.executed = none ∧ results.length = statementCount it.plans then
    some { s with iteration := some { it with executed := some (planResults it.plans results) } }
  else none

/-- `target_rate / 2`, clamped. -/
def chunkSize (targetRate : Nat) : Nat := max 64 (min 2048 (targetRate / 2))

/-- Whether the limiter lets so many rows through, sooner or later. -/
def acquire (targetRate rows : Nat) : Except WriterError Unit :=
  if rows = 0 then .ok ()
  else if targetRate = 0 then .error .rate
  else if 1000 < rows then .error (.burst rows)
  else .ok ()

/-- How many plans this iteration draws. -/
def wanted (targetRate : Nat) (it : Iteration) : Nat :=
  if it.lastIteration then 0 else chunkSize targetRate

def fill (targetRate : Nat) (planner : Nat → TransactionPlan) (it : Iteration) (s : WriterState) :
    Option WriterState :=
  if it.chunk.length < wanted targetRate it then
    let plan := planner s.nextSequence
    match acquire targetRate plan.operations.length with
    | .error e => some (s.fail e)
    | .ok () => some { s with
        iteration := some { it with chunk := it.chunk ++ [plan] }
        intents := s.intents ++ [plan]
        nextSequence := s.nextSequence + 1 }
  else none

/-- The executed xids against the ledger. -/
def crossVerify (entries : List LedgerEntry) :
    List (TransactionPlan × Except String Nat) → Except WriterError Unit
  | [] => .ok ()
  | (_, .error _) :: rest => crossVerify entries rest
  | (plan, .ok xid) :: rest =>
    match entries.find? fun e => e.sequence = plan.sequence with
    | none => .error (.missing plan.sequence)
    | some entry =>
      if entry.xid = xid then crossVerify entries rest
      else .error (.xidDiffers entry.xid xid plan.sequence)

/-- All three parts are through. -/
def join (targetRate : Nat) (it : Iteration) (s : WriterState) : Option WriterState :=
  match it.executed with
  | none => none
  | some executed =>
    if it.map.waiting = .head ∧ it.map.plans = [] ∧
        it.chunk.length = wanted targetRate it then
      match crossVerify s.ledger.entries (it.plans.zip executed) with
      | .error e => some (s.fail e)
      | .ok () =>
        if it.lastIteration then some { s with iteration := none, result := some (.ok ()) }
        else some { s with iteration := none, pending := some (it.chunk.zip executed) }
    else none

section Step

variable [LedgerText] (targetRate : Nat) (planner : Nat → TransactionPlan)

/-- One act, in a run that has not returned. -/
def play (a : WriterAct) (s : WriterState) : Option WriterState :=
  match a, s.iteration with
  | .commit c, _ => s.commit c
  | .head stop, none => if s.result = none then some (s.head stop) else none
  | _, none => none
  | .head _, some _ => none
  | .results rs, some it => s.results rs it
  | .next now, some it => s.next now it
  | .deliver now, some it => s.deliver now it
  | .timeout, some it => s.timeout it
  | .closed, some it => s.closed it
  | .query, some it => s.query it
  | .queryFails, some it => s.queryFails it
  | .fill, some it => s.fill targetRate planner it
  | .join, some it => s.join targetRate it

def step (a : WriterAct) (s s' : WriterState) : Prop := s.play targetRate planner a = some s'

end Step

end WriterState

end GrayDB.R1
