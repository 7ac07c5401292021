import GrayDB.Columnar.Snapshot
import GrayDB.Search.Reader
import GrayDB.Studio.Materialize

/-!
# A query beside the apply loop

A tick holds the lock of the pipeline from its start to its end.  A query holds it only to
copy the column stores; then it opens the metadata file of each index, and searches the
indexes and reads the segment files when the SQL asks for it.  So the steps of a tick and
those of a query alternate in any order, but for the copy.

`EngineAct.step` is one such step.  The steps of a tick are those of `materialize`, where a
commit is two steps more: the file of the metadata is truncated, and then written.

`commitLsns`, `positions` and `failed` are for the statements only: the LSN with which each
index was last committed, the pipeline behind each tick, and whether a tick has failed.
-/

namespace GrayDB.Studio

open Lib Lib.Crash Log Registry Columnar Search

/-- A source of rows. -/
inductive Shape where
  | columnar (table : String)
  | search (table : String)
  deriving DecidableEq, Repr

def Shape.text : Shape → String
  | .columnar table => s!"columnar:{table}"
  | .search table => s!"search:{table}"

structure LsnProof where
  targetLsn : Option Nat
  receivedLsn : Nat
  shapes : List (Shape × Nat)
  deriving DecidableEq, Repr

/-- The rows that were read of one segment. -/
structure ScanPart where
  name : String
  segment : SegmentSnapshot
  readSet : List Nat
  rows : List Stored
  deriving DecidableEq, Repr

/-- A row of `search(table, query)`. -/
structure SearchRow (K : Type) where
  key : String
  score : K
  appliedLsn : Nat
  deriving DecidableEq, Repr

/-- A call of `search(table, query)`, with the index that was searched and the LSN of its
commit. -/
structure SearchCall (I K : Type) where
  table : String
  query : String
  rows : List (SearchRow K)
  index : I
  commitLsn : Nat
  deriving DecidableEq, Repr

/-- A query on its way, with what it has read so far. -/
structure Query (I K : Type) where
  target : Option Nat
  snapshots : List TableSnapshot
  /-- The indexes that are not open yet. -/
  pending : List String
  readers : AList fun _ : String => SearchReader := ∅
  proof : Option LsnProof := none
  parts : List ScanPart := []
  calls : List (SearchCall I K) := []

/-- Where a tick stands. -/
inductive Phase where
  | free
  | applying (index : Nat) (changes : List TypedChange) (touched : Bool) (lastCommitLsn : Nat)
  | committing (tables : List String)
  /-- The index of `table` is committed, its metadata file is not written. -/
  | committed (table : String) (tables : List String)
  | writing (table : String) (tables : List String)
  deriving DecidableEq

variable {W I K : Type}

structure Engine (W I K : Type) where
  pipe : Pipeline W
  /-- `graydb-meta.json` of each index, if it holds JSON. -/
  metaFiles : AList fun _ : String => SearchMeta
  phase : Phase := .free
  query : Option (Query I K) := none
  commitLsns : AList fun _ : String => Nat
  positions : List (Pipeline W)
  failed : Bool := false

inductive EngineAct where
  /-- A tick takes the lock and decodes what is new. -/
  | begin (tail : LogTail) (batch : TailBatch)
  | change (plan : List Outcome)
  /-- `applied_lsn` is raised. -/
  | raise
  | commit (plan : List Outcome)
  | truncateMeta
  | writeMeta
  | finish
  /-- Writing the metadata file fails. -/
  | fail
  /-- A query copies the column stores under the lock. -/
  | snapshot (target : Option Nat)
  | openReader (table : String)
  /-- The SQL is run, with this received LSN. -/
  | run (receivedLsn : Nat)
  | scan (name : String) (segment : Nat) (readSet : List Nat)
  | search (table query : String)
  /-- The query is at its end, or has failed. -/
  | close
  deriving DecidableEq

/-! ## A tick -/

section Tick

variable [FloatText] [IndexWriter W]

namespace Engine

/-- The tick ends with an error, and lets the lock go. -/
def stop (σ : Engine W I K) (pipe : Pipeline W) : Engine W I K :=
  { σ with pipe, phase := .free, failed := true }

def begin (σ : Engine W I K) (tail : LogTail) (batch : TailBatch) : Engine W I K :=
  let p := { σ.pipe with tail }.aborted batch.rewound
  if batch.frames.isEmpty then { σ with pipe := p }
  else match p.decoder.feed batch.frames with
    -- nothing is applied when the batch cannot be decoded
    | (.error _, decoder) => { σ with pipe := { p with decoder } }
    | (.ok decoded, decoder) =>
      if decoded.changes.isEmpty then { σ with pipe := { p with decoder } }
      else { σ with
        pipe := { p with decoder }
        phase := .applying decoded.firstChangeIndex decoded.changes false decoded.lastCommitLsn }

/-- One round of the loop over the changes. -/
def change (σ : Engine W I K) (plan : List Outcome) : Option (Engine W I K) :=
  match σ.phase with
  | .applying index (c :: cs) touched lastCommitLsn =>
    match applyChange c index ⟨σ.pipe, plan, []⟩ with
    | (.ok t, r) =>
      some { σ with pipe := r.state, phase := .applying (index + 1) cs (touched || t) lastCommitLsn }
    | (.error _, r) => some (σ.stop r.state)
  | _ => none

def raise (σ : Engine W I K) : Option (Engine W I K) :=
  match σ.phase with
  | .applying _ [] touched lastCommitLsn =>
    some { σ with
      pipe := { σ.pipe with appliedLsn := max lastCommitLsn σ.pipe.appliedLsn }
      phase := .committing (if touched then σ.pipe.search.keys else []) }
  | _ => none

/-- The next index is committed. -/
def commit (σ : Engine W I K) (plan : List Outcome) : Option (Engine W I K) :=
  match σ.phase with
  | .committing (table :: tables) =>
    match σ.pipe.search.lookup table with
    | none => some { σ with phase := .committing tables }
    | some store =>
      let insert store := { σ.pipe with search := σ.pipe.search.insert table store }
      match commitIndex σ.pipe.appliedLsn ⟨store, plan, []⟩ with
      | (.ok (), r) => some { σ with
          pipe := insert r.state
          commitLsns := σ.commitLsns.insert table σ.pipe.appliedLsn
          phase := .committed table tables }
      | (.error _, r) => some (σ.stop (insert r.state))
  | _ => none

def truncateMeta (σ : Engine W I K) : Option (Engine W I K) :=
  match σ.phase with
  | .committed table tables =>
    some { σ with metaFiles := σ.metaFiles.erase table, phase := .writing table tables }
  | _ => none

def writeMeta (σ : Engine W I K) : Option (Engine W I K) :=
  match σ.phase with
  | .writing table tables => do
    let store ← σ.pipe.search.lookup table
    return { σ with
      metaFiles := σ.metaFiles.insert table store.info, phase := .committing tables }
  | _ => none

def finish (σ : Engine W I K) : Option (Engine W I K) :=
  match σ.phase with
  | .committing [] => some { σ with phase := .free, positions := σ.positions ++ [σ.pipe] }
  | _ => none

def fail (σ : Engine W I K) : Option (Engine W I K) :=
  match σ.phase with
  | .committed _ _ | .writing _ _ => some (σ.stop σ.pipe)
  | _ => none

end Engine

end Tick

/-! ## A query -/

section Query

variable [FloatText]

/-- The snapshot of one table. -/
def snapshotOf (lsn0 lsn : Nat) (name : String) (store : TableStore) :
    Except StoreError TableSnapshot := do
  let overlay ← store.openRowsBatch lsn
  return {
    name, columns := store.columns, segments := store.segmentsSnapshot, overlay, targetLsn := lsn
    appliedLsn := max store.appliedLsn lsn0 }

def Pipeline.snapshots (p : Pipeline W) (target : Option Nat) :
    Except StoreError (List TableSnapshot) :=
  p.columnar.entries.mapM fun e => snapshotOf p.lsn0 (target.getD maxLsn) e.1 e.2

/-- The shapes of a proof. -/
def Query.shapes (q : Query I K) : List (Shape × Nat) :=
  q.snapshots.map (fun snap => (.columnar snap.name, snap.appliedLsn))
    ++ q.readers.entries.map fun e => (.search e.1, e.2.info.appliedLsn)

namespace Engine

def snapshot (σ : Engine W I K) (target : Option Nat) : Option (Engine W I K) :=
  match σ.phase, σ.query, σ.pipe.snapshots target with
  | .free, none, .ok snapshots =>
    some { σ with query := some { target, snapshots, pending := σ.pipe.search.keys } }
  | _, _, _ => none

def openReader (σ : Engine W I K) (table : String) : Option (Engine W I K) := do
  let q ← σ.query
  if table ∈ q.pending then
    match σ.metaFiles.lookup table with
    | none => return { σ with query := none }
    | some info => return { σ with
        query := some { q with
          pending := q.pending.erase table, readers := q.readers.insert table { info } } }
  else none

def run (σ : Engine W I K) (receivedLsn : Nat) : Option (Engine W I K) := do
  let q ← σ.query
  if q.pending = [] ∧ q.proof = none then
    return { σ with
      query := some { q with proof := some { targetLsn := q.target, receivedLsn, shapes := q.shapes } } }
  else none

/-- The file of one segment of a snapshot is read. -/
def scan (σ : Engine W I K) (b : Batching) (name : String) (segment : Nat) (readSet : List Nat) :
    Option (Engine W I K) := do
  let q ← σ.query
  if q.proof.isSome then
    let snap ← q.snapshots.find? fun snap => snap.name = name
    let seg ← snap.segments[segment]?
    let store ← σ.pipe.columnar.lookup name
    match seg.scan b readSet snap.targetLsn store.files with
    | none => return { σ with query := none }
    | some rows => return { σ with
        query := some { q with parts := q.parts ++ [{ name, segment := seg, readSet, rows }] } }
  else none

variable [IndexWriter W] [IndexReader W I K]

/-- The index is loaded as it is, and searched. -/
def search (σ : Engine W I K) (table query : String) : Option (Engine W I K) := do
  let q ← σ.query
  if q.proof.isSome then
    match q.readers.lookup table with
    | none => return { σ with query := none }
    | some reader => do
      let store ← σ.pipe.search.lookup table
      let commitLsn ← σ.commitLsns.lookup table
      let index := image store.writer
      match reader.search W index query 10000 with
      | .error _ => return { σ with query := none }
      | .ok hits =>
        let rows := hits.map fun hit =>
          { key := hit.1, score := hit.2, appliedLsn := reader.info.appliedLsn }
        return { σ with
          query := some { q with calls := q.calls ++ [{ table, query, rows, index, commitLsn }] } }
  else none

def close (σ : Engine W I K) : Option (Engine W I K) := some { σ with query := none }

end Engine

end Query

/-! ## Steps -/

variable [FloatText] [IndexWriter W] [IndexReader W I K]

def EngineAct.step (b : Batching) (act : EngineAct) (σ : Engine W I K) : Option (Engine W I K) :=
  match act with
  | .begin tail batch => if σ.phase = .free then some (σ.begin tail batch) else none
  | .change plan => σ.change plan
  | .raise => σ.raise
  | .commit plan => σ.commit plan
  | .truncateMeta => σ.truncateMeta
  | .writeMeta => σ.writeMeta
  | .finish => σ.finish
  | .fail => σ.fail
  | .snapshot target => σ.snapshot target
  | .openReader table => σ.openReader table
  | .run receivedLsn => σ.run receivedLsn
  | .scan name segment readSet => σ.scan b name segment readSet
  | .search table query => σ.search table query
  | .close => σ.close

abbrev EngineStep (b : Batching) (act : EngineAct) (σ σ' : Engine W I K) : Prop :=
  act.step b σ = some σ'

end GrayDB.Studio
