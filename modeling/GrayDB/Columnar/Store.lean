import GrayDB.Columnar.CopyText
import GrayDB.Lib.Crash
import GrayDB.Registry.Decoder

/-!
# `TableStore`

The column store of one table: open rows in memory, flushed segments, and the
delete marks of each segment.  An update marks the old row deleted and inserts the
new one, and a row is visible at `L` if it was inserted at or before `L` and not
deleted at or before `L`.

A store operation is an `IoM` program, because an early return leaves the changes
made so far, and because the segment files are written and read on the way.  The
file of a segment holds typed columns; what is read back is the text that each
value is rendered as, so that text is what `files` holds, with the LSN of each row.
`f64` enters as the class `FloatText`.

* `loadCopyPart` loads the base, `apply` is the change driver and `flush` the segment
  writer; `finalize` puts the delete marks and the manifest on disk.
* `tupleToValues` checks the columns of an image and takes the values that it leaves
  out from the prior version of the row.
-/

namespace GrayDB.Columnar

open Lib Lib.Crash Log Registry

/-- `parse::<f64>` and the rendering of what it returns. -/
class FloatText where
  renderF64 : String → Option String

export FloatText (renderF64)

/-- Whole numbers, for runs on fixed inputs. -/
@[reducible] def wholeFloats : FloatText where
  renderF64 v := v.toNat?.map toString

structure ColumnSpec where
  name : String
  typeOid : Nat
  isKey : Bool
  deriving DecidableEq, Repr

inductive DataType where
  | boolean
  | int64
  | float64
  | utf8
  deriving DecidableEq, Repr

/-- PG type oid to storage type. -/
def arrowType (oid : Nat) : DataType :=
  if oid = 16 then .boolean
  else if oid = 20 ∨ oid = 21 ∨ oid = 23 ∨ oid = 26 then .int64
  else if oid = 700 ∨ oid = 701 then .float64
  else .utf8

structure SegmentMeta where
  id : Nat
  rows : Nat
  lsnMin : Nat
  lsnMax : Nat
  deriving DecidableEq, Repr

abbrev Row := List (Option String)

/-- A row of a segment file, with its `__gdb_lsn`. -/
abbrev Stored := Row × Nat

structure StoreManifest where
  table : String
  columns : List ColumnSpec
  appliedLsn : Nat
  segments : List SegmentMeta
  deriving DecidableEq, Repr

structure OpenRow where
  values : Row
  insertLsn : Nat
  deleteLsn : Option Nat := none
  deriving DecidableEq, Repr

structure Loc where
  seg : Nat
  row : Nat
  deriving DecidableEq, Repr

/-- `u32::MAX` -/
def openSegment : Nat := 2 ^ 32 - 1

inductive StoreError where
  | columnCount (change store : Nat)
  | columnName (i : Nat) (stream store : String)
  | toastWithoutPrior (column : String)
  | binaryTuple
  | noNewImage (op : String)
  | noOldImage
  | copyColumns (row store : Nat)
  | noColumns
  | keyless (op : String)
  | unknownUpdateKey
  | unknownDeleteKey
  | cannotParse (column value : String)
  | cannotParseBool (column value : String)
  | io
  /-- An index out of bounds. -/
  | panic
  deriving DecidableEq, Repr

/-- The text of an error of the store of `table`. -/
def StoreError.message (table : String) : StoreError → String
  | .columnCount change store =>
    s!"{table}: change has {change} cols, store has {store} (schema drift not yet materialized — SP4 scope is fixed-shape apply)"
  | .columnName i stream store => s!"{table}: column {i} is {stream} in stream but {store} in store"
  | .toastWithoutPrior column => s!"{table}: unchanged-TOAST column {column} with no prior version"
  | .binaryTuple => "binary tuple format not requested in v1"
  | .noNewImage op => s!"{op} without new image"
  | .noOldImage => "delete without old image/key"
  | .copyColumns row store => s!"{table}: COPY row has {row} cols, store has {store}"
  | .noColumns => s!"no columns for {table}"
  | .keyless op => s!"{table}: {op} on keyless store"
  | .unknownUpdateKey => s!"{table}: update for unknown key (invariant breach)"
  | .unknownDeleteKey => s!"{table}: delete for unknown key"
  | .cannotParse column value => s!"column {column}: cannot parse {reprStr value}"
  | .cannotParseBool column value => s!"column {column}: cannot parse bool {reprStr value}"
  | .io => "I/O error"
  | .panic => "index out of bounds"

structure TableStore where
  table : String
  columns : List ColumnSpec
  flushRows : Nat
  opened : List OpenRow := []
  segments : List SegmentMeta := []
  /-- The delete marks of a segment: row index and delete commit LSN. -/
  sidecars : AList fun _ : Nat => List (Nat × Nat) := ∅
  index : AList fun _ : Bytes => Loc := ∅
  appliedLsn : Nat := 0
  /-- One-segment row cache. -/
  segCache : Option (Nat × List Row) := none
  liveRows : Nat := 0
  /-- The segment files, as they are read back. -/
  files : AList fun _ : Nat => List Stored := ∅
  /-- The delete marks on disk. -/
  sidecarFiles : AList fun _ : Nat => List (Nat × Nat) := ∅
  /-- The manifest on disk. -/
  manifest : Option StoreManifest := none

abbrev StoreM := IoM StoreError TableStore

/-! ## Rendering -/

/-- `parse::<i64>` -/
def parseI64 (v : String) : Option Int :=
  let (sign, digits) : Int × List Char := match v.toList with
    | '-' :: cs => (-1, cs)
    | '+' :: cs => (1, cs)
    | cs => (1, cs)
  if digits ≠ [] ∧ digits.all Char.isDigit then
    let n := sign * (digits.foldl (fun n c => n * 10 + (c.toNat - '0'.toNat)) 0 : Nat)
    if -2 ^ 63 ≤ n ∧ n < 2 ^ 63 then some n else none
  else none

section Render

variable [FloatText]

/-- What a text value is read back as from a column of this type. -/
def renderValue (column : String) (dt : DataType) (v : String) : Except StoreError String :=
  match dt with
  | .int64 =>
    match parseI64 v with
    | some n => .ok (toString n)
    | none => .error (.cannotParse column v)
  | .float64 =>
    match renderF64 v with
    | some s => .ok s
    | none => .error (.cannotParse column v)
  | .boolean =>
    if v = "t" ∨ v = "true" then .ok "t"
    else if v = "f" ∨ v = "false" then .ok "f"
    else .error (.cannotParseBool column v)
  | .utf8 => .ok v

def renderCell (column : ColumnSpec) (i : Nat) (row : OpenRow) :
    Except StoreError (Option String) :=
  match row.values[i]? with
  | none => .error .panic
  | some none => .ok none
  | some (some v) => (renderValue column.name (arrowType column.typeOid) v).map some

/-- One column array. -/
def buildArray (rows : List OpenRow) (column : ColumnSpec × Nat) :
    Except StoreError (List (Option String)) :=
  rows.mapM (renderCell column.1 column.2)

/-- The rows as the segment file gives them back; the columns are built one after the
other. -/
def renderRows (columns : List ColumnSpec) (rows : List OpenRow) : Except StoreError (List Row) :=
  (columns.zipIdx.mapM (buildArray rows)).map fun arrays =>
    (List.range rows.length).map fun j => arrays.map fun array => array.getD j none

end Render

/-! ## Reading batches -/

/-- The rows of a batch that are visible: skip the rows in `deleted`, which counts from
`base`, and the rows behind `maxLsn`. -/
def appendRenderedRows (batch : List Stored) (visibility : Option (List Nat × Nat)) (maxLsn : Nat) :
    List Row :=
  batch.zipIdx.filterMap fun r =>
    if visibility.any fun v => decide ((v.2 + r.2) % 2 ^ 32 ∈ v.1) then none
    else if maxLsn < r.1.2 then none
    else some r.1.1

/-- `u64::MAX` -/
def maxLsn : Nat := 2 ^ 64 - 1

/-! ## Keys and values -/

/-- The values of an image; anything but a text is no value. -/
def imageValues (named : Named) : Row :=
  named.map fun c => match c.2 with
    | .text s => some s
    | _ => none

namespace TableStore

def keyIdx (s : TableStore) : List Nat :=
  s.columns.zipIdx.filterMap fun c => if c.1.isKey then some c.2 else none

def hasKey (s : TableStore) : Bool := !s.keyIdx.isEmpty

/-- `None` is an index out of bounds. -/
def keyOf (s : TableStore) (values : Row) : Option Bytes := do
  let parts ← s.keyIdx.mapM fun i => values[i]?
  return parts.flatMap fun v =>
    (match v with
      | some t => 1 :: t.toUTF8.toList
      | none => [0]) ++ [0x1F]

def create (table : String) (columns : List ColumnSpec) (flushRows : Nat) :
    Except StoreError TableStore :=
  if columns = [] then .error .noColumns else .ok { table, columns, flushRows }

/-- Visible-at-head row count. -/
def visibleRows (s : TableStore) : Nat := s.liveRows

end TableStore

open TableStore

def keyOrPanic (values : Row) : StoreM Bytes := do
  let s ← IoM.get
  match s.keyOf values with
  | some key => pure key
  | none => IoM.throw .panic

/-- A new open row, which the index points to if the table has a key. -/
def insertRow (values : Row) (lsn : Nat) : StoreM Unit := do
  let s ← IoM.get
  let row : OpenRow := { values, insertLsn := lsn }
  if s.hasKey then do
    let key ← keyOrPanic values
    IoM.modify fun s =>
      { s with
        index := s.index.insert key { seg := openSegment, row := s.opened.length % 2 ^ 32 }
        opened := s.opened ++ [row], liveRows := s.liveRows + 1 }
  else
    IoM.modify fun s => { s with opened := s.opened ++ [row], liveRows := s.liveRows + 1 }

def markDeleted (loc : Loc) (lsn : Nat) : StoreM Unit := do
  IoM.modify fun s => { s with liveRows := s.liveRows - 1 }
  let s ← IoM.get
  if loc.seg = openSegment then
    match s.opened[loc.row]? with
    | some row =>
      IoM.modify fun s => { s with opened := s.opened.set loc.row { row with deleteLsn := some lsn } }
    | none => IoM.throw .panic
  else
    IoM.modify fun s =>
      { s with
        sidecars := s.sidecars.insert loc.seg
          ((s.sidecars.lookup loc.seg).getD [] ++ [(loc.row, lsn)]) }

/-- Reading a segment file. -/
def readSegmentRows (seg : Nat) : StoreM (List Row) := do
  IoM.call .io id fun _ s => s
  let s ← IoM.get
  match s.files.lookup seg with
  | some rows => pure (appendRenderedRows rows none maxLsn)
  | none => IoM.throw .io

/-- The rows that are read stay in the cache. -/
def loadRows (seg : Nat) : StoreM (List Row) := do
  let rows ← readSegmentRows seg
  IoM.modify fun s => { s with segCache := some (seg, rows) }
  pure rows

def cachedRows (seg : Nat) : StoreM (List Row) := do
  let s ← IoM.get
  match s.segCache with
  | some (id, rows) => if id = seg then pure rows else loadRows seg
  | none => loadRows seg

def cellOrPanic (cell : Option (Option String)) : StoreM (Option String) :=
  match cell with
  | some v => pure v
  | none => IoM.throw .panic

def fetchValue (loc : Loc) (col : Nat) : StoreM (Option String) := do
  let s ← IoM.get
  if loc.seg = openSegment then
    cellOrPanic do (← s.opened[loc.row]?).values[col]?
  else do
    let rows ← cachedRows loc.seg
    cellOrPanic do (← rows[loc.row]?)[col]?

/-- One value of a new image; an unchanged TOAST value comes from the prior version. -/
def tupleValue (prior : Option Loc) (i : Nat) (name : String) :
    TupleValue → StoreM (Option String)
  | .text s => pure (some s)
  | .null => pure none
  | .unchangedToast =>
    match prior with
    | some loc => fetchValue loc i
    | none => IoM.throw (.toastWithoutPrior name)
  | .binary _ => IoM.throw .binaryTuple

def tupleLoop (prior : Option Loc) : Nat → List ((String × TupleValue) × ColumnSpec) → StoreM Row
  | _, [] => pure []
  | i, ((name, value), column) :: rest =>
    if name = column.name then do
      let v ← tupleValue prior i name value
      let vs ← tupleLoop prior (i + 1) rest
      pure (v :: vs)
    else IoM.throw (.columnName i name column.name)

def tupleToValues (named : Named) (prior : Option Loc) : StoreM Row := do
  let s ← IoM.get
  if named.length = s.columns.length then
    tupleLoop prior 0 (named.zip s.columns)
  else IoM.throw (.columnCount named.length s.columns.length)

/-! ## Loading the base -/

def loadLines (lsn0 : Nat) : List Bytes → StoreM Nat
  | [] => pure 0
  | line :: lines => do
    let s ← IoM.get
    let values := parseCopyLine line
    if values.length = s.columns.length then do
      insertRow values lsn0
      let n ← loadLines lsn0 lines
      pure (n + 1)
    else IoM.throw (.copyColumns values.length s.columns.length)

/-- Load one staged COPY part. -/
def loadCopyPart (data : Bytes) (lsn0 : Nat) : StoreM Nat := do
  let n ← loadLines lsn0 (copyLines data)
  IoM.modify fun s => { s with appliedLsn := max s.appliedLsn lsn0 }
  pure n

/-! ## Applying a change -/

def applyInsert (change : TypedChange) : StoreM Unit :=
  match change.new with
  | some named => do
    let values ← tupleToValues named none
    insertRow values change.commitLsn
  | none => IoM.throw (.noNewImage "insert")

/-- The old image is there only when the identity changed; otherwise the new image
carries the same key. -/
def updateRow (named : Named) (old : Option Named) (lsn : Nat) : StoreM Unit := do
  let oldKey ← keyOrPanic (imageValues (old.getD named))
  let s ← IoM.get
  let prior := s.index.lookup oldKey
  let values ← tupleToValues named prior
  match prior with
  | some loc => do
    markDeleted loc lsn
    IoM.modify fun s => { s with index := s.index.erase oldKey }
    insertRow values lsn
  | none => IoM.throw .unknownUpdateKey

def applyUpdate (change : TypedChange) : StoreM Unit := do
  let s ← IoM.get
  if s.hasKey then
    match change.new with
    | some named => updateRow named change.old change.commitLsn
    | none => IoM.throw (.noNewImage "update")
  else IoM.throw (.keyless "update")

def deleteRow (old : Named) (lsn : Nat) : StoreM Unit := do
  let key ← keyOrPanic (imageValues old)
  let s ← IoM.get
  match s.index.lookup key with
  | some loc => do
    IoM.modify fun s => { s with index := s.index.erase key }
    markDeleted loc lsn
  | none => IoM.throw .unknownDeleteKey

def applyDelete (change : TypedChange) : StoreM Unit := do
  let s ← IoM.get
  if s.hasKey then
    match change.old with
    | some old => deleteRow old change.commitLsn
    | none => IoM.throw .noOldImage
  else IoM.throw (.keyless "delete")

def markAll (lsn : Nat) : List Loc → StoreM Unit
  | [] => pure ()
  | loc :: locs => do
    markDeleted loc lsn
    markAll lsn locs

/-- Every row that the index knows. -/
def applyTruncate (lsn : Nat) : StoreM Unit := do
  let s ← IoM.get
  markAll lsn (s.index.entries.map (·.2))
  IoM.modify fun s => { s with index := ∅ }

def applyOp (change : TypedChange) : StoreM Unit :=
  match change.op with
  | .insert => applyInsert change
  | .update => applyUpdate change
  | .delete => applyDelete change
  | .truncate => applyTruncate change.commitLsn

/-! ## Flushing -/

/-- The delete marks of the rows of a new segment. -/
def rowDeletes (rows : List OpenRow) : List (Nat × Nat) :=
  rows.zipIdx.filterMap fun r => r.1.deleteLsn.map fun lsn => (r.2 % 2 ^ 32, lsn)

/-- The rows that are not deleted get index entries in the new segment. -/
def reindex (seg : Nat) : List (OpenRow × Nat) → StoreM Unit
  | [] => pure ()
  | (row, i) :: rest =>
    if row.deleteLsn.isNone then do
      let key ← keyOrPanic row.values
      IoM.modify fun s => { s with index := s.index.insert key { seg, row := i % 2 ^ 32 } }
      reindex seg rest
    else reindex seg rest

def reindexKeyed (seg : Nat) (rows : List OpenRow) : StoreM Unit := do
  let s ← IoM.get
  if s.hasKey then reindex seg rows.zipIdx

section Flush

variable [FloatText]

/-- The column arrays and the segment file. -/
def writeSegment (seg : Nat) (rows : List OpenRow) : StoreM Unit := do
  let s ← IoM.get
  match renderRows s.columns rows with
  | .error e => IoM.throw e
  | .ok rendered => do
    IoM.call .io (fun s => { s with files := s.files.insert seg [] }) fun _ s => s
    IoM.call .io (fun s => { s with
      files := s.files.insert seg (rendered.zip (rows.map OpenRow.insertLsn)) }) fun _ s => s

/-- Write the open rows as the next segment.  They leave `open` before anything can
fail. -/
def flush : StoreM Unit := do
  let s ← IoM.get
  let rows := s.opened
  if rows.isEmpty then
    pure ()
  else do
    let seg := s.segments.length % 2 ^ 32
    IoM.modify fun s => { s with opened := [] }
    writeSegment seg rows
    IoM.modify fun s =>
      { s with
        sidecars := s.sidecars.insert seg
          ((s.sidecars.lookup seg).getD [] ++ rowDeletes rows) }
    reindexKeyed seg rows
    IoM.modify fun s =>
      { s with
        segments := s.segments ++ [{
          id := seg, rows := rows.length
          lsnMin := (rows.map OpenRow.insertLsn).min?.getD 0
          lsnMax := (rows.map OpenRow.insertLsn).max?.getD 0 }] }

/-- The delete marks go to the sidecar files. -/
def writeSidecars : List (Nat × List (Nat × Nat)) → StoreM Unit
  | [] => pure ()
  | (seg, deletes) :: rest => do
    IoM.call .io (fun s => { s with sidecarFiles := s.sidecarFiles.insert seg deletes }) fun _ s => s
    writeSidecars rest

/-- Flush, and put the delete marks and the manifest on disk. -/
def finalize : StoreM StoreManifest := do
  flush
  let s ← IoM.get
  writeSidecars (s.sidecars.entries.map fun e => (e.1, e.2))
  let manifest : StoreManifest :=
    { table := s.table, columns := s.columns, appliedLsn := s.appliedLsn, segments := s.segments }
  IoM.call .io (fun s => { s with manifest := some manifest }) fun _ s => s
  pure manifest

def flushIfFull : StoreM Unit := do
  let s ← IoM.get
  if s.opened.length ≥ s.flushRows then flush

/-- Apply one typed change in commit order. -/
def apply (change : TypedChange) : StoreM Unit := do
  applyOp change
  IoM.modify fun s => { s with appliedLsn := max s.appliedLsn change.commitLsn }
  flushIfFull

end Flush

end GrayDB.Columnar
