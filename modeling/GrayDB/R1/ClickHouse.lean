import GrayDB.Columnar.CopyWrite
import GrayDB.Lib.Crash
import GrayDB.Lib.Digits
import GrayDB.Lib.Tokened
import GrayDB.Registry.Decoder

/-!
# The ClickHouse sink

`ClickHouseSink` turns each change of a committed transaction into an immutable row of a
raw table, with a version made of the commit LSN and of the position in the transaction,
and records the transaction with a marker.  `apply` does so for one transaction and
`apply_window` for several.

The sink is a program that sends requests: `Lib.Crash.IoM` over the state of the server.
A request fails before it has taken effect (`failed 0`) or behind it (`failed (k + 1)`).
`serde_json` and SHA-256 enter as the class `SinkText`.
-/

namespace GrayDB.R1.ClickHouseSink

open Lib Lib.Crash Registry

/-! ## Rows -/

structure RawTable where
  qualified : String
  raw : String
  columns : List String
  deriving DecidableEq, Repr

def tenants : RawTable where
  qualified := "r1.tenants"
  raw := "r1_tenants_raw"
  columns := ["tenant_id", "region", "plan", "created_at", "settings"]

def customers : RawTable where
  qualified := "r1.customers"
  raw := "r1_customers_raw"
  columns := ["customer_id", "tenant_id", "segment", "email_domain", "profile", "created_at"]

def orders : RawTable where
  qualified := "r1.orders"
  raw := "r1_orders_raw"
  columns := ["order_id", "tenant_id", "customer_id", "status", "channel", "amount_cents",
    "created_at", "updated_at", "attributes"]

def orderEvents : RawTable where
  qualified := "r1.order_events"
  raw := "r1_order_events_raw"
  columns := ["event_id", "order_id", "tenant_id", "event_type", "event_at", "metadata"]

def rawTables : List RawTable := [tenants, customers, orders, orderEvents]

def rawTableFor (qualified : String) : Option RawTable :=
  rawTables.find? fun t => t.qualified = qualified

/-- The raw tables in the order of their names, in which a `BTreeMap` goes over them. -/
def rawNames : List String :=
  ["r1_customers_raw", "r1_order_events_raw", "r1_orders_raw", "r1_tenants_raw"]

def appliedTransactions : String := "r1_meta.applied_transactions"

/-- `(lsn << 32) | ordinal` -/
def fromLsnOrdinal (lsn ordinal : Nat) : Nat := lsn <<< 32 ||| ordinal

/-- A row of a raw table; the cells are those of the table's columns. -/
structure VersionRow where
  cells : List (Option String)
  sourceLsn : Nat
  changeOrdinal : Nat
  version : Nat
  deleted : Nat
  deriving DecidableEq, Repr

inductive SinkError where
  | request
  | acknowledge
  | emptyTransaction
  | emptyWindow
  | transactionLsn (table : String) (changeLsn commitLsn : Nat)
  | windowLsn (table : String) (changeLsn commitLsn : Nat)
  | unsupportedTable (table : String)
  | ordinal
  | truncate
  | noImage (op table : String)
  | unchangedToast (column : String)
  | binary (column : String)
  | duplicateMarkers (lsn found : Nat)
  | hashMismatch (lsn : Nat) (recorded expected : String)
  | notVisible (lsn : Nat)
  | initialNotVisible (lsn : Nat)
  | windowMarkers (markers transactions : Nat)
  deriving DecidableEq, Repr

def SinkError.message : SinkError → String
  | .request => "ClickHouse request failed"
  | .acknowledge => "acknowledgement failed"
  | .emptyTransaction => "cannot apply an empty ClickHouse transaction"
  | .emptyWindow => "cannot apply an empty CDC window"
  | .transactionLsn table changeLsn commitLsn =>
    s!"change for {table} carries commit LSN {changeLsn}, transaction LSN is {commitLsn}"
  | .windowLsn table changeLsn commitLsn =>
    s!"change for {table} carries commit LSN {changeLsn}, window transaction LSN is {commitLsn}"
  | .unsupportedTable table => s!"unsupported published table {table}"
  | .ordinal => "transaction change ordinal exceeds UInt32"
  | .truncate => "truncate is not representable as a version row"
  | .noImage op table => s!"{op} change for {table} has no row image"
  | .unchangedToast column =>
    s!"cannot write exact ClickHouse version: {column} is an unchanged TOAST value"
  | .binary column =>
    s!"cannot write exact ClickHouse version: {column} is a binary pgoutput value"
  | .duplicateMarkers lsn found =>
    s!"duplicate transaction markers at source LSN {lsn}: found {found}"
  | .hashMismatch lsn recorded expected =>
    s!"idempotency marker hash mismatch at source LSN {lsn}: recorded {recorded}, expected {expected}"
  | .notVisible lsn =>
    s!"transaction marker was not visible after insertion at source LSN {lsn}"
  | .initialNotVisible lsn =>
    s!"initial-load marker was not visible after insertion at source LSN {lsn}"
  | .windowMarkers markers transactions =>
    s!"window marker verification failed: {markers} markers for {transactions} transactions"

/-- `None` is the JSON null. -/
def tupleJson (column : String) : TupleValue → Except SinkError (Option String)
  | .text text => .ok (some text)
  | .null => .ok none
  | .unchangedToast => .error (.unchangedToast column)
  | .binary _ => .error (.binary column)

/-- The cell of a column; a column that the image does not have is null. -/
def cellJson (image : Named) (column : String) : Except SinkError (Option String) :=
  match image.find? fun c => c.1 = column with
  | some (_, value) => tupleJson column value
  | none => .ok none

/-- The image that a row is made of. -/
def rowImage (change : TypedChange) : Except SinkError Named :=
  match change.op, change.new, change.old with
  | .insert, some image, _ | .update, some image, _ | .delete, _, some image => .ok image
  | .insert, none, _ => .error (.noImage "Insert" change.table)
  | .update, none, _ => .error (.noImage "Update" change.table)
  | .delete, _, none => .error (.noImage "Delete" change.table)
  | .truncate, _, _ => .error .truncate

def renderRow (raw : RawTable) (change : TypedChange) (lsn ordinal version : Nat) :
    Except SinkError VersionRow := do
  let image ← rowImage change
  let cells ← raw.columns.mapM (cellJson image)
  return {
    cells
    sourceLsn := lsn
    changeOrdinal := ordinal
    version
    deleted := if change.op = .delete then 1 else 0
  }

/-- The ordinal of the change at `index`, a `u32`. -/
def changeOrdinal (initialLoad : Bool) (index : Nat) : Except SinkError Nat :=
  if initialLoad then .ok 0
  else if index + 1 < 2 ^ 32 then .ok (index + 1)
  else .error .ordinal

/-- The row of one change, and its raw table.  `otherLsn` is the error for a change of
another transaction. -/
def versionRow (otherLsn : String → Nat → Nat → SinkError) (lsn : Nat) (initialLoad : Bool)
    (change : TypedChange) (index : Nat) : Except SinkError (String × VersionRow) :=
  if change.commitLsn ≠ 0 ∧ change.commitLsn ≠ lsn then
    .error (otherLsn change.table change.commitLsn lsn)
  else
    match rawTableFor change.table with
    | none => .error (.unsupportedTable change.table)
    | some raw => do
      let ordinal ← changeOrdinal initialLoad index
      let row ← renderRow raw change lsn ordinal (fromLsnOrdinal lsn ordinal)
      return (raw.raw, row)

/-- The rows of a transaction. -/
def versionRows (otherLsn : String → Nat → Nat → SinkError) (lsn : Nat) (initialLoad : Bool)
    (changes : List TypedChange) : Except SinkError (List (String × VersionRow)) :=
  changes.zipIdx.mapM fun c => versionRow otherLsn lsn initialLoad c.1 c.2

/-- The rows that are for a raw table. -/
def rowsOf (raw : String) (rows : List (String × VersionRow)) : List VersionRow :=
  rows.filterMap fun r => if r.1 = raw then some r.2 else none

/-- The raw tables that there are rows for, with these rows. -/
def rowsByTable (rows : List (String × VersionRow)) : List (String × List VersionRow) :=
  (rawNames.map fun raw => (raw, rowsOf raw rows)).filter fun g => g.2 ≠ []

/-! ## The server -/

/-- A row of `r1_meta.applied_transactions`, without the time. -/
structure Marker where
  operationSha256 : String
  sourceLsn : Nat
  deriving DecidableEq, Repr

structure ClickHouse where
  raw : String → Tokened String VersionRow := fun _ => {}
  applied : Tokened String Marker := {}
  /-- The tables look at the tokens (`non_replicated_deduplication_window`). -/
  deduplicates : Bool := true

def ClickHouse.insertRows (table token : String) (rows : List VersionRow) (db : ClickHouse) :
    ClickHouse :=
  { db with raw := fun t =>
      if t = table then (db.raw t).insert db.deduplicates token rows else db.raw t }

def ClickHouse.insertMarkers (token : String) (markers : List Marker) (db : ClickHouse) :
    ClickHouse :=
  { db with applied := db.applied.insert db.deduplicates token markers }

/-- The server, and the calls of `acknowledge_applied`: the LSN, and the server as it was. -/
structure World where
  db : ClickHouse := {}
  acknowledged : List (Nat × ClickHouse) := []

abbrev SinkM (α : Type) := IoM SinkError World α

def throwSink {α : Type} (e : SinkError) : SinkM α := IoM.throw e

def liftExcept {α : Type} : Except SinkError α → SinkM α
  | .ok a => pure a
  | .error e => throwSink e

/-- A request that changes the tables. -/
def postInsert (f : ClickHouse → ClickHouse) : SinkM Unit :=
  IoM.call .request (fun w => { w with db := f w.db })
    (fun k w => if k = 0 then w else { w with db := f w.db })

/-- A request that reads them. -/
def postSelect {α : Type} (f : ClickHouse → α) : SinkM α := do
  IoM.call .request id fun _ w => w
  let w ← IoM.get
  return f w.db

/-! ## The sink -/

inductive ApplyOutcome where
  | applied
  | skippedIdempotent
  deriving DecidableEq, Repr

/-- One decoded, committed transaction. -/
structure CdcCommit where
  lsn : Nat
  hash : String
  changes : List TypedChange
  deriving DecidableEq, Repr

/-- `str::trim` -/
def trim (s : String) : String :=
  String.ofList ((s.toList.dropWhile Char.isWhitespace).reverse.dropWhile Char.isWhitespace).reverse

/-- The lines that the server sends back are the hashes, as they stand: a digest has no
character that `TabSeparated` escapes. -/
def transactionIsApplied (lsn : Nat) (hash : String) : SinkM Bool := do
  let lines ← postSelect fun db =>
    (db.applied.rows.filter fun m => m.sourceLsn = lsn).map Marker.operationSha256
  match (lines.map trim).filter fun line => line ≠ "" with
  | [] => return false
  | [recorded] =>
    if recorded = hash then return true
    else throwSink (.hashMismatch lsn recorded hash)
  | recorded => throwSink (.duplicateMarkers lsn recorded.length)

/-- One insert for each raw table. -/
def insertGroups (token : String → List VersionRow → String) :
    List (String × List VersionRow) → SinkM Unit
  | [] => pure ()
  | (raw, rows) :: groups => do
    postInsert (ClickHouse.insertRows raw (token raw rows) rows)
    insertGroups token groups

def rowToken (tokenId raw : String) : String := tokenId ++ ":" ++ raw

def insertVersionRows (commitLsn : Nat) (tokenId : String) (changes : List TypedChange)
    (initialLoad : Bool) : SinkM Unit :=
  if changes = [] then throwSink .emptyTransaction
  else do
    let rows ← liftExcept (versionRows .transactionLsn commitLsn initialLoad changes)
    insertGroups (fun raw _ => rowToken tokenId raw) (rowsByTable rows)

def markerToken (hash : String) : String :=
  Columnar.replaceChar '\'' "''" hash ++ ":" ++ appliedTransactions

/-- The literal with the quotes doubled stands for the hash. -/
def recordMarker (lsn : Nat) (hash : String) : SinkM Unit :=
  postInsert (ClickHouse.insertMarkers (markerToken hash) [{ operationSha256 := hash, sourceLsn := lsn }])

def applyTransaction (commitLsn : Nat) (operationSha256 : String) (changes : List TypedChange) :
    SinkM ApplyOutcome := do
  if ← transactionIsApplied commitLsn operationSha256 then
    return .skippedIdempotent
  insertVersionRows commitLsn operationSha256 changes false
  recordMarker commitLsn operationSha256
  if ← transactionIsApplied commitLsn operationSha256 then
    return .applied
  throwSink (.notVisible commitLsn)

/-- The call is made, whether it succeeds or not. -/
def acknowledgeApplied (lsn : Nat) : SinkM Unit :=
  IoM.call .acknowledge (fun w => { w with acknowledged := w.acknowledged ++ [(lsn, w.db)] })
    (fun _ w => { w with acknowledged := w.acknowledged ++ [(lsn, w.db)] })

def apply (commitLsn : Nat) (operationSha256 : String) (changes : List TypedChange) :
    SinkM ApplyOutcome := do
  let outcome ← applyTransaction commitLsn operationSha256 changes
  acknowledgeApplied commitLsn
  return outcome

def applyInitialLoad (initialLsn : Nat) (changes : List TypedChange) : SinkM Unit := do
  let hash := "initial-" ++ toString initialLsn
  if ← transactionIsApplied initialLsn hash then
    return
  insertVersionRows initialLsn hash changes true
  recordMarker initialLsn hash
  if ← transactionIsApplied initialLsn hash then
    return
  throwSink (.initialNotVisible initialLsn)

/-! ## Windows -/

/-- `serde_json` for a row of a raw table with these columns, and SHA-256 in hexadecimal
digits. -/
class SinkText where
  rowJson : List String → VersionRow → String
  windowSha256 : List UInt8 → String

export SinkText (rowJson windowSha256)

section Window

variable [SinkText]

/-- The token covers the whole body of the request. -/
def windowDeduplicationToken (table boundary body : String) : String :=
  "graydb-r1-window-v2-" ++ windowSha256 ([table, boundary, body].flatMap fun value =>
    beBytes 8 value.utf8ByteSize ++ value.toUTF8.toList)

def metaColumns : List String := ["_source_lsn", "_change_ordinal", "_version", "_deleted"]

/-- The text of an insert. -/
def insertBody (raw : String) (rows : List VersionRow) : String :=
  let columns := ((rawTables.find? fun t => t.raw = raw).map RawTable.columns).getD [] ++ metaColumns
  rows.foldl (fun body row => body ++ "\n" ++ rowJson columns row)
    ("INSERT INTO " ++ raw ++ " (" ++ ", ".intercalate columns ++ ") FORMAT JSONEachRow")

def markerText (commit : CdcCommit) : String :=
  "('" ++ Columnar.replaceChar '\'' "''" commit.hash ++ "', " ++ toString commit.lsn ++ ", now())"

/-- `apply_window`; it returns the last LSN of the window. -/
def applyWindow (commits : List CdcCommit) : SinkM Nat :=
  match commits.head?, commits.getLast? with
  | some first, some last => do
    let rows ← liftExcept (commits.mapM fun c => versionRows .windowLsn c.lsn false c.changes)
    let boundary := "window-" ++ toString last.lsn
    insertGroups (fun raw rows => windowDeduplicationToken raw boundary (insertBody raw rows))
      (rowsByTable rows.flatten)
    let markers := ",".intercalate (commits.map markerText)
    postInsert (ClickHouse.insertMarkers
      (windowDeduplicationToken appliedTransactions boundary markers)
      (commits.map fun c => { operationSha256 := c.hash, sourceLsn := c.lsn }))
    let verified ← postSelect fun db =>
      (db.applied.rows.filter fun m => first.lsn ≤ m.sourceLsn ∧ m.sourceLsn ≤ last.lsn).length
    if verified = commits.length then return last.lsn
    else throwSink (.windowMarkers verified commits.length)
  | _, _ => throwSink .emptyWindow

end Window

end GrayDB.R1.ClickHouseSink
