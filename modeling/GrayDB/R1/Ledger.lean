import GrayDB.Lib.Utf8
import GrayDB.Log.Frame

/-!
# The committed ledger

One writer appends entries to a file of JSON lines, each chained to the one before by
its hash.  A handle caches the entries it has read and the byte offset behind them, and
`refresh` reads what was appended since.

`serde_json` and SHA-256 enter as the class `LedgerText`.  The file can grow while a
refresh reads it, so a refresh is modelled by its rounds: `refreshStart` takes the
length of the file, and each `refreshLine` reads one line of the file as it is then.
-/

namespace GrayDB.R1

open Lib Log

structure LedgerEntry where
  sequence : Nat
  xid : Nat
  sourceLsn : Nat
  operationSha256 : String
  committedUnixMs : Nat
  previousEntrySha256 : String
  entrySha256 : String
  deriving DecidableEq, Repr

/-- `serde_json` for an entry, and SHA-256 in hexadecimal digits. -/
class LedgerText where
  toJson : LedgerEntry → Bytes
  fromJson : Bytes → Option LedgerEntry
  sha256Hex : Bytes → String

export LedgerText (toJson fromJson sha256Hex)

structure CommittedLedger where
  entries : List LedgerEntry := []
  /-- Byte offset of the verified prefix of the file. -/
  loadedBytes : Nat := 0
  deriving DecidableEq, Repr

inductive LedgerError where
  | wrongSequence (sequence expected : Nat)
  | previousHash
  | shrank (loadedBytes fileLen : Nat)
  | notUtf8
  | corrupt
  | gap
  | checksum
  | chain
  deriving DecidableEq, Repr

def LedgerError.message : LedgerError → String
  | .wrongSequence sequence expected => s!"ledger sequence {sequence}, expected {expected}"
  | .previousHash => "ledger previous hash mismatch"
  | .shrank loadedBytes fileLen =>
    s!"ledger file shrank from {loadedBytes} to {fileLen} bytes; append-only invariant broken"
  | .notUtf8 => "stream did not contain valid UTF-8"
  | .corrupt => "ledger line is corrupt"
  | .gap => "ledger gap or duplicate"
  | .checksum => "ledger checksum mismatch"
  | .chain => "ledger chain mismatch"

def newline : UInt8 := 0x0A

/-- The sequence of the next entry. -/
def nextSequence (entries : List LedgerEntry) : Nat :=
  (entries.getLast?.map fun e => e.sequence + 1).getD 1

/-- The hash that the next entry names. -/
def lastHash (entries : List LedgerEntry) : String :=
  (entries.getLast?.map LedgerEntry.entrySha256).getD ""

section Ledger

variable [LedgerText]

/-- The hash of an entry covers all its fields but the hash. -/
def entryHash (entry : LedgerEntry) : String := sha256Hex (toJson { entry with entrySha256 := "" })

/-! ## The writer -/

/-- The entry as it is stored, and the bytes that are written. -/
def CommittedLedger.append (l : CommittedLedger) (entry : LedgerEntry) :
    Except LedgerError (CommittedLedger × Bytes) :=
  if entry.sequence ≠ nextSequence l.entries then
    .error (.wrongSequence entry.sequence (nextSequence l.entries))
  else if entry.previousEntrySha256 ≠ lastHash l.entries then
    .error .previousHash
  else
    let entry := { entry with entrySha256 := entryHash entry }
    .ok ({ l with entries := l.entries ++ [entry] }, toJson entry ++ [newline])

/-! ## Readers -/

/-- A handle; while it is refreshed, the length that the file had in the beginning and
the bytes consumed. -/
structure Reader where
  ledger : CommittedLedger := {}
  refreshing : Option (Nat × Nat) := none
  deriving DecidableEq, Repr

/-- `read_line`: up to the first newline, or all there is. -/
def readLine (data : Bytes) : Bytes :=
  let line := data.takeWhile (· != newline)
  if line.length < data.length then line ++ [newline] else line

/-- `trim_end_matches(['\n', '\r'])` -/
def trimEnd (line : Bytes) : Bytes :=
  (line.reverse.dropWhile fun b => b == newline || b == 0x0D).reverse

def checkEntry (entries : List LedgerEntry) (entry : LedgerEntry) : Except LedgerError Unit :=
  if entry.sequence ≠ nextSequence entries then .error .gap
  else if entry.entrySha256 ≠ entryHash entry then .error .checksum
  else if entry.previousEntrySha256 ≠ lastHash entries then .error .chain
  else .ok ()

/-- The head of a refresh, up to its loop.  `none` is a file that does not exist. -/
def refreshStart (file : Option Bytes) (r : Reader) : Except LedgerError Reader :=
  match file with
  | none => .ok r
  | some data =>
    if data.length < r.ledger.loadedBytes then
      .error (.shrank r.ledger.loadedBytes data.length)
    else if data.length = r.ledger.loadedBytes then .ok r
    else .ok { r with refreshing := some (data.length, r.ledger.loadedBytes) }

/-- The loop ends at this offset. -/
def Reader.finish (r : Reader) (consumed : Nat) : Reader where
  ledger := { r.ledger with loadedBytes := consumed }

/-- One round of the loop, on the file as it is now. -/
def refreshLine (data : Bytes) (fileLen lineStart : Nat) (r : Reader) :
    Except LedgerError Reader :=
  let line := readLine (data.drop lineStart)
  if ¬ utf8Valid line then .error .notUtf8
  else if line = [] then .ok (r.finish lineStart)
  else
    let consumed := lineStart + line.length
    let trimmed := trimEnd line
    if trimmed = [] then .ok { r with refreshing := some (fileLen, consumed) }
    else
      match fromJson trimmed with
      | none =>
        -- an unterminated line at the end: the writer has not finished this append
        if fileLen ≤ consumed ∧ line.getLast? ≠ some newline then .ok (r.finish lineStart)
        else .error .corrupt
      | some entry =>
        match checkEntry r.ledger.entries entry with
        | .error e => .error e
        | .ok () =>
          .ok { ledger := { r.ledger with entries := r.ledger.entries ++ [entry] }
                refreshing := some (fileLen, consumed) }

/-- The rounds of the loop on a file that does not change.  Each round but the last takes
a byte, so `data.length + 1` rounds are enough. -/
def refreshLoop (data : Bytes) : Nat → Reader → Except LedgerError Reader
  | 0, r => .ok r
  | rounds + 1, r =>
    match r.refreshing with
    | none => .ok r
    | some (fileLen, lineStart) => do
      let r ← refreshLine data fileLen lineStart r
      refreshLoop data rounds r

/-- A whole refresh of a file that does not change meanwhile. -/
def refresh (file : Option Bytes) (r : Reader) : Except LedgerError Reader := do
  let r ← refreshStart file r
  let data := file.getD []
  refreshLoop data (data.length + 1) r

end Ledger

end GrayDB.R1
