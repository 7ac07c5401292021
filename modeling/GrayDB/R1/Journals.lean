import GrayDB.R1.Controller
import GrayDB.R1.Ledger
import GrayDB.R1.Workload

/-!
# The journals of a run

Three files of JSON lines: the intents, the ledger and the replay map.  Each is appended
to line by line, and read again when its owner starts anew.

* `IntentLog.readAll` parses every line.
* `CommittedLedger` and `ReplayMap` keep what they have read and the byte offset behind
  it.  Their `refresh` reads on from there, and leaves a line without a newline that does
  not parse.  `LineCheck.load` is this loop, on a file that does not change meanwhile.

`JournalOps` collects what the two have in common, for what is said about crashes.
-/

namespace GrayDB.R1

open Lib Log

/-- `serde_json` for a record. -/
class SerdeJson (ε : Type) where
  toText : ε → Bytes
  fromText : Bytes → Option ε

export SerdeJson (toText fromText)

instance [LedgerText] : SerdeJson LedgerEntry where
  toText := toJson
  fromText := fromJson

/-! ## Lines that are loaded and checked -/

/-- What a handle has loaded: the records, and the byte offset behind them. -/
structure Loaded (ε : Type) where
  entries : List ε := []
  loadedBytes : Nat := 0
  deriving DecidableEq, Repr

/-- How a journal checks the record of a line, and the errors of its `refresh`. -/
structure LineCheck (ε err : Type) where
  check : List ε → ε → Except err Unit
  shrank : Nat → Nat → err
  notUtf8 : err
  corrupt : err

namespace LineCheck

variable {ε err : Type} [SerdeJson ε]

/-- The rounds of the loop.  Each of them but the last takes a byte. -/
def loadLines (k : LineCheck ε err) (data : Bytes) : Nat → Nat → List ε → Except err (Loaded ε)
  | 0, lineStart, entries => .ok { entries, loadedBytes := lineStart }
  | rounds + 1, lineStart, entries =>
    let line := readLine (data.drop lineStart)
    if ¬ utf8Valid line then .error k.notUtf8
    else if line = [] then .ok { entries, loadedBytes := lineStart }
    else
      let consumed := lineStart + line.length
      let trimmed := trimEnd line
      if trimmed = [] then k.loadLines data rounds consumed entries
      else
        match fromText trimmed with
        | none =>
          -- an unterminated line at the end: the writer has not finished this append
          if data.length ≤ consumed ∧ line.getLast? ≠ some newline then
            .ok { entries, loadedBytes := lineStart }
          else .error k.corrupt
        | some entry =>
          match k.check entries entry with
          | .error e => .error e
          | .ok () => k.loadLines data rounds consumed (entries ++ [entry])

def load (k : LineCheck ε err) (data : Bytes) (j : Loaded ε) : Except err (Loaded ε) :=
  if data.length < j.loadedBytes then .error (k.shrank j.loadedBytes data.length)
  else if data.length = j.loadedBytes then .ok j
  else k.loadLines data (data.length + 1) j.loadedBytes j.entries

end LineCheck

/-! ## The replay map -/

export Controller (ReplayMapEntry)

abbrev ReplayMap := Loaded ReplayMapEntry

inductive ReplayMapError where
  | shrank (loadedBytes fileLen : Nat)
  | notUtf8
  | corrupt
  | sequence (logicalSequence expected : Nat)
  | hashRequired
  deriving DecidableEq, Repr

def ReplayMapError.message : ReplayMapError → String
  | .shrank loadedBytes fileLen =>
    s!"replay map shrank from {loadedBytes} to {fileLen} bytes; append-only invariant broken"
  | .notUtf8 => "stream did not contain valid UTF-8"
  | .corrupt => "replay map line is corrupt"
  | .sequence logicalSequence expected =>
    s!"replay map sequence {logicalSequence}, expected {expected}"
  | .hashRequired => "replay map operation hash is required"

def validateNext (entries : List ReplayMapEntry) (entry : ReplayMapEntry) :
    Except ReplayMapError Unit :=
  let expected := (entries.getLast?.map fun e => e.logicalSequence + 1).getD 1
  if entry.logicalSequence ≠ expected then .error (.sequence entry.logicalSequence expected)
  else if entry.operationSha256 = "" then .error .hashRequired
  else .ok ()

def replayMapCheck : LineCheck ReplayMapEntry ReplayMapError where
  check := validateNext
  shrank := .shrank
  notUtf8 := .notUtf8
  corrupt := .corrupt

/-- The entry is checked, written and kept; the offset stays where it was. -/
def ReplayMap.push [SerdeJson ReplayMapEntry] (m : ReplayMap) (entry : ReplayMapEntry) :
    Except ReplayMapError (ReplayMap × Bytes) :=
  match validateNext m.entries entry with
  | .error e => .error e
  | .ok () => .ok ({ m with entries := m.entries ++ [entry] }, toText entry ++ [newline])

def ReplayMap.refresh [SerdeJson ReplayMapEntry] (data : Bytes) (m : ReplayMap) :
    Except ReplayMapError ReplayMap := replayMapCheck.load data m

/-! ## The intents -/

/-- `workload-intents.jsonl` and the file of the sequences that are synced; `none` before
the first append. -/
structure IntentLog where
  file : Option Bytes := none
  syncFile : Option Bytes := none
  deriving DecidableEq, Repr

inductive IntentError where
  | notUtf8
  | json
  deriving DecidableEq, Repr

/-- The end of a line, which `lines` takes off. -/
def stripEol (line : Bytes) : Bytes :=
  if line.getLast? = some newline then
    let text := line.dropLast
    if text.getLast? = some 0x0D then text.dropLast else text
  else line

section Intents

variable [SerdeJson TransactionPlan]

def IntentLog.append (l : IntentLog) (plan : TransactionPlan) : IntentLog where
  file := some (l.file.getD [] ++ (toText plan ++ [newline]))
  syncFile := some (l.syncFile.getD [] ++ (toString plan.sequence ++ "\n").toUTF8.toList)

/-- The lines that are left, one to a round. -/
def parseLines : Nat → Bytes → Except IntentError (List TransactionPlan)
  | 0, _ => .ok []
  | rounds + 1, data =>
    let line := readLine data
    if ¬ utf8Valid line then .error .notUtf8
    else if line = [] then .ok []
    else
      match fromText (stripEol line) with
      | none => .error .json
      | some plan => (parseLines rounds (data.drop line.length)).map fun plans => plan :: plans

def IntentLog.readAll (l : IntentLog) : Except IntentError (List TransactionPlan) :=
  match l.file with
  | none => .ok []
  | some data => parseLines (data.length + 1) data

end Intents

/-! ## Journals with a handle -/

/-- The functions of a journal, and the record that `append` stores for an entry. -/
structure JournalOps (ε σ err : Type) where
  created : σ
  stored : ε → ε
  append : σ → ε → Except err (σ × Bytes)
  refresh : Bytes → σ → Except err σ
  entries : σ → List ε

namespace JournalOps

variable {ε σ err : Type}

/-- A new handle is refreshed. -/
def resume (o : JournalOps ε σ err) (data : Bytes) : Except err σ := o.refresh data o.created

/-- Some appends, and the bytes that they write. -/
def appendAll (o : JournalOps ε σ err) : σ → List ε → Except err (σ × Bytes)
  | h, [] => .ok (h, [])
  | h, x :: xs => do
    let (h, bytes) ← o.append h x
    let (h, rest) ← o.appendAll h xs
    return (h, bytes ++ rest)

end JournalOps

def ledgerJournal [LedgerText] : JournalOps LedgerEntry CommittedLedger LedgerError where
  created := {}
  stored entry := { entry with entrySha256 := entryHash entry }
  append := CommittedLedger.append
  refresh data ledger := (refresh (some data) { ledger }).map Reader.ledger
  entries := CommittedLedger.entries

def replayMapJournal [SerdeJson ReplayMapEntry] :
    JournalOps ReplayMapEntry ReplayMap ReplayMapError where
  created := {}
  stored entry := entry
  append := ReplayMap.push
  refresh := ReplayMap.refresh
  entries := Loaded.entries

end GrayDB.R1
