import GrayDB.Lib.Digits
import GrayDB.Lib.UptoLast
import GrayDB.Lib.Crash
import GrayDB.Lib.Journal
import GrayDB.Lib.Pages
import GrayDB.Lib.Latest
import GrayDB.Lib.Parsing
import GrayDB.Lib.Codes
import GrayDB.Lib.Versioned
import GrayDB.Log.Frame
import GrayDB.Log.Dir
import GrayDB.Log.FrameLog
import GrayDB.Log.Layout
import GrayDB.Log.Operations
import GrayDB.Log.Recovery
import GrayDB.Log.Runs
import GrayDB.Log.Marks
import GrayDB.Log.Faults
import GrayDB.Log.Damage
import GrayDB.Columnar.Apply
import GrayDB.Columnar.Effects
import GrayDB.Columnar.CopyWrite
import GrayDB.Columnar.Body
import GrayDB.Columnar.Invariant
import GrayDB.Columnar.Rendering
import GrayDB.Columnar.Scan
import GrayDB.Columnar.Keys
import GrayDB.Columnar.FailedFlush
import GrayDB.Columnar.TimeTravel
import GrayDB.Columnar.DiskReader
import GrayDB.Columnar.Truncate
import GrayDB.Lib.Guarded
import GrayDB.Log.Tail
import GrayDB.Log.TailReads
import GrayDB.Log.TailRuns
import GrayDB.Registry.Wire
import GrayDB.Registry.Panics
import GrayDB.Registry.Rewind
import GrayDB.Registry.SchemaAt
import GrayDB.Registry.SchemaByName
import GrayDB.Source.Table
import GrayDB.R1.ApplyOnce
import GrayDB.R1.WindowRetries
import GrayDB.R1.EventGate
import GrayDB.R1.GeneratorCycles
import GrayDB.R1.Planner
import GrayDB.R1.PlannerTargets
import GrayDB.R1.InsertCounts
import GrayDB.R1.SqlStatements
import GrayDB.R1.ControllerLife
import GrayDB.R1.ControlRuns
import GrayDB.R1.Oracle
import GrayDB.R1.LedgerReaders
import GrayDB.R1.Journals
import GrayDB.R1.Digest
import GrayDB.R1.Invalidations
import GrayDB.R1.TornIntents
import GrayDB.R1.Replayer
import GrayDB.R1.WriterRuns
import GrayDB.Search.Mirror
import GrayDB.Search.Replay
import GrayDB.Studio.ApplyLoop
import GrayDB.Studio.SearchProofs
import GrayDB.Studio.Watermark
import GrayDB.Studio.Provider
import GrayDB.Studio.LsnText
import GrayDB.Ingest.Commits
import GrayDB.Ingest.Pump
import GrayDB.Ingest.Slot
import GrayDB.Ingest.Custody
import GrayDB.Ingest.Session
import GrayDB.R1.CdcLoop
import GrayDB.R1.WindowCalls
import GrayDB.R1.HonestMarkers
import GrayDB.R1.CdcRounds
import GrayDB.Studio.Freshness
import GrayDB.Ingest.Framing
import GrayDB.Ingest.Manifest
import GrayDB.Check.Multiset
import GrayDB.Check.Harness
