import GrayDB.Check.Lines
import GrayDB.Ingest.Manifest
import GrayDB.R1.Digest

/-!
# The snapshot check

`checkTableAtSnapshot` copies a table once more from the snapshot of the load, and compares
its lines with those of the staged parts: both are sorted, written one after the other with
newlines behind them, and hashed.

No line holds a newline, so the hashed stream has one reading (`lineStream_inj`), and the
check decides whether the two sides have the same lines (`check_decides`).
-/

namespace GrayDB.Check

open Lib Log Columnar Ingest R1

structure TableCheck where
  table : String
  sourceRows : Nat
  stagedRows : Nat
  sourceHash : String
  stagedHash : String
  pass : Bool
  deriving DecidableEq, Repr

inductive CheckError where
  | qualifiedTableName
  /-- The error is the client's. -/
  | copyOut
  | reading (path : String)
  deriving DecidableEq, Repr

def CheckError.message : CheckError → String
  | .qualifiedTableName => "qualified table name"
  | .copyOut => "copy out"
  | .reading path => "reading staged part " ++ path

/-- What is hashed: the lines with newlines behind them. -/
def lineStream (lines : List Bytes) : Bytes := lines.flatMap fun line => line ++ [0x0A]

def sortedMultisetHash [Sha256] (lines : List Bytes) : Nat × String :=
  (lines.length, encodeHex (Sha256.finalize (lineStream (sorted lines))))

/-- The query for the whole table. -/
def tableSql (manifest : TableManifest) : Except CheckError String :=
  match splitOnce '.' manifest.table with
  | none => .error .qualifiedTableName
  | some (schema, name) => .ok <|
    "COPY (SELECT " ++ ", ".intercalate (manifest.columns.map quoteIdent) ++ " FROM " ++
      quoteIdent schema ++ "." ++ quoteIdent name ++ ") TO STDOUT"

/-- The lines of the staged parts, one part after the other. -/
def stagedLines (read : String → Option Bytes) (snapshotDir : String) :
    List PartManifest → Except CheckError (List Bytes)
  | [] => .ok []
  | part :: parts =>
    match read (snapshotDir ++ "/" ++ part.file) with
    | none => .error (.reading (snapshotDir ++ "/" ++ part.file))
    | some data => do
      let lines ← stagedLines read snapshotDir parts
      return splitCopyLines data ++ lines

/-- The end of the check, with the lines of both sides. -/
def compareLines [Sha256] (manifest : TableManifest) (sourceLines staged : List Bytes) :
    TableCheck :=
  let (sourceRows, sourceHash) := sortedMultisetHash sourceLines
  let (stagedRows, stagedHash) := sortedMultisetHash staged
  { table := manifest.table, sourceRows, stagedRows, sourceHash, stagedHash
    pass := sourceRows == stagedRows && sourceHash == stagedHash && stagedRows == manifest.rows }

/-- The client and the file system are `copyOut` and `read`. -/
def checkTableAtSnapshot [Sha256] (copyOut read : String → Option Bytes) (snapshotDir : String)
    (manifest : TableManifest) : Except CheckError TableCheck := do
  let sql ← tableSql manifest
  match copyOut sql with
  | none => .error .copyOut
  | some sourceData => do
    let staged ← stagedLines read snapshotDir manifest.parts
    return compareLines manifest (splitCopyLines sourceData) staged

/-! ## The stream -/

theorem newline_notMem_copyLines (data : Bytes) : ∀ line ∈ copyLines data, 0x0A ∉ line := by
  induction data with
  | nil => exact fun line hline => absurd hline List.not_mem_nil
  | cons b data ih =>
    rw [copyLines]
    split_ifs with hb
    · intro line hline
      rcases List.mem_cons.mp hline with rfl | hmem
      · exact List.not_mem_nil
      · exact ih line hmem
    · cases hlines : copyLines data with
      | nil =>
        intro line hline
        rw [List.mem_singleton.mp hline, List.mem_singleton]
        exact fun h => hb h.symm
      | cons first lines =>
        rw [hlines] at ih
        intro line hline
        rcases List.mem_cons.mp hline with rfl | hmem
        · rw [List.mem_cons, not_or]
          exact ⟨fun h => hb h.symm, ih first List.mem_cons_self⟩
        · exact ih line (List.mem_cons_of_mem first hmem)

/-- Lines without newlines are read back from the stream. -/
theorem lineStream_inj {lines lines' : List Bytes} (h : ∀ line ∈ lines, 0x0A ∉ line)
    (h' : ∀ line ∈ lines', 0x0A ∉ line) (heq : lineStream lines = lineStream lines') :
    lines = lines' := by
  rw [← copyLines_of_lines h, ← copyLines_of_lines h']
  exact congrArg copyLines heq

/-- Equal hashes of streams that the hash tells apart are hashes of the same lines. -/
theorem sortedMultisetHash_eq_iff [Sha256] {lines lines' : List Bytes}
    (h : ∀ line ∈ lines, 0x0A ∉ line) (h' : ∀ line ∈ lines', 0x0A ∉ line)
    (hsha : Sha256.finalize (lineStream (sorted lines)) = Sha256.finalize (lineStream (sorted lines')) →
      lineStream (sorted lines) = lineStream (sorted lines')) :
    sortedMultisetHash lines = sortedMultisetHash lines' ↔ lines.Perm lines' := by
  constructor
  · intro heq
    have hstream := hsha (encodeHex_injective (Prod.mk.inj heq).2)
    have hsorted := lineStream_inj (fun line hline => h line ((sorted_perm _).mem_iff.mp hline))
      (fun line hline => h' line ((sorted_perm _).mem_iff.mp hline)) hstream
    exact sorted_eq_iff.mp hsorted
  · intro hperm
    rw [sortedMultisetHash, sortedMultisetHash, sorted_eq_iff.mpr hperm, hperm.length_eq]

/-! ## The check -/

theorem stagedLines_eq {read : String → Option Bytes} {snapshotDir : String}
    {parts : List PartManifest} {contents : List Bytes}
    (h : parts.map (fun part => read (snapshotDir ++ "/" ++ part.file)) = contents.map some) :
    stagedLines read snapshotDir parts = .ok (contents.flatMap copyLines) := by
  induction parts generalizing contents with
  | nil =>
    cases contents with
    | nil => rfl
    | cons data contents => exact nomatch h
  | cons part parts ih =>
    cases contents with
    | nil => exact nomatch h
    | cons data contents =>
      obtain ⟨hread, hrest⟩ := List.cons.inj h
      change read _ = some data at hread
      rw [stagedLines, hread, List.flatMap_cons, ← splitCopyLines_eq]
      show (stagedLines read snapshotDir parts >>= fun lines => _) = _
      rw [ih hrest]
      rfl

/-- **The snapshot check decides multiset equality.**  It passes exactly if the table and all
its parts together have the same lines, each as often, and the manifest has their number. -/
theorem check_decides [Sha256] {copyOut read : String → Option Bytes} {snapshotDir : String}
    {manifest : TableManifest} {sql : String} (hsql : tableSql manifest = .ok sql)
    {source : Bytes} (hsource : copyOut sql = some source) {contents : List Bytes}
    (hparts : manifest.parts.map (fun part => read (snapshotDir ++ "/" ++ part.file))
      = contents.map some)
    (hsha : Sha256.finalize (lineStream (sorted (splitCopyLines source)))
        = Sha256.finalize (lineStream (sorted (contents.flatMap splitCopyLines))) →
      lineStream (sorted (splitCopyLines source))
        = lineStream (sorted (contents.flatMap splitCopyLines))) :
    ∃ check, checkTableAtSnapshot copyOut read snapshotDir manifest = .ok check ∧
      (check.pass = true ↔ (splitCopyLines source).Perm (contents.flatMap splitCopyLines) ∧
        (contents.flatMap splitCopyLines).length = manifest.rows) := by
  have hsplit : splitCopyLines = copyLines := funext splitCopyLines_eq
  have hlines : ∀ line ∈ contents.flatMap copyLines, 0x0A ∉ line := by
    intro line hline
    obtain ⟨data, -, hmem⟩ := List.mem_flatMap.mp hline
    exact newline_notMem_copyLines data line hmem
  rw [hsplit] at hsha ⊢
  have hiff := sortedMultisetHash_eq_iff (newline_notMem_copyLines source) hlines hsha
  refine ⟨compareLines manifest (copyLines source) (contents.flatMap copyLines), ?_, ?_⟩
  · rw [checkTableAtSnapshot, hsql, hsplit]
    show (match copyOut sql with
      | none => _
      | some sourceData => stagedLines read snapshotDir manifest.parts >>= fun staged =>
          pure (compareLines manifest (copyLines sourceData) staged)) = _
    rw [hsource, stagedLines_eq hparts]
    rfl
  · rw [← hiff, Prod.ext_iff]
    simp only [compareLines, Bool.and_eq_true, beq_iff_eq]
    rfl

/-- Two parts, and the rows in another order in the table. -/
theorem check_decides_parts :
    let _ : Sha256 :=
      ⟨fun s => if s = [0x61, 0x0A, 0x62, 0x0A] then
        [0x91, 0x11, 0x69, 0xDD, 0xAA, 0xF1, 0x46, 0xAF, 0xF5, 0x39, 0xF5, 0x8C, 0x26, 0xC4, 0x89,
          0xAF, 0x3B, 0x89, 0x2D, 0xFF, 0x0F, 0xE2, 0x83, 0xC1, 0xC2, 0x64, 0xC6, 0x5A, 0xE5, 0xAA,
          0x59, 0xA2]
        else []⟩
    let manifest : TableManifest :=
      { table := "app.t", columns := ["v"], columnOids := [25], keyColumns := [], rows := 2, bytes := 4
        parts := [⟨"app.t/part-0000.copy", 1, 2, 0, some 1⟩, ⟨"app.t/part-0001.copy", 1, 2, 1, none⟩] }
    let copyOut : String → Option Bytes := fun sql =>
      if sql = "COPY (SELECT \"v\" FROM \"app\".\"t\") TO STDOUT" then some [0x61, 0x0A, 0x62, 0x0A]
      else none
    let read : String → Option Bytes := fun path =>
      if path = "snapshot/app.t/part-0000.copy" then some [0x62, 0x0A]
      else if path = "snapshot/app.t/part-0001.copy" then some [0x61, 0x0A]
      else none
    ∃ check, checkTableAtSnapshot copyOut read "snapshot" manifest = .ok check ∧
      check.pass = true := by
  intro _ manifest copyOut read
  have hsql : tableSql manifest = .ok "COPY (SELECT \"v\" FROM \"app\".\"t\") TO STDOUT" := by
    decide +kernel
  have hsource : copyOut "COPY (SELECT \"v\" FROM \"app\".\"t\") TO STDOUT"
      = some [0x61, 0x0A, 0x62, 0x0A] := if_pos rfl
  have hparts : manifest.parts.map (fun part => read ("snapshot" ++ "/" ++ part.file))
      = [[0x62, 0x0A], [0x61, 0x0A]].map some := by
    decide +kernel
  have hperm : (splitCopyLines [0x61, 0x0A, 0x62, 0x0A]).Perm
      ([[0x62, 0x0A], [0x61, 0x0A]].flatMap splitCopyLines) := by
    decide +kernel
  obtain ⟨check, hcheck, hpass⟩ := check_decides hsql hsource hparts
    fun _ => congrArg lineStream (sorted_eq_iff.mpr hperm)
  exact ⟨check, hcheck, hpass.mpr ⟨hperm, by decide +kernel⟩⟩

end GrayDB.Check
