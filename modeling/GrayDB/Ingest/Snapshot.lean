import GrayDB.Lib.Cuts
import GrayDB.Lib.Digits
import GrayDB.Lib.Text
import Mathlib.Data.Prod.Lex
import Mathlib.Data.List.Nodup

/-!
# The plan of the initial load

A table is copied in parts, one page range each.  The planner cuts the pages that the
statistics of the table know into `copy_streams` ranges of one size, and leaves the last
range open, for the statistics may be old.

* `boundaries_eq`: the loop gives the multiples of the chunk size.
* Tuple positions are ordered by page and item, and a range is a piece between two of them
  (`selects_iff_inPiece`), so each tuple is in one range.
* `table_ranges` puts this together for what `planTable` returns.
-/

namespace GrayDB.Ingest

open Lib

/-! ## The plan -/

/-- A table of the catalog. -/
structure CatalogTable where
  schema : String
  name : String
  /-- An `i32`; -1 where the server has no statistics yet. -/
  relpages : Int
  /-- Names and type oids. -/
  columns : List (String × Nat)
  keyColumns : List String
  deriving DecidableEq, Repr

structure CopyJob where
  tableIdx : Nat
  table : String
  selectCols : String
  firstPage : Nat
  /-- `none` is the open range. -/
  endPage : Option Nat
  outFile : String
  relFile : String
  deriving DecidableEq, Repr

structure TablePlan where
  table : String
  columns : List String
  columnOids : List Nat
  keyColumns : List String
  deriving DecidableEq, Repr

inductive SnapshotError where
  | noColumns (qualified : String)
  | qualifiedTableName
  deriving DecidableEq, Repr

def SnapshotError.message : SnapshotError → String
  | .noColumns qualified => qualified ++ " has no columns"
  | .qualifiedTableName => "qualified table name"

/-- An identifier in SQL: quotes are doubled. -/
def quoteIdent (ident : String) : String :=
  "\"" ++ String.ofList (ident.toList.flatMap fun c => if c = '"' then ['"', '"'] else [c]) ++ "\""

/-- `{part:04}` -/
def partNumber (part : Nat) : String :=
  String.ofList (List.leftpad 4 '0' (Nat.toDigits 10 part))

def makeJob (tableIdx : Nat) (qualified selectCols : String) (firstPage : Nat)
    (endPage : Option Nat) (part : Nat) (snapshotDir dirName : String) : CopyJob :=
  let relFile := dirName ++ "/part-" ++ partNumber part ++ ".copy"
  { tableIdx, table := qualified, selectCols, firstPage, endPage
    outFile := snapshotDir ++ "/" ++ relFile, relFile }

/-- The loop that cuts the pages.  It goes round less than `streams` times. -/
def boundaryLoop (relpages streams chunk : Nat) : Nat → List Nat → Nat → List Nat
  | 0, out, p => out ++ [p]
  | fuel + 1, out, p =>
    if p < relpages ∧ out.length + 1 < streams then
      boundaryLoop relpages streams chunk fuel (out ++ [p]) ((p + chunk) % 2 ^ 32)
    else out ++ [p]

/-- The casts to `u32` drop what is above 32 bits. -/
def boundaries (copyStreams : Nat) (relpages : Int) : List Nat :=
  let streams := max copyStreams 1 % 2 ^ 32
  let relpages := (max relpages 0).toNat
  let chunk := max (relpages / streams) 1
  boundaryLoop relpages streams chunk streams [] 0

def planTable (copyStreams : Nat) (snapshotDir : String) (tableIdx : Nat) (t : CatalogTable) :
    Except SnapshotError (TablePlan × List CopyJob) :=
  let qualified := t.schema ++ "." ++ t.name
  if t.columns.isEmpty then .error (.noColumns qualified)
  else
    let selectCols := ", ".intercalate (t.columns.map fun c => quoteIdent c.1)
    let dirName := t.schema ++ "." ++ t.name
    let bounds := boundaries copyStreams t.relpages
    let closed := (bounds.zip bounds.tail).zipIdx.map fun (window, part) =>
      makeJob tableIdx qualified selectCols window.1 (some window.2) part snapshotDir dirName
    let last := makeJob tableIdx qualified selectCols (bounds.getLastD 0) none (bounds.length - 1)
      snapshotDir dirName
    .ok ({ table := qualified, columns := t.columns.map Prod.fst
           columnOids := t.columns.map Prod.snd, keyColumns := t.keyColumns }, closed ++ [last])

/-! ## The query of a part -/

/-- The position of a tuple: its page, and its item on the page.  The server orders
positions like this. -/
abbrev Ctid := Nat ×ₗ Nat

def ctid (page item : Nat) : Ctid := toLex (page, item)

/-- A comparison with the first position of a page. -/
inductive TidCond where
  | ge (page : Nat)
  | lt (page : Nat)
  deriving DecidableEq, Repr

def TidCond.text : TidCond → String
  | .ge page => s!"ctid >= '({page},0)'::tid"
  | .lt page => s!"ctid < '({page},0)'::tid"

def TidCond.Holds (t : Ctid) : TidCond → Prop
  | .ge page => ctid page 0 ≤ t
  | .lt page => t < ctid page 0

namespace CopyJob

def rangePred (job : CopyJob) : List TidCond :=
  match job.endPage with
  | some stop => [.ge job.firstPage, .lt stop]
  | none => [.ge job.firstPage]

/-- The query of a worker. -/
def sql (job : CopyJob) : Except SnapshotError String :=
  match splitOnce '.' job.table with
  | none => .error .qualifiedTableName
  | some (schema, name) => .ok <|
    "COPY (SELECT " ++ job.selectCols ++ " FROM " ++ quoteIdent schema ++ "." ++ quoteIdent name ++
      " WHERE " ++ " AND ".intercalate (job.rangePred.map TidCond.text) ++ ") TO STDOUT"

/-- The tuple is copied by this job. -/
def Selects (job : CopyJob) (t : Ctid) : Prop := ∀ cond ∈ job.rangePred, cond.Holds t

end CopyJob

/-! ## The loop -/

/-- The multiples of the chunk size that the loop has passed, and where it stops: the streams
are used up, or the pages.  The sum does not leave 32 bits. -/
theorem boundaryLoop_eq {relpages chunk : Nat} (hpages : relpages < 2 ^ 31)
    (hchunk : chunk ≤ max relpages 1) (streams fuel k : Nat) (hk : k + 1 ≤ streams)
    (hfuel : streams ≤ fuel + k) :
    ∃ n, boundaryLoop relpages streams chunk fuel ((List.range k).map (· * chunk)) (k * chunk)
        = (List.range (n + 1)).map (· * chunk) ∧
      n + 1 ≤ streams ∧ (n + 1 = streams ∨ relpages ≤ n * chunk) := by
  have hpush : ∀ k, (List.range k).map (· * chunk) ++ [k * chunk]
      = (List.range (k + 1)).map (· * chunk) := by
    intro k
    rw [List.range_succ, List.map_append, List.map_singleton]
  induction fuel generalizing k with
  | zero => omega
  | succ fuel ih =>
    rw [boundaryLoop, List.length_map, List.length_range]
    split_ifs with hloop
    · have hsum : (k * chunk + chunk) % 2 ^ 32 = (k + 1) * chunk := by
        rw [Nat.succ_mul]
        omega
      rw [hpush, hsum]
      exact ih (k + 1) hloop.2 (by omega)
    · exact ⟨k, hpush k, hk, by omega⟩

theorem boundaries_eq {copyStreams : Nat} (hstreams : copyStreams < 2 ^ 32) {relpages : Int}
    (hpages : relpages < 2 ^ 31) :
    ∃ n chunk, boundaries copyStreams relpages = (List.range (n + 1)).map (· * chunk) ∧
      1 ≤ chunk ∧ n + 1 ≤ max copyStreams 1 := by
  have hwidth : max copyStreams 1 % 2 ^ 32 = max copyStreams 1 := Nat.mod_eq_of_lt (by omega)
  let pages := (max relpages 0).toNat
  let chunk := max (pages / max copyStreams 1) 1
  have hpages' : pages < 2 ^ 31 := by omega
  have hchunk : chunk ≤ max pages 1 := by
    have hdiv : pages / max copyStreams 1 ≤ pages := Nat.div_le_self _ _
    omega
  obtain ⟨n, hn, hle, -⟩ := boundaryLoop_eq hpages' hchunk (max copyStreams 1) (max copyStreams 1) 0
    (by omega) (by omega)
  refine ⟨n, chunk, ?_, Nat.le_max_right _ _, hle⟩
  rw [boundaries, hwidth, ← hn, Nat.zero_mul]
  rfl

/-! ## The ranges of a table -/

/-- The ranges that the jobs of a table copy. -/
structure TableRanges (copyStreams : Nat) (jobs : List CopyJob) : Prop where
  count : jobs.length ≤ max copyStreams 1
  first : jobs.head?.map CopyJob.firstPage = some 0
  /-- A range that is not the last is not empty, and ends where the next begins. -/
  closed : ∀ i job next, jobs[i]? = some job → jobs[i + 1]? = some next →
    job.endPage = some next.firstPage ∧ job.firstPage < next.firstPage
  last : jobs.getLast?.map CopyJob.endPage = some none
  /-- Each tuple is copied once. -/
  once : ∀ t : Ctid, ∃! i : Nat, ∃ job : CopyJob, jobs[i]? = some job ∧ job.Selects t
  pages : (jobs.map CopyJob.firstPage).Nodup
  files : (jobs.map CopyJob.outFile).Nodup ∧ (jobs.map CopyJob.relFile).Nodup

theorem partNumber_injective : Function.Injective partNumber := by
  intro m n h
  have hchars : List.leftpad 4 '0' (Nat.toDigits 10 m) = List.leftpad 4 '0' (Nat.toDigits 10 n) :=
    String.ofList_injective h
  have hvalue := congrArg (fun cs => Nat.ofDigitChars 10 cs 0) hchars
  simpa only [List.leftpad, Nat.ofDigitChars_append, Nat.ofDigitChars_replicate_zero, Nat.mul_zero,
    Nat.ofDigitChars_ten_toDigits] using hvalue

theorem ctid_lt_ctid {page page' : Nat} : ctid page 0 < ctid page' 0 ↔ page < page' := by
  simp [ctid, Prod.Lex.toLex_lt_toLex]

/-- A job between two cut points. -/
theorem CopyJob.selects_iff {job : CopyJob} {t : Ctid} :
    job.Selects t ↔ ctid job.firstPage 0 ≤ t ∧ ∀ stop ∈ job.endPage, t < ctid stop 0 := by
  unfold CopyJob.Selects CopyJob.rangePred
  cases hstop : job.endPage with
  | none => simp [TidCond.Holds]
  | some stop => simp [TidCond.Holds]

section Ranges

variable (tableIdx : Nat) (qualified selectCols snapshotDir dirName : String) (n chunk : Nat)

/-- Part `i` of a table whose open part is part `n`. -/
def partJob (i : Nat) : CopyJob :=
  makeJob tableIdx qualified selectCols (i * chunk) (if i < n then some ((i + 1) * chunk) else none)
    i snapshotDir dirName

theorem closedJobs_eq :
    ((((List.range (n + 1)).map (· * chunk)).zip ((List.range (n + 1)).map (· * chunk)).tail).zipIdx.map
        fun (window, part) =>
          makeJob tableIdx qualified selectCols window.1 (some window.2) part snapshotDir dirName)
      = (List.range n).map
          (partJob tableIdx qualified selectCols snapshotDir dirName n chunk) := by
  apply List.ext_getElem
  · simp
  · intro i hi hi'
    have hlt : i < n := by simpa using hi'
    simp [partJob, hlt]

/-- The parts of a table. -/
def partJobs : List CopyJob :=
  (List.range (n + 1)).map (partJob tableIdx qualified selectCols snapshotDir dirName n chunk)

variable {tableIdx qualified selectCols snapshotDir dirName n chunk}

theorem getElem?_partJobs {i : Nat} {job : CopyJob} :
    (partJobs tableIdx qualified selectCols snapshotDir dirName n chunk)[i]? = some job ↔
      i < n + 1 ∧ partJob tableIdx qualified selectCols snapshotDir dirName n chunk i = job := by
  by_cases hi : i < n + 1
  · simp [partJobs, hi]
  · simp [partJobs, hi]

/-- A tuple is in the range of a part exactly if it is between the cut points of the part. -/
theorem selects_partJobs {i : Nat} {t : Ctid} :
    (∃ job, (partJobs tableIdx qualified selectCols snapshotDir dirName n chunk)[i]? = some job ∧
        job.Selects t) ↔
      InPiece ((List.range (n + 1)).map fun i => ctid (i * chunk) 0) i t := by
  have hcut : ∀ i a, ((List.range (n + 1)).map fun i => ctid (i * chunk) 0)[i]? = some a ↔
      i < n + 1 ∧ ctid (i * chunk) 0 = a := by
    intro i a
    by_cases hi : i < n + 1
    · simp [hi]
    · simp [hi]
  simp only [getElem?_partJobs, InPiece, hcut, CopyJob.selects_iff]
  constructor
  · rintro ⟨job, ⟨hi, rfl⟩, hle, hlt⟩
    refine ⟨⟨_, ⟨hi, rfl⟩, hle⟩, ?_⟩
    rintro b ⟨hnext, rfl⟩
    exact hlt _ (if_pos (Nat.lt_of_succ_lt_succ hnext))
  · rintro ⟨⟨a, ⟨hi, rfl⟩, hle⟩, hlt⟩
    refine ⟨_, ⟨hi, rfl⟩, hle, fun stop hstop => ?_⟩
    change stop ∈ (if i < n then some ((i + 1) * chunk) else none) at hstop
    split_ifs at hstop with hlast
    · obtain rfl := Option.some.inj hstop
      exact hlt _ ⟨Nat.succ_lt_succ hlast, rfl⟩
    · exact nomatch hstop

theorem tableRanges_partJobs {copyStreams : Nat} (hcount : n + 1 ≤ max copyStreams 1)
    (hchunk : 1 ≤ chunk) :
    TableRanges copyStreams
      (partJobs tableIdx qualified selectCols snapshotDir dirName n chunk) where
  count := by simpa [partJobs] using hcount
  first := by
    rw [List.head?_eq_getElem?, getElem?_partJobs.mpr ⟨Nat.succ_pos n, rfl⟩, Option.map_some]
    simp [partJob, makeJob]
  closed := by
    intro i job next hjob hnext
    obtain ⟨-, rfl⟩ := getElem?_partJobs.mp hjob
    obtain ⟨hlt, rfl⟩ := getElem?_partJobs.mp hnext
    refine ⟨if_pos (Nat.lt_of_succ_lt_succ hlt), ?_⟩
    exact Nat.mul_lt_mul_of_pos_right (Nat.lt_succ_self i) hchunk
  last := by
    have hlength : (partJobs tableIdx qualified selectCols snapshotDir dirName n chunk).length
        = n + 1 := by simp [partJobs]
    rw [List.getLast?_eq_getElem?, hlength, Nat.add_sub_cancel,
      getElem?_partJobs.mpr ⟨Nat.lt_succ_self n, rfl⟩]
    exact congrArg some (if_neg (Nat.lt_irrefl n))
  once := by
    intro t
    simp only [selects_partJobs]
    apply existsUnique_inPiece
    · rw [List.pairwise_map]
      refine List.pairwise_lt_range.imp fun {i j} hij => ctid_lt_ctid.mpr ?_
      exact Nat.mul_lt_mul_of_pos_right hij hchunk
    · refine ⟨ctid 0 0, ?_, ?_⟩
      · simp [List.head?_eq_getElem?]
      · exact Prod.Lex.toLex_le_toLex'.mpr ⟨Nat.zero_le _, fun _ => Nat.zero_le _⟩
  pages := by
    rw [partJobs, List.map_map]
    refine List.nodup_range.map fun i j hij => ?_
    exact Nat.eq_of_mul_eq_mul_right hchunk hij
  files := by
    have hfile : ∀ i j, (partJob tableIdx qualified selectCols snapshotDir dirName n chunk i).relFile
        = (partJob tableIdx qualified selectCols snapshotDir dirName n chunk j).relFile → i = j := by
      intro i j hij
      have hchars := congrArg String.toList hij
      simp only [partJob, makeJob, String.toList_append, List.append_cancel_left_eq,
        List.append_cancel_right_eq] at hchars
      exact partNumber_injective (String.toList_inj.mp hchars)
    constructor
    · rw [partJobs, List.map_map]
      refine List.nodup_range.map fun i j hij => hfile i j ?_
      exact (String.append_right_inj (snapshotDir ++ "/")).mp hij
    · rw [partJobs, List.map_map]
      exact List.nodup_range.map fun i j hij => hfile i j hij

end Ranges

/-- The jobs of a table are the parts that its boundaries cut. -/
theorem planTable_eq_ok {copyStreams : Nat} (hstreams : copyStreams < 2 ^ 32) {t : CatalogTable}
    (hpages : t.relpages < 2 ^ 31) {snapshotDir : String} {tableIdx : Nat} {plan : TablePlan}
    {jobs : List CopyJob} (h : planTable copyStreams snapshotDir tableIdx t = .ok (plan, jobs)) :
    ∃ qualified selectCols dirName n chunk,
      jobs = partJobs tableIdx qualified selectCols snapshotDir dirName n chunk ∧
        1 ≤ chunk ∧ n + 1 ≤ max copyStreams 1 := by
  obtain ⟨n, chunk, hbounds, hchunk, hcount⟩ := boundaries_eq hstreams hpages
  rw [planTable] at h
  split_ifs at h
  obtain ⟨-, rfl⟩ := Prod.mk.inj (Except.ok.inj h)
  refine ⟨t.schema ++ "." ++ t.name, ", ".intercalate (t.columns.map fun c => quoteIdent c.1),
    t.schema ++ "." ++ t.name, n, chunk, ?_, hchunk, hcount⟩
  have hlast : ((List.range (n + 1)).map (· * chunk)).getLastD 0 = n * chunk := by
    rw [List.range_succ, List.map_append, List.map_singleton, List.getLastD_concat]
  have hlength : ((List.range (n + 1)).map (· * chunk)).length - 1 = n := by simp
  have hopen : ∀ qualified selectCols dirName,
      makeJob tableIdx qualified selectCols (n * chunk) none n snapshotDir dirName
        = partJob tableIdx qualified selectCols snapshotDir dirName n chunk n := by
    intro qualified selectCols dirName
    rw [partJob, if_neg (Nat.lt_irrefl n)]
  simp only [hbounds, closedJobs_eq, hlast, hlength, hopen]
  rw [← List.map_singleton, ← List.map_append, ← List.range_succ]
  rfl

/-- **The ranges of a table partition it**: whatever the statistics say, each tuple is in
exactly one of them. -/
theorem table_ranges {copyStreams : Nat} (hstreams : copyStreams < 2 ^ 32) {t : CatalogTable}
    (hpages : t.relpages < 2 ^ 31) {snapshotDir : String} {tableIdx : Nat} {plan : TablePlan}
    {jobs : List CopyJob} (h : planTable copyStreams snapshotDir tableIdx t = .ok (plan, jobs)) :
    TableRanges copyStreams jobs := by
  obtain ⟨_, _, _, _, _, rfl, hchunk, hcount⟩ := planTable_eq_ok hstreams hpages h
  exact tableRanges_partJobs hcount hchunk

/-- Ten pages in four streams: the open range has the pages that are left over. -/
theorem table_ranges_orders : ∃ plan jobs,
    planTable 4 "snapshot" 0 ⟨"app", "orders", 10, [("id", 20)], ["id"]⟩ = .ok (plan, jobs) ∧
      jobs.map (fun job => (job.firstPage, job.endPage))
        = [(0, some 2), (2, some 4), (4, some 6), (6, none)] ∧
      TableRanges 4 jobs :=
  ⟨_, _, rfl, rfl, table_ranges (t := ⟨"app", "orders", 10, [("id", 20)], ["id"]⟩)
    (by decide) (by decide) rfl⟩

end GrayDB.Ingest
