import GrayDB.Ingest.Snapshot
import GrayDB.Log.Frame
import Mathlib.Data.List.Sort
import Mathlib.Data.List.Perm.Lattice

/-!
# The manifest of the initial load

Workers take the jobs from one queue, and each returns the parts that it has copied, so the
parts arrive in any order.  The manifest has them under their tables, by their first pages.

`manifest_in_order`: the parts of a table are in the manifest in the order of its plan,
whatever the workers did, for the first pages of a plan are different.
-/

namespace GrayDB.Ingest

open Lib Log

structure PartManifest where
  file : String
  rows : Nat
  bytes : Nat
  firstPage : Nat
  endPage : Option Nat
  deriving DecidableEq, Repr

structure TableManifest where
  table : String
  columns : List String
  columnOids : List Nat
  keyColumns : List String
  rows : Nat
  bytes : Nat
  parts : List PartManifest
  deriving DecidableEq, Repr

/-- The jobs of the tables from `tableIdx` on. -/
def planTables (copyStreams : Nat) (snapshotDir : String) :
    Nat → List CatalogTable → Except SnapshotError (List TablePlan × List CopyJob)
  | _, [] => .ok ([], [])
  | tableIdx, t :: ts => do
    let (plan, jobs) ← planTable copyStreams snapshotDir tableIdx t
    let (plans, rest) ← planTables copyStreams snapshotDir (tableIdx + 1) ts
    return (plan :: plans, jobs ++ rest)

/-- What a worker returns for a job: it counts the newlines of the COPY output. -/
def copyPart (output : CopyJob → Bytes) (job : CopyJob) : Nat × PartManifest :=
  (job.tableIdx,
    { file := job.relFile, rows := (output job).count 0x0A, bytes := (output job).length
      firstPage := job.firstPage, endPage := job.endPage })

def TablePlan.manifest (p : TablePlan) : TableManifest where
  table := p.table
  columns := p.columns
  columnOids := p.columnOids
  keyColumns := p.keyColumns
  rows := 0
  bytes := 0
  parts := []

def TableManifest.add (t : TableManifest) (part : PartManifest) : TableManifest :=
  { t with rows := t.rows + part.rows, bytes := t.bytes + part.bytes, parts := t.parts ++ [part] }

/-- `sort_by_key` with the first page. -/
def sortParts (parts : List PartManifest) : List PartManifest :=
  parts.mergeSort fun a b => decide (a.firstPage ≤ b.firstPage)

def assemble (plans : List TablePlan) (results : List (Nat × PartManifest)) : List TableManifest :=
  let tables := results.foldl (fun tables r => tables.modify r.1 (·.add r.2))
    (plans.map TablePlan.manifest)
  tables.map fun t => { t with parts := sortParts t.parts }

/-! ## Sorting by the first page -/

theorem sortParts_eq {parts planned : List PartManifest} (hperm : parts.Perm planned)
    (hplanned : planned.Pairwise fun a b => a.firstPage < b.firstPage) :
    sortParts parts = planned := by
  have hsorted : (sortParts parts).Pairwise fun a b => a.firstPage ≤ b.firstPage := by
    have h : (sortParts parts).Pairwise fun a b => decide (a.firstPage ≤ b.firstPage) = true := by
      apply List.pairwise_mergeSort
      · intro a b c hab hbc
        exact decide_eq_true (Nat.le_trans (of_decide_eq_true hab) (of_decide_eq_true hbc))
      · intro a b
        simpa using Nat.le_total a.firstPage b.firstPage
    exact h.imp of_decide_eq_true
  have hsame : (sortParts parts).Perm planned := (List.mergeSort_perm parts _).trans hperm
  have hnodup : (planned.map PartManifest.firstPage).Nodup :=
    List.pairwise_map.mpr (hplanned.imp Nat.ne_of_lt)
  refine hsame.eq_of_pairwise (fun a b ha hb hab hba => ?_) hsorted (hplanned.imp Nat.le_of_lt)
  exact List.inj_on_of_nodup_map hnodup (hsame.mem_iff.mp ha) hb (Nat.le_antisymm hab hba)

/-! ## Assembling -/

/-- The parts that were returned for a table. -/
def partsOf (results : List (Nat × PartManifest)) (tableIdx : Nat) : List PartManifest :=
  (results.filter fun r => r.1 = tableIdx).map Prod.snd

theorem add_foldl (parts : List PartManifest) (t : TableManifest) :
    parts.foldl TableManifest.add t =
      { t with rows := t.rows + (parts.map PartManifest.rows).sum
               bytes := t.bytes + (parts.map PartManifest.bytes).sum
               parts := t.parts ++ parts } := by
  induction parts generalizing t with
  | nil => simp
  | cons part parts ih =>
    rw [List.foldl_cons, ih]
    simp [TableManifest.add, Nat.add_assoc]

/-- Each table is given its own parts, in the order in which they arrive. -/
theorem getElem?_results (results : List (Nat × PartManifest)) (tables : List TableManifest)
    (i : Nat) :
    (results.foldl (fun tables r => tables.modify r.1 (·.add r.2)) tables)[i]?
      = tables[i]?.map fun t => (partsOf results i).foldl TableManifest.add t := by
  induction results generalizing tables with
  | nil => simp [partsOf]
  | cons r results ih =>
    rw [List.foldl_cons, ih, List.getElem?_modify]
    by_cases hr : r.1 = i
    · simp [partsOf, hr, Function.comp_def]
    · simp [partsOf, hr]

/-- The parts of a table as they are planned. -/
theorem assemble_parts {plans : List TablePlan} {results : List (Nat × PartManifest)} {i : Nat}
    {planned : List PartManifest} (hperm : (partsOf results i).Perm planned)
    (hplanned : planned.Pairwise fun a b => a.firstPage < b.firstPage) :
    (assemble plans results)[i]? = plans[i]?.map fun p =>
      { p.manifest with rows := (planned.map PartManifest.rows).sum
                        bytes := (planned.map PartManifest.bytes).sum
                        parts := planned } := by
  rw [assemble, List.getElem?_map, getElem?_results, List.getElem?_map, Option.map_map,
    Option.map_map]
  congr 1
  funext p
  have hrows := (hperm.map PartManifest.rows).sum_nat
  have hbytes := (hperm.map PartManifest.bytes).sum_nat
  simp [add_foldl, TablePlan.manifest, hrows, hbytes, sortParts_eq hperm hplanned]

/-! ## The plan of all tables -/

variable {copyStreams : Nat} {snapshotDir : String}

/-- The jobs of a table are numbered with it, and in the order of the pages. -/
theorem jobs_of_planTable (hstreams : copyStreams < 2 ^ 32) {t : CatalogTable}
    (hpages : t.relpages < 2 ^ 31) {tableIdx : Nat} {plan : TablePlan} {jobs : List CopyJob}
    (h : planTable copyStreams snapshotDir tableIdx t = .ok (plan, jobs)) :
    (∀ job ∈ jobs, job.tableIdx = tableIdx) ∧
      jobs.Pairwise fun a b => a.firstPage < b.firstPage := by
  obtain ⟨qualified, selectCols, dirName, n, chunk, rfl, hchunk, -⟩ :=
    planTable_eq_ok hstreams hpages h
  constructor
  · intro job hjob
    obtain ⟨i, -, rfl⟩ := List.mem_map.mp hjob
    rfl
  · rw [partJobs, List.pairwise_map]
    exact List.pairwise_lt_range.imp fun hij => Nat.mul_lt_mul_of_pos_right hij hchunk

theorem planTables_cons_eq_ok {tableIdx : Nat} {t : CatalogTable} {ts : List CatalogTable}
    {plans : List TablePlan} {jobs : List CopyJob}
    (h : planTables copyStreams snapshotDir tableIdx (t :: ts) = .ok (plans, jobs)) :
    ∃ plan first plans' rest, plans = plan :: plans' ∧ jobs = first ++ rest ∧
      planTable copyStreams snapshotDir tableIdx t = .ok (plan, first) ∧
      planTables copyStreams snapshotDir (tableIdx + 1) ts = .ok (plans', rest) := by
  rw [planTables] at h
  cases htable : planTable copyStreams snapshotDir tableIdx t with
  | error e =>
    rw [htable] at h
    exact nomatch h
  | ok first =>
    cases hrest : planTables copyStreams snapshotDir (tableIdx + 1) ts with
    | error e =>
      rw [htable, hrest] at h
      exact nomatch h
    | ok rest =>
      rw [htable, hrest] at h
      obtain ⟨rfl, rfl⟩ := Prod.mk.inj (Except.ok.inj h)
      exact ⟨first.1, first.2, rest.1, rest.2, rfl, rfl, rfl, rfl⟩

/-- The jobs of one table among those of all tables. -/
theorem jobs_of_planTables (hstreams : copyStreams < 2 ^ 32) {tables : List CatalogTable}
    (hpages : ∀ t ∈ tables, t.relpages < 2 ^ 31) {tableIdx : Nat} {plans : List TablePlan}
    {jobs : List CopyJob}
    (h : planTables copyStreams snapshotDir tableIdx tables = .ok (plans, jobs)) :
    (∀ job ∈ jobs, tableIdx ≤ job.tableIdx) ∧
      ∀ (i : Nat) t, tables[i]? = some t → ∃ plan own,
        planTable copyStreams snapshotDir (tableIdx + i) t = .ok (plan, own) ∧
          plans[i]? = some plan ∧ (jobs.filter fun job => job.tableIdx = tableIdx + i) = own := by
  induction tables generalizing tableIdx plans jobs with
  | nil =>
    obtain ⟨rfl, rfl⟩ := Prod.mk.inj (Except.ok.inj h)
    exact ⟨nofun, nofun⟩
  | cons t ts ih =>
    obtain ⟨plan, first, plans', rest, rfl, rfl, htable, hrest⟩ := planTables_cons_eq_ok h
    obtain ⟨hfirst, -⟩ := jobs_of_planTable hstreams (hpages t List.mem_cons_self) htable
    obtain ⟨hlater, hown⟩ := ih (fun t' ht' => hpages t' (List.mem_cons_of_mem t ht')) hrest
    refine ⟨fun job hjob => ?_, fun i t' ht' => ?_⟩
    · rcases List.mem_append.mp hjob with hmem | hmem
      · exact Nat.le_of_eq (hfirst job hmem).symm
      · exact Nat.le_of_succ_le (hlater job hmem)
    · rw [List.filter_append]
      cases i with
      | zero =>
        obtain rfl := Option.some.inj ht'
        refine ⟨plan, first, htable, rfl, ?_⟩
        rw [Nat.add_zero, List.filter_eq_self.mpr fun job hmem => decide_eq_true (hfirst job hmem),
          List.filter_eq_nil_iff.mpr, List.append_nil]
        intro job hmem
        have hle := hlater job hmem
        simp only [decide_eq_true_eq]
        omega
      | succ i =>
        obtain ⟨plan', own, hplan', hget, hfilter⟩ := hown i t' ht'
        rw [Nat.add_right_comm] at hplan' hfilter
        refine ⟨plan', own, hplan', hget, ?_⟩
        rw [List.filter_eq_nil_iff.mpr, List.nil_append]
        · exact hfilter
        · intro job hmem
          have heq := hfirst job hmem
          simp only [decide_eq_true_eq]
          omega

/-- The parts of a table are in the manifest as they were planned, in whatever order the
workers have copied them. -/
theorem manifest_in_order (hstreams : copyStreams < 2 ^ 32) {tables : List CatalogTable}
    (hpages : ∀ t ∈ tables, t.relpages < 2 ^ 31) {plans : List TablePlan} {jobs : List CopyJob}
    (h : planTables copyStreams snapshotDir 0 tables = .ok (plans, jobs)) (output : CopyJob → Bytes)
    {results : List (Nat × PartManifest)} (hresults : results.Perm (jobs.map (copyPart output))) :
    ∀ (i : Nat) t, tables[i]? = some t → ∃ plan own,
      planTable copyStreams snapshotDir i t = .ok (plan, own) ∧
        (assemble plans results)[i]? = some { plan.manifest with
          rows := (own.map fun job => (output job).count 0x0A).sum
          bytes := (own.map fun job => (output job).length).sum
          parts := own.map fun job => (copyPart output job).2 } := by
  intro i t ht
  obtain ⟨plan, own, hplan, hget, hfilter⟩ := (jobs_of_planTables hstreams hpages h).2 i t ht
  rw [Nat.zero_add] at hplan hfilter
  refine ⟨plan, own, hplan, ?_⟩
  have hsorted : (own.map fun job => (copyPart output job).2).Pairwise
      fun a b => a.firstPage < b.firstPage :=
    List.pairwise_map.mpr (jobs_of_planTable hstreams (hpages t (List.mem_of_getElem? ht)) hplan).2
  have hparts : (partsOf results i).Perm (own.map fun job => (copyPart output job).2) := by
    have hfiltered := (hresults.filter fun r => r.1 = i).map Prod.snd
    rw [List.filter_map, List.map_map] at hfiltered
    rw [← hfilter]
    exact hfiltered
  rw [assemble_parts hparts hsorted, hget, Option.map_some, List.map_map, List.map_map]
  rfl

end GrayDB.Ingest
