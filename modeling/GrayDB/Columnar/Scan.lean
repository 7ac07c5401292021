import GrayDB.Columnar.Store

/-!
# Scanning a store

`scanAt` goes through the segments, skips those that begin behind the LSN, and reads the
others batch by batch, with the rows that the sidecar hides.  The open rows follow.  How
parquet cuts a file into batches is `Batching`: the rows come in the order in which they
were written.
-/

namespace GrayDB.Columnar

open Lib

/-- The batches in which the rows of a file are read, for the columns that are read. -/
structure Batching where
  cut : List Nat → List Stored → List (List Stored)
  flatten_cut : ∀ columns rows, (cut columns rows).flatten = rows

/-- The rows deleted at or before `lsn`. -/
def deletedBy (deletes : List (Nat × Nat)) (lsn : Nat) : List Nat :=
  (deletes.filter fun d => decide (d.2 ≤ lsn)).map Prod.fst

def OpenRow.visibleAt (lsn : Nat) (row : OpenRow) : Bool :=
  decide (row.insertLsn ≤ lsn) && !row.deleteLsn.any fun d => decide (d ≤ lsn)

/-- The batches of a segment; `base` counts the rows of the batches before. -/
def scanBatches (deleted : List Nat) (lsn : Nat) : Nat → List (List Stored) → List Row
  | _, [] => []
  | base, batch :: batches =>
    appendRenderedRows batch (some (deleted, base)) lsn
      ++ scanBatches deleted lsn ((base + batch.length % 2 ^ 32) % 2 ^ 32) batches

namespace TableStore

/-- The columns of a segment file, with the LSN column. -/
def allColumns (s : TableStore) : List Nat := List.range (s.columns.length + 1)

def scanSegment (s : TableStore) (b : Batching) (lsn : Nat) (seg : SegmentMeta) :
    Except StoreError (List Row) :=
  if lsn < seg.lsnMin then .ok []
  else match s.files.lookup seg.id with
    | none => .error .io
    | some rows =>
      let deleted := deletedBy ((s.sidecars.lookup seg.id).getD []) lsn
      .ok (scanBatches deleted lsn 0 (b.cut s.allColumns rows))

/-- All rows visible at `lsn`. -/
def scanAt (s : TableStore) (b : Batching) (lsn : Nat) : Except StoreError (List Row) := do
  let parts ← s.segments.mapM (s.scanSegment b lsn)
  return parts.flatten ++ (s.opened.filter (OpenRow.visibleAt lsn)).map OpenRow.values

end TableStore

/-! ## Batches do not matter -/

private theorem appendRenderedRows_append (batch batch' : List Stored) (deleted : List Nat)
    (base lsn : Nat) : appendRenderedRows (batch ++ batch') (some (deleted, base)) lsn
      = appendRenderedRows batch (some (deleted, base)) lsn
        ++ appendRenderedRows batch' (some (deleted, (base + batch.length % 2 ^ 32) % 2 ^ 32)) lsn := by
  unfold appendRenderedRows
  rw [List.zipIdx_append, List.filterMap_append, List.zipIdx_eq_map_add (l := batch'),
    List.filterMap_map]
  congr 1
  apply List.filterMap_congr
  intro r _
  have hsum : (base + (0 + batch.length + r.2)) % 2 ^ 32
      = ((base + batch.length % 2 ^ 32) % 2 ^ 32 + r.2) % 2 ^ 32 := by omega
  simp only [Function.comp_apply, Option.any_some, hsum]

/-- The rows of a file are scanned as one batch. -/
theorem scanBatches_eq (deleted : List Nat) (lsn base : Nat) (batches : List (List Stored)) :
    scanBatches deleted lsn base batches
      = appendRenderedRows batches.flatten (some (deleted, base)) lsn := by
  induction batches generalizing base with
  | nil => rfl
  | cons batch batches ih => rw [scanBatches, ih, List.flatten_cons, appendRenderedRows_append]

/-! ## What a file shows -/

variable {f : OpenRow → Row} {rows : List OpenRow}

private theorem filterMap_zipIdx_eq {deleted : List Nat} {lsn : Nat} (base : Nat)
    (hdeleted : ∀ j r, rows[j]? = some r →
      ((base + j) % 2 ^ 32 ∈ deleted ↔ r.deleteLsn.any (fun d => decide (d ≤ lsn)) = true)) :
    ((rows.map fun r => (f r, r.insertLsn)).zipIdx base).filterMap (fun r =>
        if r.2 % 2 ^ 32 ∈ deleted then none else if lsn < r.1.2 then none else some r.1.1)
      = (rows.filter (OpenRow.visibleAt lsn)).map f := by
  induction rows generalizing base with
  | nil => rfl
  | cons r rows ih =>
    have hrest := ih (base + 1) (by
      intro j r' hr'
      rw [Nat.add_assoc, Nat.add_comm 1 j]
      exact hdeleted (j + 1) r' (by simpa using hr'))
    have hfirst := hdeleted 0 r (by simp)
    simp only [Nat.add_zero] at hfirst
    rw [List.map_cons, List.zipIdx_cons, List.filterMap_cons, List.filter_cons, hrest]
    unfold OpenRow.visibleAt
    by_cases hdead : r.deleteLsn.any (fun d => decide (d ≤ lsn)) = true
    · rw [if_pos (hfirst.mpr hdead)]
      simp [hdead]
    · rw [if_neg fun hmem => hdead (hfirst.mp hmem)]
      by_cases hlsn : lsn < r.insertLsn
      · have hnot : ¬ r.insertLsn ≤ lsn := by omega
        simp [hlsn, hnot]
      · have hle : r.insertLsn ≤ lsn := by omega
        simp [hdead, hlsn, hle]

/-- Scanned with the marks of its rows, a file gives the rows that are visible. -/
theorem appendRenderedRows_eq {deleted : List Nat} {lsn : Nat}
    (hdeleted : ∀ j r, rows[j]? = some r →
      (j % 2 ^ 32 ∈ deleted ↔ r.deleteLsn.any (fun d => decide (d ≤ lsn)) = true)) :
    appendRenderedRows (rows.map fun r => (f r, r.insertLsn)) (some (deleted, 0)) lsn
      = (rows.filter (OpenRow.visibleAt lsn)).map f := by
  rw [← filterMap_zipIdx_eq 0 (by simpa using hdeleted)]
  unfold appendRenderedRows
  simp

/-- Read without a mask, a file gives all its rows. -/
theorem appendRenderedRows_none (hstamps : ∀ r ∈ rows, r.insertLsn ≤ maxLsn) :
    appendRenderedRows (rows.map fun r => (f r, r.insertLsn)) none maxLsn = rows.map f := by
  have hall : ∀ r ∈ (rows.map fun r => (f r, r.insertLsn)).zipIdx, ¬ maxLsn < r.1.2 := by
    intro r hr
    obtain ⟨row, hrow, heq⟩ := List.mem_map.mp (List.fst_mem_of_mem_zipIdx hr)
    rw [← heq]
    exact Nat.not_lt.mpr (hstamps row hrow)
  unfold appendRenderedRows
  calc _ = (rows.map fun r => (f r, r.insertLsn)).zipIdx.filterMap fun r => some r.1.1 := by
        apply List.filterMap_congr
        intro r hr
        rw [if_neg (by simp), if_neg (hall r hr)]
    _ = (rows.map fun r => (f r, r.insertLsn)).map Prod.fst := by
        rw [List.filterMap_eq_map' (f := fun r : Stored × Nat => r.1.1)]
        exact (List.map_map ..).symm.trans (congrArg _ (List.zipIdx_map_fst 0 _))
    _ = rows.map f := by
        rw [List.map_map]
        rfl

end GrayDB.Columnar
