import GrayDB.Columnar.DiskReader
import GrayDB.Columnar.Truncate
import GrayDB.Studio.Engine

/-!
# The streaming scan

A query reads a table through `SegmentIter`: segment by segment and batch by batch, with the
columns that it asks for and the LSN column, and the open rows of the snapshot as the last
batch.  The store goes on while the query runs, so that `next` takes the files as they are
at that time.

* `maskAndProject_eq` says what becomes of one batch.
* `next_spec` says what one call of `next` yields, and what is left.
* `provider_agrees_iff` is the result: the whole scan is what `scanAt` showed when the snapshot
  was taken, exactly if the open rows are read back as they are.
-/

namespace GrayDB.Studio

open Lib Lib.Crash Columnar

/-- A value of a record batch. -/
inductive Cell where
  | value (v : Option String)
  | lsn (n : Nat)
  deriving DecidableEq, Repr

def Cell.value? : Cell → Option (Option String)
  | .value v => some v
  | .lsn _ => none

/-- A record batch, row by row. -/
abbrev RecordBatch := List (List Cell)

/-- A column of a stored row; the LSN is behind the `width` values. -/
def cellOf (width : Nat) (r : Stored) (p : Nat) : Cell :=
  if p = width then .lsn r.2 else .value (r.1.getD p none)

def recordBatch (width : Nat) (columns : List Nat) (rows : List Stored) : RecordBatch :=
  rows.map fun r => columns.map (cellOf width r)

/-- `Vec::dedup` -/
def dedup : List Nat → List Nat
  | a :: b :: l => if a = b then dedup (b :: l) else a :: dedup (b :: l)
  | l => l

abbrev SegmentFiles := AList fun _ : Nat => List Stored

structure SegmentIter where
  snap : TableSnapshot
  proj : List Nat
  /-- The columns that are read, in file order. -/
  readSet : List Nat
  outPositions : List Nat
  lsnPosition : Nat
  /-- The segments that are not opened yet. -/
  rest : List SegmentSnapshot
  /-- The batches of the open segment that are not read yet. -/
  reader : Option (List RecordBatch) := none
  deleted : List Nat := []
  base : Nat := 0
  overlayDone : Bool := false
  deriving DecidableEq, Repr

namespace SegmentIter

/-- `None` is a panic. -/
def new (snap : TableSnapshot) (proj : List Nat) : Option SegmentIter := do
  let lsnIdx := snap.columns.length
  let columns := if proj.contains lsnIdx then proj else proj ++ [lsnIdx]
  let readSet := dedup (columns.mergeSort (· ≤ ·))
  let outPositions ← proj.mapM fun p => readSet.idxOf? p
  let lsnPosition ← readSet.idxOf? lsnIdx
  return { snap, proj, readSet, outPositions, lsnPosition, rest := snap.segments }

/-- Open the next segment that is not pruned. -/
def openNextSegment (b : Batching) (files : SegmentFiles) (it : SegmentIter) :
    List SegmentSnapshot → Except ReadError Bool × SegmentIter
  | [] => (.ok false, { it with rest := [] })
  | seg :: rest =>
    if it.snap.targetLsn < seg.info.lsnMin then it.openNextSegment b files rest
    else
      let it := { it with rest, deleted := deletedBy seg.deletes it.snap.targetLsn, base := 0 }
      match files.lookup seg.info.id with
      | none => (.error .io, it)
      | some rows => (.ok true, { it with
          reader := some ((b.cut it.readSet rows).map
            (recordBatch it.snap.columns.length it.readSet)) })

def lsnOf (it : SegmentIter) (row : List Cell) : Except ReadError Nat :=
  match row[it.lsnPosition]? with
  | some (.lsn n) => .ok n
  | _ => .error .notU64

def outRow (it : SegmentIter) (row : List Cell) : Except ReadError (List Cell) :=
  it.outPositions.mapM fun p => match row[p]? with
    | some cell => .ok cell
    | none => .error .panic

/-- Mask a batch and put its columns in output order; nothing comes of a batch without visible
rows. -/
def maskAndProject (it : SegmentIter) (batch : RecordBatch) :
    Except ReadError (Option RecordBatch) := do
  let lsns ← batch.mapM it.lsnOf
  let filtered := ((batch.zip lsns).zipIdx.filter fun r =>
    decide (r.1.2 ≤ it.snap.targetLsn) && !it.deleted.contains ((it.base + r.2) % 2 ^ 32)).map (·.1.1)
  if filtered.isEmpty then
    return none
  else
    let out ← filtered.mapM it.outRow
    return some out

/-- The open rows were filtered when the snapshot was taken. -/
def projectOverlay (it : SegmentIter) : RecordBatch :=
  recordBatch it.snap.columns.length it.proj it.snap.overlay

theorem length_rest_openNextSegment {b : Batching} {files : SegmentFiles} {it it' : SegmentIter}
    {segs : List SegmentSnapshot} (h : it.openNextSegment b files segs = (.ok true, it')) :
    it'.rest.length < segs.length := by
  induction segs with
  | nil => exact nomatch (Prod.mk.inj h).1
  | cons seg segs ih =>
    unfold openNextSegment at h
    split at h
    · exact Nat.lt_succ_of_lt (ih h)
    · dsimp only at h
      split at h
      · exact nomatch (Prod.mk.inj h).1
      · obtain ⟨-, rfl⟩ := Prod.mk.inj h
        exact Nat.lt_succ_self _

/-- The next batch, with the files as they are now. -/
def next (b : Batching) (files : SegmentFiles) (it : SegmentIter) :
    Option (Except ReadError RecordBatch) × SegmentIter :=
  match _hreader : it.reader with
  | some (batch :: batches) =>
    let it' := { it with
      reader := some batches, base := (it.base + batch.length % 2 ^ 32) % 2 ^ 32 }
    match it.maskAndProject batch with
    | .ok (some out) => (some (.ok out), it')
    | .ok none => next b files it'
    | .error e => (some (.error e), it')
  | some [] => next b files { it with reader := none }
  | none =>
    match _hopen : it.openNextSegment b files it.rest with
    | (.ok true, it') => next b files it'
    | (.ok false, it') =>
      if it'.overlayDone then (none, it')
      else
        let it'' := { it' with overlayDone := true }
        if it'.snap.overlay.isEmpty then (none, it'')
        else (some (.ok it'.projectOverlay), it'')
    | (.error e, it') => (some (.error e), it')
  termination_by (it.rest.length, (it.reader.map List.length).elim 0 (· + 1))
  decreasing_by
    · simp only [_hreader, Option.map_some, Option.elim_some, List.length_cons]
      exact Prod.Lex.right _ (Nat.lt_succ_self _)
    · simp only [_hreader, Option.map_some, Option.elim_some, Option.map_none, Option.elim_none]
      exact Prod.Lex.right _ (Nat.lt_succ_self _)
    · exact Prod.Lex.left _ _ (length_rest_openNextSegment _hopen)

/-! ## One batch -/

theorem mem_dedup {p : Nat} {l : List Nat} : p ∈ dedup l ↔ p ∈ l := by
  induction l using dedup.induct with
  | case1 a l ih =>
    rw [dedup, if_pos rfl, ih]
    simp
  | case2 a b l hne ih =>
    rw [dedup, if_neg hne, List.mem_cons, ih]
    exact List.mem_cons.symm
  | case3 l hshort =>
    cases l with
    | nil => exact Iff.rfl
    | cons a l =>
      cases l with
      | nil => exact Iff.rfl
      | cons b l => exact absurd rfl (hshort a b l)

/-- The columns of the reader are where the iterator looks for them. -/
structure Laid (it : SegmentIter) : Prop where
  lsn : it.readSet[it.lsnPosition]? = some it.snap.columns.length
  out : List.Forall₂ (fun p pos => it.readSet[pos]? = some p) it.proj it.outPositions

private theorem exists_position {columns : List Nat} {p : Nat} (h : p ∈ columns) :
    ∃ pos, columns.idxOf? p = some pos ∧ columns[pos]? = some p := by
  obtain ⟨pos, hpos⟩ := Option.isSome_iff_exists.mp (List.isSome_idxOf?.mpr h)
  obtain ⟨hlt, hget, -⟩ := List.idxOf?_eq_some_iff.mp hpos
  exact ⟨pos, hpos, by rw [List.getElem?_eq_getElem hlt, hget]⟩

private theorem exists_positions {columns proj : List Nat} (h : ∀ p ∈ proj, p ∈ columns) :
    ∃ out, (proj.mapM fun p => columns.idxOf? p) = some out ∧
      List.Forall₂ (fun p pos => columns[pos]? = some p) proj out := by
  induction proj with
  | nil => exact ⟨[], rfl, List.Forall₂.nil⟩
  | cons p proj ih =>
    obtain ⟨pos, hpos, hget⟩ := exists_position (h p List.mem_cons_self)
    obtain ⟨out, hout, hall⟩ := ih fun q hq => h q (List.mem_cons_of_mem p hq)
    refine ⟨pos :: out, ?_, List.Forall₂.cons hget hall⟩
    rw [List.mapM_cons, hpos, hout]
    rfl

/-- An iterator is made of every snapshot and for all columns. -/
theorem exists_new (snap : TableSnapshot) (proj : List Nat) : ∃ it, new snap proj = some it ∧
    it.Laid ∧ it.snap = snap ∧ it.proj = proj ∧ it.rest = snap.segments ∧ it.reader = none ∧
    it.overlayDone = false := by
  let columns := if proj.contains snap.columns.length then proj else proj ++ [snap.columns.length]
  let readSet := dedup (columns.mergeSort (· ≤ ·))
  have hmem : ∀ p, p ∈ readSet ↔ p ∈ columns := fun p => mem_dedup.trans List.mem_mergeSort
  have hproj : ∀ p ∈ proj, p ∈ readSet := by
    intro p hp
    rw [hmem]
    show p ∈ if proj.contains snap.columns.length then proj else proj ++ [snap.columns.length]
    split
    · exact hp
    · exact List.mem_append_left _ hp
  have hlsn : snap.columns.length ∈ readSet := by
    rw [hmem]
    show _ ∈ if proj.contains snap.columns.length then proj else proj ++ [snap.columns.length]
    split
    · rename_i hcontains
      exact List.contains_iff_mem.mp hcontains
    · simp
  obtain ⟨out, hout, hall⟩ := exists_positions hproj
  obtain ⟨pos, hpos, hget⟩ := exists_position hlsn
  refine ⟨{ snap, proj, readSet, outPositions := out, lsnPosition := pos, rest := snap.segments },
    ?_, ⟨hget, hall⟩, rfl, rfl, rfl, rfl, rfl⟩
  show ((proj.mapM fun p => readSet.idxOf? p) >>= fun outPositions =>
    readSet.idxOf? snap.columns.length >>= fun lsnPosition => some
      ({ snap, proj, readSet, outPositions, lsnPosition, rest := snap.segments } : SegmentIter)) = _
  rw [hout, hpos]
  rfl

section Batch

variable {it : SegmentIter} {rows : List Stored}

private theorem getElem?_cells {width : Nat} {columns : List Nat} {pos p : Nat} (r : Stored)
    (h : columns[pos]? = some p) : (columns.map (cellOf width r))[pos]? = some (cellOf width r p) := by
  rw [List.getElem?_map, h]
  rfl

theorem Laid.lsnOf_eq (h : it.Laid) (r : Stored) :
    it.lsnOf (it.readSet.map (cellOf it.snap.columns.length r)) = .ok r.2 := by
  rw [lsnOf, getElem?_cells r h.lsn, cellOf, if_pos rfl]

theorem Laid.outRow_eq (h : it.Laid) (r : Stored) :
    it.outRow (it.readSet.map (cellOf it.snap.columns.length r))
      = .ok (it.proj.map (cellOf it.snap.columns.length r)) := by
  rw [outRow, mapM_eq_ok_iff, List.forall₂_map_right_iff]
  refine h.out.flip.imp fun pos p hget => ?_
  rw [getElem?_cells r hget]

/-- A batch of rows gives the visible ones, in output order. -/
theorem maskAndProject_eq (h : it.Laid) (rows : List Stored) :
    it.maskAndProject (recordBatch it.snap.columns.length it.readSet rows)
      = .ok (if (maskBatch it.deleted it.snap.targetLsn it.base rows).isEmpty then none
        else some (recordBatch it.snap.columns.length it.proj
          (maskBatch it.deleted it.snap.targetLsn it.base rows))) := by
  let cells : Stored → List Cell := fun r => it.readSet.map (cellOf it.snap.columns.length r)
  have hlsns : (rows.map cells).mapM it.lsnOf = .ok (rows.map Prod.snd) := by
    rw [mapM_eq_ok_iff, List.forall₂_map_left_iff, List.forall₂_map_right_iff, List.forall₂_same]
    exact fun r _ => h.lsnOf_eq r
  have hfiltered : ((((rows.map cells).zip (rows.map Prod.snd)).zipIdx.filter fun r =>
        decide (r.1.2 ≤ it.snap.targetLsn) &&
          !it.deleted.contains ((it.base + r.2) % 2 ^ 32)).map (·.1.1))
      = (maskBatch it.deleted it.snap.targetLsn it.base rows).map cells := by
    rw [List.zip_map', List.zipIdx_map, List.filter_map, List.map_map, maskBatch, List.map_map]
    rfl
  have hout : ∀ l : List Stored, (l.map cells).mapM it.outRow
      = .ok (recordBatch it.snap.columns.length it.proj l) := by
    intro l
    rw [mapM_eq_ok_iff, recordBatch, List.forall₂_map_left_iff, List.forall₂_map_right_iff,
      List.forall₂_same]
    exact fun r _ => h.outRow_eq r
  unfold maskAndProject
  rw [recordBatch]
  show ((rows.map cells).mapM it.lsnOf >>= _) = _
  rw [hlsns]
  show (if (List.map _ (List.filter _ _)).isEmpty then _ else _) = _
  rw [hfiltered, List.isEmpty_map]
  split
  · rfl
  · rw [hout]
    rfl

end Batch

/-! ## One call of `next` -/

section Next

variable {b : Batching} {files : SegmentFiles} {it it' : SegmentIter} {batch out : RecordBatch}
  {batches : List RecordBatch}

private theorem next_yield (hreader : it.reader = some (batch :: batches))
    (hmask : it.maskAndProject batch = .ok (some out)) :
    it.next b files = (some (.ok out), { it with
      reader := some batches, base := (it.base + batch.length % 2 ^ 32) % 2 ^ 32 }) := by
  rw [next]
  split
  · rename_i h
    obtain ⟨rfl, rfl⟩ := List.cons.inj (Option.some.inj (hreader.symm.trans h))
    rw [hmask]
  · rename_i h
    exact nomatch hreader.symm.trans h
  · rename_i h
    exact nomatch hreader.symm.trans h

private theorem next_skip (hreader : it.reader = some (batch :: batches))
    (hmask : it.maskAndProject batch = .ok none) :
    it.next b files = next b files { it with
      reader := some batches, base := (it.base + batch.length % 2 ^ 32) % 2 ^ 32 } := by
  rw [next]
  split
  · rename_i h
    obtain ⟨rfl, rfl⟩ := List.cons.inj (Option.some.inj (hreader.symm.trans h))
    rw [hmask]
  · rename_i h
    exact nomatch hreader.symm.trans h
  · rename_i h
    exact nomatch hreader.symm.trans h

private theorem next_closed (hreader : it.reader = some []) :
    it.next b files = next b files { it with reader := none } := by
  rw [next]
  split
  · rename_i h
    exact nomatch hreader.symm.trans h
  · rfl
  · rename_i h
    exact nomatch hreader.symm.trans h

private theorem next_opened (hreader : it.reader = none)
    (hopen : it.openNextSegment b files it.rest = (.ok true, it')) :
    it.next b files = it'.next b files := by
  rw [next]
  split
  · rename_i h
    exact nomatch hreader.symm.trans h
  · rename_i h
    exact nomatch hreader.symm.trans h
  · rw [hopen]

private theorem next_overlay (hreader : it.reader = none)
    (hopen : it.openNextSegment b files it.rest = (.ok false, it')) :
    it.next b files = if it'.overlayDone then (none, it')
      else if it'.snap.overlay.isEmpty then (none, { it' with overlayDone := true })
      else (some (.ok it'.projectOverlay), { it' with overlayDone := true }) := by
  rw [next]
  split
  · rename_i h
    exact nomatch hreader.symm.trans h
  · rename_i h
    exact nomatch hreader.symm.trans h
  · rw [hopen]

variable {files₀ : SegmentFiles} {cur : List (List Stored)}

/-- The batches of visible rows of a segment. -/
def shown (b : Batching) (files : SegmentFiles) (readSet : List Nat) (lsn : Nat)
    (seg : SegmentSnapshot) : List (List Stored) :=
  if lsn < seg.info.lsnMin then []
  else (maskEach (deletedBy seg.deletes lsn) lsn 0
    (b.cut readSet ((files.lookup seg.info.id).getD []))).filter fun batch => !batch.isEmpty

/-- The batches that are still to come, when `cur` is what is left of the open segment. -/
def pending (b : Batching) (files : SegmentFiles) (it : SegmentIter) (cur : List (List Stored)) :
    List (List Stored) :=
  (maskEach it.deleted it.snap.targetLsn it.base cur).filter (fun batch => !batch.isEmpty)
    ++ (it.rest.flatMap (shown b files it.readSet it.snap.targetLsn)
      ++ if it.overlayDone || it.snap.overlay.isEmpty then [] else [it.snap.overlay])

structure Stands (it : SegmentIter) (cur : List (List Stored)) : Prop where
  laid : it.Laid
  reader : it.reader = some (cur.map (recordBatch it.snap.columns.length it.readSet)) ∨
    it.reader = none ∧ cur = []

/-- The files of these segments are there, as they were. -/
def SameFiles (files₀ files : SegmentFiles) (segs : List SegmentSnapshot) : Prop :=
  ∀ seg ∈ segs, (files₀.lookup seg.info.id).isSome ∧
    files.lookup seg.info.id = files₀.lookup seg.info.id

private theorem openNextSegment_cases {segs : List SegmentSnapshot}
    (hfiles : SameFiles files₀ files segs) :
    it.openNextSegment b files segs = (.ok false, { it with rest := [] }) ∧
        segs.flatMap (shown b files₀ it.readSet it.snap.targetLsn) = [] ∨
      ∃ deleted rest rows, rest ⊆ segs ∧
        it.openNextSegment b files segs = (.ok true, { it with
          rest, deleted, base := 0
          reader := some ((b.cut it.readSet rows).map
            (recordBatch it.snap.columns.length it.readSet)) }) ∧
        segs.flatMap (shown b files₀ it.readSet it.snap.targetLsn)
          = (maskEach deleted it.snap.targetLsn 0 (b.cut it.readSet rows)).filter
              (fun batch => !batch.isEmpty)
            ++ rest.flatMap (shown b files₀ it.readSet it.snap.targetLsn) := by
  induction segs with
  | nil => exact Or.inl ⟨rfl, rfl⟩
  | cons seg segs ih =>
    rw [openNextSegment, List.flatMap_cons, shown]
    by_cases hprune : it.snap.targetLsn < seg.info.lsnMin
    · rw [if_pos hprune, if_pos hprune, List.nil_append]
      rcases ih fun s hs => hfiles s (List.mem_cons_of_mem seg hs) with
        hnone | ⟨deleted, rest, rows, hsub, hopen⟩
      · exact Or.inl hnone
      · exact Or.inr ⟨deleted, rest, rows, fun s hs => List.mem_cons_of_mem seg (hsub hs), hopen⟩
    · rw [if_neg hprune, if_neg hprune]
      obtain ⟨hsome, hsame⟩ := hfiles seg List.mem_cons_self
      obtain ⟨rows, hrows⟩ := Option.isSome_iff_exists.mp hsome
      rw [hsame, hrows]
      exact Or.inr ⟨_, segs, rows, fun s hs => List.mem_cons_of_mem seg hs, rfl, rfl⟩

private theorem Stands.exists_cur (h : it.Stands cur) (hreader : it.reader = some (batch :: batches)) :
    ∃ rows cur', cur = rows :: cur' ∧
      batch = recordBatch it.snap.columns.length it.readSet rows ∧
      batches = cur'.map (recordBatch it.snap.columns.length it.readSet) := by
  rcases h.reader with hsome | ⟨hnone, -⟩
  · obtain hmap := Option.some.inj (hreader.symm.trans hsome)
    obtain ⟨rows, cur', hcur, hrows, hcur'⟩ := List.map_eq_cons_iff.mp hmap.symm
    exact ⟨rows, cur', hcur, hrows.symm, hcur'.symm⟩
  · exact nomatch hreader.symm.trans hnone

private theorem Stands.closed (h : it.Stands cur) (hreader : it.reader = some []) :
    cur = [] ∧ Stands { it with reader := none } [] := by
  rcases h.reader with hsome | ⟨hnone, -⟩
  · obtain hmap := Option.some.inj (hreader.symm.trans hsome)
    exact ⟨List.map_eq_nil_iff.mp hmap.symm, ⟨h.laid.lsn, h.laid.out⟩, Or.inr ⟨rfl, rfl⟩⟩
  · exact nomatch hreader.symm.trans hnone

private theorem Stands.closed' (h : it.Stands cur) (hreader : it.reader = none) : cur = [] := by
  rcases h.reader with hsome | ⟨-, hnil⟩
  · exact nomatch hreader.symm.trans hsome
  · exact hnil

/-- The call yields the first batch that is still to come, or it is the end. -/
theorem next_spec (h : it.Stands cur) (hfiles : SameFiles files₀ files it.rest) :
    (it.pending b files₀ cur = [] ∧ (it.next b files).1 = none) ∨
      ∃ rows later it' cur', it.pending b files₀ cur = rows :: later ∧
        it.next b files = (some (.ok (recordBatch it.snap.columns.length it.proj rows)), it') ∧
        it'.Stands cur' ∧ it'.pending b files₀ cur' = later ∧ it'.rest ⊆ it.rest ∧
        it'.snap = it.snap ∧ it'.proj = it.proj := by
  induction it using next.induct b files generalizing cur with
  | case1 it batch batches hreader out hmask =>
    obtain ⟨rows, cur', rfl, rfl, rfl⟩ := h.exists_cur hreader
    have hout := (maskAndProject_eq h.laid rows).symm.trans hmask
    by_cases hempty : (maskBatch it.deleted it.snap.targetLsn it.base rows).isEmpty = true
    · rw [if_pos hempty] at hout
      cases Except.ok.inj hout
    · rw [if_neg hempty] at hout
      obtain rfl := Option.some.inj (Except.ok.inj hout)
      refine Or.inr ⟨_, _, _, cur', ?_, next_yield hreader hmask, ⟨⟨h.laid.lsn, h.laid.out⟩, Or.inl rfl⟩,
        rfl, List.Subset.refl _, rfl, rfl⟩
      rw [pending, maskEach, List.filter_cons_of_pos (by simpa using hempty), recordBatch,
        List.length_map]
      rfl
  | case2 it batch batches hreader it' hmask =>
    rename_i ih
    obtain ⟨rows, cur', rfl, rfl, rfl⟩ := h.exists_cur hreader
    have hout := (maskAndProject_eq h.laid rows).symm.trans hmask
    have hempty : (maskBatch it.deleted it.snap.targetLsn it.base rows).isEmpty = true := by
      by_contra hne
      rw [if_neg hne] at hout
      cases Except.ok.inj hout
    have hpending : it.pending b files₀ (rows :: cur') = pending b files₀ { it with
        reader := some (cur'.map (recordBatch it.snap.columns.length it.readSet))
        base := (it.base + (recordBatch it.snap.columns.length it.readSet rows).length % 2 ^ 32)
          % 2 ^ 32 } cur' := by
      rw [pending, maskEach, List.filter_cons_of_neg (by simpa using hempty), recordBatch,
        List.length_map]
      rfl
    rw [next_skip hreader hmask, hpending]
    exact ih ⟨⟨h.laid.lsn, h.laid.out⟩, Or.inl rfl⟩ hfiles
  | case3 it batch batches hreader e hmask =>
    obtain ⟨rows, cur', rfl, rfl, rfl⟩ := h.exists_cur hreader
    cases (maskAndProject_eq h.laid rows).symm.trans hmask
  | case4 it hreader ih =>
    obtain ⟨rfl, hstands⟩ := h.closed hreader
    rw [next_closed hreader]
    exact ih hstands hfiles
  | case5 it hreader it' hopen ih =>
    obtain rfl := h.closed' hreader
    rcases openNextSegment_cases hfiles with ⟨hopen', -⟩ | ⟨deleted, rest, rows, hsub, hopen', hrest⟩
    · cases (Prod.mk.inj (hopen.symm.trans hopen')).1
    · obtain ⟨-, rfl⟩ := Prod.mk.inj (hopen.symm.trans hopen')
      have hpending : it.pending b files₀ [] = pending b files₀ { it with
          rest, deleted, base := 0
          reader := some ((b.cut it.readSet rows).map
            (recordBatch it.snap.columns.length it.readSet)) } (b.cut it.readSet rows) := by
        rw [pending, pending, hrest, List.append_assoc]
        rfl
      rw [next_opened hreader hopen, hpending]
      rcases ih ⟨⟨h.laid.lsn, h.laid.out⟩, Or.inl rfl⟩ fun seg hseg => hfiles seg (hsub hseg) with
        hend | ⟨rows', later, it', cur', hlater, hnext, hstands, hpending', hsub', hsnap, hproj⟩
      · exact Or.inl hend
      · exact Or.inr ⟨rows', later, it', cur', hlater, hnext, hstands, hpending',
          fun seg hseg => hsub (hsub' hseg), hsnap, hproj⟩
  | case6 it hreader it' hopen hdone =>
    obtain rfl := h.closed' hreader
    rcases openNextSegment_cases hfiles with ⟨hopen', hrest⟩ | ⟨deleted, rest, rows, hsub, hopen', hrest⟩
    · obtain ⟨-, rfl⟩ := Prod.mk.inj (hopen.symm.trans hopen')
      refine Or.inl ⟨?_, ?_⟩
      · have hdone : it.overlayDone = true := hdone
        rw [pending, hrest, hdone]
        rfl
      · rw [next_overlay hreader hopen, if_pos hdone]
    · cases (Prod.mk.inj (hopen.symm.trans hopen')).1
  | case7 it hreader it' hopen hdone hempty =>
    obtain rfl := h.closed' hreader
    rcases openNextSegment_cases hfiles with ⟨hopen', hrest⟩ | ⟨deleted, rest, rows, hsub, hopen', hrest⟩
    · obtain ⟨-, rfl⟩ := Prod.mk.inj (hopen.symm.trans hopen')
      refine Or.inl ⟨?_, ?_⟩
      · have hempty : it.snap.overlay.isEmpty = true := hempty
        rw [pending, hrest, hempty, Bool.or_true]
        rfl
      · rw [next_overlay hreader hopen, if_neg hdone, if_pos hempty]
    · cases (Prod.mk.inj (hopen.symm.trans hopen')).1
  | case8 it hreader it' hopen hdone hempty =>
    obtain rfl := h.closed' hreader
    rcases openNextSegment_cases hfiles with ⟨hopen', hrest⟩ | ⟨deleted, rest, rows, hsub, hopen', hrest⟩
    · obtain ⟨-, rfl⟩ := Prod.mk.inj (hopen.symm.trans hopen')
      refine Or.inr ⟨it.snap.overlay, [], { it with rest := [], overlayDone := true }, [], ?_, ?_,
        ⟨⟨h.laid.lsn, h.laid.out⟩, Or.inr ⟨hreader, rfl⟩⟩, ?_, by simp, rfl, rfl⟩
      · have hdone : ¬ it.overlayDone = true := hdone
        have hempty : ¬ it.snap.overlay.isEmpty = true := hempty
        rw [pending, hrest, Bool.eq_false_iff.mpr hdone, Bool.eq_false_iff.mpr hempty]
        rfl
      · rw [next_overlay hreader hopen, if_neg hdone, if_neg hempty]
        rfl
      · rfl
    · cases (Prod.mk.inj (hopen.symm.trans hopen')).1
  | case9 it hreader e it' hopen =>
    rcases openNextSegment_cases hfiles with ⟨hopen', -⟩ | ⟨deleted, rest, rows, hsub, hopen', -⟩
    · cases (Prod.mk.inj (hopen.symm.trans hopen')).1
    · cases (Prod.mk.inj (hopen.symm.trans hopen')).1

end Next

/-! ## The whole scan -/

section Collects

variable {b : Batching} {files : Nat → SegmentFiles} {files₀ : SegmentFiles} {k : Nat}
  {it : SegmentIter} {cur : List (List Stored)}

/-- A query takes batch after batch, up to an error or the end; call `k` finds `files k`. -/
inductive Collects (b : Batching) (files : Nat → SegmentFiles) :
    Nat → SegmentIter → Except ReadError (List RecordBatch) → Prop where
  | done {k : Nat} {it : SegmentIter} (h : (it.next b (files k)).1 = none) :
      Collects b files k it (.ok [])
  | batch {k : Nat} {it it' : SegmentIter} {batch : RecordBatch}
      {r : Except ReadError (List RecordBatch)} (h : it.next b (files k) = (some (.ok batch), it'))
      (hrest : Collects b files (k + 1) it' r) : Collects b files k it (r.map (batch :: ·))
  | fail {k : Nat} {it : SegmentIter} {e : ReadError}
      (h : (it.next b (files k)).1 = some (.error e)) : Collects b files k it (.error e)

/-- A scan comes to its end, and has collected what was pending. -/
theorem collects_iff (h : it.Stands cur) (hfiles : ∀ k, SameFiles files₀ (files k) it.rest)
    (r : Except ReadError (List RecordBatch)) :
    Collects b files k it r ↔ r = .ok ((it.pending b files₀ cur).map
      (recordBatch it.snap.columns.length it.proj)) := by
  generalize hpending : it.pending b files₀ cur = left
  induction left generalizing k it cur r with
  | nil =>
    rcases next_spec h (hfiles k) with ⟨-, hend⟩ | ⟨rows, later, -, -, hlater, -⟩
    · constructor
      · intro hcollects
        cases hcollects with
        | done => rfl
        | batch hnext =>
          rw [hnext] at hend
          exact nomatch hend
        | fail hnext => exact nomatch hend.symm.trans hnext
      · rintro rfl
        exact .done hend
    · exact nomatch hpending.symm.trans hlater
  | cons rows left ih =>
    rcases next_spec h (hfiles k) with
      ⟨hend, -⟩ | ⟨rows', later, it', cur', hlater, hnext, hstands, hpending', hsub, hsnap, hproj⟩
    · exact nomatch hpending.symm.trans hend
    · obtain ⟨rfl, rfl⟩ := List.cons.inj (hpending.symm.trans hlater)
      have ih := fun r => ih (k := k + 1) hstands (fun k seg hseg => hfiles k seg (hsub hseg)) r
        hpending'
      rw [hsnap, hproj] at ih
      constructor
      · intro hcollects
        cases hcollects with
        | done hend =>
          rw [hnext] at hend
          exact nomatch hend
        | batch hnext' hrest =>
          obtain ⟨hbatch, rfl⟩ := Prod.mk.inj (hnext.symm.trans hnext')
          obtain rfl := Except.ok.inj (Option.some.inj hbatch)
          rw [(ih _).mp hrest]
          rfl
        | fail hfail =>
          rw [hnext] at hfail
          exact nomatch hfail
      · rintro rfl
        exact .batch hnext ((ih _).mpr rfl)

end Collects

end SegmentIter

/-- The scan of these columns, or of all of them. -/
def execute (snap : TableSnapshot) (projection : Option (List Nat)) : Except ReadError SegmentIter :=
  let proj := projection.getD (List.range (snap.columns.length + 1))
  match proj.find? fun p => decide (snap.columns.length < p) with
  | some p => .error (.projection p)
  | none => match SegmentIter.new snap proj with
    | some it => .ok it
    | none => .error .panic

/-- The values of a row that was read with all columns. -/
def valuesOf (row : List Cell) : Row := row.filterMap Cell.value?

/-! ## The scan of a store -/

theorem exists_execute (snap : TableSnapshot) {proj : List Nat}
    (h : ∀ p ∈ proj, p ≤ snap.columns.length) : ∃ it, execute snap (some proj) = .ok it ∧
      it.Stands [] ∧ it.snap = snap ∧ it.proj = proj ∧ it.rest = snap.segments ∧
      it.overlayDone = false := by
  obtain ⟨it, hnew, hlaid, hsnap, hproj, hrest, hreader, hoverlay⟩ := SegmentIter.exists_new snap proj
  have hfind : proj.find? (fun p => decide (snap.columns.length < p)) = none := by
    rw [List.find?_eq_none]
    intro p hp
    simpa using h p hp
  refine ⟨it, ?_, ⟨hlaid, Or.inr ⟨hreader, rfl⟩⟩, hsnap, hproj, hrest, hoverlay⟩
  rw [execute, Option.getD_some, hfind, hnew]

section Store

variable [FloatText] {s : TableStore} {pages : Pages OpenRow} {b : Batching} {lsn : Nat}

/-- The open rows of a snapshot are the visible ones, if they can be rendered. -/
theorem openRowsBatch_eq_ok_iff {overlay : List Stored} : s.openRowsBatch lsn = .ok overlay ↔
    (∀ r ∈ s.opened, r.visibleAt lsn = true →
      renderRow s.columns r = .ok (rendering s.columns r)) ∧
      overlay = TableStore.visibleStored s.columns lsn s.opened := by
  have hmem : (∀ r ∈ s.opened, r.visibleAt lsn = true →
      renderRow s.columns r = .ok (rendering s.columns r)) ↔
      ∀ r ∈ s.opened.filter (OpenRow.visibleAt lsn),
        renderRow s.columns r = .ok (rendering s.columns r) := by
    simp only [List.mem_filter, and_imp]
  have hzip : ∀ rows : List OpenRow, (rows.map (rendering s.columns)).zip (rows.map OpenRow.insertLsn)
      = rows.map fun r => (rendering s.columns r, r.insertLsn) := fun rows => List.zip_map' ..
  rw [hmem, TableStore.visibleStored]
  unfold TableStore.openRowsBatch
  dsimp only
  by_cases hnone : s.opened.filter (OpenRow.visibleAt lsn) = []
  · rw [if_pos hnone, hnone, Except.ok.injEq, eq_comm]
    simp
  · rw [if_neg hnone]
    constructor
    · intro h
      cases hrendered : renderRows s.columns (s.opened.filter (OpenRow.visibleAt lsn)) with
      | error e =>
        rw [hrendered] at h
        cases h
      | ok rendered =>
        obtain ⟨hrows, rfl⟩ := renderRows_eq_map hrendered
        rw [hrendered] at h
        obtain rfl := Except.ok.inj h
        exact ⟨hrows, hzip _⟩
    · rintro ⟨hrows, rfl⟩
      obtain ⟨rendered, hrendered⟩ := exists_renderRows fun r hr => ⟨_, hrows r hr⟩
      obtain ⟨-, rfl⟩ := renderRows_eq_map hrendered
      rw [hrendered]
      exact congrArg Except.ok (hzip _)

private theorem flatten_shown (h : s.Body pages) (readSet : List Nat) :
    ((s.segmentsSnapshot.flatMap (SegmentIter.shown b s.files readSet lsn))).flatten
      = TableStore.visibleStored s.columns lsn pages.closed.flatten := by
  have hps : ∀ p ∈ pages.closed.zipIdx, pages.closed[p.2]? = some p.1 := fun p hp =>
    List.mk_mem_zipIdx_iff_getElem?.mp hp
  have hsegments : s.segmentsSnapshot = pages.closed.zipIdx.map fun p =>
      { info := TableStore.segmentMeta p.2 p.1, deletes := (s.sidecars.lookup p.2).getD [] } := by
    rw [TableStore.segmentsSnapshot, h.segments, List.mapIdx_eq_zipIdx_map, List.map_map]
    rfl
  have hflat : pages.closed.flatten = (pages.closed.zipIdx.map Prod.fst).flatten := by
    rw [List.zipIdx_map_fst]
  rw [hsegments, hflat]
  generalize pages.closed.zipIdx = ps at hps ⊢
  induction ps with
  | nil => rfl
  | cons p ps ih =>
    obtain ⟨rows, i⟩ := p
    have hrows : pages.closed[i]? = some rows := hps _ List.mem_cons_self
    rw [List.map_cons, List.flatMap_cons, List.flatten_append, ih fun p hp =>
      hps p (List.mem_cons_of_mem _ hp), List.map_cons, List.flatten_cons, TableStore.visibleStored,
      TableStore.visibleStored, List.filter_append, List.map_append]
    congr 1
    unfold SegmentIter.shown
    dsimp only
    split
    · rename_i hprune
      rw [filter_visibleAt_of_lt_lsnMin hprune]
      rfl
    · have hid : (TableStore.segmentMeta i rows).id = i := rfl
      rw [flatten_filter_nonempty, flatten_maskEach, b.flatten_cut, hid, (h.files i rows hrows).2]
      exact h.mask_eq hrows lsn

/-- A query of these columns collects `r`, while the store goes on: at call `k` of the scan it is
`stores k`. -/
def ScanReads (b : Batching) (stores : Nat → TableStore) (snap : TableSnapshot)
    (projection : Option (List Nat)) (r : Except ReadError (List RecordBatch)) : Prop :=
  ∃ it, execute snap projection = .ok it ∧
    SegmentIter.Collects b (fun k => (stores k).files) 0 it r

variable {stores : Nat → TableStore} {lsn0 : Nat} {name : String} {snap : TableSnapshot}

private theorem snapshotOf_eq_ok_iff : snapshotOf lsn0 lsn name s = .ok snap ↔
    ∃ overlay, s.openRowsBatch lsn = .ok overlay ∧ snap =
      { name, columns := s.columns, segments := s.segmentsSnapshot, overlay, targetLsn := lsn
        appliedLsn := max s.appliedLsn lsn0 } := by
  unfold snapshotOf
  cases s.openRowsBatch lsn with
  | error e =>
    constructor
    · intro h
      exact nomatch h
    · rintro ⟨overlay, h, -⟩
      exact nomatch h
  | ok overlay =>
    constructor
    · intro h
      exact ⟨overlay, rfl, (Except.ok.inj h).symm⟩
    · rintro ⟨overlay, ⟨⟩, rfl⟩
      rfl

/-- What a query of these columns collects. -/
private theorem exists_scanReads (h : s.Represents pages)
    (hstores : ∀ k, GuardedRun StoreOp.step StoreOp.Fits s (stores k))
    (hsnap : snapshotOf lsn0 lsn name s = .ok snap) {proj : List Nat}
    (hproj : ∀ p ∈ proj, p ≤ s.columns.length) : ∃ batches,
      (∀ r, ScanReads b stores snap (some proj) r ↔ r = .ok batches) ∧
      batches.flatten = recordBatch s.columns.length proj
        (TableStore.visibleStored s.columns lsn pages.flat) := by
  obtain ⟨overlay, hoverlay, rfl⟩ := snapshotOf_eq_ok_iff.mp hsnap
  obtain ⟨-, rfl⟩ := openRowsBatch_eq_ok_iff.mp hoverlay
  obtain ⟨it, hexecute, hstands, hsnap', hproj', hrest, hdone⟩ := exists_execute
    { name, columns := s.columns, segments := s.segmentsSnapshot
      overlay := TableStore.visibleStored s.columns lsn s.opened, targetLsn := lsn
      appliedLsn := max s.appliedLsn lsn0 } hproj
  have hfiles : ∀ k, SegmentIter.SameFiles s.files (stores k).files it.rest := by
    intro k seg hseg
    rw [hrest] at hseg
    obtain ⟨info, hinfo, rfl⟩ := List.mem_map.mp hseg
    refine ⟨?_, (h.stillHas (hstores k)).files info hinfo⟩
    rw [h.body.segments, List.mem_mapIdx] at hinfo
    obtain ⟨i, hi, rfl⟩ := hinfo
    exact Option.isSome_iff_exists.mpr ⟨_, (h.body.files i _ (List.getElem?_eq_getElem hi)).2⟩
  refine ⟨(it.pending b s.files []).map (recordBatch it.snap.columns.length it.proj), ?_, ?_⟩
  · intro r
    rw [← SegmentIter.collects_iff hstands hfiles r]
    constructor
    · rintro ⟨it', hexecute', hcollects⟩
      obtain rfl := Except.ok.inj (hexecute.symm.trans hexecute')
      exact hcollects
    · exact fun hcollects => ⟨it, hexecute, hcollects⟩
  · have hlast : (if it.overlayDone || it.snap.overlay.isEmpty then [] else [it.snap.overlay]).flatten
        = TableStore.visibleStored s.columns lsn s.opened := by
      rw [hdone, hsnap', Bool.false_or]
      dsimp only
      split
      · rename_i hempty
        exact (List.isEmpty_iff.mp hempty).symm
      · rw [List.flatten_cons, List.flatten_nil, List.append_nil]
    have hpending : (it.pending b s.files []).flatten
        = TableStore.visibleStored s.columns lsn pages.flat := by
      rw [SegmentIter.pending, List.flatten_append, List.flatten_append, hlast, hrest, hsnap',
        flatten_shown h.body, Pages.flat, ← h.body.opened, TableStore.visibleStored,
        TableStore.visibleStored, TableStore.visibleStored, List.filter_append, List.map_append]
      rfl
    have hbatch : (it.pending b s.files []).map (recordBatch it.snap.columns.length it.proj)
        = (it.pending b s.files []).map (List.map fun r =>
          it.proj.map (cellOf it.snap.columns.length r)) := rfl
    rw [hbatch, ← List.map_flatten, hpending, hsnap', hproj']
    rfl

private theorem length_rendering {columns : List ColumnSpec} {r : OpenRow}
    (h : renderRow columns r = .ok (rendering columns r)) :
    (rendering columns r).length = columns.length := by
  rw [renderRow, mapM_eq_ok_iff] at h
  rw [← h.length_eq, List.length_zipIdx]

omit [FloatText] in
private theorem valuesOf_full {width : Nat} {r : Stored} (h : r.1.length = width) :
    valuesOf ((List.range (width + 1)).map (cellOf width r)) = r.1 := by
  have hvalues : (List.range width).map (cellOf width r)
      = (List.range width).map fun p => Cell.value (r.1.getD p none) := by
    apply List.map_congr_left
    intro p hp
    rw [cellOf, if_neg (Nat.ne_of_lt (List.mem_range.mp hp))]
  have hrow : (List.range width).map (fun p => r.1.getD p none) = r.1 := by
    apply List.ext_getElem
    · rw [List.length_map, List.length_range, h]
    · intro i hi hi'
      rw [List.getElem_map, List.getElem_range, List.getD_eq_getElem?_getD,
        List.getElem?_eq_getElem hi']
      rfl
  rw [List.range_succ, List.map_append, hvalues, valuesOf, List.filterMap_append, List.filterMap_map,
    List.map_singleton, cellOf, if_pos rfl]
  have hsome : (Cell.value? ∘ fun p => Cell.value (r.1.getD p none))
      = fun p => some (r.1.getD p none) := rfl
  rw [hsome, List.filterMap_eq_map', hrow]
  exact List.append_nil _

end Store

/-- In every run whose numbers fit, and whatever the store does while the query reads, the scan of
all columns gives the rows that `scanAt` showed when the snapshot was taken, exactly if each
visible open row is read back with its text. -/
theorem provider_agrees_iff [FloatText] (b : Batching) {table : String} {columns : List ColumnSpec}
    {flushRows : Nat} {s₀ s : TableStore} {stores : Nat → TableStore}
    (hcreate : TableStore.create table columns flushRows = .ok s₀)
    (hrun : GuardedRun StoreOp.step StoreOp.Fits s₀ s)
    (hstores : ∀ k, GuardedRun StoreOp.step StoreOp.Fits s (stores k)) (lsn0 lsn : Nat)
    (name : String) :
    (∃ snap batches, snapshotOf lsn0 lsn name s = .ok snap ∧
        ScanReads b stores snap none (.ok batches) ∧
        s.scanAt b lsn = .ok (batches.flatten.map valuesOf)) ↔
      ∀ r ∈ s.opened, r.visibleAt lsn = true → renderRow s.columns r = .ok r.values := by
  obtain ⟨pages, h⟩ := (TableStore.Represents.of_create hcreate).run hrun
  have hall : ∀ p ∈ List.range (s.columns.length + 1), p ≤ s.columns.length := fun p hp =>
    Nat.le_of_lt_succ (List.mem_range.mp hp)
  have hvisible : TableStore.visibleStored s.columns lsn pages.flat
      = TableStore.visibleStored s.columns lsn pages.closed.flatten
        ++ TableStore.visibleStored s.columns lsn s.opened := by
    rw [Pages.flat, ← h.body.opened, TableStore.visibleStored, List.filter_append, List.map_append]
    rfl
  have htexts : ∀ rows : List OpenRow, (TableStore.visibleStored s.columns lsn rows).map Prod.fst
      = (rows.filter (OpenRow.visibleAt lsn)).map (rendering s.columns) := by
    intro rows
    rw [TableStore.visibleStored, List.map_map]
    rfl
  -- What a query collects, once the open rows are rendered.
  have hcollected : ∀ {snap : TableSnapshot} {batches : List RecordBatch},
      snapshotOf lsn0 lsn name s = .ok snap → ScanReads b stores snap none (.ok batches) →
      (∀ r ∈ s.opened, r.visibleAt lsn = true → renderRow s.columns r = .ok (rendering s.columns r)) ∧
        batches.flatten.map valuesOf
          = (TableStore.visibleStored s.columns lsn pages.flat).map Prod.fst := by
    intro snap batches hsnap hreads
    obtain ⟨batches', hiff, hflat⟩ := exists_scanReads (b := b) h hstores hsnap hall
    obtain ⟨overlay, hoverlay, rfl⟩ := snapshotOf_eq_ok_iff.mp hsnap
    obtain ⟨hopened, rfl⟩ := openRowsBatch_eq_ok_iff.mp hoverlay
    obtain rfl := Except.ok.inj ((hiff _).mp hreads)
    refine ⟨hopened, ?_⟩
    rw [hflat, recordBatch, List.map_map]
    apply List.map_congr_left
    intro stored hstored
    apply valuesOf_full
    obtain ⟨r, hr, rfl⟩ := List.mem_map.mp hstored
    obtain ⟨hmem, hvis⟩ := List.mem_filter.mp hr
    rcases List.mem_append.mp hmem with hmem | hmem
    · exact length_rendering (h.body.renderRow_eq hmem)
    · rw [h.body.opened] at hmem
      exact length_rendering (hopened r hmem hvis)
  constructor
  · rintro ⟨snap, batches, hsnap, hreads, hscan⟩ r hr hvis
    obtain ⟨hopened, hrows⟩ := hcollected hsnap hreads
    rw [h.body.scanAt_eq, hrows, hvisible, List.map_append, htexts, htexts, h.body.opened] at hscan
    have hsame := List.append_cancel_left (Except.ok.inj hscan)
    have htext := List.map_inj_left.mp hsame r (List.mem_filter.mpr ⟨hr, hvis⟩)
    rw [hopened r hr hvis, htext]
  · intro hread
    have hrendering : ∀ r ∈ s.opened, r.visibleAt lsn = true → rendering s.columns r = r.values := by
      intro r hr hvis
      rw [rendering, hread r hr hvis]
      rfl
    have hopened : ∀ r ∈ s.opened, r.visibleAt lsn = true →
        renderRow s.columns r = .ok (rendering s.columns r) := by
      intro r hr hvis
      rw [hrendering r hr hvis, hread r hr hvis]
    have hsnap : snapshotOf lsn0 lsn name s = .ok _ :=
      snapshotOf_eq_ok_iff.mpr ⟨_, openRowsBatch_eq_ok_iff.mpr ⟨hopened, rfl⟩, rfl⟩
    obtain ⟨batches, hiff, -⟩ := exists_scanReads (b := b) h hstores hsnap hall
    have hreads : ScanReads b stores _ none (.ok batches) := (hiff _).mpr rfl
    refine ⟨_, batches, hsnap, hreads, ?_⟩
    rw [(hcollected hsnap hreads).2, h.body.scanAt_eq, hvisible, List.map_append, htexts, htexts,
      h.body.opened]
    congr 2
    apply List.map_congr_left
    intro r hr
    obtain ⟨hmem, hvis⟩ := List.mem_filter.mp hr
    exact (hrendering r hmem hvis).symm

/-- A segment and an open row, read while the open row is flushed. -/
def readCalls : List StoreOp :=
  [.load "1\tone\n".toUTF8.toList 100, .flush,
    .apply { commitLsn := 200, xid := 1, table := "p.items", op := .insert
             new := some [("id", .text "2"), ("v", .null)], old := none }]

theorem provider_agrees_iff_items : letI := wholeFloats
    ∃ s₀ s t snap batches,
      TableStore.create "p.items" [⟨"id", 20, true⟩, ⟨"v", 25, false⟩] 10 = .ok s₀ ∧
      playAll s₀ readCalls = some s ∧ StoreOp.flush.step s t ∧
      snapshotOf 100 200 "p.items" s = .ok snap ∧
      ScanReads singleRows (fun _ => t) snap none (.ok batches) ∧
      s.scanAt singleRows 200 = .ok (batches.flatten.map valuesOf) := by
  let _ := wholeFloats
  let s₀ : TableStore :=
    { table := "p.items", columns := [⟨"id", 20, true⟩, ⟨"v", 25, false⟩], flushRows := 10 }
  have hplay : ∃ s ∈ playAll s₀ readCalls, StoreOp.flush.Fits s ∧
      (StoreOp.flush.run.outcome s).isSome ∧
      ∀ r ∈ s.opened, r.visibleAt 200 = true →
        (renderRow s.columns r).toOption = some r.values := by decide +kernel
  obtain ⟨s, hs, hfits, hsome, hopened⟩ := hplay
  obtain ⟨⟨⟨⟩, t⟩, hstep⟩ := Option.isSome_iff_exists.mp hsome
  have hread : ∀ r ∈ s.opened, r.visibleAt 200 = true →
      renderRow s.columns r = .ok r.values := by
    intro r hr hvis
    cases hrow : renderRow s.columns r with
    | error e =>
      have hnone := hopened r hr hvis
      rw [hrow] at hnone
      exact nomatch hnone
    | ok row =>
      have hsame := hopened r hr hvis
      rw [hrow] at hsame
      exact congrArg Except.ok (Option.some.inj hsame)
  have hcreate : TableStore.create "p.items" s₀.columns 10 = .ok s₀ := rfl
  have hstores : ∀ _ : Nat, GuardedRun StoreOp.step StoreOp.Fits s t := fun _ =>
    (GuardedRun.refl s).tail hfits hstep
  obtain ⟨snap, batches, hsnap, hreads, hscan⟩ :=
    (provider_agrees_iff singleRows hcreate (run_of_playAll hs) hstores 100 200 "p.items").mpr hread
  exact ⟨s₀, s, t, snap, batches, rfl, hs, hstep, hsnap, hreads, hscan⟩

/-- A query of some columns collects the rows of the query of all columns, cut down to these
columns in their order, and neither of them fails. -/
theorem provider_projects [FloatText] (b : Batching) {table : String} {columns : List ColumnSpec}
    {flushRows : Nat} {s₀ s : TableStore} {stores : Nat → TableStore}
    (hcreate : TableStore.create table columns flushRows = .ok s₀)
    (hrun : GuardedRun StoreOp.step StoreOp.Fits s₀ s)
    (hstores : ∀ k, GuardedRun StoreOp.step StoreOp.Fits s (stores k)) {lsn0 lsn : Nat}
    {name : String} {snap : TableSnapshot} (hsnap : snapshotOf lsn0 lsn name s = .ok snap)
    {proj : List Nat} (hproj : ∀ p ∈ proj, p ≤ s.columns.length) :
    ∃ full batches, (∀ r, ScanReads b stores snap none r ↔ r = .ok full) ∧
      (∀ r, ScanReads b stores snap (some proj) r ↔ r = .ok batches) ∧
      batches.flatten.map (List.map some) = full.flatten.map fun row => proj.map (row[·]?) := by
  obtain ⟨pages, h⟩ := (TableStore.Represents.of_create hcreate).run hrun
  have hall : ∀ p ∈ List.range (s.columns.length + 1), p ≤ s.columns.length := fun p hp =>
    Nat.le_of_lt_succ (List.mem_range.mp hp)
  obtain ⟨full, hfull, hflat⟩ := exists_scanReads (b := b) h hstores hsnap hall
  obtain ⟨batches, hbatches, hflat'⟩ := exists_scanReads (b := b) h hstores hsnap hproj
  refine ⟨full, batches, ?_, hbatches, ?_⟩
  · intro r
    rw [← hfull r]
    obtain ⟨overlay, -, rfl⟩ := snapshotOf_eq_ok_iff.mp hsnap
    exact Iff.rfl
  · rw [hflat, hflat', recordBatch, recordBatch, List.map_map, List.map_map]
    apply List.map_congr_left
    intro r _
    simp only [Function.comp_apply, List.map_map]
    apply List.map_congr_left
    intro p hp
    rw [List.getElem?_map, List.getElem?_range (Nat.lt_succ_of_le (hproj p hp))]
    rfl

theorem provider_projects_items : letI := wholeFloats
    ∃ s₀ s snap full batches,
      TableStore.create "p.items" [⟨"id", 20, true⟩, ⟨"v", 25, false⟩] 10 = .ok s₀ ∧
      playAll s₀ readCalls = some s ∧ snapshotOf 100 200 "p.items" s = .ok snap ∧
      ScanReads singleRows (fun _ => s) snap none (.ok full) ∧
      ScanReads singleRows (fun _ => s) snap (some [2, 0, 0]) (.ok batches) ∧
      batches.flatten.map (List.map some) = full.flatten.map fun row => [2, 0, 0].map (row[·]?) := by
  let _ := wholeFloats
  let s₀ : TableStore :=
    { table := "p.items", columns := [⟨"id", 20, true⟩, ⟨"v", 25, false⟩], flushRows := 10 }
  have hplay : ∃ s ∈ playAll s₀ readCalls, ∃ snap ∈ (snapshotOf 100 200 "p.items" s).toOption,
      s.columns.length = 2 := by decide +kernel
  obtain ⟨s, hs, snap, hsome, hwidth⟩ := hplay
  have hsnap : snapshotOf 100 200 "p.items" s = .ok snap := by
    cases h : snapshotOf 100 200 "p.items" s with
    | error e =>
      rw [h] at hsome
      exact nomatch hsome
    | ok snap' =>
      rw [h] at hsome
      exact congrArg Except.ok (Option.some.inj hsome)
  have hcreate : TableStore.create "p.items" s₀.columns 10 = .ok s₀ := rfl
  have hproj : ∀ p ∈ [2, 0, 0], p ≤ s.columns.length := by
    rw [hwidth]
    decide
  obtain ⟨full, batches, hfull, hbatches, hrows⟩ := provider_projects singleRows hcreate
    (run_of_playAll hs) (fun _ => GuardedRun.refl s) hsnap hproj
  exact ⟨s₀, s, snap, full, batches, rfl, hs, hsnap, (hfull _).mpr rfl, (hbatches _).mpr rfl, hrows⟩

end GrayDB.Studio
