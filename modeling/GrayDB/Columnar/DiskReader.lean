import GrayDB.Columnar.Invariant
import GrayDB.Columnar.Snapshot

/-!
# Reading a finalized store

A reader process has the directory of a store and nothing else: the manifest, the segment
files and the sidecar files.  `readVisibleBatches` reads the rows that are visible at an LSN,
and `loadSegmentSnapshots` is what a streaming scan starts from.

`read_finalized` is the result: what is read from the disk is what the store itself shows.
-/

namespace GrayDB.Columnar

open Lib Lib.Crash Log Registry

/-- The directory of a store. -/
structure StoreDir where
  manifest : Option StoreManifest
  files : AList fun _ : Nat => List Stored
  sidecarFiles : AList fun _ : Nat => List (Nat × Nat)

def TableStore.dir (s : TableStore) : StoreDir :=
  { manifest := s.manifest, files := s.files, sidecarFiles := s.sidecarFiles }

inductive ReadError where
  | io
  | noSegments (table : String) (lsn : Nat)
  /-- The LSN column is of another type. -/
  | notU64
  | projection (column : Nat)
  | panic
  deriving DecidableEq, Repr

def ReadError.message : ReadError → String
  | .io => "I/O error"
  | .noSegments table lsn => s!"{table}: no segments readable at {lsn}"
  | .notU64 => "__gdb_lsn not u64"
  | .projection column => s!"project index {column} out of bounds"
  | .panic => "index out of bounds"

/-- The rows of a batch that are visible; `base` counts the rows of the batches before. -/
def maskBatch (deleted : List Nat) (lsn base : Nat) (batch : List Stored) : List Stored :=
  (batch.zipIdx.filter fun r =>
    decide (r.1.2 ≤ lsn) && !deleted.contains ((base + r.2) % 2 ^ 32)).map Prod.fst

/-- Each batch masked. -/
def maskEach (deleted : List Nat) (lsn : Nat) : Nat → List (List Stored) → List (List Stored)
  | _, [] => []
  | base, batch :: batches =>
    maskBatch deleted lsn base batch
      :: maskEach deleted lsn ((base + batch.length % 2 ^ 32) % 2 ^ 32) batches

namespace StoreDir

def readManifest (d : StoreDir) : Except ReadError StoreManifest :=
  match d.manifest with
  | some manifest => .ok manifest
  | none => .error .io

/-- An absent file holds no delete marks. -/
def readSidecar (d : StoreDir) (seg : Nat) : List (Nat × Nat) :=
  ((d.sidecarFiles.lookup seg).getD []).map fun pair => (pair.1 % 2 ^ 32, pair.2)

/-- The columns, the segments and the applied LSN. -/
def loadSegmentSnapshots (d : StoreDir) :
    Except ReadError (List ColumnSpec × List SegmentSnapshot × Nat) := do
  let manifest ← d.readManifest
  let segments := manifest.segments.map fun info => { info, deletes := d.readSidecar info.id }
  return (manifest.columns, segments, manifest.appliedLsn)

/-- The batches of the segments, and whether there was a batch to take the schema from. -/
def readSegments (d : StoreDir) (b : Batching) (columns : List Nat) (lsn : Nat) :
    List SegmentMeta → Except ReadError (Bool × List (List Stored))
  | [] => .ok (false, [])
  | seg :: segs =>
    if lsn < seg.lsnMin then d.readSegments b columns lsn segs
    else match d.files.lookup seg.id with
      | none => .error .io
      | some rows => do
        let batches := b.cut columns rows
        let deleted := deletedBy (d.readSidecar seg.id) lsn
        let (schema, rest) ← d.readSegments b columns lsn segs
        return (!batches.isEmpty || schema,
          (maskEach deleted lsn 0 batches).filter (fun batch => !batch.isEmpty) ++ rest)

/-- All rows visible at `lsn`. -/
def readVisibleBatches (d : StoreDir) (b : Batching) (lsn : Nat) :
    Except ReadError (List (List Stored)) := do
  let manifest ← d.readManifest
  let columns := List.range (manifest.columns.length + 1)
  let (schema, batches) ← d.readSegments b columns lsn manifest.segments
  if schema then .ok batches else .error (.noSegments manifest.table lsn)

end StoreDir

/-! ## Masks -/

private theorem maskBatch_append (deleted : List Nat) (lsn base : Nat) (batch batch' : List Stored) :
    maskBatch deleted lsn base (batch ++ batch') = maskBatch deleted lsn base batch
      ++ maskBatch deleted lsn ((base + batch.length % 2 ^ 32) % 2 ^ 32) batch' := by
  unfold maskBatch
  rw [List.zipIdx_append, List.filter_append, List.map_append, List.zipIdx_eq_map_add (l := batch'),
    List.filter_map, List.map_map]
  congr 2
  apply List.filter_congr
  intro r _
  have hsum : (base + (0 + batch.length + r.2)) % 2 ^ 32
      = ((base + batch.length % 2 ^ 32) % 2 ^ 32 + r.2) % 2 ^ 32 := by omega
  simp only [Function.comp_apply, hsum]

/-- The rows of a file are masked as one batch. -/
theorem flatten_maskEach (deleted : List Nat) (lsn base : Nat) (batches : List (List Stored)) :
    (maskEach deleted lsn base batches).flatten = maskBatch deleted lsn base batches.flatten := by
  induction batches generalizing base with
  | nil => rfl
  | cons batch batches ih => rw [maskEach, List.flatten_cons, ih, List.flatten_cons, maskBatch_append]

theorem flatten_filter_nonempty {α : Type} (batches : List (List α)) :
    (batches.filter fun batch => !batch.isEmpty).flatten = batches.flatten := by
  induction batches with
  | nil => rfl
  | cons batch batches ih =>
    cases batch with
    | nil => exact ih
    | cons a batch =>
      rw [List.filter_cons_of_pos rfl, List.flatten_cons, List.flatten_cons, ih]

private theorem map_filter_zipIdx {f : OpenRow → Row} {rows : List OpenRow} {deleted : List Nat}
    {lsn : Nat} (base : Nat) (hdeleted : ∀ j r, rows[j]? = some r →
      ((base + j) % 2 ^ 32 ∈ deleted ↔ r.deleteLsn.any (fun d => decide (d ≤ lsn)) = true)) :
    (((rows.map fun r => (f r, r.insertLsn)).zipIdx base).filter fun r =>
        decide (r.1.2 ≤ lsn) && !deleted.contains (r.2 % 2 ^ 32)).map Prod.fst
      = (rows.filter (OpenRow.visibleAt lsn)).map fun r => (f r, r.insertLsn) := by
  induction rows generalizing base with
  | nil => rfl
  | cons r rows ih =>
    have hrest := ih (base + 1) (by
      intro j r' hr'
      rw [Nat.add_assoc, Nat.add_comm 1 j]
      exact hdeleted (j + 1) r' (by simpa using hr'))
    have hfirst := hdeleted 0 r (by simp)
    rw [Nat.add_zero] at hfirst
    have hmask : (decide (r.insertLsn ≤ lsn) && !deleted.contains (base % 2 ^ 32))
        = r.visibleAt lsn := by
      unfold OpenRow.visibleAt
      congr 2
      rw [Bool.eq_iff_iff, List.contains_iff_mem]
      exact hfirst
    rw [List.map_cons, List.zipIdx_cons, List.filter_cons, List.filter_cons]
    dsimp only
    rw [hmask]
    split
    · rw [List.map_cons, List.map_cons, hrest]
    · exact hrest

/-- With the marks of its rows, a file gives the rows that are visible. -/
theorem maskBatch_eq {f : OpenRow → Row} {rows : List OpenRow} {deleted : List Nat} {lsn : Nat}
    (hdeleted : ∀ j r, rows[j]? = some r →
      (j % 2 ^ 32 ∈ deleted ↔ r.deleteLsn.any (fun d => decide (d ≤ lsn)) = true)) :
    maskBatch deleted lsn 0 (rows.map fun r => (f r, r.insertLsn))
      = (rows.filter (OpenRow.visibleAt lsn)).map fun r => (f r, r.insertLsn) := by
  have hmap := map_filter_zipIdx (f := f) 0 (by simpa using hdeleted)
  unfold maskBatch
  simp only [Nat.zero_add]
  exact hmap

/-- A segment that is pruned has no row to show. -/
theorem filter_visibleAt_of_lt_lsnMin {i lsn : Nat} {rows : List OpenRow}
    (h : lsn < (TableStore.segmentMeta i rows).lsnMin) : rows.filter (OpenRow.visibleAt lsn) = [] := by
  apply List.filter_eq_nil_iff.mpr
  intro r hr
  have hmem : r.insertLsn ∈ rows.map OpenRow.insertLsn := List.mem_map_of_mem hr
  obtain ⟨m, hm⟩ := Option.isSome_iff_exists.mp (List.isSome_min?_of_mem hmem)
  have hle := (List.min?_eq_some_iff.mp hm).2 _ hmem
  simp only [TableStore.segmentMeta, hm, Option.getD_some] at h
  have hlt : ¬ r.insertLsn ≤ lsn := by omega
  simp [OpenRow.visibleAt, hlt]

namespace TableStore

section Disk

variable [FloatText] {s t : TableStore} {pages : Pages OpenRow}

/-- The rows of a segment that are visible. -/
theorem Body.mask_eq (h : s.Body pages) {i : Nat} {rows : List OpenRow}
    (hrows : pages.closed[i]? = some rows) (lsn : Nat) :
    maskBatch (deletedBy ((s.sidecars.lookup i).getD []) lsn) lsn 0
        (rows.map fun r => (rendering s.columns r, r.insertLsn))
      = (rows.filter (OpenRow.visibleAt lsn)).map fun r => (rendering s.columns r, r.insertLsn) := by
  apply maskBatch_eq
  intro j r hr
  have hfits := (h.pageFits rows (List.mem_of_getElem? hrows)).2
  obtain ⟨hlt, -⟩ := List.getElem?_eq_some_iff.mp hr
  rw [Nat.mod_eq_of_lt (by omega)]
  exact mem_deletedBy (h.marks i rows hrows) hr lsn

/-! ## Sidecars on disk -/

/-- Every segment has a sidecar. -/
def Listed (s : TableStore) : Prop := ∀ seg ∈ s.segments, (s.sidecars.lookup seg.id).isSome

omit [FloatText] in
private theorem isSome_lookup_insert {sidecars : AList fun _ : Nat => List (Nat × Nat)} {i : Nat}
    (h : (sidecars.lookup i).isSome) (j : Nat) (deletes : List (Nat × Nat)) :
    ((sidecars.insert j deletes).lookup i).isSome := by
  by_cases hij : i = j
  · rw [hij, AList.lookup_insert]
    rfl
  · rw [AList.lookup_insert_ne hij]
    exact h

omit [FloatText] in
theorem Listed.withMark (h : s.Listed) (loc : Loc) (lsn : Nat) : (s.withMark loc lsn).Listed := by
  intro seg hseg
  unfold TableStore.withMark
  dsimp only
  split
  · exact h seg hseg
  · exact isSome_lookup_insert (h seg hseg) _ _

omit [FloatText] in
theorem Listed.withMarks (h : s.Listed) (lsn : Nat) (locs : List Loc) :
    (s.withMarks lsn locs).Listed := by
  induction locs generalizing s with
  | nil => exact h
  | cons loc locs ih => exact ih (h.withMark loc lsn)

omit [FloatText] in
theorem Listed.opEffect {c : TypedChange} (h : s.Listed) (heffect : OpEffect s c t) : t.Listed := by
  cases heffect with
  | insert _ _ _ hreads =>
    obtain ⟨⟨segCache, rfl⟩, -⟩ := hreads
    exact h
  | update _ _ _ _ _ _ hreads =>
    obtain ⟨⟨segCache, rfl⟩, -⟩ := hreads
    exact h.withMark (s := { s with segCache }) _ _
  | delete => exact h.withMark _ _
  | truncate => exact h.withMarks _ _

theorem Listed.flushEffect (h : s.Listed) (heffect : FlushEffect s t) : t.Listed := by
  cases heffect with
  | none => exact h
  | segment =>
    intro seg hseg
    rcases List.mem_append.mp hseg with hseg | hseg
    · exact isSome_lookup_insert (h seg hseg) _ _
    · obtain rfl := List.mem_singleton.mp hseg
      unfold TableStore.withSegment
      dsimp only [segmentMeta]
      rw [AList.lookup_insert]
      rfl

omit [FloatText] in
private theorem withLines_disk (s : TableStore) (lsn0 : Nat) (lines : List Bytes) :
    (s.withLines lsn0 lines).sidecars = s.sidecars ∧ (s.withLines lsn0 lines).disk = s.disk := by
  induction lines generalizing s with
  | nil => exact ⟨rfl, rfl⟩
  | cons line lines ih => exact ih (s.withRow (parseCopyLine line) lsn0)

theorem Listed.step {op : StoreOp} (h : s.Listed) (hcache : s.CacheOk) (hstep : op.step s t) :
    t.Listed := by
  cases op with
  | load data lsn0 =>
    obtain ⟨-, appliedLsn, rfl⟩ := (Ensures.drop (loadCopyPart_ensures data lsn0)).of_outcome hstep
    obtain ⟨hsidecars, hdisk⟩ := withLines_disk s lsn0 (copyLines data)
    intro seg hseg
    dsimp only at hseg ⊢
    rw [(Prod.mk.inj hdisk).1] at hseg
    rw [hsidecars]
    exact h seg hseg
  | apply c =>
    obtain ⟨s₁, s₂, heffect, rfl, hend⟩ := (apply_ensures hcache c).of_outcome hstep
    have h₁ : s₁.Listed := h.opEffect heffect
    have h₂ : Listed { s₁ with appliedLsn := max s₁.appliedLsn c.commitLsn } := h₁
    rcases hend with ⟨-, hflush⟩ | ⟨-, rfl⟩
    · exact h₂.flushEffect hflush
    · exact h₂
  | flush => exact h.flushEffect (flush_ensures.of_outcome hstep)
  | finalize =>
    obtain ⟨s₁, hflush, rfl⟩ := (Ensures.drop finalize_ensures).of_outcome hstep
    have h₁ : s₁.Listed := h.flushEffect hflush
    exact h₁

section Files

variable {entries : List (Nat × List (Nat × Nat))} {i : Nat}

omit [FloatText] in
private theorem lookup_foldl_insert_of_notMem (h : i ∉ entries.map Prod.fst)
    (files : AList fun _ : Nat => List (Nat × Nat)) :
    (entries.foldl (fun files e => files.insert e.1 e.2) files).lookup i = files.lookup i := by
  induction entries generalizing files with
  | nil => rfl
  | cons e entries ih =>
    rw [List.map_cons, List.mem_cons, not_or] at h
    rw [List.foldl_cons, ih h.2, AList.lookup_insert_ne h.1]

omit [FloatText] in
/-- What is written last for a segment is what is there. -/
private theorem lookup_foldl_insert (hnodup : (entries.map Prod.fst).Nodup)
    {deletes : List (Nat × Nat)} (h : (i, deletes) ∈ entries)
    (files : AList fun _ : Nat => List (Nat × Nat)) :
    (entries.foldl (fun files e => files.insert e.1 e.2) files).lookup i = some deletes := by
  induction entries generalizing files with
  | nil => exact nomatch h
  | cons e entries ih =>
    rw [List.map_cons, List.nodup_cons] at hnodup
    rw [List.foldl_cons]
    rcases List.mem_cons.mp h with rfl | h
    · rw [lookup_foldl_insert_of_notMem hnodup.1, AList.lookup_insert]
    · exact ih hnodup.2 h _

end Files

/-- A finalized store: nothing is open, and the directory says what the store says. -/
structure Finalized (s : TableStore) : Prop where
  opened : s.opened = []
  manifest : s.manifest = some
    { table := s.table, columns := s.columns, appliedLsn := s.appliedLsn, segments := s.segments }
  sidecars : ∀ seg ∈ s.segments, s.sidecarFiles.lookup seg.id = s.sidecars.lookup seg.id

theorem Listed.finalized (h : s.Listed) (hstep : StoreOp.finalize.step s t) : t.Finalized := by
  obtain ⟨s₁, hflush, rfl⟩ := (Ensures.drop finalize_ensures).of_outcome hstep
  have h₁ : s₁.Listed := h.flushEffect hflush
  refine ⟨?_, rfl, ?_⟩
  · cases hflush with
    | none hopen => exact hopen
    | segment => rfl
  · intro seg hseg
    obtain ⟨deletes, hdeletes⟩ := Option.isSome_iff_exists.mp (h₁ seg hseg)
    show (s₁.onDisk.sidecarFiles).lookup seg.id = s₁.sidecars.lookup seg.id
    rw [hdeletes]
    refine lookup_foldl_insert ?_ ?_ _
    · rw [List.map_map]
      exact s₁.sidecars.keys_nodup
    · exact List.mem_map.mpr ⟨⟨seg.id, deletes⟩, AList.mem_lookup_iff.mp hdeletes, rfl⟩

/-! ## What is read -/

/-- The delete marks of a segment are read back. -/
theorem Finalized.readSidecar_eq (hfinal : s.Finalized) (h : s.Body pages) {i : Nat}
    {rows : List OpenRow} (hrows : pages.closed[i]? = some rows) :
    s.dir.readSidecar i = (s.sidecars.lookup i).getD [] := by
  have hseg : segmentMeta i rows ∈ s.segments := by
    rw [h.segments, List.mem_mapIdx]
    obtain ⟨hi, hget⟩ := List.getElem?_eq_some_iff.mp hrows
    exact ⟨i, hi, by rw [hget]⟩
  have hfile : s.sidecarFiles.lookup i = s.sidecars.lookup i := hfinal.sidecars _ hseg
  rw [StoreDir.readSidecar]
  show ((s.sidecarFiles.lookup i).getD []).map _ = _
  rw [hfile]
  refine (List.map_congr_left fun pair hpair => ?_).trans (List.map_id _)
  obtain ⟨r, hr, -⟩ := ((h.marks i rows hrows).mem_iff pair.1 pair.2).mp hpair
  obtain ⟨hlt, -⟩ := List.getElem?_eq_some_iff.mp hr
  have hfits := (h.pageFits rows (List.mem_of_getElem? hrows)).2
  rw [Nat.mod_eq_of_lt (by omega)]
  rfl

omit [FloatText] in
theorem Finalized.readManifest_eq (hfinal : s.Finalized) : s.dir.readManifest =
    .ok { table := s.table, columns := s.columns, segments := s.segments, appliedLsn := s.appliedLsn } := by
  have hmanifest : s.dir.manifest = _ := hfinal.manifest
  rw [StoreDir.readManifest, hmanifest]

/-- A streaming scan of the directory starts from the segments of the store. -/
theorem Finalized.loadSegmentSnapshots_eq (hfinal : s.Finalized) (h : s.Body pages) :
    s.dir.loadSegmentSnapshots = .ok (s.columns, s.segmentsSnapshot, s.appliedLsn) := by
  have hsegments : (s.segments.map fun info =>
      ({ info, deletes := s.dir.readSidecar info.id } : SegmentSnapshot)) = s.segmentsSnapshot := by
    apply List.map_congr_left
    intro info hinfo
    rw [h.segments, List.mem_mapIdx] at hinfo
    obtain ⟨i, hi, rfl⟩ := hinfo
    show SegmentSnapshot.mk _ (s.dir.readSidecar i) = _
    rw [hfinal.readSidecar_eq h (List.getElem?_eq_getElem hi)]
    rfl
  rw [StoreDir.loadSegmentSnapshots, hfinal.readManifest_eq]
  exact congrArg (fun segments => Except.ok (s.columns, segments, s.appliedLsn)) hsegments

/-- The visible rows of these pages, rendered, with their LSNs. -/
def visibleStored (columns : List ColumnSpec) (lsn : Nat) (rows : List OpenRow) : List Stored :=
  (rows.filter (OpenRow.visibleAt lsn)).map fun r => (rendering columns r, r.insertLsn)

private theorem Finalized.readSegments_ok (hfinal : s.Finalized) (h : s.Body pages) (b : Batching)
    (lsn : Nat) {ps : List (List OpenRow × Nat)} (hps : ∀ p ∈ ps, pages.closed[p.2]? = some p.1) :
    ∃ schema batches, s.dir.readSegments b s.allColumns lsn (ps.map fun p => segmentMeta p.2 p.1)
        = .ok (schema, batches) ∧
      (schema = true ↔ ∃ p ∈ ps, (segmentMeta p.2 p.1).lsnMin ≤ lsn) ∧
      batches.flatten = visibleStored s.columns lsn (ps.flatMap Prod.fst) ∧
      ∀ batch ∈ batches, batch ≠ [] := by
  induction ps with
  | nil => exact ⟨false, [], rfl, by simp, rfl, by simp⟩
  | cons p ps ih =>
    obtain ⟨rows, i⟩ := p
    have hrows : pages.closed[i]? = some rows := hps _ List.mem_cons_self
    obtain ⟨schema, batches, hread, hschema, hbatches, hfull⟩ :=
      ih fun p hp => hps p (List.mem_cons_of_mem _ hp)
    have hvisible : visibleStored s.columns lsn (((rows, i) :: ps).flatMap Prod.fst)
        = visibleStored s.columns lsn rows ++ batches.flatten := by
      rw [hbatches, visibleStored, List.flatMap_cons, List.filter_append, List.map_append]
      rfl
    rw [List.map_cons, StoreDir.readSegments, hvisible]
    by_cases hprune : lsn < (segmentMeta i rows).lsnMin
    · rw [if_pos hprune]
      refine ⟨schema, batches, hread, ?_, ?_, hfull⟩
      · rw [hschema, List.exists_mem_cons_iff]
        exact ⟨Or.inr, fun hor => hor.resolve_left (Nat.not_le_of_lt hprune)⟩
      · rw [visibleStored, filter_visibleAt_of_lt_lsnMin hprune]
        rfl
    · rw [if_neg hprune]
      have hfile : s.dir.files.lookup (segmentMeta i rows).id
          = some (rows.map fun r => (rendering s.columns r, r.insertLsn)) := (h.files i rows hrows).2
      rw [hfile, hread]
      refine ⟨_, _, rfl, ?_, ?_, ?_⟩
      · have hcut : b.cut s.allColumns (rows.map fun r => (rendering s.columns r, r.insertLsn)) ≠ [] := by
          intro hnil
          have hflat := b.flatten_cut s.allColumns
            (rows.map fun r => (rendering s.columns r, r.insertLsn))
          rw [hnil] at hflat
          exact (h.pageFits rows (List.mem_of_getElem? hrows)).1 (List.map_eq_nil_iff.mp hflat.symm)
        refine iff_of_true ?_ ⟨_, List.mem_cons_self, Nat.le_of_not_lt hprune⟩
        rw [List.isEmpty_eq_false_iff.mpr hcut]
        rfl
      · rw [List.flatten_append, flatten_filter_nonempty, flatten_maskEach, b.flatten_cut]
        congr 1
        have hid : (segmentMeta i rows).id = i := rfl
        rw [hid, hfinal.readSidecar_eq h hrows]
        exact h.mask_eq hrows lsn
      · intro batch hbatch
        rcases List.mem_append.mp hbatch with hbatch | hbatch
        · have hne := (List.mem_filter.mp hbatch).2
          rintro rfl
          exact nomatch hne
        · exact hfull batch hbatch

theorem Finalized.read (hfinal : s.Finalized) (h : s.Body pages) (b : Batching) (lsn : Nat) :
    (∃ seg ∈ s.segments, seg.lsnMin ≤ lsn) ∧ (∃ batches,
        s.dir.readVisibleBatches b lsn = .ok batches ∧ (∀ batch ∈ batches, batch ≠ []) ∧
        batches.flatten = visibleStored s.columns lsn pages.flat) ∨
      (∀ seg ∈ s.segments, lsn < seg.lsnMin) ∧
        s.dir.readVisibleBatches b lsn = .error (.noSegments s.table lsn) ∧
        visibleStored s.columns lsn pages.flat = [] := by
  have hps : ∀ p ∈ pages.closed.zipIdx, pages.closed[p.2]? = some p.1 := fun p hp =>
    List.mk_mem_zipIdx_iff_getElem?.mp hp
  obtain ⟨schema, batches, hread, hschema, hbatches, hfull⟩ := hfinal.readSegments_ok h b lsn hps
  have hsegments : (pages.closed.zipIdx.map fun p => segmentMeta p.2 p.1) = s.segments := by
    rw [h.segments, List.mapIdx_eq_zipIdx_map]
  have hrows : pages.closed.zipIdx.flatMap Prod.fst = pages.flat := by
    rw [List.flatMap_def, List.zipIdx_map_fst, Pages.flat, h.opened, hfinal.opened,
      List.append_nil]
  have hsome : (∃ p ∈ pages.closed.zipIdx, (segmentMeta p.2 p.1).lsnMin ≤ lsn) ↔
      ∃ seg ∈ s.segments, seg.lsnMin ≤ lsn := by
    rw [← hsegments]
    simp only [List.mem_map, exists_exists_and_eq_and]
  have hresult : s.dir.readVisibleBatches b lsn
      = if schema then .ok batches else .error (.noSegments s.table lsn) := by
    rw [StoreDir.readVisibleBatches, hfinal.readManifest_eq]
    show (s.dir.readSegments b s.allColumns lsn s.segments >>= _) = _
    rw [← hsegments, hread]
    rfl
  rw [hsegments] at hread
  rw [hrows] at hbatches
  rw [hsome] at hschema
  cases schema with
  | true => exact Or.inl ⟨hschema.mp rfl, batches, hresult, hfull, hbatches⟩
  | false =>
    have hnone : ∀ seg ∈ s.segments, lsn < seg.lsnMin := by
      intro seg hseg
      by_contra hle
      exact Bool.false_ne_true (hschema.mpr ⟨seg, hseg, Nat.le_of_not_lt hle⟩)
    refine Or.inr ⟨hnone, hresult, ?_⟩
    rw [visibleStored, List.map_eq_nil_iff, List.filter_eq_nil_iff]
    intro r hr
    rw [← hrows] at hr
    obtain ⟨p, hp, hr⟩ := List.mem_flatMap.mp hr
    have hseg : segmentMeta p.2 p.1 ∈ s.segments := by
      rw [← hsegments]
      exact List.mem_map.mpr ⟨p, hp, rfl⟩
    exact List.filter_eq_nil_iff.mp (filter_visibleAt_of_lt_lsnMin (hnone _ hseg)) r hr

/-- Runs whose numbers fit keep the invariant, and the sidecars. -/
theorem Represents.run_listed (h : s.Represents pages) (hlisted : s.Listed)
    (hrun : GuardedRun StoreOp.step StoreOp.Fits s t) :
    ∃ pages', t.Represents pages' ∧ t.Listed := by
  let Inv : TableStore → Prop := fun s => ∃ pages, s.Represents pages ∧ s.Listed
  have hinv : Inv t := by
    refine hrun.invariant ?_ ⟨pages, h, hlisted⟩
    rintro op s s' hfits hstep ⟨pages, h, hlisted⟩
    obtain ⟨pages', h', -⟩ := h.step hfits hstep
    exact ⟨pages', h', hlisted.step h.body.cache hstep⟩
  exact hinv

/-- The visible rows of a store with nothing open are what a scan shows. -/
theorem Finalized.scanAt_eq (hfinal : s.Finalized) (h : s.Body pages) (b : Batching) (lsn : Nat) :
    s.scanAt b lsn = .ok ((visibleStored s.columns lsn pages.flat).map Prod.fst) := by
  have hopened : pages.opened = [] := h.opened.trans hfinal.opened
  rw [h.scanAt_eq, visibleStored, Pages.flat, hopened, List.append_nil, List.map_map]
  simp only [List.filter_nil, List.map_nil, List.append_nil]
  rfl

/-! ## Files that stay -/

theorem Represents.numbered (h : s.Represents pages) : s.Numbered := by
  intro seg hseg
  rw [h.body.length_segments]
  rw [h.body.segments, List.mem_mapIdx] at hseg
  obtain ⟨i, hi, rfl⟩ := hseg
  exact hi

omit [FloatText] in
private theorem of_fallible {α : Type} {m : StoreM α} {P E : TableStore → Prop}
    (hm : Fallible m s [] (fun _ => True) (fun _ t _ => P t) E) {a : α}
    (hout : m.outcome s = some (a, t)) : P t := by
  unfold IoM.outcome IoM.exec at hout
  split at hout
  · rename_i a' r hrun
    obtain ⟨-, rfl⟩ := Prod.mk.inj (Option.some.inj hout)
    exact hm.of_ok hrun
  · exact nomatch hout

private theorem extends_flushEffect (h : s.Numbered) (heffect : FlushEffect s t) : Extends s t := by
  cases heffect with
  | none => exact Extends.refl h
  | segment =>
    refine ⟨?_, List.prefix_append _ _, fun hroom seg hseg => ?_⟩
    · intro seg hseg
      unfold TableStore.withSegment at hseg ⊢
      dsimp only at hseg ⊢
      rw [List.length_append, List.length_singleton]
      rcases List.mem_append.mp hseg with hseg | hseg
      · exact Nat.lt_succ_of_lt (h seg hseg)
      · obtain rfl := List.mem_singleton.mp hseg
        exact Nat.lt_succ_of_le (Nat.mod_le _ _)
    · have hne : seg.id ≠ s.segments.length % 2 ^ 32 := by
        rw [Nat.mod_eq_of_lt hroom]
        exact Nat.ne_of_lt (h seg hseg)
      exact (AList.lookup_insert_ne hne).trans (AList.lookup_insert_ne hne)

/-- A call adds at most segments. -/
theorem Represents.extends {op : StoreOp} (h : s.Represents pages) (hstep : op.step s t) :
    Extends s t := by
  cases op with
  | load data lsn0 =>
    obtain ⟨-, appliedLsn, rfl⟩ := (Ensures.drop (loadCopyPart_ensures data lsn0)).of_outcome hstep
    exact Extends.of_disk h.numbered (withLines_disk s lsn0 (copyLines data)).2
  | apply c => exact of_fallible (apply_extends h.numbered c []) hstep
  | flush => exact extends_flushEffect h.numbered (flush_ensures.of_outcome hstep)
  | finalize =>
    obtain ⟨s₁, hflush, rfl⟩ := (Ensures.drop finalize_ensures).of_outcome hstep
    have h₁ := extends_flushEffect h.numbered hflush
    exact ⟨h₁.numbered, h₁.segments, h₁.files⟩

/-- The segments of a store stay as they are, whatever is called. -/
theorem Represents.stillHas (h : s.Represents pages)
    (hrun : GuardedRun StoreOp.step StoreOp.Fits s t) : StillHas s t := by
  let Inv : TableStore → Prop := fun u => (∃ pages, u.Represents pages) ∧ StillHas s u
  have hinv : Inv t := by
    refine hrun.invariant ?_ ⟨⟨pages, h⟩, StillHas.refl s⟩
    rintro op u u' hfits hstep ⟨⟨pages, hu⟩, hstill⟩
    obtain ⟨pages', hu', -⟩ := hu.step hfits hstep
    refine ⟨⟨pages', hu'⟩, hstill.extends (hu.extends hstep) ?_⟩
    have hfit := hu.body.closedFit
    unfold openSegment at hfit
    rw [hu.body.length_segments]
    omega
  exact hinv.2

end Disk

end TableStore

open TableStore

/-- Behind `finalize`, in every run whose numbers fit, the directory gives the segments of the
store, and its visible rows are those of a scan, each with an LSN up to the one that is read
at.  It cannot be read exactly if every segment begins behind the LSN, and then there is
nothing to show. -/
theorem read_finalized [FloatText] (b : Batching) {table : String} {columns : List ColumnSpec}
    {flushRows : Nat} {s₀ s t : TableStore}
    (hcreate : TableStore.create table columns flushRows = .ok s₀)
    (hrun : GuardedRun StoreOp.step StoreOp.Fits s₀ s) (hfits : StoreOp.finalize.Fits s)
    (hstep : StoreOp.finalize.step s t) (lsn : Nat) :
    t.dir.loadSegmentSnapshots = .ok (t.columns, t.segmentsSnapshot, t.appliedLsn) ∧
      ((∃ seg ∈ t.segments, seg.lsnMin ≤ lsn) → ∃ batches,
        t.dir.readVisibleBatches b lsn = .ok batches ∧
        t.scanAt b lsn = .ok (batches.flatten.map Prod.fst) ∧
        (∀ batch ∈ batches, batch ≠ []) ∧ ∀ r ∈ batches.flatten, r.2 ≤ lsn) ∧
      ((∀ seg ∈ t.segments, lsn < seg.lsnMin) →
        t.dir.readVisibleBatches b lsn = .error (.noSegments t.table lsn) ∧
        t.scanAt b lsn = .ok []) := by
  have hnew : s₀.Listed := by
    unfold TableStore.create at hcreate
    split at hcreate
    · exact nomatch hcreate
    · obtain rfl := Except.ok.inj hcreate
      exact fun seg hseg => nomatch hseg
  obtain ⟨pages, h, hlisted⟩ := (Represents.of_create hcreate).run_listed hnew hrun
  obtain ⟨pages', h', -⟩ := h.step hfits hstep
  have hfinal := hlisted.finalized hstep
  refine ⟨hfinal.loadSegmentSnapshots_eq h'.body, ?_, ?_⟩
  · rintro ⟨seg, hseg, hle⟩
    rcases hfinal.read h'.body b lsn with ⟨-, batches, hread, hfull, hrows⟩ | ⟨hnone, -⟩
    · refine ⟨batches, hread, ?_, hfull, ?_⟩
      · rw [hfinal.scanAt_eq h'.body, hrows]
      · rw [hrows]
        intro r hr
        obtain ⟨row, hrow, rfl⟩ := List.mem_map.mp hr
        have hvisible := (List.mem_filter.mp hrow).2
        unfold OpenRow.visibleAt at hvisible
        exact of_decide_eq_true (Bool.and_eq_true _ _ ▸ hvisible).1
    · exact absurd hle (Nat.not_le_of_lt (hnone seg hseg))
  · intro hnone
    rcases hfinal.read h'.body b lsn with ⟨⟨seg, hseg, hle⟩, -⟩ | ⟨-, hread, hrows⟩
    · exact absurd hle (Nat.not_le_of_lt (hnone seg hseg))
    · refine ⟨hread, ?_⟩
      rw [hfinal.scanAt_eq h'.body, hrows]
      rfl

theorem read_finalized_items : letI := wholeFloats
    ∃ s₀ s t, TableStore.create "p.items" [⟨"id", 20, true⟩] 10 = .ok s₀ ∧
      playAll s₀ [.load "1\n2\n".toUTF8.toList 100] = some s ∧ StoreOp.finalize.step s t ∧
      t.dir.loadSegmentSnapshots = .ok (t.columns, t.segmentsSnapshot, t.appliedLsn) := by
  let _ := wholeFloats
  let s₀ : TableStore := { table := "p.items", columns := [⟨"id", 20, true⟩], flushRows := 10 }
  have hplay : ∃ s ∈ playAll s₀ [.load "1\n2\n".toUTF8.toList 100],
      StoreOp.finalize.Fits s ∧ (StoreOp.finalize.run.outcome s).isSome := by decide +kernel
  obtain ⟨s, hs, hfits, hsome⟩ := hplay
  obtain ⟨⟨⟨⟩, t⟩, hstep⟩ := Option.isSome_iff_exists.mp hsome
  have hcreate : TableStore.create "p.items" s₀.columns 10 = .ok s₀ := rfl
  exact ⟨s₀, s, t, rfl, hs, hstep,
    (read_finalized singleRows hcreate (run_of_playAll hs) hfits hstep 200).1⟩

end GrayDB.Columnar
