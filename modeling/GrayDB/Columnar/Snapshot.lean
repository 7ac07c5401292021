import GrayDB.Columnar.Scan

/-!
# Snapshots of a store

A query copies the segments with their delete marks and the open rows that it sees.  The
files of the segments are read later, while the store goes on.  `StillHas.scan_later` says
that they give the same rows then: a flush writes the next file and no other
(`apply_extends`), up to 2^32 segments.
-/

namespace GrayDB.Columnar

open Lib Lib.Crash Registry

structure SegmentSnapshot where
  info : SegmentMeta
  deletes : List (Nat × Nat)
  deriving DecidableEq, Repr

structure TableSnapshot where
  name : String
  columns : List ColumnSpec
  segments : List SegmentSnapshot
  /-- The open rows visible at `targetLsn`. -/
  overlay : List Stored
  targetLsn : Nat
  appliedLsn : Nat
  deriving DecidableEq, Repr

namespace TableStore

def segmentsSnapshot (s : TableStore) : List SegmentSnapshot :=
  s.segments.map fun info => { info, deletes := (s.sidecars.lookup info.id).getD [] }

/-- The open rows that are visible at `lsn`, as one batch. -/
def openRowsBatch [FloatText] (s : TableStore) (lsn : Nat) : Except StoreError (List Stored) :=
  let visible := s.opened.filter (OpenRow.visibleAt lsn)
  if visible = [] then .ok []
  else (renderRows s.columns visible).map fun rendered => rendered.zip (visible.map OpenRow.insertLsn)

end TableStore

/-- The rows that are visible at `targetLsn`; `base` counts the rows of the batches before. -/
def maskBatches (deleted : List Nat) (targetLsn : Nat) : Nat → List (List Stored) → List Stored
  | _, [] => []
  | base, batch :: batches =>
    (batch.zipIdx.filter fun r =>
        decide (r.1.2 ≤ targetLsn) && !deleted.contains ((base + r.2) % 2 ^ 32)).map Prod.fst
      ++ maskBatches deleted targetLsn ((base + batch.length % 2 ^ 32) % 2 ^ 32) batches

/-- The rows of one segment, read from its file for these columns; `none` if the file cannot
be opened. -/
def SegmentSnapshot.scan (seg : SegmentSnapshot) (b : Batching) (readSet : List Nat)
    (targetLsn : Nat) (files : AList fun _ : Nat => List Stored) : Option (List Stored) :=
  if targetLsn < seg.info.lsnMin then some []
  else (files.lookup seg.info.id).map fun rows =>
    maskBatches (deletedBy seg.deletes targetLsn) targetLsn 0 (b.cut readSet rows)

/-! ## Files that stay -/

/-- The ids of the segments are behind their number. -/
def TableStore.Numbered (s : TableStore) : Prop := ∀ seg ∈ s.segments, seg.id < s.segments.length

/-- Segments are only added, and up to 2^32 of them with a new file. -/
structure Extends (s s' : TableStore) : Prop where
  numbered : s'.Numbered
  segments : s.segments <+: s'.segments
  files : s.segments.length < 2 ^ 32 →
    ∀ seg ∈ s.segments, s'.files.lookup seg.id = s.files.lookup seg.id

theorem Extends.refl {s : TableStore} (h : s.Numbered) : Extends s s :=
  ⟨h, List.prefix_refl _, fun _ _ _ => rfl⟩

/-- The segments and their files. -/
def TableStore.disk (s : TableStore) : List SegmentMeta × AList fun _ : Nat => List Stored :=
  (s.segments, s.files)

theorem Extends.of_disk {s s' : TableStore} (h : s.Numbered) (hdisk : s'.disk = s.disk) :
    Extends s s' := by
  obtain ⟨hsegments, hfiles⟩ := Prod.mk.inj hdisk
  refine ⟨?_, ?_, fun _ seg _ => ?_⟩
  · rw [TableStore.Numbered, hsegments]
    exact h
  · rw [hsegments]
  · rw [hfiles]

theorem Extends.after_disk {s t u : TableStore} (hdisk : t.disk = s.disk) (h : Extends t u) :
    Extends s u := by
  obtain ⟨hsegments, hfiles⟩ := Prod.mk.inj hdisk
  refine ⟨h.numbered, hsegments ▸ h.segments, fun hroom seg hseg => ?_⟩
  rw [← hsegments] at hroom hseg
  rw [h.files hroom seg hseg, hfiles]

/-- `s'` still has the segments of `s`, with their files. -/
structure StillHas (s s' : TableStore) : Prop where
  segments : s.segments <+: s'.segments
  files : ∀ seg ∈ s.segments, s'.files.lookup seg.id = s.files.lookup seg.id

theorem StillHas.refl (s : TableStore) : StillHas s s := ⟨List.prefix_refl _, fun _ _ => rfl⟩

theorem StillHas.extends {s s' s'' : TableStore} (h : StillHas s s') (h' : Extends s' s'')
    (hroom : s'.segments.length < 2 ^ 32) : StillHas s s'' where
  segments := h.segments.trans h'.segments
  files seg hseg := (h'.files hroom seg (h.segments.subset hseg)).trans (h.files seg hseg)

/-- The segments of a snapshot are read later as they were read then. -/
theorem StillHas.scan_later {s s' : TableStore} (h : StillHas s s') {seg : SegmentSnapshot}
    (hseg : seg ∈ s.segmentsSnapshot) (b : Batching) (readSet : List Nat) (targetLsn : Nat) :
    seg.scan b readSet targetLsn s'.files = seg.scan b readSet targetLsn s.files := by
  obtain ⟨info, hinfo, rfl⟩ := List.mem_map.mp hseg
  unfold SegmentSnapshot.scan
  rw [h.files info hinfo]

section Keeps

variable (s : TableStore)

theorem keyOrPanic_keeps (values : Row) : Keeps TableStore.disk (keyOrPanic values) s := by
  refine Keeps.bind_get ?_
  cases s.keyOf values with
  | none => exact Keeps.throw
  | some key => exact Keeps.pure

theorem insertRow_keeps (values : Row) (lsn : Nat) :
    Keeps TableStore.disk (insertRow values lsn) s := by
  refine Keeps.bind_get ?_
  dsimp only
  split
  · exact Keeps.bind (keyOrPanic_keeps s values) fun _ _ _ => Keeps.modify rfl
  · exact Keeps.modify rfl

theorem markDeleted_keeps (loc : Loc) (lsn : Nat) :
    Keeps TableStore.disk (markDeleted loc lsn) s := by
  refine Keeps.bind_modify rfl (Keeps.bind_get ?_)
  split
  · split
    · exact Keeps.modify rfl
    · exact Keeps.throw
  · exact Keeps.modify rfl

theorem readSegmentRows_keeps (seg : Nat) : Keeps TableStore.disk (readSegmentRows seg) s := by
  refine Keeps.bind (Keeps.call rfl fun _ => rfl) fun _ s' _ => Keeps.bind_get ?_
  split
  · exact Keeps.pure
  · exact Keeps.throw

theorem loadRows_keeps (seg : Nat) : Keeps TableStore.disk (loadRows seg) s :=
  Keeps.bind (readSegmentRows_keeps s seg) fun _ _ _ => Keeps.bind_modify rfl Keeps.pure

theorem cachedRows_keeps (seg : Nat) : Keeps TableStore.disk (cachedRows seg) s := by
  refine Keeps.bind_get ?_
  split
  · split
    · exact Keeps.pure
    · exact loadRows_keeps s seg
  · exact loadRows_keeps s seg

theorem cellOrPanic_keeps (cell : Option (Option String)) :
    Keeps TableStore.disk (cellOrPanic cell) s := by
  cases cell with
  | none => exact Keeps.throw
  | some v => exact Keeps.pure

theorem tupleValue_keeps (prior : Option Loc) (i : Nat) (name : String) (value : TupleValue) :
    Keeps TableStore.disk (tupleValue prior i name value) s := by
  cases value with
  | text t => exact Keeps.pure
  | null => exact Keeps.pure
  | binary b => exact Keeps.throw
  | unchangedToast =>
    cases prior with
    | none => exact Keeps.throw
    | some loc =>
      refine Keeps.bind_get ?_
      split
      · exact cellOrPanic_keeps s _
      · exact Keeps.bind (cachedRows_keeps s loc.seg) fun _ s' _ => cellOrPanic_keeps s' _

theorem tupleLoop_keeps (prior : Option Loc) (i : Nat)
    (cells : List ((String × TupleValue) × ColumnSpec)) :
    Keeps TableStore.disk (tupleLoop prior i cells) s := by
  induction cells generalizing i s with
  | nil => exact Keeps.pure
  | cons cell cells ih =>
    rw [tupleLoop]
    split
    · refine Keeps.bind (tupleValue_keeps s prior i _ _) fun v s' _ => ?_
      exact Keeps.bind (ih s' (i + 1)) fun _ _ _ => Keeps.pure
    · exact Keeps.throw

theorem tupleToValues_keeps (named : Named) (prior : Option Loc) :
    Keeps TableStore.disk (tupleToValues named prior) s := by
  refine Keeps.bind_get ?_
  split
  · exact tupleLoop_keeps s prior 0 _
  · exact Keeps.throw

theorem updateRow_keeps (named : Named) (old : Option Named) (lsn : Nat) :
    Keeps TableStore.disk (updateRow named old lsn) s := by
  refine Keeps.bind (keyOrPanic_keeps s _) fun key s₁ _ => Keeps.bind_get ?_
  refine Keeps.bind (tupleToValues_keeps s₁ named _) fun values s₂ _ => ?_
  split
  · refine Keeps.bind (markDeleted_keeps s₂ _ lsn) fun _ s₃ _ => ?_
    exact Keeps.bind_modify rfl (insertRow_keeps _ values lsn)
  · exact Keeps.throw

theorem deleteRow_keeps (old : Named) (lsn : Nat) : Keeps TableStore.disk (deleteRow old lsn) s := by
  refine Keeps.bind (keyOrPanic_keeps s _) fun key s₁ _ => Keeps.bind_get ?_
  split
  · exact Keeps.bind_modify rfl (markDeleted_keeps _ _ lsn)
  · exact Keeps.throw

theorem markAll_keeps (lsn : Nat) (locs : List Loc) : Keeps TableStore.disk (markAll lsn locs) s := by
  induction locs generalizing s with
  | nil => exact Keeps.pure
  | cons loc locs ih => exact Keeps.bind (markDeleted_keeps s loc lsn) fun _ s' _ => ih s'

/-- Before a flush, a change does not touch the segments. -/
theorem applyOp_keeps (c : TypedChange) : Keeps TableStore.disk (applyOp c) s := by
  unfold applyOp
  cases c.op with
  | insert =>
    show Keeps _ (applyInsert c) s
    unfold applyInsert
    split
    · exact Keeps.bind (tupleToValues_keeps s _ none) fun values s' _ => insertRow_keeps s' values _
    · exact Keeps.throw
  | update =>
    refine Keeps.bind_get ?_
    split
    · split
      · exact updateRow_keeps s _ _ _
      · exact Keeps.throw
    · exact Keeps.throw
  | delete =>
    refine Keeps.bind_get ?_
    split
    · split
      · exact deleteRow_keeps s _ _
      · exact Keeps.throw
    · exact Keeps.throw
  | truncate =>
    refine Keeps.bind_get (Keeps.bind (markAll_keeps s c.commitLsn _) fun _ _ _ => ?_)
    exact Keeps.modify rfl

theorem reindex_keeps (seg : Nat) (rows : List (OpenRow × Nat)) :
    Keeps TableStore.disk (reindex seg rows) s := by
  induction rows generalizing s with
  | nil => exact Keeps.pure
  | cons row rows ih =>
    rw [reindex]
    split
    · exact Keeps.bind (keyOrPanic_keeps s _) fun _ s' _ => Keeps.bind_modify rfl (ih _)
    · exact ih s

theorem reindexKeyed_keeps (seg : Nat) (rows : List OpenRow) :
    Keeps TableStore.disk (reindexKeyed seg rows) s := by
  refine Keeps.bind_get ?_
  split
  · exact reindex_keeps s seg _
  · exact Keeps.pure

end Keeps

section Flush

variable [FloatText] {s : TableStore}

/-- The segments are the same, and all files but the one of `seg`. -/
def Overwrites (seg : Nat) (s s' : TableStore) : Prop :=
  s'.segments = s.segments ∧ ∀ id, id ≠ seg → s'.files.lookup id = s.files.lookup id

theorem writeSegment_overwrites (seg : Nat) (rows : List OpenRow) (plan : List Outcome) :
    Fallible (writeSegment seg rows) s plan (fun _ => True) (fun _ s' _ => Overwrites seg s s')
      (Overwrites seg s) := by
  have hrefl : Overwrites seg s s := ⟨rfl, fun _ _ => rfl⟩
  refine Fallible.bind_get ?_
  cases renderRows s.columns rows with
  | error e => exact Fallible.throw hrefl
  | ok rendered =>
    have hcreate : Fallible (IoM.call .io (fun s => { s with files := s.files.insert seg [] })
        fun _ s => s : StoreM Unit) s plan (fun _ => True) (fun _ s' _ => Overwrites seg s s')
        (Overwrites seg s) := by
      refine Fallible.call (fun _ => ⟨trivial, rfl, fun id hid => ?_⟩) fun _ _ => ⟨trivial, hrefl⟩
      exact AList.lookup_insert_ne hid
    refine Fallible.bind hcreate fun _ s' plan' ⟨hsegments, hfiles⟩ => ?_
    refine Fallible.call (fun _ => ⟨trivial, hsegments, fun id hid => ?_⟩)
      fun _ _ => ⟨trivial, hsegments, hfiles⟩
    exact (AList.lookup_insert_ne hid).trans (hfiles id hid)

omit [FloatText] in
/-- A flush that does not come to its end leaves the segments. -/
private theorem Overwrites.extends {s' : TableStore} (h : s.Numbered)
    (hover : Overwrites (s.segments.length % 2 ^ 32) s s') : Extends s s' := by
  obtain ⟨hsegments, hfiles⟩ := hover
  refine ⟨?_, ?_, fun hroom seg hseg => hfiles seg.id ?_⟩
  · rw [TableStore.Numbered, hsegments]
    exact h
  · rw [hsegments]
  · rw [Nat.mod_eq_of_lt hroom]
    exact Nat.ne_of_lt (h seg hseg)

theorem flush_extends (h : s.Numbered) (plan : List Outcome) :
    Fallible flush s plan (fun _ => True) (fun _ s' _ => Extends s s') (Extends s) := by
  refine Fallible.bind_get ?_
  dsimp only
  split
  · exact Fallible.pure (Extends.refl h)
  refine Fallible.bind_modify ?_
  have hwrite := writeSegment_overwrites (s := { s with opened := [] })
    (s.segments.length % 2 ^ 32) s.opened plan
  refine Fallible.bind (hwrite.mono (fun _ _ _ h => h) fun t ht => ?_) fun _ t plan' ht => ?_
  · exact Overwrites.extends h ht
  refine Fallible.bind_modify ?_
  refine Fallible.bind (((reindexKeyed_keeps _ (s.segments.length % 2 ^ 32) s.opened) plan').mono
    (fun _ _ _ h => h) fun u hu => ?_) fun _ u plan'' hu => ?_
  · obtain ⟨hsegments, hfiles⟩ := Prod.mk.inj hu
    refine Overwrites.extends h ⟨hsegments.trans ht.1, fun id hid => ?_⟩
    rw [hfiles]
    exact ht.2 id hid
  · -- the segment is listed now
    obtain ⟨hsegments, hfiles⟩ := Prod.mk.inj hu
    have hlist : u.segments = s.segments := hsegments.trans ht.1
    refine Fallible.modify ⟨?_, ?_, fun hroom seg hseg => ?_⟩
    · intro seg hseg
      dsimp only at hseg ⊢
      rw [hlist] at hseg ⊢
      rw [List.length_append, List.length_singleton]
      rcases List.mem_append.mp hseg with hseg | hseg
      · exact Nat.lt_succ_of_lt (h seg hseg)
      · obtain rfl := List.mem_singleton.mp hseg
        exact Nat.lt_succ_of_le (Nat.mod_le _ _)
    · dsimp only
      rw [hlist]
      exact List.prefix_append _ _
    · dsimp only
      rw [hfiles]
      refine ht.2 seg.id ?_
      rw [Nat.mod_eq_of_lt hroom]
      exact Nat.ne_of_lt (h seg hseg)

/-- A change adds at most a segment. -/
theorem apply_extends (h : s.Numbered) (c : TypedChange) (plan : List Outcome) :
    Fallible (apply c) s plan (fun _ => True) (fun _ s' _ => Extends s s') (Extends s) := by
  refine Fallible.bind ((applyOp_keeps s c plan).mono (fun _ _ _ h => h) fun t ht => ?_)
    fun _ t plan' ht => ?_
  · exact Extends.of_disk h ht
  have hdisk : TableStore.disk { t with appliedLsn := max t.appliedLsn c.commitLsn } = s.disk := ht
  have hmoved := Extends.of_disk h hdisk
  refine Fallible.bind_modify (Fallible.bind_get ?_)
  split
  · exact (flush_extends hmoved.numbered plan').mono (fun _ _ _ hu => hu.after_disk hdisk)
      fun _ hu => hu.after_disk hdisk
  · exact Fallible.pure hmoved

end Flush

end GrayDB.Columnar
