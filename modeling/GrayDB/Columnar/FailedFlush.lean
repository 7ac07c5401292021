import GrayDB.Columnar.Invariant

/-!
# Flushes that fail

`flush` takes the open rows out of the store before it builds the column arrays, creates
the segment file and writes it.  When one of these fails, the error leaves the store
without the rows, while the counter still counts them and the index still leads to them,
and the next flush has nothing to write.

`Kept` is what a failed flush should leave, `Writable` the condition under which a flush
does not fail, and `flush_keeps_iff` says that the two go together: wherever a flush is
called from, it keeps the store if and only if it does not fail.
-/

namespace GrayDB.Columnar

open Lib Lib.Crash Log Registry

section Kept

variable [FloatText]

/-- Every index entry leads to a row that is there and that has the key. -/
def TableStore.IndexOk (s : TableStore) : Prop :=
  ∀ key loc, s.index.lookup key = some loc → ∃ row text,
    s.rowAt loc = some row ∧ s.ReadsAs loc text row ∧ s.keyOf text = some key

/-- The next flush that returns writes these rows as a new segment. -/
def TableStore.Writes (s : TableStore) (rows : List OpenRow) : Prop :=
  ∀ r r' : Flight TableStore, r.state = s → flush r = (.ok (), r') → ∃ rendered seg,
    renderRows s.columns rows = .ok rendered ∧ r'.state.segments = s.segments ++ [seg] ∧
      r'.state.files.lookup seg.id = some (rendered.zip (rows.map OpenRow.insertLsn))

/-- Nothing of `s` is lost in `s'`. -/
structure TableStore.Kept (s : TableStore) (b : Batching) (s' : TableStore) : Prop where
  scans : ∀ lsn, s'.scanAt b lsn = s.scanAt b lsn
  counter : s'.visibleRows = s.visibleRows
  entries : s.IndexOk → s'.IndexOk
  later : s'.Writes s.opened

/-- No row is open, or every cell parses and neither creating the segment file nor writing
it is planned to fail.  A row that is too short is a panic, and not an error. -/
def TableStore.Writable (s : TableStore) (plan : List Outcome) : Prop :=
  s.opened = [] ∨ renderRows s.columns s.opened = .error .panic ∨
    (∃ rendered, renderRows s.columns s.opened = .ok rendered) ∧ ∀ o ∈ plan.take 2, o = .done

/-- The call, started at `r`, calls `flush` at `r'`. -/
inductive StoreOp.CallsFlush : StoreOp → Flight TableStore → Flight TableStore → Prop where
  | flush (r : Flight TableStore) : CallsFlush .flush r r
  | finalize (r : Flight TableStore) : CallsFlush .finalize r r
  | apply {c : TypedChange} {r r' : Flight TableStore} (hop : applyOp c r = (.ok (), r'))
      (hfull : r'.state.flushRows ≤ r'.state.opened.length) :
      CallsFlush (.apply c) r
        { r' with state := { r'.state with appliedLsn := max r'.state.appliedLsn c.commitLsn } }

end Kept

/-! ## The error of a flush -/

section Flush

variable [FloatText] {r r' : Flight TableStore} {e : StoreError}

omit [FloatText] in
private theorem keyOrPanic_error {values : Row} (h : keyOrPanic values r = (.error e, r')) :
    e = .panic := by
  have hget : ∀ f : TableStore → StoreM Bytes, (IoM.get >>= f) r = f r.state r := fun _ => rfl
  rw [keyOrPanic, hget] at h
  cases hkey : r.state.keyOf values with
  | some key =>
    rw [hkey] at h
    cases (Prod.mk.inj h).1
  | none =>
    rw [hkey] at h
    exact (Except.error.inj (Prod.mk.inj h).1).symm

omit [FloatText] in
/-- Only a panic ends the loop over the rows of a new segment. -/
private theorem reindex_error {seg : Nat} {rows : List (OpenRow × Nat)}
    (h : reindex seg rows r = (.error e, r')) : e = .panic := by
  induction rows generalizing r with
  | nil => exact nomatch (Prod.mk.inj h).1
  | cons row rows ih =>
    obtain ⟨row, i⟩ := row
    unfold reindex at h
    split at h
    · rcases IoM.bind_error_iff.mp h with h | ⟨key, r₁, -, h⟩
      · exact keyOrPanic_error h
      · exact ih h
    · exact ih h

omit [FloatText] in
private theorem reindexKeyed_error {seg : Nat} {rows : List OpenRow}
    (h : reindexKeyed seg rows r = (.error e, r')) : e = .panic := by
  change (if r.state.hasKey then reindex seg rows.zipIdx else pure ()) r = _ at h
  split at h
  · exact reindex_error h
  · exact nomatch (Prod.mk.inj h).1

/-- The rows leave `open`, and what comes behind the segment file only panics. -/
private theorem flush_eq (hopen : r.state.opened ≠ []) : ∃ record : StoreM Unit,
    flush r = (writeSegment (r.state.segments.length % 2 ^ 32) r.state.opened >>= fun _ => record)
      { r with state := { r.state with opened := [] } } ∧
    ∀ r₁ e r', record r₁ = (.error e, r') → e = .panic := by
  have hsplit : flush r = (if r.state.opened.isEmpty then pure () else _ : StoreM Unit) r := rfl
  rw [if_neg (by simpa using hopen)] at hsplit
  refine ⟨_, hsplit, ?_⟩
  intro r₁ e r' h
  rcases IoM.bind_error_iff.mp h with h | ⟨_, r₂, -, h⟩
  · exact nomatch (Prod.mk.inj h).1
  · rcases IoM.bind_error_iff.mp h with h | ⟨_, r₃, -, h⟩
    · exact reindexKeyed_error h
    · exact nomatch (Prod.mk.inj h).1

omit [FloatText] in
/-- Of two calls, one fails if that is planned. -/
private theorem calls_error_iff {σ : Type} {e e' : StoreError} {done done' : σ → σ}
    {failed failed' : Nat → σ → σ} {r : Flight σ} :
    ((IoM.call e done failed >>= fun _ => IoM.call e done' failed') r).1 = .error e' ↔
      e = e' ∧ ∃ o ∈ r.plan.take 2, o ≠ .done := by
  obtain ⟨s, plan, seen⟩ := r
  show (IoM.bind _ _ _).1 = _ ↔ _
  rcases plan with _ | ⟨_ | k, _ | ⟨_ | k', plan⟩⟩ <;> simp [IoM.bind, IoM.call]

private theorem writeSegment_eq (seg : Nat) (rows : List OpenRow) (r : Flight TableStore) :
    writeSegment seg rows r = (match renderRows r.state.columns rows with
    | .error e => IoM.throw e
    | .ok rendered => do
      IoM.call .io (fun s => { s with files := s.files.insert seg [] }) fun _ s => s
      IoM.call .io (fun s => { s with
        files := s.files.insert seg (rendered.zip (rows.map OpenRow.insertLsn)) }) fun _ s => s :
      StoreM Unit) r := rfl

/-- The error of writing a segment comes from a cell or from one of the two calls. -/
private theorem writeSegment_error_iff (seg : Nat) (rows : List OpenRow) (r : Flight TableStore) :
    (∃ e, e ≠ .panic ∧ (writeSegment seg rows r).1 = .error e) ↔
      ¬ (renderRows r.state.columns rows = .error .panic ∨
        (∃ rendered, renderRows r.state.columns rows = .ok rendered) ∧
          ∀ o ∈ r.plan.take 2, o = .done) := by
  rw [writeSegment_eq]
  cases renderRows r.state.columns rows with
  | error e => simp [IoM.throw]
  | ok rendered => simp [calls_error_iff]

private theorem writeSegment_error_effect {seg : Nat} {rows : List OpenRow}
    (h : writeSegment seg rows r = (.error e, r')) : ∃ files, r'.state = { r.state with files } := by
  rw [writeSegment_eq] at h
  cases hrendered : renderRows r.state.columns rows with
  | error e =>
    rw [hrendered] at h
    obtain ⟨-, rfl⟩ := Prod.mk.inj h
    exact ⟨_, rfl⟩
  | ok rendered =>
    rw [hrendered] at h
    rcases IoM.bind_error_iff.mp h with h | ⟨_, r₁, hfirst, h⟩
    · obtain ⟨k, plan, -, -, rfl⟩ := IoM.call_error_iff.mp h
      exact ⟨_, rfl⟩
    · obtain ⟨-, rfl⟩ := IoM.call_ok_iff.mp hfirst
      obtain ⟨k, plan, -, -, rfl⟩ := IoM.call_error_iff.mp h
      exact ⟨_, rfl⟩

theorem flush_of_empty (hopen : r.state.opened = []) : flush r = (.ok (), r) := by
  have hsplit : flush r = (if r.state.opened.isEmpty then pure () else _ : StoreM Unit) r := rfl
  rw [hsplit, if_pos (by simpa using hopen)]
  rfl

/-- A flush fails with an error exactly if its rows cannot be written. -/
theorem flush_error_iff :
    (∃ e, e ≠ .panic ∧ (flush r).1 = .error e) ↔ ¬ r.state.Writable r.plan := by
  by_cases hopen : r.state.opened = []
  · rw [flush_of_empty hopen]
    simp [TableStore.Writable, hopen]
  · obtain ⟨record, hflush, hrecord⟩ := flush_eq hopen
    have hwrite := writeSegment_error_iff (r.state.segments.length % 2 ^ 32) r.state.opened
      { r with state := { r.state with opened := [] } }
    rw [TableStore.Writable, or_iff_right hopen, ← hwrite, hflush]
    refine exists_congr fun e => and_congr_right fun he => ?_
    constructor
    · intro h
      rcases IoM.bind_error_iff.mp (Prod.ext h rfl) with h | ⟨_, r₁, -, h⟩
      · rw [h]
      · exact absurd (hrecord _ _ _ h) he
    · intro h
      rw [IoM.bind_error_iff.mpr (.inl (Prod.ext h rfl))]

/-- A flush that fails leaves no row open, and the rest of the store as it was, but for the
segment file. -/
theorem flush_error_effect (h : flush r = (.error e, r')) (he : e ≠ .panic) :
    r.state.opened ≠ [] ∧ ∃ files, r'.state = { r.state with opened := [], files } := by
  by_cases hopen : r.state.opened = []
  · rw [flush_of_empty hopen] at h
    exact nomatch (Prod.mk.inj h).1
  · refine ⟨hopen, ?_⟩
    obtain ⟨record, hflush, hrecord⟩ := flush_eq hopen
    rw [hflush] at h
    rcases IoM.bind_error_iff.mp h with h | ⟨_, r₁, -, h⟩
    · exact writeSegment_error_effect h
    · exact absurd (hrecord _ _ _ h) he

/-- The rows are gone: no later flush writes them. -/
theorem not_kept_of_error {b : Batching} (h : flush r = (.error e, r')) (he : e ≠ .panic) :
    ¬ r.state.Kept b r'.state := by
  obtain ⟨-, files, hstate⟩ := flush_error_effect h he
  intro hkept
  have hempty : r'.state.opened = [] := by rw [hstate]
  obtain ⟨rendered, seg, -, hsegments, -⟩ := hkept.later r' r' rfl (flush_of_empty hempty)
  exact absurd hsegments (by simp)

/-- A call ends where its flush fails. -/
theorem StoreOp.CallsFlush.run_eq {op : StoreOp} {r₁ : Flight TableStore}
    (hcall : op.CallsFlush r r₁) (h : Columnar.flush r₁ = (.error e, r')) : op.run r = (.error e, r') := by
  cases hcall with
  | flush => exact h
  | finalize => exact IoM.bind_error_iff.mpr (.inl (IoM.bind_error_iff.mpr (.inl h)))
  | @apply c r r' hop hfull =>
    refine IoM.bind_error_iff.mpr (.inr ⟨(), r', hop, ?_⟩)
    show (if _ then Columnar.flush else pure () : StoreM Unit) _ = _
    rw [if_pos hfull]
    exact h

/-- A flush, wherever it is called, loses nothing when it fails, if and only if its rows can
be written: each flush that fails loses them. -/
theorem flush_keeps_iff (b : Batching) {op : StoreOp} {r r₁ : Flight TableStore}
    (hcall : op.CallsFlush r r₁) :
    (∀ e, e ≠ .panic → (flush r₁).1 = .error e → r₁.state.Kept b (op.run r).2.state) ↔
      r₁.state.Writable r₁.plan := by
  constructor
  · intro hkept
    by_contra hwritable
    obtain ⟨e, he, herror⟩ := flush_error_iff.mpr hwritable
    have hflush : flush r₁ = (.error e, (flush r₁).2) := Prod.ext herror rfl
    have hlost := hkept e he herror
    rw [hcall.run_eq hflush] at hlost
    exact not_kept_of_error hflush he hlost
  · intro hwritable e he herror
    exact absurd hwritable (flush_error_iff.mp ⟨e, he, herror⟩)

end Flush

/-- A new store, whose segments have one row. -/
def itemStore : TableStore where
  table := "p.items"
  columns := [⟨"id", 20, true⟩]
  flushRows := 1

def insertItem : TypedChange where
  commitLsn := 200
  xid := 1
  table := "p.items"
  op := .insert
  new := some [("id", .text "1")]
  old := none

theorem flush_keeps_iff_item : letI := wholeFloats
    ∃ r₁, StoreOp.CallsFlush (.apply insertItem) ⟨itemStore, [], []⟩ r₁ ∧
      ∀ e, e ≠ .panic → (flush r₁).1 = .error e → r₁.state.Kept singleRows
        (StoreOp.run (.apply insertItem) ⟨itemStore, [], []⟩).2.state := by
  let _ := wholeFloats
  have hop : applyOp insertItem ⟨itemStore, [], []⟩ = (.ok (), _) := rfl
  have hcall := StoreOp.CallsFlush.apply hop (by decide)
  refine ⟨_, hcall, (flush_keeps_iff singleRows hcall).mpr (.inr (.inr ⟨⟨_, rfl⟩, ?_⟩))⟩
  exact fun o ho => nomatch ho

/-- The segment file of the inserted row cannot be created. -/
theorem flush_loses_rows : letI := wholeFloats
    TableStore.create "p.items" [⟨"id", 20, true⟩] 1 = .ok itemStore ∧
    ∃ r₁, StoreOp.CallsFlush (.apply insertItem) ⟨itemStore, [.failed 0], []⟩ r₁ ∧
      (flush r₁).1 = .error .io ∧ ¬ r₁.state.Kept singleRows
        (StoreOp.run (.apply insertItem) ⟨itemStore, [.failed 0], []⟩).2.state := by
  let _ := wholeFloats
  have hlost : ∀ {r r₁ : Flight TableStore}, StoreOp.CallsFlush (.apply insertItem) r r₁ →
      (flush r₁).1 = .error .io →
      ¬ r₁.state.Kept singleRows (StoreOp.run (.apply insertItem) r).2.state := by
    intro r r₁ hcall herror
    have hflush : flush r₁ = (.error .io, (flush r₁).2) := Prod.ext herror rfl
    rw [hcall.run_eq hflush]
    exact not_kept_of_error hflush (by decide)
  have hop : applyOp insertItem ⟨itemStore, [.failed 0], []⟩ = (.ok (), _) := rfl
  have hcall := StoreOp.CallsFlush.apply hop (by decide)
  exact ⟨rfl, _, hcall, rfl, hlost hcall rfl⟩

end GrayDB.Columnar
