import GrayDB.Columnar.Apply

/-!
# What the operations of a store do

Each operation as a function of the store: if it returns, this is the store it leaves.
`withRow`, `withMark` and `withSegment` are the three ways in which rows move, and the
`_ensures` lemmas say which of them an operation makes.
-/

namespace GrayDB.Columnar

open Lib Lib.Crash Log Registry

namespace TableStore

/-- A new open row, which the index points to. -/
def withRow (s : TableStore) (values : Row) (lsn : Nat) : TableStore :=
  { s with
    index := match s.hasKey, s.keyOf values with
      | true, some key =>
        s.index.insert key { seg := openSegment, row := s.opened.length % 2 ^ 32 }
      | _, _ => s.index
    opened := s.opened ++ [{ values, insertLsn := lsn }]
    liveRows := s.liveRows + 1 }

/-- The rows of a COPY part. -/
def withLines (s : TableStore) (lsn0 : Nat) (lines : List Bytes) : TableStore :=
  lines.foldl (fun s line => s.withRow (parseCopyLine line) lsn0) s

/-- A row is marked deleted. -/
def withMark (s : TableStore) (loc : Loc) (lsn : Nat) : TableStore :=
  { s with
    liveRows := s.liveRows - 1
    opened := if loc.seg = openSegment then
        s.opened.modify loc.row fun row => { row with deleteLsn := some lsn }
      else s.opened
    sidecars := if loc.seg = openSegment then s.sidecars
      else s.sidecars.insert loc.seg ((s.sidecars.lookup loc.seg).getD [] ++ [(loc.row, lsn)]) }

/-- Several rows are marked deleted. -/
def withMarks (s : TableStore) (lsn : Nat) (locs : List Loc) : TableStore :=
  locs.foldl (fun s loc => s.withMark loc lsn) s

def withoutKey (s : TableStore) (key : Bytes) : TableStore := { s with index := s.index.erase key }

/-- The index entries of the rows of a new segment. -/
def reindexed (s : TableStore) (seg : Nat) (index : AList fun _ : Bytes => Loc)
    (rows : List (OpenRow × Nat)) : AList fun _ : Bytes => Loc :=
  rows.foldl (fun index r => match r.1.deleteLsn, s.keyOf r.1.values with
    | none, some key => index.insert key { seg, row := r.2 % 2 ^ 32 }
    | _, _ => index) index

def segmentMeta (id : Nat) (rows : List OpenRow) : SegmentMeta where
  id := id
  rows := rows.length
  lsnMin := (rows.map OpenRow.insertLsn).min?.getD 0
  lsnMax := (rows.map OpenRow.insertLsn).max?.getD 0

/-- The open rows become a segment. -/
def withSegment (s : TableStore) (rendered : List Row) : TableStore :=
  let seg := s.segments.length % 2 ^ 32
  { s with
    opened := []
    files := (s.files.insert seg []).insert seg
      (rendered.zip (s.opened.map OpenRow.insertLsn))
    sidecars := s.sidecars.insert seg ((s.sidecars.lookup seg).getD [] ++ rowDeletes s.opened)
    index := if s.hasKey then s.reindexed seg s.index s.opened.zipIdx else s.index
    segments := s.segments ++ [segmentMeta seg s.opened] }

theorem length_opened_withMark (s : TableStore) (loc : Loc) (lsn : Nat) :
    (s.withMark loc lsn).opened.length = s.opened.length := by
  unfold withMark
  dsimp only
  split
  · exact List.length_modify ..
  · rfl

/-- Marks leave everything but the marks and the counter. -/
theorem withMarks_frame (s : TableStore) (lsn : Nat) (locs : List Loc) :
    (s.withMarks lsn locs).opened.length = s.opened.length ∧
      (s.withMarks lsn locs).columns = s.columns ∧ (s.withMarks lsn locs).segments = s.segments ∧
      (s.withMarks lsn locs).flushRows = s.flushRows := by
  induction locs generalizing s with
  | nil => exact ⟨rfl, rfl, rfl, rfl⟩
  | cons loc locs ih =>
    obtain ⟨hlen, hrest⟩ := ih (s.withMark loc lsn)
    exact ⟨hlen.trans (s.length_opened_withMark loc lsn), hrest⟩

/-! ## Lines -/

theorem opened_withLines (s : TableStore) (lsn0 : Nat) (lines : List Bytes) :
    (s.withLines lsn0 lines).opened = s.opened ++ lines.map fun line =>
      { values := parseCopyLine line, insertLsn := lsn0 } := by
  induction lines generalizing s with
  | nil => exact (List.append_nil _).symm
  | cons line lines ih =>
    show ((s.withRow (parseCopyLine line) lsn0).withLines lsn0 lines).opened = _
    rw [ih, List.map_cons]
    exact List.append_assoc ..

/-- Lines leave everything but the open rows, the index and the counter. -/
theorem withLines_frame (s : TableStore) (lsn0 : Nat) (lines : List Bytes) :
    (s.withLines lsn0 lines).columns = s.columns ∧ (s.withLines lsn0 lines).segments = s.segments ∧
      (s.withLines lsn0 lines).flushRows = s.flushRows := by
  induction lines generalizing s with
  | nil => exact ⟨rfl, rfl, rfl⟩
  | cons line lines ih => exact ih (s.withRow (parseCopyLine line) lsn0)

section Lookup

variable {s : TableStore} {key : Bytes → Bytes} {lines : List Bytes}

private theorem lookup_withRow (hkeyed : s.hasKey = true) {values : Row} {k : Bytes}
    (hk : s.keyOf values = some k) (lsn : Nat) (k' : Bytes) :
    (s.withRow values lsn).index.lookup k'
      = if k' = k then some { seg := openSegment, row := s.opened.length % 2 ^ 32 }
        else s.index.lookup k' := by
  simp only [withRow, hkeyed, hk]
  by_cases heq : k' = k
  · rw [if_pos heq, heq, AList.lookup_insert]
  · rw [if_neg heq, AList.lookup_insert_ne heq]

private theorem lookup_withLines_of_notMem (hkeyed : s.hasKey = true)
    (hkey : ∀ line ∈ lines, s.keyOf (parseCopyLine line) = some (key line)) (lsn0 : Nat)
    {k : Bytes} (hk : k ∉ lines.map key) :
    (s.withLines lsn0 lines).index.lookup k = s.index.lookup k := by
  induction lines generalizing s with
  | nil => rfl
  | cons line lines ih =>
    rw [List.map_cons, List.mem_cons, not_or] at hk
    have hfirst := lookup_withRow hkeyed (hkey line List.mem_cons_self) lsn0 k
    rw [if_neg hk.1] at hfirst
    rw [← hfirst]
    exact ih hkeyed (fun l hl => hkey l (List.mem_cons_of_mem line hl)) hk.2

/-- Lines with keys of their own are found where they are put, up to 32 bits. -/
theorem lookup_withLines (hkeyed : s.hasKey = true)
    (hkey : ∀ line ∈ lines, s.keyOf (parseCopyLine line) = some (key line))
    (hnodup : (lines.map key).Nodup) (lsn0 : Nat) {i : Nat} {line : Bytes}
    (hline : lines[i]? = some line) : (s.withLines lsn0 lines).index.lookup (key line)
      = some { seg := openSegment, row := (s.opened.length + i) % 2 ^ 32 } := by
  induction lines generalizing s i with
  | nil => simp at hline
  | cons first lines ih =>
    rw [List.map_cons, List.nodup_cons] at hnodup
    have hrest : ∀ l ∈ lines, s.keyOf (parseCopyLine l) = some (key l) :=
      fun l hl => hkey l (List.mem_cons_of_mem first hl)
    have hfirst := hkey first List.mem_cons_self
    show ((s.withRow (parseCopyLine first) lsn0).withLines lsn0 lines).index.lookup _ = _
    cases i with
    | zero =>
      obtain rfl : first = line := by simpa using hline
      rw [lookup_withLines_of_notMem (s := s.withRow (parseCopyLine first) lsn0) hkeyed hrest lsn0
        hnodup.1, lookup_withRow hkeyed hfirst, if_pos rfl]
      rfl
    | succ i =>
      rw [ih (s := s.withRow (parseCopyLine first) lsn0) hkeyed hrest hnodup.2 (by simpa using hline)]
      have hlen : (s.withRow (parseCopyLine first) lsn0).opened.length = s.opened.length + 1 :=
        List.length_append
      rw [hlen, Nat.add_assoc, Nat.add_comm 1 i]

end Lookup

/-! ## Reading -/

/-- What the cache holds is what the file holds. -/
def CacheOk (s : TableStore) : Prop :=
  ∀ seg rows, s.segCache = some (seg, rows) → s.fileRows seg = some rows

/-- Only the cache changes. -/
def Reads (s s' : TableStore) : Prop :=
  (∃ segCache, s' = { s with segCache }) ∧ (s.CacheOk → s'.CacheOk)

theorem Reads.refl (s : TableStore) : s.Reads s := ⟨⟨s.segCache, rfl⟩, id⟩

theorem Reads.trans {s s' s'' : TableStore} (h : s.Reads s') (h' : s'.Reads s'') : s.Reads s'' := by
  obtain ⟨⟨c, rfl⟩, hok⟩ := h
  obtain ⟨⟨c', rfl⟩, hok'⟩ := h'
  exact ⟨⟨c', rfl⟩, hok' ∘ hok⟩

/-- With a sound cache, a segment reads as its file. -/
theorem CacheOk.segRows_eq {s : TableStore} (h : s.CacheOk) (seg : Nat) :
    s.segRows seg = s.fileRows seg := by
  unfold segRows
  cases hc : s.segCache with
  | none => rfl
  | some c =>
    obtain ⟨id, rows⟩ := c
    dsimp only
    by_cases hid : id = seg
    · rw [if_pos hid, ← hid]
      exact (h id rows hc).symm
    · rw [if_neg hid]

/-- Reading does not change what is read. -/
theorem Reads.fetched_eq {s s' : TableStore} (h : s.Reads s') (hok : s.CacheOk) (loc : Loc)
    (col : Nat) : s'.fetched loc col = s.fetched loc col := by
  obtain ⟨⟨c, rfl⟩, hok'⟩ := h
  have hsame : TableStore.segRows { s with segCache := c } loc.seg = s.segRows loc.seg :=
    ((hok' hok).segRows_eq loc.seg).trans (hok.segRows_eq loc.seg).symm
  unfold fetched
  rw [hsame]

end TableStore

open TableStore

private theorem modify_of_getElem? {α : Type} {l : List α} {i : Nat} {a : α} {f : α → α}
    (h : l[i]? = some a) : l.modify i f = l.set i (f a) := by
  obtain ⟨hi, ha⟩ := List.getElem?_eq_some_iff.mp h
  apply List.ext_getElem?
  intro j
  rw [List.getElem?_modify, List.getElem?_set]
  by_cases hij : i = j
  · subst hij
    simp [hi, ha]
  · simp [hij]

section Ensures

variable {s : TableStore}

theorem keyOrPanic_ensures (values : Row) :
    Ensures (keyOrPanic values) s fun key s' => s.keyOf values = some key ∧ s' = s := by
  refine Ensures.bind_get ?_
  cases h : s.keyOf values with
  | none => exact Ensures.throw
  | some key => exact Ensures.pure ⟨rfl, rfl⟩

theorem insertRow_ensures (values : Row) (lsn : Nat) :
    Ensures (insertRow values lsn) s fun _ s' => s' = s.withRow values lsn := by
  refine Ensures.bind_get ?_
  dsimp only
  cases hkeyed : s.hasKey with
  | true =>
    rw [if_pos rfl]
    refine Ensures.bind (keyOrPanic_ensures values) ?_
    rintro key t ⟨hkey, rfl⟩
    refine Ensures.modify ?_
    simp only [withRow, hkeyed, hkey]
  | false =>
    rw [if_neg Bool.false_ne_true]
    refine Ensures.modify ?_
    simp only [withRow, hkeyed]

theorem markDeleted_ensures (loc : Loc) (lsn : Nat) :
    Ensures (markDeleted loc lsn) s fun _ s' => s' = s.withMark loc lsn := by
  refine Ensures.bind_modify (Ensures.bind_get ?_)
  by_cases hopen : loc.seg = openSegment
  · rw [if_pos hopen]
    dsimp only
    cases hrow : s.opened[loc.row]? with
    | none => exact Ensures.throw
    | some row =>
      refine Ensures.modify ?_
      simp only [withMark, if_pos hopen]
      rw [modify_of_getElem? hrow]
  · rw [if_neg hopen]
    refine Ensures.modify ?_
    simp only [withMark, if_neg hopen]

theorem loadRows_ensures (seg : Nat) : Ensures (loadRows seg) s fun rows s' =>
    s.fileRows seg = some rows ∧ s.Reads s' := by
  have hread : Ensures (readSegmentRows seg) s fun rows s' =>
      s.fileRows seg = some rows ∧ s' = s := by
    refine Ensures.bind_call (Ensures.bind_get ?_)
    simp only [id_eq, fileRows]
    cases s.files.lookup seg with
    | none => exact Ensures.throw
    | some stored => exact Ensures.pure ⟨rfl, rfl⟩
  refine Ensures.bind hread ?_
  rintro rows t ⟨hrows, rfl⟩
  refine Ensures.bind_modify (Ensures.pure ⟨hrows, ⟨_, rfl⟩, ?_⟩)
  intro _ seg' rows' hcache
  obtain ⟨rfl, rfl⟩ := Prod.mk.inj (Option.some.inj hcache)
  exact hrows

theorem cachedRows_ensures (hok : s.CacheOk) (seg : Nat) : Ensures (cachedRows seg) s fun rows s' =>
    s.fileRows seg = some rows ∧ s.Reads s' := by
  refine Ensures.bind_get ?_
  cases hc : s.segCache with
  | none => exact loadRows_ensures seg
  | some c =>
    obtain ⟨id, rows⟩ := c
    dsimp only
    by_cases hid : id = seg
    · rw [if_pos hid]
      exact Ensures.pure ⟨hid ▸ hok id rows hc, Reads.refl s⟩
    · rw [if_neg hid]
      exact loadRows_ensures seg

theorem cellOrPanic_ensures (cell : Option (Option String)) :
    Ensures (cellOrPanic cell) s fun v s' => cell = some v ∧ s' = s := by
  cases cell with
  | none => exact Ensures.throw
  | some v => exact Ensures.pure ⟨rfl, rfl⟩

theorem fetchValue_ensures (hok : s.CacheOk) (loc : Loc) (col : Nat) :
    Ensures (fetchValue loc col) s fun v s' => s.fetched loc col = some v ∧ s.Reads s' := by
  refine Ensures.bind_get ?_
  unfold fetched
  by_cases hopen : loc.seg = openSegment
  · rw [if_pos hopen, if_pos hopen]
    refine Ensures.weaken (cellOrPanic_ensures _) ?_
    rintro v t ⟨hv, rfl⟩
    exact ⟨hv, Reads.refl _⟩
  · rw [if_neg hopen, if_neg hopen]
    refine Ensures.bind (cachedRows_ensures hok loc.seg) ?_
    intro rows t ⟨hrows, hreads⟩
    refine Ensures.weaken (cellOrPanic_ensures _) ?_
    rintro v t' ⟨hv, rfl⟩
    rw [hok.segRows_eq, hrows]
    exact ⟨hv, hreads⟩

theorem tupleValue_ensures (hok : s.CacheOk) (prior : Option Loc) (i : Nat) (name : String)
    (value : TupleValue) : Ensures (tupleValue prior i name value) s fun v s' =>
      s.valueOf prior i value = some v ∧ s.Reads s' := by
  cases value with
  | null => exact Ensures.pure ⟨rfl, Reads.refl s⟩
  | text t => exact Ensures.pure ⟨rfl, Reads.refl s⟩
  | binary b => exact Ensures.throw
  | unchangedToast =>
    cases prior with
    | none => exact Ensures.throw
    | some loc => exact fetchValue_ensures hok loc i

/-- Reading does not change what an image says. -/
theorem TableStore.Reads.valuesFrom_eq {s' : TableStore} (h : s.Reads s') (hok : s.CacheOk)
    (prior : Option Loc) (values : List TupleValue) (i : Nat) :
    s'.valuesFrom prior i values = s.valuesFrom prior i values := by
  induction values generalizing i with
  | nil => rfl
  | cons value values ih =>
    have hvalue : s'.valueOf prior i value = s.valueOf prior i value := by
      cases value with
      | unchangedToast =>
        cases prior with
        | none => rfl
        | some loc => exact h.fetched_eq hok loc i
      | _ => rfl
    rw [valuesFrom, hvalue, valuesFrom]
    simp only [ih]

theorem tupleLoop_ensures {prior : Option Loc} {named : Named} {columns : List ColumnSpec}
    (hlen : named.length = columns.length) (hok : s.CacheOk) (i : Nat) :
    Ensures (tupleLoop prior i (named.zip columns)) s fun row s' =>
      named.map Prod.fst = columns.map ColumnSpec.name ∧
        s.valuesFrom prior i (named.map Prod.snd) = some row ∧ s.Reads s' := by
  induction named generalizing s columns i with
  | nil =>
    cases columns with
    | nil => exact Ensures.pure ⟨rfl, rfl, Reads.refl s⟩
    | cons column columns => simp at hlen
  | cons c named ih =>
    cases columns with
    | nil => simp at hlen
    | cons column columns =>
      obtain ⟨name, value⟩ := c
      rw [List.zip_cons_cons, tupleLoop]
      by_cases hname : name = column.name
      · rw [if_pos hname]
        refine Ensures.bind (tupleValue_ensures hok prior i name value) ?_
        rintro v t ⟨hv, hreads⟩
        refine Ensures.bind (ih (by simpa using hlen) (hreads.2 hok) (i + 1)) ?_
        rintro vs t' ⟨hnames, hvs, hreads'⟩
        rw [hreads.valuesFrom_eq hok] at hvs
        refine Ensures.pure ⟨?_, ?_, hreads.trans hreads'⟩
        · rw [List.map_cons, List.map_cons, hname, hnames]
        · rw [List.map_cons, valuesFrom, hv, hvs]
          rfl
      · rw [if_neg hname]
        exact Ensures.throw

theorem tupleToValues_ensures (hok : s.CacheOk) (named : Named) (prior : Option Loc) :
    Ensures (tupleToValues named prior) s fun row s' =>
      s.rowOf named prior = some row ∧ s.Reads s' := by
  refine Ensures.bind_get ?_
  by_cases hlen : named.length = s.columns.length
  · rw [if_pos hlen]
    refine Ensures.weaken (tupleLoop_ensures hlen hok 0) ?_
    intro row s' ⟨hnames, hvalues, hreads⟩
    exact ⟨by rw [rowOf, if_pos hnames, hvalues], hreads⟩
  · rw [if_neg hlen]
    exact Ensures.throw

end Ensures

/-! ## Changes -/

/-- What a change does to the store, when it is applied. -/
inductive OpEffect (s : TableStore) (c : TypedChange) : TableStore → Prop where
  | insert {named : Named} {values : Row} {s₁ : TableStore} (hop : c.op = .insert)
      (hnew : c.new = some named) (hrow : s.rowOf named none = some values)
      (hreads : s.Reads s₁) : OpEffect s c (s₁.withRow values c.commitLsn)
  | update {named : Named} {key : Bytes} {loc : Loc} {values : Row} {s₁ : TableStore}
      (hop : c.op = .update) (hkeyed : s.hasKey = true) (hnew : c.new = some named)
      (hold : s.keyOf (imageValues (c.old.getD named)) = some key)
      (hloc : s.index.lookup key = some loc) (hrow : s.rowOf named (some loc) = some values)
      (hreads : s.Reads s₁) :
      OpEffect s c (((s₁.withMark loc c.commitLsn).withoutKey key).withRow values c.commitLsn)
  | delete {old : Named} {key : Bytes} {loc : Loc} (hop : c.op = .delete)
      (hkeyed : s.hasKey = true) (hold : c.old = some old)
      (hkey : s.keyOf (imageValues old) = some key) (hloc : s.index.lookup key = some loc) :
      OpEffect s c ((s.withoutKey key).withMark loc c.commitLsn)
  | truncate (hop : c.op = .truncate) :
      OpEffect s c { s.withMarks c.commitLsn (s.index.entries.map (·.2)) with index := ∅ }

section Ensures

variable {s : TableStore}

theorem markAll_ensures (lsn : Nat) (locs : List Loc) : Ensures (markAll lsn locs) s fun _ s' =>
    s' = locs.foldl (fun s loc => s.withMark loc lsn) s := by
  induction locs generalizing s with
  | nil => exact Ensures.pure rfl
  | cons loc locs ih =>
    refine Ensures.bind (markDeleted_ensures loc lsn) ?_
    rintro _ t rfl
    exact ih

/-- An operation that returns has one of the four effects. -/
theorem applyOp_ensures (hok : s.CacheOk) (c : TypedChange) :
    Ensures (applyOp c) s fun _ s' => OpEffect s c s' := by
  unfold applyOp
  cases hop : c.op with
  | insert =>
    dsimp only
    unfold applyInsert
    cases hnew : c.new with
    | none => exact Ensures.throw
    | some named =>
      refine Ensures.bind (tupleToValues_ensures hok named none) ?_
      intro values s₁ ⟨hrow, hreads⟩
      refine Ensures.weaken (insertRow_ensures values c.commitLsn) ?_
      rintro _ t rfl
      exact .insert hop hnew hrow hreads
  | update =>
    refine Ensures.bind_get ?_
    cases hkeyed : s.hasKey with
    | false => exact Ensures.throw
    | true =>
      rw [if_pos rfl]
      cases hnew : c.new with
      | none => exact Ensures.throw
      | some named =>
        refine Ensures.bind (keyOrPanic_ensures _) ?_
        rintro key t ⟨hold, ht⟩
        obtain rfl := ht.symm
        refine Ensures.bind_get (Ensures.bind (tupleToValues_ensures hok named _) ?_)
        intro values s₁ ⟨hrow, hreads⟩
        cases hloc : s.index.lookup key with
        | none => exact Ensures.throw
        | some loc =>
          rw [hloc] at hrow
          refine Ensures.bind (markDeleted_ensures loc c.commitLsn) ?_
          rintro _ t rfl
          refine Ensures.bind_modify (Ensures.weaken (insertRow_ensures values c.commitLsn) ?_)
          rintro _ t rfl
          exact .update hop hkeyed hnew hold hloc hrow hreads
  | delete =>
    refine Ensures.bind_get ?_
    cases hkeyed : s.hasKey with
    | false => exact Ensures.throw
    | true =>
      rw [if_pos rfl]
      cases hold : c.old with
      | none => exact Ensures.throw
      | some old =>
        refine Ensures.bind (keyOrPanic_ensures _) ?_
        rintro key t ⟨hkey, ht⟩
        obtain rfl := ht.symm
        refine Ensures.bind_get ?_
        cases hloc : s.index.lookup key with
        | none => exact Ensures.throw
        | some loc =>
          refine Ensures.bind_modify (Ensures.weaken (markDeleted_ensures loc c.commitLsn) ?_)
          rintro _ t rfl
          exact .delete hop hkeyed hold hkey hloc
  | truncate =>
    refine Ensures.bind_get (Ensures.bind (markAll_ensures _ _) ?_)
    rintro _ t rfl
    exact Ensures.modify (.truncate hop)

theorem loadLines_ensures (lsn0 : Nat) (lines : List Bytes) :
    Ensures (loadLines lsn0 lines) s fun n s' => n = lines.length ∧
      (∀ line ∈ lines, (parseCopyLine line).length = s.columns.length) ∧
      s' = s.withLines lsn0 lines := by
  induction lines generalizing s with
  | nil => exact Ensures.pure ⟨rfl, by simp, rfl⟩
  | cons line lines ih =>
    refine Ensures.bind_get ?_
    dsimp only
    by_cases hlen : (parseCopyLine line).length = s.columns.length
    · rw [if_pos hlen]
      refine Ensures.bind (insertRow_ensures _ lsn0) ?_
      rintro _ t rfl
      refine Ensures.bind ih ?_
      rintro n t ⟨rfl, hlines, rfl⟩
      refine Ensures.pure ⟨rfl, ?_, rfl⟩
      intro line' hline'
      rcases List.mem_cons.mp hline' with rfl | hline'
      · exact hlen
      · exact hlines line' hline'
    · rw [if_neg hlen]
      exact Ensures.throw

theorem loadCopyPart_ensures (data : Bytes) (lsn0 : Nat) :
    Ensures (loadCopyPart data lsn0) s fun _ s' =>
      (∀ line ∈ copyLines data, (parseCopyLine line).length = s.columns.length) ∧
        ∃ appliedLsn, s' = { s.withLines lsn0 (copyLines data) with appliedLsn } := by
  refine Ensures.bind (loadLines_ensures lsn0 (copyLines data)) ?_
  rintro n t ⟨-, hwidths, rfl⟩
  exact Ensures.bind_modify (Ensures.pure ⟨hwidths, _, rfl⟩)

end Ensures

/-! ## Flushes -/

section Flush

variable [FloatText] {s : TableStore}

/-- What a flush does: nothing, or a new segment. -/
inductive FlushEffect (s : TableStore) : TableStore → Prop where
  | none (hopen : s.opened = []) : FlushEffect s s
  | segment {rendered : List Row} (hopen : s.opened ≠ [])
      (hrendered : renderRows s.columns s.opened = .ok rendered) :
      FlushEffect s (s.withSegment rendered)

omit [FloatText] in
theorem reindex_ensures (seg : Nat) (rows : List (OpenRow × Nat)) :
    Ensures (reindex seg rows) s fun _ s' =>
      s' = { s with index := s.reindexed seg s.index rows } := by
  induction rows generalizing s with
  | nil => exact Ensures.pure rfl
  | cons r rows ih =>
    obtain ⟨row, i⟩ := r
    unfold reindex
    cases hd : row.deleteLsn with
    | some d =>
      rw [if_neg (by simp)]
      refine Ensures.weaken ih ?_
      rintro _ t rfl
      simp only [reindexed, List.foldl_cons, hd]
    | none =>
      rw [if_pos (by simp)]
      refine Ensures.bind (keyOrPanic_ensures row.values) ?_
      rintro key t ⟨hkey, ht⟩
      obtain rfl := ht.symm
      refine Ensures.bind_modify (Ensures.weaken ih ?_)
      rintro _ t rfl
      simp only [reindexed, List.foldl_cons, hd, hkey]
      rfl

theorem writeSegment_ensures (seg : Nat) (rows : List OpenRow) :
    Ensures (writeSegment seg rows) s fun _ s' => ∃ rendered,
      renderRows s.columns rows = .ok rendered ∧ s' = { s with
        files := (s.files.insert seg []).insert seg (rendered.zip (rows.map OpenRow.insertLsn)) } := by
  refine Ensures.bind_get ?_
  cases hrendered : renderRows s.columns rows with
  | error e => exact Ensures.throw
  | ok rendered => exact Ensures.bind_call (Ensures.call ⟨rendered, rfl, rfl⟩)

omit [FloatText] in
theorem reindexKeyed_ensures (seg : Nat) (rows : List OpenRow) :
    Ensures (reindexKeyed seg rows) s fun _ s' => s' = { s with
      index := if s.hasKey then s.reindexed seg s.index rows.zipIdx else s.index } := by
  refine Ensures.bind_get ?_
  cases s.hasKey with
  | true => exact reindex_ensures seg rows.zipIdx
  | false => exact Ensures.pure rfl

theorem flush_ensures : Ensures flush s fun _ s' => FlushEffect s s' := by
  refine Ensures.bind_get ?_
  dsimp only
  by_cases hopen : s.opened = []
  · rw [if_pos (by simp [hopen])]
    exact Ensures.pure (.none hopen)
  · rw [if_neg (by simp [hopen])]
    refine Ensures.bind_modify (Ensures.bind (writeSegment_ensures _ _) ?_)
    rintro _ t ⟨rendered, hrendered, rfl⟩
    refine Ensures.bind_modify (Ensures.bind (reindexKeyed_ensures _ _) ?_)
    rintro _ t rfl
    exact Ensures.modify (.segment hopen hrendered)

/-- The store behind an applied change. -/
theorem apply_ensures (hok : s.CacheOk) (c : TypedChange) : Ensures (apply c) s fun _ s' =>
    ∃ s₁ s₂, OpEffect s c s₁ ∧ s₂ = { s₁ with appliedLsn := max s₁.appliedLsn c.commitLsn } ∧
      (s₂.flushRows ≤ s₂.opened.length ∧ FlushEffect s₂ s' ∨
        s₂.opened.length < s₂.flushRows ∧ s' = s₂) := by
  refine Ensures.bind (applyOp_ensures hok c) ?_
  intro _ s₁ heffect
  refine Ensures.bind_modify (Ensures.bind_get ?_)
  dsimp only
  split
  · rename_i hfull
    refine Ensures.weaken flush_ensures ?_
    intro _ s' hflush
    exact ⟨s₁, _, heffect, rfl, Or.inl ⟨hfull, hflush⟩⟩
  · rename_i hfull
    exact Ensures.pure ⟨s₁, _, heffect, rfl, Or.inr ⟨Nat.lt_of_not_le hfull, rfl⟩⟩

omit [FloatText] in
theorem writeSidecars_ensures (entries : List (Nat × List (Nat × Nat))) :
    Ensures (writeSidecars entries) s fun _ s' => s' = { s with
      sidecarFiles := entries.foldl (fun files e => files.insert e.1 e.2) s.sidecarFiles } := by
  induction entries generalizing s with
  | nil => exact Ensures.pure rfl
  | cons e entries ih =>
    obtain ⟨seg, deletes⟩ := e
    refine Ensures.bind_call (Ensures.weaken ih ?_)
    rintro _ t rfl
    rfl

/-- What is on disk behind `finalize`. -/
def TableStore.onDisk (s : TableStore) : TableStore :=
  { s with
    sidecarFiles := (s.sidecars.entries.map fun e => (e.1, e.2)).foldl
      (fun files e => files.insert e.1 e.2) s.sidecarFiles
    manifest := some
      { table := s.table, columns := s.columns, appliedLsn := s.appliedLsn, segments := s.segments } }

theorem finalize_ensures : Ensures finalize s fun _ s' =>
    ∃ s₁, FlushEffect s s₁ ∧ s' = s₁.onDisk := by
  refine Ensures.bind flush_ensures ?_
  intro _ s₁ hflush
  refine Ensures.bind_get (Ensures.bind (writeSidecars_ensures _) ?_)
  rintro _ t rfl
  exact Ensures.bind_call (Ensures.pure ⟨s₁, hflush, rfl⟩)

end Flush

end GrayDB.Columnar
