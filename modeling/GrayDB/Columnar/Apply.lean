import GrayDB.Columnar.Store

/-!
# Changes that a store takes

`Takes` is the condition on a store and a change under which `apply` goes through
when no I/O call fails: the images have the columns of the store, the row that is
updated or deleted is there, and the rows that are open then can be written if a
segment is due.  `apply_spec` proves it, over one spec for each helper of `apply`.
-/

namespace GrayDB.Columnar

open Lib Lib.Crash Log Registry

namespace TableStore

/-! ## The condition -/

/-- The rows of a segment file. -/
def fileRows (s : TableStore) (seg : Nat) : Option (List Row) :=
  (s.files.lookup seg).map fun rows => appendRenderedRows rows none maxLsn

/-- The rows of a segment, from the cache or from the file. -/
def segRows (s : TableStore) (seg : Nat) : Option (List Row) :=
  match s.segCache with
  | some (id, rows) => if id = seg then some rows else s.fileRows seg
  | none => s.fileRows seg

/-- What a column of a prior version holds. -/
def fetched (s : TableStore) (loc : Loc) (col : Nat) : Option (Option String) :=
  if loc.seg = openSegment then do (← s.opened[loc.row]?).values[col]?
  else do (← (← s.segRows loc.seg)[loc.row]?)[col]?

def valueOf (s : TableStore) (prior : Option Loc) (i : Nat) :
    TupleValue → Option (Option String)
  | .text t => some (some t)
  | .null => some none
  | .unchangedToast => do s.fetched (← prior) i
  | .binary _ => none

def valuesFrom (s : TableStore) (prior : Option Loc) : Nat → List TupleValue → Option Row
  | _, [] => some []
  | i, value :: values => do
    let v ← s.valueOf prior i value
    let vs ← s.valuesFrom prior (i + 1) values
    some (v :: vs)

/-- The row of a new image, if it has the columns of the store and a value for each. -/
def rowOf (s : TableStore) (named : Named) (prior : Option Loc) : Option Row :=
  if named.map Prod.fst = s.columns.map ColumnSpec.name then
    s.valuesFrom prior 0 (named.map Prod.snd)
  else none

/-- The open rows, once a row is marked deleted. -/
def marked (opened : List OpenRow) (loc : Loc) (lsn : Nat) : Option (List OpenRow) :=
  if loc.seg = openSegment then
    opened[loc.row]?.map fun row => opened.set loc.row { row with deleteLsn := some lsn }
  else some opened

section Condition

variable [FloatText]

/-- If the open rows are enough for a segment, each of them can be written, and has a
key. -/
def Flushes (s : TableStore) (rows : List OpenRow) : Prop :=
  s.flushRows ≤ rows.length → (∃ rendered, renderRows s.columns rows = .ok rendered) ∧
    ∀ r ∈ rows, r.deleteLsn = none → (s.keyOf r.values).isSome

/-- The change fits the store. -/
def Takes (s : TableStore) (c : TypedChange) : Prop :=
  match c.op with
  | .insert => ∃ named ∈ c.new, ∃ values ∈ s.rowOf named none,
      s.Flushes (s.opened ++ [{ values, insertLsn := c.commitLsn }])
  | .update => s.hasKey = true ∧ ∃ named ∈ c.new,
      ∃ key ∈ s.keyOf (imageValues (c.old.getD named)), ∃ loc ∈ s.index.lookup key,
        ∃ values ∈ s.rowOf named (some loc), ∃ rows ∈ marked s.opened loc c.commitLsn,
          s.Flushes (rows ++ [{ values, insertLsn := c.commitLsn }])
  | .delete => s.hasKey = true ∧ ∃ old ∈ c.old, ∃ key ∈ s.keyOf (imageValues old),
      ∃ loc ∈ s.index.lookup key, ∃ rows ∈ marked s.opened loc c.commitLsn, s.Flushes rows
  | .truncate => ∃ rows ∈ (s.index.entries.map (·.2)).foldlM (marked · · c.commitLsn) s.opened,
      s.Flushes rows

instance (s : TableStore) (rows : List OpenRow) :
    Decidable (∃ rendered, renderRows s.columns rows = .ok rendered) :=
  match renderRows s.columns rows with
  | .ok rendered => isTrue ⟨rendered, rfl⟩
  | .error _ => isFalse fun ⟨_, h⟩ => nomatch h

instance (s : TableStore) (rows : List OpenRow) : Decidable (s.Flushes rows) :=
  inferInstanceAs (Decidable (s.flushRows ≤ rows.length →
    (∃ rendered, renderRows s.columns rows = .ok rendered) ∧
      ∀ r ∈ rows, r.deleteLsn = none → (s.keyOf r.values).isSome))

instance (s : TableStore) (c : TypedChange) : Decidable (s.Takes c) := by
  delta Takes
  cases c.op <;> infer_instance

end Condition

/-! ## Lemmas -/

private theorem mapM_isSome {α β : Type} {f : α → Option β} {l : List α}
    (h : ∀ a ∈ l, (f a).isSome) : (l.mapM f).isSome := by
  induction l with
  | nil => rfl
  | cons a l ih =>
    obtain ⟨b, hb⟩ := Option.isSome_iff_exists.mp (h a List.mem_cons_self)
    obtain ⟨bs, hbs⟩ := Option.isSome_iff_exists.mp (ih fun x hx => h x (List.mem_cons_of_mem a hx))
    simp [List.mapM_cons, hb, hbs]

/-- A row of full width has a key. -/
theorem keyOf_isSome {s : TableStore} {values : Row} (h : values.length = s.columns.length) :
    (s.keyOf values).isSome := by
  have hidx : ∀ i ∈ s.keyIdx, (values[i]?).isSome := by
    intro i hi
    unfold keyIdx at hi
    obtain ⟨c, hc, hci⟩ := List.mem_filterMap.mp hi
    have hlt := (List.mem_zipIdx hc).2.1
    split at hci
    · obtain rfl := Option.some.inj hci
      simp only [Nat.zero_add] at hlt
      simp [h, hlt]
    · simp at hci
  obtain ⟨parts, hparts⟩ := Option.isSome_iff_exists.mp (mapM_isSome hidx)
  simp [keyOf, hparts]

theorem length_of_valuesFrom {s : TableStore} {prior : Option Loc} {values : List TupleValue}
    {i : Nat} {row : Row} (h : s.valuesFrom prior i values = some row) :
    row.length = values.length := by
  induction values generalizing i row with
  | nil =>
    obtain rfl := Option.some.inj h
    rfl
  | cons value values ih =>
    obtain ⟨v, -, h⟩ := Option.bind_eq_some_iff.mp h
    obtain ⟨vs, hvs, h⟩ := Option.bind_eq_some_iff.mp h
    obtain rfl := Option.some.inj h
    rw [List.length_cons, List.length_cons, ih hvs]

theorem length_of_rowOf {s : TableStore} {named : Named} {prior : Option Loc} {row : Row}
    (h : s.rowOf named prior = some row) : row.length = s.columns.length := by
  unfold rowOf at h
  split at h
  · rename_i hnames
    have hlen := congrArg List.length hnames
    rw [List.length_map, List.length_map] at hlen
    rw [length_of_valuesFrom h, List.length_map, hlen]
  · simp at h

end TableStore

open TableStore

/-! ## The helpers -/

/-- An operation changes the open rows to `rows`, and leaves the columns and the size of
a segment. -/
def Opens (s : TableStore) (rows : List OpenRow) (s' : TableStore) : Prop :=
  s'.opened = rows ∧ s'.columns = s.columns ∧ s'.flushRows = s.flushRows

theorem Opens.trans {s s' s'' : TableStore} {rows rows' : List OpenRow} (h : Opens s rows s')
    (h' : Opens s' rows' s'') : Opens s rows' s'' :=
  ⟨h'.1, h'.2.1.trans h.2.1, h'.2.2.trans h.2.2⟩

section Specs

variable {s : TableStore}

theorem keyOrPanic_spec {values : Row} {key : Bytes} (h : s.keyOf values = some key) :
    Returns (keyOrPanic values) s fun k s' => k = key ∧ s' = s := by
  refine Spec.bind_get ?_
  rw [h]
  exact Spec.pure ⟨rfl, rfl⟩

theorem insertRow_spec {values : Row} (h : values.length = s.columns.length) (lsn : Nat) :
    Returns (insertRow values lsn) s fun _ s' =>
      Opens s (s.opened ++ [{ values, insertLsn := lsn }]) s' := by
  obtain ⟨key, hkey⟩ := Option.isSome_iff_exists.mp (keyOf_isSome h)
  refine Spec.bind_get ?_
  split
  · refine Spec.bind (keyOrPanic_spec hkey) ?_
    rintro _ _ ⟨rfl, rfl⟩
    exact Spec.modify ⟨rfl, rfl, rfl⟩
  · exact Spec.modify ⟨rfl, rfl, rfl⟩

theorem markDeleted_spec {loc : Loc} {lsn : Nat} {rows : List OpenRow}
    (h : marked s.opened loc lsn = some rows) :
    Returns (markDeleted loc lsn) s fun _ s' => Opens s rows s' := by
  unfold marked at h
  refine Spec.bind_modify (Spec.bind_get ?_)
  split
  · rename_i hopen
    rw [if_pos hopen] at h
    obtain ⟨row, hrow, rfl⟩ := Option.map_eq_some_iff.mp h
    simp only [hrow]
    exact Spec.modify ⟨rfl, rfl, rfl⟩
  · rename_i hopen
    rw [if_neg hopen] at h
    exact Spec.modify ⟨Option.some.inj h, rfl, rfl⟩

/-- Only the cache changes, and it serves the row at `prior` as before. -/
def Cached (prior : Option Loc) (s s' : TableStore) : Prop :=
  (∃ segCache, s' = { s with segCache }) ∧ ∀ loc ∈ prior, s'.fetched loc = s.fetched loc

theorem Cached.refl (prior : Option Loc) (s : TableStore) : Cached prior s s :=
  ⟨⟨s.segCache, rfl⟩, fun _ _ => rfl⟩

theorem Cached.trans {prior : Option Loc} {s s' s'' : TableStore} (h : Cached prior s s')
    (h' : Cached prior s' s'') : Cached prior s s'' := by
  obtain ⟨⟨c, rfl⟩, hsame⟩ := h
  obtain ⟨⟨c', rfl⟩, hsame'⟩ := h'
  exact ⟨⟨c', rfl⟩, fun loc hloc => (hsame' loc hloc).trans (hsame loc hloc)⟩

theorem loadRows_spec {seg : Nat} {rows : List Row} (h : s.fileRows seg = some rows) :
    Returns (loadRows seg) s fun r s' =>
      r = rows ∧ s' = { s with segCache := some (seg, rows) } := by
  have hread : Returns (readSegmentRows seg) s fun r s' => r = rows ∧ s' = s := by
    obtain ⟨stored, hfile, hrows⟩ := Option.map_eq_some_iff.mp h
    refine Spec.bind_call trivial (Spec.bind_get ?_)
    simp only [id_eq, hfile]
    exact Spec.pure ⟨hrows, rfl⟩
  refine Spec.bind hread ?_
  rintro _ _ ⟨rfl, rfl⟩
  exact Spec.bind_modify (Spec.pure ⟨rfl, rfl⟩)

theorem cachedRows_spec {seg : Nat} {rows : List Row} (h : s.segRows seg = some rows) :
    Returns (cachedRows seg) s fun r s' => r = rows ∧ (∃ segCache, s' = { s with segCache }) ∧
      s'.segRows seg = some rows := by
  have hload : s.fileRows seg = some rows → Returns (loadRows seg) s fun r s' =>
      r = rows ∧ (∃ segCache, s' = { s with segCache }) ∧ s'.segRows seg = some rows := by
    intro hfile
    refine Spec.weaken (loadRows_spec hfile) ?_
    rintro _ _ ⟨rfl, rfl⟩
    exact ⟨rfl, ⟨_, rfl⟩, by simp [segRows]⟩
  unfold segRows at h
  refine Spec.bind_get ?_
  cases hc : s.segCache with
  | none =>
    rw [hc] at h
    exact hload h
  | some c =>
    obtain ⟨id, cached⟩ := c
    rw [hc] at h
    dsimp only at h ⊢
    split
    · rename_i hid
      rw [if_pos hid] at h
      obtain rfl := Option.some.inj h
      exact Spec.pure ⟨rfl, ⟨s.segCache, rfl⟩, by simp [segRows, hc, hid]⟩
    · rename_i hid
      rw [if_neg hid] at h
      exact hload h

theorem fetchValue_spec {loc : Loc} {col : Nat} {v : Option String}
    (h : s.fetched loc col = some v) :
    Returns (fetchValue loc col) s fun r s' => r = v ∧ Cached (some loc) s s' := by
  unfold fetched at h
  refine Spec.bind_get ?_
  split
  · rename_i hopen
    rw [if_pos hopen] at h
    rw [h]
    exact Spec.pure ⟨rfl, .refl _ _⟩
  · rename_i hopen
    rw [if_neg hopen] at h
    obtain ⟨rows, hrows, h⟩ := Option.bind_eq_some_iff.mp h
    refine Spec.bind (cachedRows_spec hrows) ?_
    rintro _ _ ⟨rfl, ⟨segCache, rfl⟩, hseg⟩
    rw [h]
    refine Spec.pure ⟨rfl, ⟨segCache, rfl⟩, ?_⟩
    rintro loc' ⟨⟩
    funext col'
    simp only [fetched, if_neg hopen, hseg, hrows]

theorem tupleValue_spec {prior : Option Loc} {i : Nat} {name : String} {value : TupleValue}
    {v : Option String} (h : s.valueOf prior i value = some v) :
    Returns (tupleValue prior i name value) s fun r s' => r = v ∧ Cached prior s s' := by
  cases value with
  | null =>
    obtain rfl := Option.some.inj h
    exact Spec.pure ⟨rfl, .refl _ _⟩
  | text t =>
    obtain rfl := Option.some.inj h
    exact Spec.pure ⟨rfl, .refl _ _⟩
  | binary b => simp [valueOf] at h
  | unchangedToast =>
    cases prior with
    | none => simp [valueOf] at h
    | some loc => exact fetchValue_spec (by simpa [valueOf] using h)

/-- What is served at the prior row is all that an image needs. -/
private theorem Cached.valuesFrom {prior : Option Loc} {s' : TableStore} (h : Cached prior s s')
    (values : List TupleValue) (i : Nat) :
    s'.valuesFrom prior i values = s.valuesFrom prior i values := by
  induction values generalizing i with
  | nil => rfl
  | cons value values ih =>
    have hvalue : s'.valueOf prior i value = s.valueOf prior i value := by
      cases value with
      | unchangedToast =>
        cases prior with
        | none => rfl
        | some loc => simp [valueOf, h.2 loc rfl]
      | _ => rfl
    rw [TableStore.valuesFrom, hvalue, TableStore.valuesFrom]
    simp only [ih]

theorem tupleLoop_spec {prior : Option Loc} {named : Named} {columns : List ColumnSpec}
    (hnames : named.map Prod.fst = columns.map ColumnSpec.name) :
    ∀ {s : TableStore} {i : Nat} {row : Row},
      s.valuesFrom prior i (named.map Prod.snd) = some row →
      Returns (tupleLoop prior i (named.zip columns)) s fun r s' => r = row ∧ Cached prior s s' := by
  induction named generalizing columns with
  | nil =>
    intro s i row h
    obtain rfl := Option.some.inj h
    exact Spec.pure ⟨rfl, .refl _ _⟩
  | cons c named ih =>
    intro s i row h
    cases columns with
    | nil => simp at hnames
    | cons column columns =>
      obtain ⟨name, value⟩ := c
      simp only [List.map_cons, List.cons.injEq] at hnames
      obtain ⟨v, hv, h⟩ := Option.bind_eq_some_iff.mp h
      obtain ⟨vs, hvs, h⟩ := Option.bind_eq_some_iff.mp h
      obtain rfl := Option.some.inj h
      rw [List.zip_cons_cons, tupleLoop, if_pos hnames.1]
      refine Spec.bind (tupleValue_spec hv) ?_
      rintro _ s' ⟨rfl, hcached⟩
      refine Spec.bind (ih hnames.2 ((hcached.valuesFrom _ _).trans hvs)) ?_
      rintro _ s'' ⟨rfl, hcached'⟩
      exact Spec.pure ⟨rfl, hcached.trans hcached'⟩

theorem tupleToValues_spec {named : Named} {prior : Option Loc} {row : Row}
    (h : s.rowOf named prior = some row) :
    Returns (tupleToValues named prior) s fun r s' => r = row ∧ Cached prior s s' := by
  unfold rowOf at h
  split at h
  · rename_i hnames
    have hlen := congrArg List.length hnames
    rw [List.length_map, List.length_map] at hlen
    refine Spec.bind_get ?_
    rw [if_pos hlen]
    exact tupleLoop_spec hnames h
  · simp at h

/-- Lines with a value for each column are loaded. -/
theorem loadCopyPart_spec {data : Bytes}
    (h : ∀ line ∈ copyLines data, (parseCopyLine line).length = s.columns.length) (lsn0 : Nat) :
    Returns (loadCopyPart data lsn0) s fun _ _ => True := by
  have hlines : ∀ {lines : List Bytes} {s : TableStore},
      (∀ line ∈ lines, (parseCopyLine line).length = s.columns.length) →
      Returns (loadLines lsn0 lines) s fun _ _ => True := by
    intro lines
    induction lines with
    | nil => exact fun _ => Spec.pure trivial
    | cons line lines ih =>
      intro s h
      have hline := h line List.mem_cons_self
      refine Spec.bind_get ?_
      dsimp only
      rw [if_pos hline]
      refine Spec.bind (insertRow_spec hline lsn0) ?_
      intro _ s' hopens
      refine Spec.bind (ih fun l hl => ?_) fun _ _ _ => Spec.pure trivial
      rw [hopens.2.1]
      exact h l (List.mem_cons_of_mem line hl)
  exact Spec.bind (hlines h) fun _ _ _ => Spec.bind_modify (Spec.pure trivial)

end Specs

/-! ## The operations -/

section Ops

variable {s : TableStore} {c : TypedChange}

theorem Cached.opens {prior : Option Loc} {s' : TableStore} (h : Cached prior s s') :
    Opens s s.opened s' ∧ s'.index = s.index := by
  obtain ⟨⟨c, rfl⟩, -⟩ := h
  exact ⟨⟨rfl, rfl, rfl⟩, rfl⟩

theorem applyInsert_spec {named : Named} {values : Row} (hnew : c.new = some named)
    (hrow : s.rowOf named none = some values) :
    Returns (applyInsert c) s fun _ s' =>
      Opens s (s.opened ++ [{ values, insertLsn := c.commitLsn }]) s' := by
  unfold applyInsert
  rw [hnew]
  refine Spec.bind (tupleToValues_spec hrow) ?_
  rintro _ s₁ ⟨rfl, hcached⟩
  obtain ⟨hopens, -⟩ := hcached.opens
  refine Spec.weaken (insertRow_spec ?_ _) ?_
  · rw [hopens.2.1]
    exact length_of_rowOf hrow
  · intro _ s₂ hins
    rw [hopens.1] at hins
    exact hopens.trans hins

theorem applyUpdate_spec {named : Named} {key : Bytes} {loc : Loc} {values : Row}
    {rows : List OpenRow} (hkey : s.hasKey = true) (hnew : c.new = some named)
    (hold : s.keyOf (imageValues (c.old.getD named)) = some key)
    (hloc : s.index.lookup key = some loc) (hrow : s.rowOf named (some loc) = some values)
    (hmarked : marked s.opened loc c.commitLsn = some rows) :
    Returns (applyUpdate c) s fun _ s' =>
      Opens s (rows ++ [{ values, insertLsn := c.commitLsn }]) s' := by
  refine Spec.bind_get ?_
  rw [if_pos hkey, hnew]
  refine Spec.bind (keyOrPanic_spec hold) ?_
  rintro _ _ ⟨rfl, rfl⟩
  refine Spec.bind_get ?_
  simp only [hloc]
  refine Spec.bind (tupleToValues_spec hrow) ?_
  rintro _ s₁ ⟨rfl, hcached⟩
  obtain ⟨hopens, -⟩ := hcached.opens
  rw [← hopens.1] at hmarked
  refine Spec.bind (markDeleted_spec hmarked) ?_
  intro _ s₂ hmark
  replace hmark := hopens.trans hmark
  refine Spec.bind_modify (Spec.weaken (insertRow_spec ?_ _) ?_)
  · rw [hmark.2.1]
    exact length_of_rowOf hrow
  · intro _ s₃ hins
    rw [hmark.1] at hins
    exact Opens.trans hmark hins

theorem applyDelete_spec {old : Named} {key : Bytes} {loc : Loc} {rows : List OpenRow}
    (hkey : s.hasKey = true) (hold : c.old = some old)
    (holdKey : s.keyOf (imageValues old) = some key) (hloc : s.index.lookup key = some loc)
    (hmarked : marked s.opened loc c.commitLsn = some rows) :
    Returns (applyDelete c) s fun _ s' => Opens s rows s' := by
  refine Spec.bind_get ?_
  rw [if_pos hkey, hold]
  refine Spec.bind (keyOrPanic_spec holdKey) ?_
  rintro _ _ ⟨rfl, rfl⟩
  refine Spec.bind_get ?_
  simp only [hloc]
  exact Spec.bind_modify (Spec.weaken (markDeleted_spec hmarked) fun _ _ h => h)

theorem markAll_spec {lsn : Nat} {locs : List Loc} :
    ∀ {s : TableStore} {rows : List OpenRow},
      locs.foldlM (marked · · lsn) s.opened = some rows →
      Returns (markAll lsn locs) s fun _ s' => Opens s rows s' := by
  induction locs with
  | nil =>
    intro s rows h
    exact Spec.pure ⟨Option.some.inj h, rfl, rfl⟩
  | cons loc locs ih =>
    intro s rows h
    rw [List.foldlM_cons] at h
    obtain ⟨rows', hrows', h⟩ := Option.bind_eq_some_iff.mp h
    refine Spec.bind (markDeleted_spec hrows') ?_
    intro _ s₁ hmark
    rw [← hmark.1] at h
    exact Spec.weaken (ih h) fun _ _ hrest => hmark.trans hrest

theorem applyTruncate_spec {lsn : Nat} {rows : List OpenRow}
    (h : (s.index.entries.map (·.2)).foldlM (marked · · lsn) s.opened = some rows) :
    Returns (applyTruncate lsn) s fun _ s' => Opens s rows s' := by
  refine Spec.bind_get (Spec.bind (markAll_spec h) ?_)
  intro _ s' hopens
  exact Spec.modify hopens

variable [FloatText]

/-- The operation of a change that the store takes, and the open rows it leaves. -/
theorem applyOp_spec (h : s.Takes c) :
    Returns (applyOp c) s fun _ s' => ∃ rows, Opens s rows s' ∧ s.Flushes rows := by
  unfold Takes at h
  unfold applyOp
  cases hop : c.op with
  | insert =>
    rw [hop] at h
    obtain ⟨named, hnew, values, hrow, hflush⟩ := h
    exact Spec.weaken (applyInsert_spec hnew hrow) fun _ _ ho => ⟨_, ho, hflush⟩
  | update =>
    rw [hop] at h
    obtain ⟨hkey, named, hnew, key, hold, loc, hloc, values, hrow, rows, hmarked, hflush⟩ := h
    exact Spec.weaken (applyUpdate_spec hkey hnew hold hloc hrow hmarked)
      fun _ _ ho => ⟨_, ho, hflush⟩
  | delete =>
    rw [hop] at h
    obtain ⟨hkey, old, hold, key, holdKey, loc, hloc, rows, hmarked, hflush⟩ := h
    exact Spec.weaken (applyDelete_spec hkey hold holdKey hloc hmarked)
      fun _ _ ho => ⟨_, ho, hflush⟩
  | truncate =>
    rw [hop] at h
    obtain ⟨rows, hrows, hflush⟩ := h
    exact Spec.weaken (applyTruncate_spec hrows) fun _ _ ho => ⟨_, ho, hflush⟩

/-! ## Flushing -/

omit [FloatText] in
theorem keyOf_congr {s' : TableStore} (h : s'.columns = s.columns) (values : Row) :
    s'.keyOf values = s.keyOf values := by
  simp only [keyOf, keyIdx, h]

omit [FloatText] in
theorem reindex_spec {seg : Nat} {rows : List (OpenRow × Nat)} :
    ∀ {s : TableStore},
      (∀ r ∈ rows, r.1.deleteLsn = none → (s.keyOf r.1.values).isSome) →
      Returns (reindex seg rows) s fun _ _ => True := by
  induction rows with
  | nil => exact fun _ => Spec.pure trivial
  | cons r rows ih =>
    intro s h
    obtain ⟨row, i⟩ := r
    have hrest : ∀ r ∈ rows, r.1.deleteLsn = none → (s.keyOf r.1.values).isSome :=
      fun r hr => h r (List.mem_cons_of_mem _ hr)
    unfold reindex
    split
    · rename_i hlive
      have hrow := h (row, i) List.mem_cons_self (by simpa using hlive)
      obtain ⟨key, hkey⟩ := Option.isSome_iff_exists.mp hrow
      refine Spec.bind (keyOrPanic_spec hkey) ?_
      rintro _ _ ⟨rfl, rfl⟩
      exact Spec.bind_modify (ih hrest)
    · exact ih hrest

theorem flush_spec (h : ∃ rendered, renderRows s.columns s.opened = .ok rendered)
    (hkeys : ∀ r ∈ s.opened, r.deleteLsn = none → (s.keyOf r.values).isSome) :
    Returns flush s fun _ _ => True := by
  obtain ⟨rendered, hrendered⟩ := h
  refine Spec.bind_get ?_
  dsimp only
  split
  · exact Spec.pure trivial
  · refine Spec.bind_modify ?_
    have hwrite : Returns (writeSegment (s.segments.length % 2 ^ 32) s.opened)
        { s with opened := [] } fun _ s' => s'.columns = s.columns := by
      refine Spec.bind_get ?_
      simp only [hrendered]
      exact Spec.bind_call trivial (Spec.call trivial rfl)
    refine Spec.bind hwrite ?_
    rintro _ s' hcolumns
    refine Spec.bind_modify ?_
    have hreindex : ∀ t : TableStore, t.columns = s.columns →
        Returns (reindexKeyed (s.segments.length % 2 ^ 32) s.opened) t fun _ _ => True := by
      intro t ht
      refine Spec.bind_get ?_
      split
      · refine reindex_spec fun r hr hd => ?_
        rw [keyOf_congr ht]
        exact hkeys r.1 (List.fst_mem_of_mem_zipIdx hr) hd
      · exact Spec.pure trivial
    refine Spec.bind (hreindex _ hcolumns) ?_
    rintro _ _ -
    exact Spec.modify trivial

/-- A change that the store takes is applied. -/
theorem apply_spec (h : s.Takes c) : Returns (apply c) s fun _ _ => True := by
  refine Spec.bind (applyOp_spec h) ?_
  rintro _ s' ⟨rows, ⟨rfl, hcolumns, hrows⟩, hflush⟩
  refine Spec.bind_modify (Spec.bind_get ?_)
  split
  · rename_i hfull
    obtain ⟨hrender, hkeys⟩ := hflush (hrows ▸ hfull)
    refine flush_spec (by simpa [hcolumns] using hrender) fun r hr hd => ?_
    have hkey := keyOf_congr hcolumns r.values
    exact hkey ▸ hkeys r hr hd
  · exact Spec.pure trivial

end Ops

end GrayDB.Columnar
