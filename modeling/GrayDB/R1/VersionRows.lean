import GrayDB.Lib.Latest
import GrayDB.R1.ClickHouse
import GrayDB.Source.Table
import Mathlib.Data.Bool.AllAny

/-!
# Version rows against the source

The raw tables keep every version of every row, and a query at a target LSN reduces them:
of the versions up to the target, the greatest one of each key, unless it is a deletion.

The source is a history of committed transactions over the published tables, behind a
snapshot at `lsn0`.  `version_rows_reproduce` says that an initial load and the windows
behind it, each request stored once, leave raw tables whose reduction at each target is the
source table at that target.

* `entries` lists what happened, one entry for each stored row, and `shown` is what a row
  must have in common with its entry (`shown_versionRows`).
* The versions of a key rise along the entries (`rising_entries`), so `Lib.Write.latest` is
  the table that the entries leave one after the other.
-/

namespace GrayDB.R1.ClickHouseSink

open Lib Lib.Crash Registry Source

/-! ## The source -/

structure SourceChange where
  table : RawTable
  change : RowChange SourceRow
  deriving DecidableEq

structure SourceTxn where
  lsn : Nat
  changes : List SourceChange

/-- A snapshot, and the transactions committed behind it. -/
structure SourceHistory where
  lsn0 : Nat
  initial : List (RawTable × SourceRow)
  txns : List SourceTxn

/-- The first column of each table is its primary key. -/
def keyOf (row : SourceRow) : Option String := row.headD none

/-- A change with its commit LSN and its place in the transaction; the snapshot has place 0. -/
structure Entry where
  lsn : Nat
  ordinal : Nat
  source : SourceChange

/-- The entries of one transaction. -/
def SourceTxn.entries (x : SourceTxn) : List Entry :=
  x.changes.zipIdx.map fun c => { lsn := x.lsn, ordinal := c.2 + 1, source := c.1 }

namespace SourceHistory

def initialChanges (h : SourceHistory) : List SourceChange :=
  h.initial.map fun r => { table := r.1, change := .insert r.2 }

def entries (h : SourceHistory) : List Entry :=
  h.initialChanges.map (fun c => { lsn := h.lsn0, ordinal := 0, source := c }) ++
    h.txns.flatMap SourceTxn.entries

/-- The changes of one table, with their commit LSNs. -/
def changesOf (h : SourceHistory) (t : RawTable) : List (Nat × RowChange SourceRow) :=
  (h.entries.filter fun e => e.source.table = t).map fun e => (e.lsn, e.source.change)

/-- The source table at an LSN. -/
def tableAt (h : SourceHistory) (t : RawTable) (lsn : Nat) : List SourceRow :=
  survivors (((h.changesOf t).filter fun c => c.1 ≤ lsn).map fun c => c.2.event keyOf c.1)

end SourceHistory

/-- A change of one row that keeps its key, which is not null. -/
def KeepsKey : RowChange SourceRow → Prop
  | .insert row => (keyOf row).isSome
  | .update old new => (keyOf old).isSome ∧ keyOf old = keyOf new
  | .delete old => (keyOf old).isSome
  | .truncate => False

instance : (c : RowChange SourceRow) → Decidable (KeepsKey c)
  | .insert row => inferInstanceAs (Decidable ((keyOf row).isSome = true))
  | .update old new => inferInstanceAs (Decidable ((keyOf old).isSome = true ∧ keyOf old = keyOf new))
  | .delete old => inferInstanceAs (Decidable ((keyOf old).isSome = true))
  | .truncate => inferInstanceAs (Decidable False)

/-- A history that the published tables can have. -/
structure SourceHistory.Valid (h : SourceHistory) : Prop where
  published : ∀ e ∈ h.entries, e.source.table ∈ rawTables
  keepsKey : ∀ e ∈ h.entries, KeepsKey e.source.change
  /-- The changes fit the tables they meet, and keys are unique. -/
  validFrom : ∀ t ∈ rawTables, RowChange.ValidFrom keyOf [] (h.changesOf t)
  ascend : (h.lsn0 :: h.txns.map SourceTxn.lsn).Pairwise (· < ·)
  bounded : ∀ x ∈ h.txns, x.changes.length < 2 ^ 32

/-- The image has only text and NULL. -/
def Complete (img : Named) : Prop := ∀ c ∈ img, c.2 = .null ∨ ∃ s, c.2 = .text s

/-- The typed change says this of the source, in a transaction that commits at `lsn`. -/
structure Carries (lsn : Nat) (c : TypedChange) (s : SourceChange) : Prop where
  table : c.table = s.table.qualified
  commitLsn : c.commitLsn = 0 ∨ c.commitLsn = lsn
  announces : Announces s.table.columns (s.table.columns.take 1) keyOf c s.change
  complete : ∀ img ∈ c.new.toList ++ c.old.toList, Complete img

/-! ## The reduction -/

/-- A stored row as a write of its key. -/
def VersionRow.write (r : VersionRow) : Write (Option String) SourceRow where
  key := keyOf r.cells
  version := r.version
  value := if r.deleted = 0 then some r.cells else none

/-- `argMax(_, _version) … WHERE _source_lsn <= target GROUP BY` the key, and then
`_deleted = 0`. -/
def reduceAt (target : Nat) (rows : List VersionRow) : List SourceRow :=
  Write.latest ((rows.filter fun r => r.sourceLsn ≤ target).map VersionRow.write)

section Run

variable [SinkText]

def applyWindows : List (List CdcCommit) → SinkM Unit
  | [] => pure ()
  | window :: windows => do
    let _ ← applyWindow window
    applyWindows windows

/-- There is no load without a row: the sink refuses it. -/
def loadSnapshot (lsn0 : Nat) (load : List TypedChange) : SinkM Unit :=
  if load = [] then pure () else applyInitialLoad lsn0 load

/-- An initial load and the windows behind it. -/
def loadThenWindows (lsn0 : Nat) (load : List TypedChange) (windows : List (List CdcCommit)) :
    SinkM Unit := do
  loadSnapshot lsn0 load
  applyWindows windows

end Run

/-! ## Rows -/

theorem fromLsnOrdinal_eq {ordinal : Nat} (h : ordinal < 2 ^ 32) (lsn : Nat) :
    fromLsnOrdinal lsn ordinal = lsn * 2 ^ 32 + ordinal := by
  unfold fromLsnOrdinal
  rw [← Nat.shiftLeft_add_eq_or_of_lt h, Nat.shiftLeft_eq]

theorem rawTableFor_qualified {t : RawTable} (h : t ∈ rawTables) :
    rawTableFor t.qualified = some t := by
  revert t
  decide

theorem cellJson_cons_self (column : String) (value : TupleValue) (img : Named) :
    cellJson ((column, value) :: img) column = tupleJson column value := by
  simp [cellJson]

theorem cellJson_cons_of_ne {name column : String} (h : name ≠ column) (value : TupleValue)
    (img : Named) : cellJson ((name, value) :: img) column = cellJson img column := by
  simp [cellJson, h]

theorem tupleJson_of_shows {prior cell : Option String} {value : TupleValue}
    (hshows : Shows prior cell value) (hcomplete : value = .null ∨ ∃ s, value = .text s)
    (column : String) : tupleJson column value = .ok cell := by
  obtain rfl | ⟨s, rfl⟩ := hcomplete
  · have hcell : cell = none := hshows
    rw [hcell]
    rfl
  · have hcell : cell = some s := hshows
    rw [hcell]
    rfl

private theorem mapM_cellJson_tail {column : String} {columns : List String}
    (h : column ∉ columns) (value : TupleValue) (img : Named) :
    columns.mapM (cellJson ((column, value) :: img)) = columns.mapM (cellJson img) := by
  induction columns with
  | nil => rfl
  | cons c cs ih =>
    have hne : column ≠ c := fun heq => h (heq ▸ List.mem_cons_self)
    rw [List.mapM_cons, List.mapM_cons, cellJson_cons_of_ne hne,
      ih fun hmem => h (List.mem_cons_of_mem _ hmem)]

/-- The cells of a new image are the row. -/
theorem cells_of_describes : ∀ {columns : List String} {prior row : SourceRow} {img : Named},
    columns.Nodup → Describes columns prior row img → Complete img →
      columns.mapM (cellJson img) = .ok row
  | [], _, [], [], _, _, _ => rfl
  | column :: columns, prior, cell :: row, (name, value) :: img, hnodup, h, hcomplete => by
    obtain ⟨rfl, hshows, hrest⟩ := h
    obtain ⟨hnew, hnodup⟩ := List.nodup_cons.mp hnodup
    have ih := cells_of_describes hnodup hrest fun c hc => hcomplete c (List.mem_cons_of_mem _ hc)
    rw [List.mapM_cons, cellJson_cons_self,
      tupleJson_of_shows hshows (hcomplete _ List.mem_cons_self), mapM_cellJson_tail hnew, ih]
    rfl

/-- The cells of an old image can be read. -/
theorem exists_cells_of_showsKey (keys : List String) : ∀ {columns : List String} {row : SourceRow}
    {img : Named}, columns.Nodup → ShowsKey keys columns row img → Complete img →
      ∃ cells, columns.mapM (cellJson img) = .ok cells ∧
        ∀ column ∈ columns.head?, column ∈ keys → keyOf cells = keyOf row
  | [], [], [], _, _, _ => ⟨[], rfl, fun _ h => nomatch h⟩
  | column :: columns, cell :: row, (name, value) :: img, hnodup, h, hcomplete => by
    obtain ⟨rfl, hshows, hrest⟩ := h
    obtain ⟨hnew, hnodup⟩ := List.nodup_cons.mp hnodup
    obtain ⟨cells, hcells, -⟩ := exists_cells_of_showsKey keys hnodup hrest
      fun c hc => hcomplete c (List.mem_cons_of_mem _ hc)
    have hvalue := hcomplete _ List.mem_cons_self
    obtain ⟨c, hc⟩ : ∃ c, tupleJson name value = .ok c := by
      obtain hnull | ⟨s, htext⟩ := hvalue
      · exact ⟨none, by rw [show value = .null from hnull]; rfl⟩
      · exact ⟨some s, by rw [show value = .text s from htext]; rfl⟩
    refine ⟨c :: cells, ?_, fun column' hhead hkey => ?_⟩
    · rw [List.mapM_cons, cellJson_cons_self, hc, mapM_cellJson_tail hnew, hcells]
      rfl
    · obtain rfl : name = column' := Option.some.inj hhead
      rw [tupleJson_of_shows (hshows hkey) hvalue] at hc
      show c = cell
      exact (Except.ok.inj hc).symm

/-! ## A row and its entry -/

/-- The packed version. -/
def Entry.version (e : Entry) : Nat := e.lsn * 2 ^ 32 + e.ordinal

/-- What the entry writes. -/
def Entry.write (e : Entry) : Write (Option String) SourceRow :=
  match e.source.change with
  | .insert row | .update _ row => { key := keyOf row, version := e.version, value := some row }
  | .delete row => { key := keyOf row, version := e.version, value := none }
  | .truncate => { key := none, version := e.version, value := none }

/-- What a stored row has in common with its entry. -/
def Entry.shown (e : Entry) : String × Nat × Write (Option String) SourceRow :=
  (e.source.table.raw, e.lsn, e.write)

def shown (r : String × VersionRow) : String × Nat × Write (Option String) SourceRow :=
  (r.1, r.2.sourceLsn, r.2.write)

theorem columns_nodup {t : RawTable} (h : t ∈ rawTables) : t.columns.Nodup := by
  revert t
  decide

theorem columns_head {t : RawTable} (h : t ∈ rawTables) :
    ∃ column ∈ t.columns.head?, column ∈ t.columns.take 1 := by
  have hall : ∀ t ∈ rawTables, t.columns ≠ [] := by decide
  obtain ⟨column, rest, hcolumns⟩ := List.exists_cons_of_ne_nil (hall t h)
  rw [hcolumns]
  exact ⟨column, rfl, List.mem_cons_self⟩

/-- A new image gives a row that is not deleted. -/
private theorem renderRow_new {t : RawTable} (ht : t ∈ rawTables) {c : TypedChange} {img : Named}
    {prior row : SourceRow} (himage : rowImage c = .ok img) (hop : c.op ≠ .delete)
    (hrow : Describes t.columns prior row img) (hcomplete : Complete img)
    (lsn ordinal version : Nat) : renderRow t c lsn ordinal version = .ok
      { cells := row, sourceLsn := lsn, changeOrdinal := ordinal, version, deleted := 0 } := by
  unfold renderRow
  rw [himage]
  show (t.columns.mapM (cellJson img) >>= _) = _
  rw [cells_of_describes (columns_nodup ht) hrow hcomplete, if_neg hop]
  rfl

/-- The row of a change is the row of its entry. -/
theorem renderRow_spec {lsn : Nat} {c : TypedChange} {s : SourceChange} (h : Carries lsn c s)
    (ht : s.table ∈ rawTables) (hkeeps : KeepsKey s.change) (ordinal : Nat) :
    ∃ r, renderRow s.table c lsn ordinal (lsn * 2 ^ 32 + ordinal) = .ok r ∧
      shown (s.table.raw, r) = Entry.shown { lsn, ordinal, source := s } := by
  obtain ⟨-, -, hannounces, hcomplete⟩ := h
  obtain ⟨t, change⟩ := s
  obtain ⟨commitLsn, xid, table, op, new, old⟩ := c
  cases change with
  | insert row =>
    obtain ⟨rfl, img, hnew, hrow⟩ := hannounces
    obtain rfl : new = some img := hnew
    have himg : Complete img := hcomplete img (by simp)
    exact ⟨_, renderRow_new ht rfl (by simp) hrow himg _ _ _, rfl⟩
  | update prior row =>
    obtain ⟨rfl, img, hnew, hrow, -⟩ := hannounces
    obtain rfl : new = some img := hnew
    have himg : Complete img := hcomplete img (by simp)
    exact ⟨_, renderRow_new ht rfl (by simp) hrow himg _ _ _, rfl⟩
  | delete row =>
    obtain ⟨rfl, -, img, hold, hkey⟩ := hannounces
    obtain rfl : old = some img := hold
    have himg : Complete img := hcomplete img (by simp)
    obtain ⟨cells, hcells, hshows⟩ := exists_cells_of_showsKey _ (columns_nodup ht) hkey himg
    obtain ⟨column, hhead, hmem⟩ := columns_head ht
    refine ⟨{ cells, sourceLsn := lsn, changeOrdinal := ordinal
              version := lsn * 2 ^ 32 + ordinal, deleted := 1 }, ?_, ?_⟩
    · unfold renderRow rowImage
      show (t.columns.mapM (cellJson img) >>= _) = _
      rw [hcells]
      rfl
    · unfold shown VersionRow.write Entry.shown Entry.write
      simp only []
      rw [hshows column hhead hmem, if_neg Nat.one_ne_zero]
      rfl
  | truncate => exact hkeeps.elim

theorem versionRow_spec (otherLsn : String → Nat → Nat → SinkError) {lsn : Nat} {c : TypedChange}
    {s : SourceChange} (h : Carries lsn c s) (ht : s.table ∈ rawTables)
    (hkeeps : KeepsKey s.change) {initialLoad : Bool} {index ordinal : Nat}
    (hordinal : changeOrdinal initialLoad index = .ok ordinal) (hlt : ordinal < 2 ^ 32) :
    ∃ r, versionRow otherLsn lsn initialLoad c index = .ok r ∧
      shown r = Entry.shown { lsn, ordinal, source := s } := by
  obtain ⟨r, hr, hshown⟩ := renderRow_spec h ht hkeeps ordinal
  refine ⟨(s.table.raw, r), ?_, hshown⟩
  have hlsn : ¬(c.commitLsn ≠ 0 ∧ c.commitLsn ≠ lsn) := fun ⟨h0, hne⟩ => h.commitLsn.elim h0 hne
  unfold versionRow
  rw [if_neg hlsn, h.table, rawTableFor_qualified ht]
  simp only [hordinal, bind, Except.bind]
  rw [fromLsnOrdinal_eq hlt, hr]
  rfl

/-- One row for each change, and each is the row of its entry. -/
theorem mapM_zipIdx_spec {α β γ δ ε : Type} {R : α → β → Prop} {f : α → Nat → Except ε γ}
    {v : γ → δ} {e : β → Nat → δ} {n : Nat}
    (hf : ∀ a b i, R a b → i < n → ∃ c, f a i = .ok c ∧ v c = e b i)
    {as : List α} {bs : List β} (h : List.Forall₂ R as bs) {k : Nat} (hn : k + as.length ≤ n) :
    ∃ cs, ((as.zipIdx k).mapM fun a => f a.1 a.2) = .ok cs ∧
      cs.map v = (bs.zipIdx k).map fun b => e b.1 b.2 := by
  induction h generalizing k with
  | nil => exact ⟨[], rfl, rfl⟩
  | @cons a b as bs hab _ ih =>
    rw [List.length_cons] at hn
    obtain ⟨c, hc, hview⟩ := hf a b k hab (by omega)
    obtain ⟨cs, hcs, hviews⟩ := ih (k := k + 1) (by omega)
    refine ⟨c :: cs, ?_, ?_⟩
    · rw [List.zipIdx_cons, List.mapM_cons, hc, hcs]
      rfl
    · rw [List.zipIdx_cons, List.map_cons, List.map_cons, hview, hviews]

theorem versionRows_spec (otherLsn : String → Nat → Nat → SinkError) (initialLoad : Bool)
    {lsn : Nat} {changes : List TypedChange} {ss : List SourceChange}
    (h : List.Forall₂ (Carries lsn) changes ss) (hpublished : ∀ s ∈ ss, s.table ∈ rawTables)
    (hkeeps : ∀ s ∈ ss, KeepsKey s.change)
    (hlength : initialLoad = false → changes.length < 2 ^ 32) :
    ∃ rows, versionRows otherLsn lsn initialLoad changes = .ok rows ∧
      rows.map shown = ss.zipIdx.map fun s =>
        Entry.shown { lsn, ordinal := if initialLoad then 0 else s.2 + 1, source := s.1 } := by
  have hall := (List.forall₂_and_left (p := fun s => s.table ∈ rawTables ∧ KeepsKey s.change)
    ss changes).mpr ⟨fun s hs => ⟨hpublished s hs, hkeeps s hs⟩, h.flip⟩
  apply mapM_zipIdx_spec (f := versionRow otherLsn lsn initialLoad) (v := shown)
    (e := fun s i => Entry.shown { lsn, ordinal := if initialLoad then 0 else i + 1, source := s })
    (n := changes.length) _ hall.flip (by omega)
  intro c s i ⟨⟨ht, hkeep⟩, hcarries⟩ hi
  apply versionRow_spec otherLsn hcarries ht hkeep
  · cases initialLoad with
    | true => rfl
    | false =>
      have := hlength rfl
      show (if i + 1 < 2 ^ 32 then Except.ok (i + 1) else Except.error SinkError.ordinal) = _
      rw [if_pos (by omega)]
      rfl
  · cases initialLoad with
    | true => exact Nat.two_pow_pos 32
    | false =>
      have := hlength rfl
      show i + 1 < 2 ^ 32
      omega

/-! ## The entries of a table -/

theorem Entry.write_version (e : Entry) : e.write.version = e.version := by
  unfold write
  split <;> rfl

/-- What an entry writes shows its key. -/
theorem Entry.key_of_mem_value {e : Entry} {row : SourceRow} (h : row ∈ e.write.value) :
    keyOf row = e.write.key := by
  revert h
  unfold write
  split <;> intro h
  · exact Option.some.inj h ▸ rfl
  · exact Option.some.inj h ▸ rfl
  · exact nomatch h
  · exact nomatch h

/-- The change does to the table what the write does. -/
theorem Entry.after_write {e : Entry} {table : List SourceRow}
    (hvalid : e.source.change.Valid keyOf table) (hkeeps : KeepsKey e.source.change) :
    (e.source.change.event keyOf e.lsn).after table = (e.write.event keyOf).after table := by
  obtain ⟨lsn, ordinal, t, change⟩ := e
  cases change with
  | insert row =>
    have hsame : table.filter (fun a => !decide (keyOf a = keyOf row)) = table := by
      apply List.filter_eq_self.mpr
      intro a ha
      simpa using hvalid a ha
    have hall : table.filter (fun _ => !false) = table := List.filter_eq_self.mpr fun _ _ => rfl
    exact congrArg (· ++ [row]) (hall.trans hsame.symm)
  | update old new =>
    obtain ⟨-, hkey⟩ := hkeeps
    show table.filter (fun a => !decide (keyOf a = keyOf old)) ++ [new] = _
    rw [hkey]
    rfl
  | delete old => rfl
  | truncate => exact hkeeps.elim

theorem survivors_writes {es : List Entry} (hkeeps : ∀ e ∈ es, KeepsKey e.source.change)
    (hvalid : RowChange.ValidFrom keyOf [] (es.map fun e => (e.lsn, e.source.change))) :
    survivors (es.map fun e => e.source.change.event keyOf e.lsn)
      = survivors (es.map fun e => e.write.event keyOf) := by
  unfold survivors
  generalize ([] : List SourceRow) = table at hvalid ⊢
  induction es generalizing table with
  | nil => rfl
  | cons e es ih =>
    obtain ⟨hhead, htail⟩ := hvalid
    have hafter := Entry.after_write hhead (hkeeps e List.mem_cons_self)
    rw [List.map_cons, List.map_cons, List.foldl_cons, List.foldl_cons, ← hafter]
    exact ih (fun e' he' => hkeeps e' (List.mem_cons_of_mem _ he')) _ htail

/-- The entries of a transaction lie between two LSNs. -/
theorem SourceTxn.of_mem_entries {x : SourceTxn} {e : Entry} (h : e ∈ x.entries) :
    e.lsn = x.lsn ∧ 0 < e.ordinal ∧ e.ordinal ≤ x.changes.length := by
  obtain ⟨c, hc, rfl⟩ := List.mem_map.mp h
  have hlt := List.snd_lt_of_mem_zipIdx hc
  refine ⟨rfl, Nat.succ_pos _, ?_⟩
  show c.2 + 1 ≤ x.changes.length
  omega

/-- The ordinals rise. -/
theorem SourceTxn.pairwise_entries (x : SourceTxn) :
    x.entries.Pairwise fun e e' => e.version < e'.version := by
  unfold entries
  rw [List.pairwise_map]
  have hidx : (x.changes.zipIdx.map Prod.snd).Pairwise (· < ·) := by
    rw [List.zipIdx_map_snd]
    exact List.pairwise_lt_range'
  refine (List.pairwise_map.mp hidx).imp fun {c c'} hlt => ?_
  show x.lsn * 2 ^ 32 + (c.2 + 1) < x.lsn * 2 ^ 32 + (c'.2 + 1)
  omega

namespace SourceHistory

variable {h : SourceHistory} {t : RawTable}

/-- The snapshot of a table. -/
def initialRows (h : SourceHistory) (t : RawTable) : List SourceRow :=
  (h.initial.filter fun r => r.1 = t).map Prod.snd

def initialEntry (h : SourceHistory) (t : RawTable) (row : SourceRow) : Entry where
  lsn := h.lsn0
  ordinal := 0
  source := { table := t, change := .insert row }

/-- The entries of a table: its snapshot, and the changes behind it. -/
theorem filter_entries (h : SourceHistory) (t : RawTable) :
    (h.entries.filter fun e => e.source.table = t)
      = (h.initialRows t).map (h.initialEntry t) ++
        (h.txns.flatMap SourceTxn.entries).filter fun e => e.source.table = t := by
  unfold entries
  rw [List.filter_append]
  congr 1
  unfold initialChanges initialRows
  rw [List.map_map, List.filter_map, List.map_map]
  apply List.map_congr_left
  intro r hr
  have htable : r.1 = t := by simpa using (List.mem_filter.mp hr).2
  subst htable
  rfl

theorem Valid.lsn_of_mem (hv : h.Valid) {e : Entry} (he : e ∈ h.txns.flatMap SourceTxn.entries) :
    h.lsn0 < e.lsn ∧ e.ordinal < 2 ^ 32 := by
  obtain ⟨x, hx, hmem⟩ := List.mem_flatMap.mp he
  obtain ⟨hlsn, -, hordinal⟩ := SourceTxn.of_mem_entries hmem
  have hbound := hv.bounded x hx
  have hascend := (List.pairwise_cons.mp hv.ascend).1 _ (List.mem_map_of_mem hx)
  omega

/-- The versions of the transactions rise. -/
theorem Valid.pairwise_version (hv : h.Valid) :
    (h.txns.flatMap SourceTxn.entries).Pairwise fun e e' => e.version < e'.version := by
  refine List.pairwise_flatMap.mpr ⟨fun x _ => x.pairwise_entries, ?_⟩
  have hascend := (List.pairwise_cons.mp hv.ascend).2
  refine (List.pairwise_map.mp hascend).imp_of_mem fun {x y} hx _ hlt e he e' he' => ?_
  obtain ⟨hlsn, -, hordinal⟩ := SourceTxn.of_mem_entries he
  obtain ⟨hlsn', -, -⟩ := SourceTxn.of_mem_entries he'
  have hbound := hv.bounded x hx
  show e.lsn * 2 ^ 32 + e.ordinal < e'.lsn * 2 ^ 32 + e'.ordinal
  omega

/-- The stamps of the changes of a table do not go back. -/
theorem Valid.pairwise_lsn (hv : h.Valid) : h.entries.Pairwise fun e e' => e.lsn ≤ e'.lsn := by
  unfold entries
  refine List.pairwise_append.mpr ⟨?_, ?_, ?_⟩
  · rw [List.pairwise_map]
    exact List.pairwise_of_forall fun _ _ => Nat.le_refl _
  · refine hv.pairwise_version.imp_of_mem fun {e e'} he he' hlt => ?_
    have hordinal := (hv.lsn_of_mem he').2
    have hversion : e.lsn * 2 ^ 32 + e.ordinal < e'.lsn * 2 ^ 32 + e'.ordinal := hlt
    omega
  · intro e he e' he'
    obtain ⟨c, -, rfl⟩ := List.mem_map.mp he
    exact Nat.le_of_lt (hv.lsn_of_mem he').1

/-- The versions of each key rise. -/
theorem Valid.rising_entries (hv : h.Valid) (ht : t ∈ rawTables) :
    Write.Rising ((h.entries.filter fun e => e.source.table = t).map Entry.write) := by
  have hvalid := hv.validFrom t ht
  unfold changesOf at hvalid
  rw [filter_entries] at hvalid ⊢
  rw [List.map_append, List.map_map] at hvalid
  have hnodup := (RowChange.ValidFrom.inserts hvalid).1
  rw [List.map_append, List.map_map]
  refine List.pairwise_append.mpr ⟨?_, ?_, ?_⟩
  · rw [List.pairwise_map]
    refine (List.pairwise_map.mp hnodup).imp fun hne hkey => ?_
    exact absurd hkey hne
  · rw [List.pairwise_map]
    refine (hv.pairwise_version.filter _).imp fun hlt _ => ?_
    rw [Entry.write_version, Entry.write_version]
    exact hlt
  · intro w hw w' hw' _
    obtain ⟨row, -, rfl⟩ := List.mem_map.mp hw
    obtain ⟨e, he, rfl⟩ := List.mem_map.mp hw'
    have hlsn := (hv.lsn_of_mem (List.mem_filter.mp he).1).1
    rw [Entry.write_version]
    show h.lsn0 * 2 ^ 32 + 0 < e.lsn * 2 ^ 32 + e.ordinal
    omega

/-- The source table is what the writes up to the LSN leave. -/
theorem Valid.tableAt_eq (hv : h.Valid) (ht : t ∈ rawTables) (L : Nat) :
    h.tableAt t L = survivors ((((h.entries.filter fun e => e.source.table = t).filter
      fun e => e.lsn ≤ L).map Entry.write).map (Write.event keyOf)) := by
  have hmono : ((h.changesOf t).map Prod.fst).Pairwise (· ≤ ·) := by
    unfold changesOf
    rw [List.map_map, List.pairwise_map]
    exact hv.pairwise_lsn.filter _
  have hvalid := (hv.validFrom t ht).upTo hmono L
  unfold changesOf at hvalid
  rw [List.filter_map] at hvalid
  unfold tableAt changesOf
  rw [List.filter_map, List.map_map, List.map_map]
  apply survivors_writes _ hvalid
  intro e he
  exact hv.keepsKey e (List.mem_filter.mp (List.mem_filter.mp he).1).1

end SourceHistory

/-! ## Reading the rows -/

theorem raw_injective {t t' : RawTable} (ht : t ∈ rawTables) (ht' : t' ∈ rawTables)
    (h : t.raw = t'.raw) : t = t' := by
  have hall : ∀ t ∈ rawTables, ∀ t' ∈ rawTables, t.raw = t'.raw → t = t' := by decide
  exact hall t ht t' ht' h

/-- The writes of one raw table up to an LSN. -/
def pick (raw : String) (keep : Nat → Bool)
    (rows : List (String × Nat × Write (Option String) SourceRow)) :
    List (Write (Option String) SourceRow) :=
  (rows.filter fun r => r.1 = raw ∧ keep r.2.1).map fun r => r.2.2

theorem pick_shown (raw : String) (keep : Nat → Bool) (rows : List (String × VersionRow)) :
    pick raw keep (rows.map shown)
      = ((rowsOf raw rows).filter fun r => keep r.sourceLsn).map VersionRow.write := by
  induction rows with
  | nil => rfl
  | cons r rows ih =>
    obtain ⟨raw', row⟩ := r
    by_cases hraw : raw' = raw
    · by_cases hkeep : keep row.sourceLsn
      · simp_all [pick, rowsOf, shown]
      · simp_all [pick, rowsOf, shown]
    · simp_all [pick, rowsOf, shown]

theorem pick_entries {es : List Entry} (hpublished : ∀ e ∈ es, e.source.table ∈ rawTables)
    {t : RawTable} (ht : t ∈ rawTables) (keep : Nat → Bool) :
    pick t.raw keep (es.map Entry.shown)
      = ((es.filter fun e => e.source.table = t).filter fun e => keep e.lsn).map Entry.write := by
  unfold pick
  rw [List.filter_map, List.map_map, List.filter_filter]
  have hsame : es.filter ((fun r => decide (r.1 = t.raw ∧ keep r.2.1 = true)) ∘ Entry.shown)
      = es.filter fun e => (keep e.lsn && decide (e.source.table = t)) := by
    apply List.filter_congr
    intro e he
    have hraw : e.source.table.raw = t.raw ↔ e.source.table = t :=
      ⟨raw_injective (hpublished e he) ht, fun h => h ▸ rfl⟩
    simp [Entry.shown, hraw, Bool.and_comm]
  rw [hsame]
  rfl

section Reduction

variable {h : SourceHistory} {rows : List (String × VersionRow)} {t : RawTable}

theorem reduceAt_perm (hv : h.Valid) (hrows : rows.map shown = h.entries.map Entry.shown)
    (ht : t ∈ rawTables) (L : Nat) :
    (reduceAt L (rowsOf t.raw rows)).Perm (h.tableAt t L) := by
  have hpick : ((rowsOf t.raw rows).filter fun r => r.sourceLsn ≤ L).map VersionRow.write
      = ((h.entries.filter fun e => e.source.table = t).filter fun e => e.lsn ≤ L).map
          Entry.write := by
    rw [← pick_shown t.raw (fun lsn => lsn ≤ L), hrows, pick_entries hv.published ht]
  unfold reduceAt
  rw [hpick, hv.tableAt_eq ht]
  apply Write.latest_perm
  · exact (hv.rising_entries ht).sublist (List.filter_sublist.map _)
  · intro w hw row hrow
    obtain ⟨e, -, rfl⟩ := List.mem_map.mp hw
    exact Entry.key_of_mem_value hrow

/-- No two rows of a key share a version. -/
theorem versions_differ (hv : h.Valid) (hrows : rows.map shown = h.entries.map Entry.shown)
    (ht : t ∈ rawTables) : (rowsOf t.raw rows).Pairwise fun r r' =>
      keyOf r.cells = keyOf r'.cells → r.version ≠ r'.version := by
  have hpick := pick_shown t.raw (fun _ => true) rows
  rw [hrows, pick_entries hv.published ht] at hpick
  rw [List.filter_eq_self.mpr fun _ _ => rfl, List.filter_eq_self.mpr fun _ _ => rfl] at hpick
  have hrising := hv.rising_entries ht
  rw [hpick] at hrising
  exact (List.pairwise_map.mp hrising).imp fun hlt hkey => Nat.ne_of_lt (hlt hkey)

end Reduction

/-! ## The tables behind the requests -/

/-- The server has taken the rows and the markers, and nothing else has changed. -/
structure Stores (rows : List (String × VersionRow)) (markers : List Marker) (db db' : ClickHouse) :
    Prop where
  raw : ∀ t ∈ rawNames, (db'.raw t).rows = (db.raw t).rows ++ rowsOf t rows
  applied : db'.applied.rows = db.applied.rows ++ markers
  deduplicates : db'.deduplicates = db.deduplicates

theorem rowsOf_append (raw : String) (rows rows' : List (String × VersionRow)) :
    rowsOf raw (rows ++ rows') = rowsOf raw rows ++ rowsOf raw rows' :=
  List.filterMap_append

theorem Stores.refl (db : ClickHouse) : Stores [] [] db db where
  raw := fun _ _ => (List.append_nil _).symm
  applied := (List.append_nil _).symm
  deduplicates := rfl

theorem Stores.trans {rows rows' : List (String × VersionRow)} {markers markers' : List Marker}
    {db db' db'' : ClickHouse} (h : Stores rows markers db db') (h' : Stores rows' markers' db' db'') :
    Stores (rows ++ rows') (markers ++ markers') db db'' where
  raw := fun t ht => by rw [h'.raw t ht, h.raw t ht, rowsOf_append, List.append_assoc]
  applied := by rw [h'.applied, h.applied, List.append_assoc]
  deduplicates := h'.deduplicates.trans h.deduplicates

/-- What the groups hold for a table. -/
theorem flatMap_rowsByTable (rows : List (String × VersionRow)) {t : String} (ht : t ∈ rawNames) :
    ((rowsByTable rows).flatMap fun g => if g.1 = t then g.2 else []) = rowsOf t rows := by
  have hall : ∀ names : List String, names.Nodup →
      ((names.map fun raw => (raw, rowsOf raw rows)).filter fun g => g.2 ≠ []).flatMap
        (fun g => if g.1 = t then g.2 else []) = if t ∈ names then rowsOf t rows else [] := by
    intro names hnodup
    induction names with
    | nil => rfl
    | cons name names ih =>
      obtain ⟨hnew, hnodup⟩ := List.nodup_cons.mp hnodup
      have ih := ih hnodup
      rw [List.map_cons, List.filter_cons]
      by_cases hnil : rowsOf name rows = []
      · rw [if_neg (by simpa using hnil), ih]
        by_cases hname : t = name
        · rw [← hname] at hnew hnil ⊢
          rw [if_neg hnew, if_pos List.mem_cons_self, hnil]
        · simp only [List.mem_cons, hname, false_or]
      · rw [if_pos (by simpa using hnil), List.flatMap_cons, ih]
        by_cases hname : t = name
        · rw [← hname] at hnew ⊢
          rw [if_neg hnew, if_pos rfl, if_pos List.mem_cons_self, List.append_nil]
        · rw [if_neg (Ne.symm hname), List.nil_append]
          simp only [List.mem_cons, hname, false_or]
  unfold rowsByTable
  rw [hall rawNames (by decide), if_pos ht]

section Requests

variable {w : World}

theorem postInsert_returns (f : ClickHouse → ClickHouse) :
    Returns (postInsert f) w fun _ w' => w'.db = f w.db :=
  Spec.call trivial rfl

theorem postSelect_returns {α : Type} (f : ClickHouse → α) :
    Returns (postSelect f) w fun a w' => a = f w.db ∧ w' = w :=
  Spec.bind_call trivial (Spec.bind_get (Spec.pure ⟨rfl, rfl⟩))

theorem insertGroups_returns (token : String → List VersionRow → String)
    (groups : List (String × List VersionRow)) (hlooks : w.db.deduplicates = false) :
    Returns (insertGroups token groups) w fun _ w' =>
      (∀ t, (w'.db.raw t).rows
        = (w.db.raw t).rows ++ groups.flatMap fun g => if g.1 = t then g.2 else []) ∧
      w'.db.applied = w.db.applied ∧ w'.db.deduplicates = false := by
  induction groups generalizing w with
  | nil => exact Spec.pure ⟨fun t => (List.append_nil _).symm, rfl, hlooks⟩
  | cons g groups ih =>
    obtain ⟨raw, rows⟩ := g
    apply Spec.bind (postInsert_returns _)
    intro _ w₁ hw₁
    have hlooks₁ : w₁.db.deduplicates = false := by
      rw [hw₁]
      exact hlooks
    refine (ih hlooks₁).weaken fun _ w' ⟨hraw, happlied, hdedup⟩ => ⟨fun t => ?_, ?_, hdedup⟩
    · have hfirst : (w₁.db.raw t).rows
          = (w.db.raw t).rows ++ if raw = t then rows else [] := by
        rw [hw₁]
        by_cases ht : t = raw
        · show (if t = raw then _ else _ : Tokened String VersionRow).rows = _
          rw [if_pos ht, if_pos ht.symm, hlooks, Tokened.rows_insert_false, ht]
        · show (if t = raw then _ else _ : Tokened String VersionRow).rows = _
          rw [if_neg ht, if_neg (Ne.symm ht), List.append_nil]
      rw [hraw, hfirst, List.flatMap_cons, List.append_assoc]
    · rw [happlied, hw₁]
      rfl

theorem insertRows_returns (token : String → List VersionRow → String)
    (rows : List (String × VersionRow)) (hlooks : w.db.deduplicates = false) :
    Returns (insertGroups token (rowsByTable rows)) w fun _ w' => Stores rows [] w.db w'.db := by
  refine (insertGroups_returns token _ hlooks).weaken fun _ w' ⟨hraw, happlied, hdedup⟩ => ?_
  refine ⟨fun t ht => ?_, ?_, hdedup.trans hlooks.symm⟩
  · rw [hraw, flatMap_rowsByTable rows ht]
  · rw [happlied, List.append_nil]

theorem insertMarkers_returns (token : String) (markers : List Marker)
    (hlooks : w.db.deduplicates = false) :
    Returns (postInsert (ClickHouse.insertMarkers token markers)) w fun _ w' =>
      Stores [] markers w.db w'.db := by
  refine (postInsert_returns _).weaken fun _ w' hw' => ?_
  rw [hw']
  refine ⟨fun _ _ => (List.append_nil _).symm, ?_, rfl⟩
  show (w.db.applied.insert w.db.deduplicates token markers).rows = _
  rw [hlooks, Tokened.rows_insert_false]

theorem liftExcept_returns {α : Type} {x : Except SinkError α} {a : α} (h : x = .ok a) :
    Returns (liftExcept x) w fun b w' => b = a ∧ w' = w := by
  subst h
  exact Spec.pure ⟨rfl, rfl⟩

/-- A hash that is sent back as it was stored. -/
def Legible (hash : String) : Prop := trim hash = hash ∧ hash ≠ ""

/-- The markers at an LSN. -/
def ClickHouse.hashesAt (db : ClickHouse) (lsn : Nat) : List String :=
  (db.applied.rows.filter fun m => m.sourceLsn = lsn).map Marker.operationSha256

theorem transactionIsApplied_none {lsn : Nat} (hash : String) (h : w.db.hashesAt lsn = []) :
    Returns (transactionIsApplied lsn hash) w fun b w' => b = false ∧ w' = w := by
  apply Spec.bind (postSelect_returns _)
  intro lines w' ⟨hlines, hw'⟩
  have hnil : lines = [] := hlines.trans h
  subst hw' hnil
  exact Spec.pure ⟨rfl, rfl⟩

theorem transactionIsApplied_one {lsn : Nat} {hash : String} (hlegible : Legible hash)
    (h : w.db.hashesAt lsn = [hash]) :
    Returns (transactionIsApplied lsn hash) w fun b w' => b = true ∧ w' = w := by
  apply Spec.bind (postSelect_returns _)
  intro lines w' ⟨hlines, hw'⟩
  have hone : lines = [hash] := hlines.trans h
  subst hw' hone
  obtain ⟨htrim, hne⟩ := hlegible
  have hfilter : ([hash].map trim).filter (fun line => line ≠ "") = [hash] := by
    simp [htrim, hne]
  rw [hfilter]
  simp only []
  rw [if_pos trivial]
  exact Spec.pure ⟨rfl, rfl⟩

theorem trim_of_plain {s : String} (h : ∀ c ∈ s.toList, c.isWhitespace = false) : trim s = s := by
  have hdrop : ∀ cs : List Char, (∀ c ∈ cs, c.isWhitespace = false) →
      cs.dropWhile Char.isWhitespace = cs := by
    intro cs hcs
    cases cs with
    | nil => rfl
    | cons c cs => exact List.dropWhile_cons_of_neg (by simp [hcs c List.mem_cons_self])
  unfold trim
  rw [hdrop _ h, hdrop _ fun c hc => h c (List.mem_reverse.mp hc), List.reverse_reverse,
    String.ofList_toList]

theorem isWhitespace_of_isDigit {c : Char} (h : c.isDigit = true) : c.isWhitespace = false := by
  by_contra hspace
  rw [Bool.not_eq_false] at hspace
  simp only [Char.isWhitespace, Bool.or_eq_true, decide_eq_true_eq] at hspace
  obtain ((rfl | rfl) | rfl) | rfl := hspace
  all_goals exact absurd h (by decide)

theorem legible_initial (lsn : Nat) : Legible ("initial-" ++ toString lsn) := by
  have hlist : ("initial-" ++ toString lsn).toList = "initial-".toList ++ Nat.toDigits 10 lsn := by
    rw [String.toList_append]
    exact congrArg _ String.toList_ofList
  refine ⟨trim_of_plain fun c hc => ?_, fun hnil => ?_⟩
  · rw [hlist] at hc
    cases List.mem_append.mp hc with
    | inl hc =>
      have hall : ∀ c ∈ "initial-".toList, c.isWhitespace = false :=
        List.all_iff_forall_prop.mp (by decide +kernel)
      exact hall c hc
    | inr hc =>
      apply isWhitespace_of_isDigit
      exact Nat.isDigit_of_mem_toDigits (by omega) (by omega) hc
  · rw [hnil] at hlist
    exact absurd hlist (by simp)

theorem Stores.hashesAt {rows : List (String × VersionRow)} {markers : List Marker}
    {db db' : ClickHouse} (h : Stores rows markers db db') (lsn : Nat) : db'.hashesAt lsn
      = db.hashesAt lsn ++ (markers.filter fun m => m.sourceLsn = lsn).map Marker.operationSha256 := by
  unfold ClickHouse.hashesAt
  rw [h.applied, List.filter_append, List.map_append]

theorem applyInitialLoad_returns {lsn : Nat} {changes : List TypedChange}
    {rows : List (String × VersionRow)} (hlooks : w.db.deduplicates = false)
    (hnew : w.db.hashesAt lsn = []) (hne : changes ≠ [])
    (hrows : versionRows .transactionLsn lsn true changes = .ok rows) :
    Returns (applyInitialLoad lsn changes) w fun _ w' =>
      Stores rows [{ operationSha256 := "initial-" ++ toString lsn, sourceLsn := lsn }] w.db w'.db := by
  apply Spec.bind (transactionIsApplied_none _ hnew)
  intro b w₀ ⟨hb, hw₀⟩
  subst hb hw₀
  unfold insertVersionRows
  rw [if_neg hne]
  apply Spec.bind (Q := fun _ w' => Stores rows [] w₀.db w'.db)
  · apply Spec.bind (liftExcept_returns hrows)
    intro rows' w₁ ⟨hrows', hw₁⟩
    subst hrows' hw₁
    exact insertRows_returns _ _ hlooks
  intro _ w₂ hstored
  apply Spec.bind (insertMarkers_returns _ _ (hstored.deduplicates.trans hlooks))
  intro _ w₃ hmarked
  have hboth := hstored.trans hmarked
  rw [List.append_nil, List.nil_append] at hboth
  have hone := hboth.hashesAt lsn
  rw [hnew, List.nil_append, List.filter_cons_of_pos (by simp)] at hone
  apply Spec.bind (transactionIsApplied_one (legible_initial lsn) hone)
  intro b w₄ ⟨hb, hw₄⟩
  subst hb hw₄
  exact Spec.pure hboth

variable [SinkText]

/-- The window is complete, with its markers, and the verification agrees. -/
theorem applyWindow_returns {first last : CdcCommit} {commits : List CdcCommit}
    {rows : List (List (String × VersionRow))} (hlooks : w.db.deduplicates = false)
    (hfirst : commits.head? = some first) (hlast : commits.getLast? = some last)
    (hrows : (commits.mapM fun c => versionRows .windowLsn c.lsn false c.changes) = .ok rows)
    (hbefore : ∀ m ∈ w.db.applied.rows, m.sourceLsn < first.lsn)
    (hrange : ∀ c ∈ commits, first.lsn ≤ c.lsn ∧ c.lsn ≤ last.lsn) :
    Returns (applyWindow commits) w fun _ w' =>
      Stores rows.flatten (commits.map fun c => { operationSha256 := c.hash, sourceLsn := c.lsn })
        w.db w'.db := by
  unfold applyWindow
  simp only [hfirst, hlast]
  apply Spec.bind (liftExcept_returns hrows)
  intro rows' w₀ ⟨hrows', hw₀⟩
  subst hrows' hw₀
  apply Spec.bind (insertRows_returns _ _ hlooks)
  intro _ w₁ hstored
  apply Spec.bind (insertMarkers_returns _ _ (hstored.deduplicates.trans hlooks))
  intro _ w₂ hmarked
  have hboth := hstored.trans hmarked
  rw [List.append_nil, List.nil_append] at hboth
  apply Spec.bind (postSelect_returns _)
  intro verified w₃ ⟨hverified, hw₃⟩
  subst hw₃
  have hcount : verified = commits.length := by
    have hold : w₀.db.applied.rows.filter
        (fun m => first.lsn ≤ m.sourceLsn ∧ m.sourceLsn ≤ last.lsn) = [] := by
      apply List.filter_eq_nil_iff.mpr
      intro m hm
      have := hbefore m hm
      simp only [decide_eq_true_eq]
      omega
    rw [hverified, hboth.applied, List.filter_append, hold, List.nil_append,
      List.filter_eq_self.mpr, List.length_map]
    intro m hm
    obtain ⟨c, hc, rfl⟩ := List.mem_map.mp hm
    exact decide_eq_true (hrange c hc)
  rw [if_pos hcount]
  exact Spec.pure hboth

end Requests

/-! ## The whole run -/

/-- The commit delivers the transaction. -/
structure Delivers (x : SourceTxn) (commit : CdcCommit) : Prop where
  lsn : commit.lsn = x.lsn
  changes : List.Forall₂ (Carries x.lsn) commit.changes x.changes

/-- Transactions whose rows can be stored. -/
structure Storable (xs : List SourceTxn) : Prop where
  published : ∀ e ∈ xs.flatMap SourceTxn.entries, e.source.table ∈ rawTables
  keepsKey : ∀ e ∈ xs.flatMap SourceTxn.entries, KeepsKey e.source.change
  bounded : ∀ x ∈ xs, x.changes.length < 2 ^ 32

theorem Storable.of_append {xs ys : List SourceTxn} (h : Storable (xs ++ ys)) :
    Storable xs ∧ Storable ys := by
  obtain ⟨hpublished, hkeeps, hbounded⟩ := h
  rw [List.flatMap_append] at hpublished hkeeps
  exact ⟨⟨fun e he => hpublished e (List.mem_append_left _ he),
      fun e he => hkeeps e (List.mem_append_left _ he),
      fun x hx => hbounded x (List.mem_append_left _ hx)⟩,
    ⟨fun e he => hpublished e (List.mem_append_right _ he),
      fun e he => hkeeps e (List.mem_append_right _ he),
      fun x hx => hbounded x (List.mem_append_right _ hx)⟩⟩

/-- The rows of one transaction. -/
theorem commitRows_spec {x : SourceTxn} {commit : CdcCommit} (h : Delivers x commit)
    (hx : Storable [x]) : ∃ rows, versionRows .windowLsn commit.lsn false commit.changes = .ok rows ∧
      rows.map shown = x.entries.map Entry.shown := by
  obtain ⟨hpublished, hkeeps, hbounded⟩ := hx
  rw [List.flatMap_singleton] at hpublished hkeeps
  have hentry : ∀ s ∈ x.changes, ∃ e ∈ x.entries, e.source = s := by
    intro s hs
    obtain ⟨i, hi⟩ := List.mem_iff_getElem?.mp hs
    exact ⟨{ lsn := x.lsn, ordinal := i + 1, source := s },
      List.mem_map_of_mem (List.mk_mem_zipIdx_iff_getElem?.mpr hi), rfl⟩
  have hlength := h.changes.length_eq
  have hbound := hbounded x List.mem_cons_self
  obtain ⟨rows, hrows, hshown⟩ := versionRows_spec .windowLsn false h.changes
    (fun s hs => by
      obtain ⟨e, he, rfl⟩ := hentry s hs
      exact hpublished e he)
    (fun s hs => by
      obtain ⟨e, he, rfl⟩ := hentry s hs
      exact hkeeps e he)
    (fun _ => by omega)
  refine ⟨rows, by rw [h.lsn, hrows], ?_⟩
  unfold SourceTxn.entries
  rw [hshown, List.map_map]
  rfl

theorem windowRows_spec {xs : List SourceTxn} {commits : List CdcCommit}
    (h : List.Forall₂ Delivers xs commits) (hxs : Storable xs) :
    ∃ rows, (commits.mapM fun c => versionRows .windowLsn c.lsn false c.changes) = .ok rows ∧
      rows.flatten.map shown = (xs.flatMap SourceTxn.entries).map Entry.shown := by
  induction h with
  | nil => exact ⟨[], rfl, rfl⟩
  | @cons x commit xs commits hx _ ih =>
    have hcons : Storable ([x] ++ xs) := hxs
    obtain ⟨hfirst, hrest⟩ := hcons.of_append
    obtain ⟨rows, hrows, hshown⟩ := commitRows_spec hx hfirst
    obtain ⟨rest, hrest, hshowns⟩ := ih hrest
    refine ⟨rows :: rest, ?_, ?_⟩
    · rw [List.mapM_cons, hrows, hrest]
      rfl
    · rw [List.flatten_cons, List.map_append, hshown, hshowns, List.flatMap_cons, List.map_append]

theorem Delivers.map_lsn {xs : List SourceTxn} {commits : List CdcCommit}
    (h : List.Forall₂ Delivers xs commits) :
    commits.map CdcCommit.lsn = xs.map SourceTxn.lsn := by
  induction h with
  | nil => rfl
  | cons hx _ ih => rw [List.map_cons, List.map_cons, hx.lsn, ih]

/-- The LSNs of a window lie between the first and the last. -/
theorem window_range {commits : List CdcCommit}
    (hascend : (commits.map CdcCommit.lsn).Pairwise (· < ·)) (hne : commits ≠ []) :
    ∃ first ∈ commits, ∃ last, commits.head? = some first ∧ commits.getLast? = some last ∧
      ∀ c ∈ commits, first.lsn ≤ c.lsn ∧ c.lsn ≤ last.lsn := by
  have hle : commits.Pairwise fun c c' => c.lsn ≤ c'.lsn :=
    (List.pairwise_map.mp hascend).imp Nat.le_of_lt
  refine ⟨commits.head hne, List.head_mem hne, commits.getLast hne,
    List.head?_eq_some_head hne, List.getLast?_eq_some_getLast hne, fun c hc => ⟨?_, ?_⟩⟩
  · exact hle.rel_head_of_rel_head_head hc (Nat.le_refl _)
  · exact hle.rel_getLast_of_rel_getLast_getLast hc (Nat.le_refl _)

/-- The markers are older than the transactions. -/
def Older (db : ClickHouse) (xs : List SourceTxn) : Prop :=
  ∀ m ∈ db.applied.rows, ∀ x ∈ xs, m.sourceLsn < x.lsn

section Run

variable [SinkText] {xs : List SourceTxn}

/-- One window stores the rows of its transactions, and its markers. -/
theorem window_returns {commits : List CdcCommit} (hne : commits ≠ [])
    (h : List.Forall₂ Delivers xs commits) (hxs : Storable xs)
    (hascend : (xs.map SourceTxn.lsn).Pairwise (· < ·)) {w : World}
    (hlooks : w.db.deduplicates = false) (holder : Older w.db xs) :
    Returns (applyWindow commits) w fun _ w' => ∃ rows,
      Stores rows (commits.map fun c => { operationSha256 := c.hash, sourceLsn := c.lsn })
        w.db w'.db ∧
      rows.map shown = (xs.flatMap SourceTxn.entries).map Entry.shown := by
  have hlsns := Delivers.map_lsn h
  obtain ⟨first, hfirst, last, hhead, hlast, hrange⟩ := window_range (hlsns ▸ hascend) hne
  obtain ⟨rows, hrows, hshown⟩ := windowRows_spec h hxs
  have hbefore : ∀ m ∈ w.db.applied.rows, m.sourceLsn < first.lsn := by
    intro m hm
    have hmem : first.lsn ∈ xs.map SourceTxn.lsn := hlsns ▸ List.mem_map_of_mem hfirst
    obtain ⟨x, hx, hlsn⟩ := List.mem_map.mp hmem
    exact hlsn ▸ holder m hm x hx
  exact (applyWindow_returns hlooks hhead hlast hrows hbefore hrange).weaken
    fun _ _ hstores => ⟨rows.flatten, hstores, hshown⟩

/-- The windows store the rows of their transactions. -/
theorem windows_returns {windows : List (List CdcCommit)} (hne : ∀ window ∈ windows, window ≠ [])
    (h : List.Forall₂ Delivers xs windows.flatten) (hxs : Storable xs)
    (hascend : (xs.map SourceTxn.lsn).Pairwise (· < ·)) {w : World}
    (hlooks : w.db.deduplicates = false) (holder : Older w.db xs) :
    Returns (applyWindows windows) w fun _ w' => ∃ rows markers, Stores rows markers w.db w'.db ∧
      rows.map shown = (xs.flatMap SourceTxn.entries).map Entry.shown := by
  induction windows generalizing xs w with
  | nil =>
    rw [List.flatten_nil] at h
    cases h
    exact Spec.pure ⟨[], [], Stores.refl w.db, rfl⟩
  | cons window windows ih =>
    rw [List.flatten_cons] at h
    have hnow := List.forall₂_take_append xs window windows.flatten h
    have hthen := List.forall₂_drop_append xs window windows.flatten h
    rw [← List.take_append_drop window.length xs] at hxs hascend holder ⊢
    generalize xs.take window.length = xs₁ at *
    generalize xs.drop window.length = xs₂ at *
    obtain ⟨hxs₁, hxs₂⟩ := hxs.of_append
    rw [List.map_append, List.pairwise_append] at hascend
    obtain ⟨hascend₁, hascend₂, hcross⟩ := hascend
    have holder₁ : Older w.db xs₁ := fun m hm x hx => holder m hm x (List.mem_append_left _ hx)
    apply Spec.bind (window_returns (hne window List.mem_cons_self) hnow hxs₁ hascend₁ hlooks holder₁)
    intro _ w₁ ⟨rows, hstores, hshown⟩
    have holder₂ : Older w₁.db xs₂ := by
      intro m hm x hx
      rw [hstores.applied] at hm
      cases List.mem_append.mp hm with
      | inl hm => exact holder m hm x (List.mem_append_right _ hx)
      | inr hm =>
        obtain ⟨c, hc, rfl⟩ := List.mem_map.mp hm
        have hmem : c.lsn ∈ xs₁.map SourceTxn.lsn :=
          Delivers.map_lsn hnow ▸ List.mem_map_of_mem hc
        exact hcross _ hmem _ (List.mem_map_of_mem hx)
    refine (ih (fun v hv => hne v (List.mem_cons_of_mem _ hv)) hthen hxs₂ hascend₂
      (hstores.deduplicates.trans hlooks) holder₂).weaken ?_
    intro _ w₂ ⟨rows', markers', hstores', hshown'⟩
    refine ⟨rows ++ rows', _, hstores.trans hstores', ?_⟩
    rw [List.map_append, hshown, hshown', List.flatMap_append, List.map_append]


/-- The rows of the whole run are those of the history's entries. -/
theorem loadThenWindows_returns {h : SourceHistory} (hv : h.Valid) {load : List TypedChange}
    {windows : List (List CdcCommit)}
    (hload : List.Forall₂ (Carries h.lsn0) load h.initialChanges)
    (hwindows : List.Forall₂ Delivers h.txns windows.flatten)
    (hne : ∀ window ∈ windows, window ≠ []) :
    Returns (loadThenWindows h.lsn0 load windows) { db := { deduplicates := false } }
      fun _ w' => ∃ rows markers, Stores rows markers { deduplicates := false } w'.db ∧
        rows.map shown = h.entries.map Entry.shown := by
  obtain ⟨hbefore, hascend⟩ := List.pairwise_cons.mp hv.ascend
  have hxs : Storable h.txns := by
    refine ⟨fun e he => hv.published e ?_, fun e he => hv.keepsKey e ?_, hv.bounded⟩
    · exact List.mem_append_right _ he
    · exact List.mem_append_right _ he
  have hinitial : ∀ s ∈ h.initialChanges,
      ({ lsn := h.lsn0, ordinal := 0, source := s } : Entry) ∈ h.entries := fun s hs =>
    List.mem_append_left _ (List.mem_map_of_mem hs)
  -- the load
  apply Spec.bind (Q := fun _ w' => ∃ rows markers,
    Stores rows markers { deduplicates := false } w'.db ∧
      rows.map shown = h.initialChanges.map
        (fun s => Entry.shown { lsn := h.lsn0, ordinal := 0, source := s }) ∧
      ∀ m ∈ markers, m.sourceLsn = h.lsn0)
  · unfold loadSnapshot
    by_cases hnil : load = []
    · rw [if_pos hnil]
      rw [hnil] at hload
      rw [List.forall₂_nil_left_iff.mp hload]
      exact Spec.pure ⟨[], [], Stores.refl _, rfl, by simp⟩
    · rw [if_neg hnil]
      obtain ⟨rows, hrows, hshown⟩ := versionRows_spec .transactionLsn true hload
        (fun s hs => hv.published _ (hinitial s hs)) (fun s hs => hv.keepsKey _ (hinitial s hs))
        (fun h => nomatch h)
      refine (applyInitialLoad_returns rfl rfl hnil hrows).weaken fun _ w' hstores => ?_
      refine ⟨rows, _, hstores, ?_, by simp⟩
      calc rows.map shown = (h.initialChanges.zipIdx.map Prod.fst).map
            (fun s => Entry.shown { lsn := h.lsn0, ordinal := 0, source := s }) := by
            rw [hshown, List.map_map]
            rfl
        _ = _ := by rw [List.zipIdx_map_fst]
  -- the windows
  intro _ w₁ ⟨rows, markers, hstores, hshown, hmarkers⟩
  have holder : Older w₁.db h.txns := by
    intro m hm x hx
    rw [hstores.applied, List.nil_append] at hm
    rw [hmarkers m hm]
    exact hbefore _ (List.mem_map_of_mem hx)
  refine (windows_returns hne hwindows hxs hascend hstores.deduplicates holder).weaken ?_
  intro _ w₂ ⟨rows', markers', hstores', hshown'⟩
  refine ⟨rows ++ rows', _, hstores.trans hstores', ?_⟩
  rw [List.map_append, hshown, hshown']
  unfold SourceHistory.entries
  rw [List.map_append, List.map_map]
  rfl

/-- The raw tables, reduced at any LSN from the snapshot on, are the source tables at that
LSN, and no two rows of a key share a version. -/
theorem version_rows_reproduce {h : SourceHistory} (hv : h.Valid) {load : List TypedChange}
    {windows : List (List CdcCommit)}
    (hload : List.Forall₂ (Carries h.lsn0) load h.initialChanges)
    (hwindows : List.Forall₂ Delivers h.txns windows.flatten)
    (hne : ∀ window ∈ windows, window ≠ []) :
    ∃ w, (loadThenWindows h.lsn0 load windows).outcome { db := { deduplicates := false } }
        = some ((), w) ∧
      ∀ t ∈ rawTables,
        (∀ L, h.lsn0 ≤ L → (reduceAt L (w.db.raw t.raw).rows).Perm (h.tableAt t L)) ∧
        (w.db.raw t.raw).rows.Pairwise fun r r' =>
          keyOf r.cells = keyOf r'.cells → r.version ≠ r'.version := by
  obtain ⟨⟨⟩, w, hrun, ⟨rows, markers, hstores, hshown⟩, -⟩ :=
    (loadThenWindows_returns hv hload hwindows hne).exec
  refine ⟨w, hrun, fun t ht => ?_⟩
  have hname : ∀ t ∈ rawTables, t.raw ∈ rawNames := by decide
  have hrows := hstores.raw t.raw (hname t ht)
  rw [List.nil_append] at hrows
  rw [hrows]
  exact ⟨fun L _ => reduceAt_perm hv hshown ht L, versions_differ hv hshown ht⟩

end Run

/-! A tenant that is there from the snapshot on, changes, and is deleted. -/

@[reducible] def tenantText : SinkText where
  rowJson _ r :=
    if r.deleted = 0 then
      "\x7b\"_change_ordinal\":1,\"_deleted\":0,\"_source_lsn\":20,\"_version\":\"85899345921\"," ++
        "\"created_at\":\"2024-01-01 00:00:00+00\",\"plan\":\"pro\",\"region\":\"eu\"," ++
        "\"settings\":\"[]\",\"tenant_id\":\"1\"\x7d"
    else
      "\x7b\"_change_ordinal\":2,\"_deleted\":1,\"_source_lsn\":20,\"_version\":\"85899345922\"," ++
        "\"created_at\":null,\"plan\":null,\"region\":null,\"settings\":null,\"tenant_id\":\"1\"\x7d"
  windowSha256 bytes :=
    if bytes.length = 517 then "43beb0b9b11cfe8ef7ad814bb3e0e72044c0290711c7d33ab03e5759c2fdcd15"
    else "ccc2c33038941a45b590f02834517f01c4c7fdbcbae82952ef3297a344f70e39"

def tenantRow (plan : String) : SourceRow :=
  [some "1", some "eu", some plan, some "2024-01-01 00:00:00+00", some "[]"]

def tenantImage (plan : String) : Named :=
  [("tenant_id", .text "1"), ("region", .text "eu"), ("plan", .text plan),
    ("created_at", .text "2024-01-01 00:00:00+00"), ("settings", .text "[]")]

def tenantKey : Named :=
  [("tenant_id", .text "1"), ("region", .null), ("plan", .null), ("created_at", .null),
    ("settings", .null)]

def tenantHistory : SourceHistory where
  lsn0 := 10
  initial := [(tenants, tenantRow "free")]
  txns := [{
    lsn := 20
    changes := [{ table := tenants, change := .update (tenantRow "free") (tenantRow "pro") },
      { table := tenants, change := .delete (tenantRow "pro") }] }]

def tenantLoad : TypedChange where
  commitLsn := 10
  xid := 0
  table := "r1.tenants"
  op := .insert
  new := some (tenantImage "free")
  old := none

def tenantUpdate : TypedChange where
  commitLsn := 20
  xid := 7
  table := "r1.tenants"
  op := .update
  new := some (tenantImage "pro")
  old := none

def tenantDelete : TypedChange where
  commitLsn := 20
  xid := 7
  table := "r1.tenants"
  op := .delete
  new := none
  old := some tenantKey

def tenantCommit : CdcCommit where
  lsn := 20
  hash := "4f53cda18c2baa0c0354bb5f9a3ecbe5ed12ab4d8e11ba873c2f11161202b945"
  changes := [tenantUpdate, tenantDelete]

theorem version_rows_reproduce_tenant :
    letI := tenantText
    ∃ w, (loadThenWindows 10 [tenantLoad] [[tenantCommit]]).outcome { db := { deduplicates := false } }
        = some ((), w) ∧
      ∀ t ∈ rawTables,
        (∀ L, 10 ≤ L → (reduceAt L (w.db.raw t.raw).rows).Perm (tenantHistory.tableAt t L)) ∧
        (w.db.raw t.raw).rows.Pairwise fun r r' =>
          keyOf r.cells = keyOf r'.cells → r.version ≠ r'.version := by
  let _ := tenantText
  have hvalid : tenantHistory.Valid :=
    ⟨by decide, by decide, by decide, by decide, by decide⟩
  have himage : ∀ plan, Complete (tenantImage plan) := by simp [Complete, tenantImage]
  have hkey : Complete tenantKey := by simp [Complete, tenantKey]
  have hload : Carries 10 tenantLoad { table := tenants, change := .insert (tenantRow "free") } :=
    ⟨rfl, .inr rfl, by decide, by simp [tenantLoad, himage]⟩
  have hupdate : Carries 20 tenantUpdate
      { table := tenants, change := .update (tenantRow "free") (tenantRow "pro") } :=
    ⟨rfl, .inr rfl, by decide, by simp [tenantUpdate, himage]⟩
  have hdelete : Carries 20 tenantDelete { table := tenants, change := .delete (tenantRow "pro") } :=
    ⟨rfl, .inr rfl, by decide, by simp [tenantDelete, hkey]⟩
  exact version_rows_reproduce hvalid (.cons hload .nil)
    (.cons ⟨rfl, .cons hupdate (.cons hdelete .nil)⟩ .nil) (by decide)

end GrayDB.R1.ClickHouseSink
