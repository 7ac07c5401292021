import GrayDB.Search.Store
import GrayDB.Source.Table
import Mathlib.Data.Multiset.Filter

/-!
# The index as a mirror of the table

The rows of a keyed table are fed to its index: the rows of the backfill, and then the
changes, in committed batches.  A document bears the joined values of the key columns, and
each change deletes the documents under the key that it replaces.

* `LawfulIndexWriter` is what the writer promises.
* `Feeding` is what is fed, with the change of the source table behind it.
* `index_mirrors` is the result: the index has one document for each live row, with the
  row's values, exactly if `Undisturbed` holds of what was fed.
* `index_differs` holds two histories that break it.
-/

namespace GrayDB.Search

open Lib Lib.Crash Registry Source

variable {W : Type}

/-- What the writer documents.  The order of the documents is left open. -/
class LawfulIndexWriter (W : Type) [IndexWriter W] where
  /-- The documents that a commit makes searchable. -/
  staged : W → Multiset Document
  /-- The documents that a reader finds. -/
  searchable : W → Multiset Document
  staged_addDocument : ∀ d w, staged (IndexWriter.addDocument d w) = staged w + {d}
  staged_deleteTerm : ∀ key w,
    staged (IndexWriter.deleteTerm key w) = (staged w).filter fun d => d.key ≠ key
  staged_commit : ∀ w, staged (IndexWriter.commit w) = staged w
  searchable_commit : ∀ w, searchable (IndexWriter.commit w) = staged w

export LawfulIndexWriter (staged searchable)

/-- What is fed to the index. -/
inductive Fed where
  | backfill (key : String) (values : List (Option String)) (lsn0 : Nat)
  | change (c : TypedChange) (syntheticKey : String)
  deriving DecidableEq, Repr

/-- The new image that is fed. -/
def Fed.image : Fed → Option Named
  | .backfill _ _ _ => none
  | .change c _ => c.new

/-- Something fed, and the change of the source table behind it. -/
structure Feeding where
  fed : Fed
  row : RowChange SourceRow
  deriving DecidableEq, Repr

namespace SearchStore

/-- The values of the key columns. -/
def rowKey (s : SearchStore W) (columns : List String) (row : SourceRow) : List (Option String) :=
  s.keyColumns.map (valueOf columns row)

/-- The key under which a row is indexed. -/
def joinedKey (s : SearchStore W) (columns : List String) (row : SourceRow) : String :=
  "\u001f".intercalate (s.keyColumns.map fun kc => (valueOf columns row kc).getD "")

/-- The values of the declared columns. -/
def rowValues (s : SearchStore W) (columns : List String) (row : SourceRow) : List (Option String) :=
  s.columns.map (valueOf columns row)

/-- What is fed says what happens to the table.  A row of the backfill comes with its joined
key and its values; the table is not truncated. -/
def Carries (s : SearchStore W) (columns : List String) (f : Feeding) : Prop :=
  match f.fed, f.row with
  | .backfill key values _, .insert row =>
    key = s.joinedKey columns row ∧ values = s.rowValues columns row
  | .backfill _ _ _, _ => False
  | .change _ _, .truncate => False
  | .change c _, change => Announces columns s.keyColumns (s.rowKey columns) c change

instance decidableCarries (s : SearchStore W) (columns : List String) (f : Feeding) :
    Decidable (s.Carries columns f) := by
  unfold Carries
  cases f.fed <;> cases f.row <;> infer_instance

/-- The row has a value in each key column. -/
def Keyed (s : SearchStore W) (columns : List String) (row : SourceRow) : Prop :=
  ∀ kc ∈ s.keyColumns, (valueOf columns row kc).isSome

instance (s : SearchStore W) (columns : List String) (row : SourceRow) :
    Decidable (s.Keyed columns row) :=
  inferInstanceAs (Decidable (∀ kc ∈ s.keyColumns, (valueOf columns row kc).isSome))

end SearchStore

/-- The row that a change writes. -/
def written : RowChange SourceRow → Option SourceRow
  | .insert row | .update _ row => some row
  | .delete _ | .truncate => none

/-- The row that a change replaces. -/
def replaced : RowChange SourceRow → Option SourceRow
  | .update old _ | .delete old => some old
  | .insert _ | .truncate => none

/-- The row whose key a change deletes from the index: an insert deletes its own. -/
def unindexed : RowChange SourceRow → Option SourceRow
  | .insert row => some row
  | .update old _ | .delete old => some old
  | .truncate => none

/-! ## The run -/

section Run

variable [IndexWriter W]

def Fed.feed : Fed → SearchM W Unit
  | .backfill key values lsn0 => indexBackfillRow key values lsn0
  | .change c syntheticKey => apply c syntheticKey

def feedAll : List Feeding → SearchM W Unit
  | [] => pure ()
  | f :: fs => do
    f.fed.feed
    feedAll fs

/-- Batches, each with the LSN of its commit. -/
def feedBatches : List (List Feeding × Nat) → SearchM W Unit
  | [] => pure ()
  | (fs, appliedLsn) :: batches => do
    feedAll fs
    commitBatch appliedLsn
    feedBatches batches

variable [LawfulIndexWriter W]

/-- The key and the values of each document. -/
def shown (docs : Multiset Document) : Multiset (String × List (Option String)) :=
  docs.map fun d => (d.key, d.fields)

/-- A reader finds one document for each row, with the values of the row. -/
def Mirrors (s : SearchStore W) (columns : List String) (table : List SourceRow) : Prop :=
  shown (searchable s.writer)
    = Multiset.ofList (table.map fun row => (s.joinedKey columns row, s.rowValues columns row))

instance (s : SearchStore W) (columns : List String) (table : List SourceRow) :
    Decidable (Mirrors s columns table) :=
  inferInstanceAs (Decidable (_ = _))

end Run

/-! ## What can go wrong -/

/-- Nothing is left out where it is needed, and no key is confused with another:

* no new image leaves a key column out;
* for each row that is still there in the end, the image it was last written with leaves no
  declared column out, and no later change has deleted another key that joins to the same
  string. -/
def Undisturbed (s : SearchStore W) (columns : List String) (fs : List Feeding) : Prop :=
  (∀ f ∈ fs, ∀ img ∈ f.fed.image, ∀ kc ∈ s.keyColumns, ¬ LeavesOut img kc) ∧
  ∀ pre f post, fs = pre ++ f :: post → ∀ row ∈ written f.row,
    (∀ g ∈ post, ∀ old ∈ replaced g.row, s.rowKey columns row ≠ s.rowKey columns old) →
    (∀ img ∈ f.fed.image, ∀ column ∈ s.columns, ¬ LeavesOut img column) ∧
      ∀ g ∈ post, ∀ old ∈ unindexed g.row, s.joinedKey columns row ≠ s.joinedKey columns old

/-! ## Images by name -/

theorem columnText_cons (c : String × TupleValue) (img : Named) (column : String) :
    columnText (c :: img) column = if c.1 = column then columnText [c] column
      else columnText img column := by
  by_cases h : c.1 = column
  · simp [columnText, h]
  · simp [columnText, h]

theorem leavesOut_cons (c : String × TupleValue) (img : Named) (column : String) :
    LeavesOut (c :: img) column ↔ if c.1 = column then c.2 = .unchangedToast
      else LeavesOut img column := by
  by_cases h : c.1 = column
  · simp [LeavesOut, h]
  · simp [LeavesOut, h]

/-- What an image has for a column: the value of the row, unless it leaves the value out. -/
theorem columnText_of_describes {columns : List String} {prior row : SourceRow} {img : Named}
    (h : Describes columns prior row img) (column : String) :
    (LeavesOut img column → columnText img column = none ∧ (valueOf columns row column).isSome) ∧
      (¬ LeavesOut img column → columnText img column = valueOf columns row column) := by
  induction columns generalizing prior row img with
  | nil =>
    match row, img, h with
    | [], [], _ => exact ⟨fun h => by simp [LeavesOut] at h, fun _ => rfl⟩
  | cons name columns ih =>
    match row, img, h with
    | cell :: row, (_, value) :: img, ⟨rfl, hvalue, hrest⟩ =>
      rw [columnText_cons, leavesOut_cons, valueOf]
      by_cases hname : name = column
      · simp only [if_pos hname]
        cases value <;> simp_all [columnText, Shows]
      · simp only [if_neg hname]
        exact ih hrest

/-- The key columns are there in an image that shows the key. -/
theorem columnText_of_showsKey {keys columns : List String} {row : SourceRow} {img : Named}
    (h : ShowsKey keys columns row img) {kc : String} (hkc : kc ∈ keys) :
    columnText img kc = valueOf columns row kc ∧ ¬ LeavesOut img kc := by
  induction columns generalizing row img with
  | nil =>
    match row, img, h with
    | [], [], _ => exact ⟨rfl, by simp [LeavesOut]⟩
  | cons name columns ih =>
    match row, img, h with
    | cell :: row, (_, value) :: img, ⟨rfl, hvalue, hrest⟩ =>
      rw [columnText_cons, leavesOut_cons, valueOf]
      by_cases hname : name = kc
      · subst hname
        have hvalue := hvalue hkc
        simp only [if_true]
        cases value with
        | unchangedToast =>
          obtain ⟨hsome, hnone⟩ := hvalue
          rw [← hnone] at hsome
          exact absurd hsome Bool.false_ne_true
        | _ => simp_all [columnText, Shows]
      · simp only [if_neg hname]
        exact ih hrest

namespace SearchStore

variable {s : SearchStore W} {columns : List String} {row : SourceRow} {img : Named}

private theorem keyParts_eq {kcs : List String}
    (htext : ∀ kc ∈ kcs, columnText img kc = valueOf columns row kc)
    (hkeyed : ∀ kc ∈ kcs, (valueOf columns row kc).isSome) :
    keyParts img kcs = .ok (kcs.map fun kc => (valueOf columns row kc).getD "") := by
  induction kcs with
  | nil => rfl
  | cons kc kcs ih =>
    have hrest := ih (fun k hk => htext k (List.mem_cons_of_mem kc hk))
      fun k hk => hkeyed k (List.mem_cons_of_mem kc hk)
    obtain ⟨v, hv⟩ := Option.isSome_iff_exists.mp (hkeyed kc List.mem_cons_self)
    rw [keyParts, htext kc List.mem_cons_self, hv, hrest]
    simp [Except.map, hv]

/-- An image with the key columns of a row gives its joined key. -/
theorem keyFromImage_eq (htext : ∀ kc ∈ s.keyColumns, columnText img kc = valueOf columns row kc)
    (hkeyed : s.Keyed columns row) : s.keyFromImage img = .ok (s.joinedKey columns row) := by
  rw [keyFromImage, keyParts_eq htext hkeyed]
  rfl

/-- The new image has the key columns. -/
theorem keyFromImage_of_describes {prior : SourceRow}
    (h : Describes columns prior row img) (hkeys : ∀ kc ∈ s.keyColumns, ¬ LeavesOut img kc)
    (hrow : s.Keyed columns row) : s.keyFromImage img = .ok (s.joinedKey columns row) :=
  keyFromImage_eq (fun kc hkc => (columnText_of_describes h kc).2 (hkeys kc hkc)) hrow

theorem keyFromImage_of_showsKey (h : ShowsKey s.keyColumns columns row img)
    (hrow : s.Keyed columns row) : s.keyFromImage img = .ok (s.joinedKey columns row) :=
  keyFromImage_eq (fun _ hkc => (columnText_of_showsKey h hkc).1) hrow

/-- An image that leaves a key column out gives none. -/
theorem keyFromImage_error {kc : String} (hkc : kc ∈ s.keyColumns) (hout : LeavesOut img kc) :
    ∃ e, s.keyFromImage img = .error e := by
  have hnone : columnText img kc = none := by
    unfold LeavesOut at hout
    obtain ⟨c, hc, hvalue⟩ := Option.map_eq_some_iff.mp hout
    unfold columnText
    rw [hc]
    obtain ⟨name, value⟩ := c
    obtain rfl : value = .unchangedToast := hvalue
    rfl
  have hparts : ∀ kcs : List String, kc ∈ kcs → ∃ e, keyParts img kcs = .error e := by
    intro kcs
    induction kcs with
    | nil => intro h; exact absurd h List.not_mem_nil
    | cons k kcs ih =>
      intro h
      rw [keyParts]
      cases hk : columnText img k with
      | none => exact ⟨_, rfl⟩
      | some v =>
        rcases List.mem_cons.mp h with h | h
        · rw [h, hk] at hnone
          simp at hnone
        · obtain ⟨e, he⟩ := ih h
          exact ⟨e, by simp [he, Except.map]⟩
  obtain ⟨e, he⟩ := hparts s.keyColumns hkc
  exact ⟨e, by rw [keyFromImage, he, Except.map]⟩

end SearchStore

/-! ## What the index holds -/

/-- A row, and the fields it is indexed with. -/
abbrev Indexed := SourceRow × List (Option String)

/-- The fields that are indexed. -/
def Fed.fields (s : SearchStore W) : Fed → List (Option String)
  | .backfill _ values _ => values
  | .change c _ => s.project (c.new.getD [])

namespace SearchStore

/-- The event on the table: the row with the old key goes. -/
def rowEvent (s : SearchStore W) (columns : List String) (f : Feeding) : Event Indexed where
  stamp := 0
  kills a := (replaced f.row).any fun old =>
    decide (s.rowKey columns a.1 = s.rowKey columns old)
  adds := (written f.row).toList.map fun row => (row, f.fed.fields s)

/-- The event on the index: the documents with the joined key go. -/
def docEvent (s : SearchStore W) (columns : List String) (f : Feeding) : Event Indexed where
  stamp := 0
  kills a := (unindexed f.row).any fun old =>
    decide (s.joinedKey columns a.1 = s.joinedKey columns old)
  adds := (written f.row).toList.map fun row => (row, f.fed.fields s)

/-- The same index with other documents. -/
def SameIndex (s s' : SearchStore W) : Prop := ∃ writer info, s' = { s with writer, info }

theorem SameIndex.trans {s s' s'' : SearchStore W} (h : SameIndex s s') (h' : SameIndex s' s'') :
    SameIndex s s'' := by
  obtain ⟨w, i, rfl⟩ := h
  obtain ⟨w', i', rfl⟩ := h'
  exact ⟨w', i', rfl⟩

variable [IndexWriter W] [LawfulIndexWriter W]

/-- The documents to be committed are those of some rows. -/
def Holds (s : SearchStore W) (columns : List String) (entries : List Indexed) : Prop :=
  shown (staged s.writer) = Multiset.ofList (entries.map fun a => (s.joinedKey columns a.1, a.2))

variable {s : SearchStore W} {columns : List String} {entries : List Indexed}

theorem Holds.delete (h : s.Holds columns entries) (key : String) :
    ({ s with writer := IndexWriter.deleteTerm key s.writer } : SearchStore W).Holds columns
      (entries.filter fun a => !decide (s.joinedKey columns a.1 = key)) := by
  unfold Holds shown at h ⊢
  have hfilter := congrArg (Multiset.filter fun d => d.1 ≠ key) h
  rw [Multiset.filter_map, Multiset.filter_coe, List.filter_map] at hfilter
  rw [LawfulIndexWriter.staged_deleteTerm]
  refine Eq.trans ?_ (hfilter.trans ?_)
  · rfl
  · congr 2
    apply List.filter_congr
    intro a _
    simp

theorem Holds.add (h : s.Holds columns entries) (row : SourceRow) (lsn : Nat)
    (fields : List (Option String)) :
    ({ s with writer := IndexWriter.addDocument ⟨s.joinedKey columns row, lsn, fields⟩ s.writer }
      : SearchStore W).Holds columns (entries ++ [(row, fields)]) := by
  unfold Holds shown at h ⊢
  rw [LawfulIndexWriter.staged_addDocument, Multiset.map_add, h, List.map_append,
    ← Multiset.coe_add]
  rfl

/-! ## One feeding -/

/-- The feeding takes the index from the rows of `entries` to those after it. -/
def Feeds (s : SearchStore W) (columns : List String) (f : Feeding) : Prop :=
  ∀ entries, s.Holds columns entries → Returns f.fed.feed s fun _ s' =>
    SameIndex s s' ∧ s'.Holds columns (Event.after entries (s.docEvent columns f))

/-- The rows of a change have a value in each key column. -/
def RowsKeyed (s : SearchStore W) (columns : List String) (f : Feeding) : Prop :=
  (∀ row ∈ written f.row, s.Keyed columns row) ∧ ∀ row ∈ replaced f.row, s.Keyed columns row

instance (s : SearchStore W) (columns : List String) (f : Feeding) :
    Decidable (s.RowsKeyed columns f) :=
  inferInstanceAs (Decidable ((∀ row ∈ written f.row, s.Keyed columns row) ∧
    ∀ row ∈ replaced f.row, s.Keyed columns row))

omit [IndexWriter W] [LawfulIndexWriter W] in
private theorem fields_change {c : TypedChange} {syntheticKey : String} {img : Named}
    (hnew : c.new = some img) : Fed.fields s (.change c syntheticKey) = s.project img := by
  rw [Fed.fields, hnew, Option.getD_some]

theorem feeds_backfill {row : SourceRow} {key : String} {values : List (Option String)} {lsn0 : Nat}
    (hkey : key = s.joinedKey columns row) :
    s.Feeds columns ⟨.backfill key values lsn0, .insert row⟩ := by
  intro entries h
  subst hkey
  refine Spec.bind_modify (Spec.call trivial ⟨⟨_, _, rfl⟩, ?_⟩)
  exact (h.delete (s.joinedKey columns row)).add row lsn0 values

theorem feeds_insert {row : SourceRow} {c : TypedChange} {syntheticKey : String} {img : Named}
    (hkeyed : s.isKeyed = true) (hop : c.op = .insert) (hnew : c.new = some img)
    (hkey : s.keyFromImage img = .ok (s.joinedKey columns row)) :
    s.Feeds columns ⟨.change c syntheticKey, .insert row⟩ := by
  intro entries h
  have hinsert : Returns (insertKey img syntheticKey) s fun k s' =>
      k = s.joinedKey columns row ∧ s' = s := by
    refine Spec.bind_get ?_
    rw [if_pos hkeyed]
    exact keyOrThrow_spec hkey
  show Returns (apply c syntheticKey) s _
  unfold apply
  rw [hop]
  dsimp only
  rw [applyInsert, hnew]
  refine Spec.bind hinsert ?_
  rintro _ t ⟨rfl, ht⟩
  obtain rfl := ht.symm
  refine Spec.bind_modify (Spec.bind_get (Spec.call trivial ⟨⟨_, _, rfl⟩, ?_⟩))
  have hadd := (h.delete (s.joinedKey columns row)).add row c.commitLsn (s.project img)
  unfold docEvent
  dsimp only
  rw [fields_change hnew]
  exact hadd

theorem feeds_update {old new : SourceRow} {c : TypedChange} {syntheticKey : String} {img : Named}
    (hkeyed : s.isKeyed = true) (hop : c.op = .update) (hnew : c.new = some img)
    (holdKey : s.keyFromImage (c.old.getD img) = .ok (s.joinedKey columns old))
    (hnewKey : s.keyFromImage img = .ok (s.joinedKey columns new)) :
    s.Feeds columns ⟨.change c syntheticKey, .update old new⟩ := by
  intro entries h
  show Returns (apply c syntheticKey) s _
  unfold apply
  rw [hop]
  refine Spec.bind_get ?_
  rw [if_pos hkeyed, hnew]
  refine Spec.bind (keyOrThrow_spec holdKey) ?_
  rintro _ t ⟨rfl, ht⟩
  obtain rfl := ht.symm
  refine Spec.bind_modify (Spec.bind (keyOrThrow_spec hnewKey) ?_)
  rintro _ t ⟨rfl, ht⟩
  obtain rfl := ht.symm
  refine Spec.bind_get (Spec.call trivial ⟨⟨_, _, rfl⟩, ?_⟩)
  have hadd := (h.delete (s.joinedKey columns old)).add new c.commitLsn (s.project img)
  unfold docEvent
  dsimp only
  rw [fields_change hnew]
  exact hadd

theorem feeds_delete {old : SourceRow} {c : TypedChange} {syntheticKey : String} {img : Named}
    (hkeyed : s.isKeyed = true) (hop : c.op = .delete) (hold : c.old = some img)
    (hkey : s.keyFromImage img = .ok (s.joinedKey columns old)) :
    s.Feeds columns ⟨.change c syntheticKey, .delete old⟩ := by
  intro entries h
  show Returns (apply c syntheticKey) s _
  unfold apply
  rw [hop]
  refine Spec.bind_get ?_
  rw [if_pos hkeyed, hold]
  refine Spec.bind (keyOrThrow_spec hkey) ?_
  rintro _ t ⟨rfl, ht⟩
  obtain rfl := ht.symm
  refine Spec.modify ⟨⟨_, _, rfl⟩, ?_⟩
  have hdelete := h.delete (s.joinedKey columns old)
  rw [← List.append_nil (List.filter _ _)] at hdelete
  exact hdelete

/-- A feeding that leaves no key column out goes through. -/
theorem feeds_of_carries {f : Feeding} (hkeyed : s.isKeyed = true) (hcarries : s.Carries columns f)
    (hrows : s.RowsKeyed columns f)
    (hkeys : ∀ img ∈ f.fed.image, ∀ kc ∈ s.keyColumns, ¬ LeavesOut img kc) :
    s.Feeds columns f := by
  obtain ⟨fed, row⟩ := f
  obtain ⟨hwritten, hreplaced⟩ := hrows
  cases fed with
  | backfill key values lsn0 =>
    cases row with
    | insert row => exact feeds_backfill hcarries.1
    | update old new => exact hcarries.elim
    | delete old => exact hcarries.elim
    | truncate => exact hcarries.elim
  | change c syntheticKey =>
    cases row with
    | insert row =>
      obtain ⟨hop, img, hnew, hdescribes⟩ := hcarries
      exact feeds_insert hkeyed hop hnew
        (keyFromImage_of_describes hdescribes (hkeys img hnew) (hwritten row rfl))
    | update old new =>
      obtain ⟨hop, img, hnew, hdescribes, hold⟩ := hcarries
      have hnewKey := keyFromImage_of_describes hdescribes (hkeys img hnew) (hwritten new rfl)
      refine feeds_update hkeyed hop hnew ?_ hnewKey
      cases hc : c.old with
      | none =>
        rw [hc] at hold
        rw [Option.getD_none, hnewKey]
        have hjoined := congrArg (fun key : List (Option String) =>
          "\u001f".intercalate (key.map fun v => v.getD "")) hold.1
        simp only [rowKey, List.map_map] at hjoined
        exact congrArg Except.ok hjoined.symm
      | some oldImg =>
        rw [hc] at hold
        exact keyFromImage_of_showsKey hold (hreplaced old rfl)
    | delete old =>
      obtain ⟨hop, -, img, hold, hshows⟩ := hcarries
      exact feeds_delete hkeyed hop hold (keyFromImage_of_showsKey hshows (hreplaced old rfl))
    | truncate => exact hcarries.elim

omit [LawfulIndexWriter W] in
/-- A feeding that leaves a key column out fails. -/
theorem fails_of_leavesOut {f : Feeding} {img : Named} {kc : String} (hkeyed : s.isKeyed = true)
    (hcarries : s.Carries columns f) (hrows : s.RowsKeyed columns f)
    (himg : f.fed.image = some img) (hkc : kc ∈ s.keyColumns) (hout : LeavesOut img kc) :
    Fails f.fed.feed s := by
  obtain ⟨e, he⟩ := keyFromImage_error hkc hout
  have hthrow : ∀ t : SearchStore W, SameIndex s t → Fails (keyOrThrow img) t := by
    intro t ht
    obtain ⟨writer, info, rfl⟩ := ht
    refine Fails.bind_get ?_
    have he : SearchStore.keyFromImage { s with writer, info } img = .error e := he
    rw [he]
    exact Fails.throw e
  have hself : SameIndex s s := ⟨s.writer, s.info, rfl⟩
  obtain ⟨fed, row⟩ := f
  cases fed with
  | backfill key values lsn0 => simp [Fed.image] at himg
  | change c syntheticKey =>
    have hnew : c.new = some img := himg
    show Fails (apply c syntheticKey) s
    cases row with
    | insert row =>
      obtain ⟨hop, -⟩ := hcarries
      unfold apply
      rw [hop]
      dsimp only
      rw [applyInsert, hnew]
      refine Fails.bind (Fails.bind_get ?_)
      rw [if_pos hkeyed]
      exact hthrow s hself
    | update old new =>
      obtain ⟨hop, img', hnew', hdescribes, hold⟩ := hcarries
      unfold apply
      rw [hop]
      refine Fails.bind_get ?_
      rw [if_pos hkeyed, hnew]
      cases hc : c.old with
      | none => exact Fails.bind (hthrow s hself)
      | some oldImg =>
        rw [hc] at hold
        have hkey := keyFromImage_of_showsKey hold (hrows.2 old rfl)
        refine Fails.bind_of_spec (keyOrThrow_spec hkey) ?_
        rintro _ t ⟨rfl, ht⟩
        obtain rfl := ht.symm
        exact Fails.bind_modify (Fails.bind (hthrow _ ⟨_, _, rfl⟩))
    | delete old =>
      obtain ⟨-, hnone, -⟩ := hcarries
      rw [hnone] at hnew
      simp at hnew
    | truncate => exact hcarries.elim

/-! ## The run of all feedings -/

/-- The feedings fit the table. -/
def Fits (s : SearchStore W) (columns : List String) (fs : List Feeding) : Prop :=
  ∀ f ∈ fs, s.Carries columns f ∧ s.RowsKeyed columns f

instance (s : SearchStore W) (columns : List String) (fs : List Feeding) :
    Decidable (s.Fits columns fs) :=
  inferInstanceAs (Decidable (∀ f ∈ fs, s.Carries columns f ∧ s.RowsKeyed columns f))

/-- No new image leaves a key column out. -/
def KeysThere (s : SearchStore W) (fs : List Feeding) : Prop :=
  ∀ f ∈ fs, ∀ img ∈ f.fed.image, ∀ kc ∈ s.keyColumns, ¬ LeavesOut img kc

instance (s : SearchStore W) (fs : List Feeding) : Decidable (s.KeysThere fs) :=
  inferInstanceAs (Decidable (∀ f ∈ fs, ∀ img ∈ f.fed.image, ∀ kc ∈ s.keyColumns, ¬ LeavesOut img kc))

theorem feedAll_spec {fs : List Feeding} (hkeyed : s.isKeyed = true) (hfits : s.Fits columns fs)
    (hkeys : s.KeysThere fs) (h : s.Holds columns entries) :
    Returns (feedAll fs) s fun _ s' => SameIndex s s' ∧
      s'.Holds columns ((fs.map (s.docEvent columns)).foldl Event.after entries) := by
  induction fs generalizing s entries with
  | nil => exact Spec.pure ⟨⟨s.writer, s.info, rfl⟩, h⟩
  | cons f fs ih =>
    obtain ⟨hcarries, hrows⟩ := hfits f List.mem_cons_self
    have hfeeds := feeds_of_carries hkeyed hcarries hrows (hkeys f List.mem_cons_self)
    refine Spec.bind (hfeeds entries h) ?_
    rintro _ s₁ ⟨hsame, hholds⟩
    have hfits' : s₁.Fits columns fs := by
      obtain ⟨writer, info, rfl⟩ := hsame
      exact fun g hg => hfits g (List.mem_cons_of_mem f hg)
    have hkeys' : s₁.KeysThere fs := by
      obtain ⟨writer, info, rfl⟩ := hsame
      exact fun g hg => hkeys g (List.mem_cons_of_mem f hg)
    have hkeyed' : s₁.isKeyed = true := by
      obtain ⟨writer, info, rfl⟩ := hsame
      exact hkeyed
    refine Spec.weaken (ih hkeyed' hfits' hkeys' hholds) ?_
    rintro _ s₂ ⟨hsame', hholds'⟩
    refine ⟨hsame.trans hsame', ?_⟩
    obtain ⟨writer, info, rfl⟩ := hsame
    exact hholds'

section Fields

omit [IndexWriter W] [LawfulIndexWriter W]

/-- The table that the feedings leave. -/
def tableAfter (s : SearchStore W) (columns : List String) (fs : List Feeding) : List SourceRow :=
  survivors (fs.map fun f => f.row.event (s.rowKey columns) 0)

theorem tableAfter_eq {fs : List Feeding} (hfits : s.Fits columns fs) :
    s.tableAfter columns fs = (survivors (fs.map (s.rowEvent columns))).map Prod.fst := by
  apply survivors_map
  · intro f hf
    obtain ⟨fed, row⟩ := f
    cases row <;> rfl
  · intro f hf a
    obtain ⟨hcarries, -⟩ := hfits f hf
    obtain ⟨fed, row⟩ := f
    cases row with
    | insert row => rfl
    | update old new => rfl
    | delete old => rfl
    | truncate => cases fed <;> exact hcarries.elim

/-- The fields are the values of the row, or miss some of them. -/
theorem fields_of_carries {f : Feeding} {row : SourceRow} (hcarries : s.Carries columns f)
    (hrow : written f.row = some row) :
    (∃ img, f.fed.image = some img ∧ f.fed.fields s = s.columns.map (columnText img) ∧
      ∃ prior, Describes columns prior row img) ∨
    f.fed.image = none ∧ f.fed.fields s = s.rowValues columns row := by
  obtain ⟨fed, change⟩ := f
  cases fed with
  | backfill key values lsn0 =>
    cases change with
    | insert row' =>
      obtain rfl := Option.some.inj hrow
      exact Or.inr ⟨rfl, hcarries.2⟩
    | update old new => exact hcarries.elim
    | delete old => exact hcarries.elim
    | truncate => exact hcarries.elim
  | change c syntheticKey =>
    cases change with
    | insert row' =>
      obtain rfl := Option.some.inj hrow
      obtain ⟨-, img, hnew, hdescribes⟩ := hcarries
      exact Or.inl ⟨img, hnew, fields_change hnew, _, hdescribes⟩
    | update old new =>
      obtain rfl := Option.some.inj hrow
      obtain ⟨-, img, hnew, hdescribes, -⟩ := hcarries
      exact Or.inl ⟨img, hnew, fields_change hnew, _, hdescribes⟩
    | delete old => simp [written] at hrow
    | truncate => exact hcarries.elim

/-- How many fields have a value. -/
private def present (fields : List (Option String)) : Nat := fields.countP Option.isSome

private theorem present_le (cols : List String) {F V : String → Option String}
    (h : ∀ c, F c = V c ∨ F c = none ∧ (V c).isSome = true) :
    present (cols.map F) ≤ present (cols.map V) ∧
      (present (cols.map F) = present (cols.map V) → ∀ c ∈ cols, F c = V c) := by
  induction cols with
  | nil => simp
  | cons c cols ih =>
    obtain ⟨hle, heq⟩ := ih
    unfold present at hle heq ⊢
    rw [List.map_cons, List.map_cons, List.countP_cons, List.countP_cons]
    rcases h c with hc | ⟨hnone, hsome⟩
    · rw [hc]
      refine ⟨by omega, fun hsum => ?_⟩
      intro c' hc'
      rcases List.mem_cons.mp hc' with rfl | hc'
      · exact hc
      · exact heq (by omega) c' hc'
    · rw [hnone, if_neg (by simp), if_pos hsome]
      refine ⟨by omega, fun hsum => ?_⟩
      omega

/-- The fields have as many values as the row exactly if the image leaves no declared column
out. -/
theorem fields_present {f : Feeding} {row : SourceRow} (hcarries : s.Carries columns f)
    (hrow : written f.row = some row) :
    present (f.fed.fields s) ≤ present (s.rowValues columns row) ∧
      (present (f.fed.fields s) = present (s.rowValues columns row) →
        f.fed.fields s = s.rowValues columns row) ∧
      (f.fed.fields s = s.rowValues columns row ↔
        ∀ img ∈ f.fed.image, ∀ column ∈ s.columns, ¬ LeavesOut img column) := by
  rcases fields_of_carries hcarries hrow with ⟨img, himg, hfields, prior, hdescribes⟩ | ⟨himg, hfields⟩
  · have hcolumn := columnText_of_describes hdescribes
    have hmisses : ∀ c, columnText img c = valueOf columns row c ∨
        columnText img c = none ∧ (valueOf columns row c).isSome = true := by
      intro c
      by_cases hout : LeavesOut img c
      · exact Or.inr ((hcolumn c).1 hout)
      · exact Or.inl ((hcolumn c).2 hout)
    have hle := present_le s.columns hmisses
    rw [hfields]
    refine ⟨hle.1, fun heq => List.map_congr_left (hle.2 heq), ?_, ?_⟩
    · intro heq img' himg' column hmem hout
      rw [himg] at himg'
      obtain rfl := Option.some.inj himg'
      obtain ⟨hnone, hsome⟩ := (hcolumn column).1 hout
      rw [← List.map_inj_left.mp heq column hmem, hnone] at hsome
      exact absurd hsome Bool.false_ne_true
    · intro hall
      apply List.map_congr_left
      intro column hmem
      exact (hcolumn column).2 (hall img himg column hmem)
  · rw [hfields, himg]
    exact ⟨Nat.le_refl _, fun _ => rfl, by simp⟩

end Fields

section Whole

omit [IndexWriter W] [LawfulIndexWriter W]

private theorem eq_of_sum_eq {α : Type} {m n : α → Nat} {l : List α} (hle : ∀ a ∈ l, m a ≤ n a) :
    (l.map m).sum ≤ (l.map n).sum ∧
      ((l.map m).sum = (l.map n).sum → ∀ a ∈ l, m a = n a) := by
  induction l with
  | nil => simp
  | cons a l ih =>
    obtain ⟨hsums, heq⟩ := ih fun b hb => hle b (List.mem_cons_of_mem a hb)
    have hfirst := hle a List.mem_cons_self
    rw [List.map_cons, List.map_cons, List.sum_cons, List.sum_cons]
    refine ⟨by omega, fun hsum => ?_⟩
    intro b hb
    rcases List.mem_cons.mp hb with rfl | hb
    · omega
    · exact heq (by omega) b hb

/-- With some documents missing and some fields missing, the documents are the rows only if
nothing is missing: the counts would differ. -/
private theorem docs_eq_iff {docs rows : List Indexed} (hsub : docs.Sublist rows)
    (hle : ∀ a ∈ rows, present a.2 ≤ present (s.rowValues columns a.1) ∧
      (present a.2 = present (s.rowValues columns a.1) → a.2 = s.rowValues columns a.1)) :
    Multiset.ofList (docs.map fun a => (s.joinedKey columns a.1, a.2))
        = Multiset.ofList ((rows.map Prod.fst).map fun row =>
          (s.joinedKey columns row, s.rowValues columns row))
      ↔ docs = rows ∧ ∀ a ∈ rows, a.2 = s.rowValues columns a.1 := by
  rw [List.map_map]
  constructor
  · intro heq
    have hperm := Multiset.coe_eq_coe.mp heq
    have hlen := hperm.length_eq
    rw [List.length_map, List.length_map] at hlen
    obtain rfl := hsub.eq_of_length hlen
    refine ⟨rfl, fun a ha => (hle a ha).2 ?_⟩
    have hsum := (hperm.map fun d => present d.2).sum_nat
    rw [List.map_map, List.map_map] at hsum
    exact (eq_of_sum_eq fun b hb => (hle b hb).1).2 hsum a ha
  · rintro ⟨rfl, hvalues⟩
    congr 1
    apply List.map_congr_left
    intro a ha
    show (_, _) = (_, _)
    rw [hvalues a ha]

/-- Rows with the same key have the same joined key. -/
theorem joinedKey_congr {row row' : SourceRow} (h : s.rowKey columns row = s.rowKey columns row') :
    s.joinedKey columns row = s.joinedKey columns row' := by
  have hjoined := congrArg (fun key : List (Option String) =>
    "\u001f".intercalate (key.map fun v => v.getD "")) h
  simp only [rowKey, List.map_map] at hjoined
  exact hjoined

private theorem mem_adds {f : Feeding} {a : Indexed} : a ∈ (s.rowEvent columns f).adds ↔
    ∃ row ∈ written f.row, a = (row, f.fed.fields s) := by
  simp [rowEvent, eq_comm]

private theorem any_eq_false {α : Type} {p : α → Bool} {o : Option α} :
    o.any p = false ↔ ∀ x ∈ o, p x = false := by
  cases o <;> simp

private theorem spared_rows {fs : List Feeding} {a : Indexed} :
    Event.Spared (fs.map (s.rowEvent columns)) a ↔
      ∀ g ∈ fs, ∀ old ∈ replaced g.row, s.rowKey columns a.1 ≠ s.rowKey columns old := by
  unfold Event.Spared
  rw [List.forall_mem_map]
  apply forall₂_congr
  intro g _
  rw [rowEvent, any_eq_false]
  simp

private theorem spared_docs {fs : List Feeding} {a : Indexed} :
    Event.Spared (fs.map (s.docEvent columns)) a ↔
      ∀ g ∈ fs, ∀ old ∈ unindexed g.row, s.joinedKey columns a.1 ≠ s.joinedKey columns old := by
  unfold Event.Spared
  rw [List.forall_mem_map]
  apply forall₂_congr
  intro g _
  rw [docEvent, any_eq_false]
  simp

/-- A row that is left, and the feeding that wrote it last. -/
private theorem split_of_mem_survivors {fs : List Feeding} {a : Indexed}
    (h : a ∈ survivors (fs.map (s.rowEvent columns))) :
    ∃ pre f post, fs = pre ++ f :: post ∧ ∃ row ∈ written f.row, a = (row, f.fed.fields s) ∧
      Event.Spared (post.map (s.rowEvent columns)) a := by
  obtain ⟨pre, e, post, hsplit, hadd, hspared⟩ := mem_survivors.mp h
  obtain ⟨fs₁, fs₂, rfl, rfl, hfs₂⟩ := List.map_eq_append_iff.mp hsplit
  obtain ⟨f, fs₃, rfl, rfl, rfl⟩ := List.map_eq_cons_iff.mp hfs₂
  obtain ⟨row, hrow, ha⟩ := mem_adds.mp hadd
  exact ⟨fs₁, f, fs₃, rfl, row, hrow, ha, hspared⟩

/-- The index deletes at least what the change replaces. -/
private theorem docEvent_kills {f : Feeding} {a : Indexed}
    (h : (s.rowEvent columns f).kills a = true) : (s.docEvent columns f).kills a = true := by
  obtain ⟨fed, row⟩ := f
  cases row with
  | insert row => exact absurd h Bool.false_ne_true
  | update old new => exact decide_eq_true (joinedKey_congr (of_decide_eq_true h))
  | delete old => exact decide_eq_true (joinedKey_congr (of_decide_eq_true h))
  | truncate => exact absurd h Bool.false_ne_true

theorem docs_sublist {fs : List Feeding} : (survivors (fs.map (s.docEvent columns))).Sublist
    (survivors (fs.map (s.rowEvent columns))) :=
  survivors_sublist (fun _ _ => rfl) fun _ _ _ h => docEvent_kills h

private theorem rows_present {fs : List Feeding} (hfits : s.Fits columns fs) {a : Indexed}
    (ha : a ∈ survivors (fs.map (s.rowEvent columns))) :
    present a.2 ≤ present (s.rowValues columns a.1) ∧
      (present a.2 = present (s.rowValues columns a.1) → a.2 = s.rowValues columns a.1) := by
  obtain ⟨pre, f, post, rfl, row, hrow, rfl, -⟩ := split_of_mem_survivors ha
  obtain ⟨hle, heq, -⟩ := fields_present (hfits f (by simp)).1 hrow
  exact ⟨hle, heq⟩

/-- Undisturbed means that no row is lost, and no field of one. -/
theorem undisturbed_iff {fs : List Feeding} (hfits : s.Fits columns fs) :
    Undisturbed s columns fs ↔ s.KeysThere fs ∧
      survivors (fs.map (s.docEvent columns)) = survivors (fs.map (s.rowEvent columns)) ∧
      ∀ a ∈ survivors (fs.map (s.rowEvent columns)), a.2 = s.rowValues columns a.1 := by
  apply and_congr_right
  intro _
  have hlost : survivors (fs.map (s.docEvent columns)) = survivors (fs.map (s.rowEvent columns)) ↔ _ :=
    survivors_eq_iff (fun _ _ => rfl) (fun _ _ _ h => docEvent_kills h)
  rw [hlost]
  constructor
  · intro hall
    refine ⟨?_, ?_⟩
    · intro pre f post hsplit a ha hspared
      obtain ⟨row, hrow, rfl⟩ := mem_adds.mp ha
      exact spared_docs.mpr (hall pre f post hsplit row hrow (spared_rows.mp hspared)).2
    · intro a ha
      obtain ⟨pre, f, post, rfl, row, hrow, rfl, hspared⟩ := split_of_mem_survivors ha
      have himage := (hall pre f post rfl row hrow (spared_rows.mp hspared)).1
      exact (fields_present (hfits f (by simp)).1 hrow).2.2.mpr himage
  · intro ⟨hdocs, hfields⟩ pre f post hsplit row hrow hstays
    have hadd : (row, f.fed.fields s) ∈ (s.rowEvent columns f).adds := mem_adds.mpr ⟨row, hrow, rfl⟩
    have hspared : Event.Spared (post.map (s.rowEvent columns)) (row, f.fed.fields s) :=
      spared_rows.mpr hstays
    refine ⟨?_, spared_docs.mp (hdocs pre f post hsplit _ hadd hspared)⟩
    have hmem : (row, f.fed.fields s) ∈ survivors (fs.map (s.rowEvent columns)) := by
      apply mem_survivors.mpr
      refine ⟨pre.map (s.rowEvent columns), s.rowEvent columns f, post.map (s.rowEvent columns),
        ?_, hadd, hspared⟩
      rw [hsplit, List.map_append, List.map_cons]
    have hf : f ∈ fs := by
      rw [hsplit]
      simp
    exact (fields_present (hfits f hf).1 hrow).2.2.mp (hfields _ hmem)

end Whole

variable {batches : List (List Feeding × Nat)}

theorem feedAll_fails {fs : List Feeding} (hkeyed : s.isKeyed = true) (hfits : s.Fits columns fs)
    (hkeys : ¬ s.KeysThere fs) (h : s.Holds columns entries) : Fails (feedAll fs) s := by
  induction fs generalizing s entries with
  | nil => exact absurd (fun f hf => absurd hf List.not_mem_nil) hkeys
  | cons f fs ih =>
    obtain ⟨hcarries, hrows⟩ := hfits f List.mem_cons_self
    by_cases hf : ∀ img ∈ f.fed.image, ∀ kc ∈ s.keyColumns, ¬ LeavesOut img kc
    · refine Fails.bind_of_spec (feeds_of_carries hkeyed hcarries hrows hf entries h) ?_
      rintro _ s₁ ⟨⟨writer, info, rfl⟩, hholds⟩
      refine ih hkeyed (fun g hg => hfits g (List.mem_cons_of_mem f hg)) ?_ hholds
      intro hrest
      apply hkeys
      intro g hg
      rcases List.mem_cons.mp hg with rfl | hg
      · exact hf
      · exact hrest g hg
    · simp only [not_forall, not_not] at hf
      obtain ⟨img, himg, kc, hkc, hout⟩ := hf
      exact Fails.bind (fails_of_leavesOut hkeyed hcarries hrows himg hkc hout)

/-- A commit makes the documents searchable. -/
theorem commitBatch_searchable (h : s.Holds columns entries) (appliedLsn : Nat) :
    Returns (commitBatch appliedLsn) s fun _ s' => SameIndex s s' ∧ s'.Holds columns entries ∧
      searchable s'.writer = staged s'.writer := by
  refine Spec.bind_call trivial (Spec.bind_modify (Spec.call trivial ?_))
  refine ⟨⟨_, _, rfl⟩, ?_, ?_⟩
  · exact (congrArg shown (LawfulIndexWriter.staged_commit s.writer)).trans h
  · exact (LawfulIndexWriter.searchable_commit s.writer).trans
      (LawfulIndexWriter.staged_commit s.writer).symm

/-- All batches are fed and committed. -/
theorem feedBatches_spec (hkeyed : s.isKeyed = true)
    (hfits : s.Fits columns (batches.flatMap Prod.fst))
    (hkeys : s.KeysThere (batches.flatMap Prod.fst)) (h : s.Holds columns entries)
    (hcommitted : searchable s.writer = staged s.writer) :
    Returns (feedBatches batches) s fun _ s' => SameIndex s s' ∧
      s'.Holds columns (((batches.flatMap Prod.fst).map (s.docEvent columns)).foldl Event.after
        entries) ∧ searchable s'.writer = staged s'.writer := by
  induction batches generalizing s entries with
  | nil => exact Spec.pure ⟨⟨s.writer, s.info, rfl⟩, h, hcommitted⟩
  | cons batch batches ih =>
    obtain ⟨fs, appliedLsn⟩ := batch
    rw [List.flatMap_cons] at hfits hkeys ⊢
    refine Spec.bind (feedAll_spec hkeyed (fun f hf => hfits f (List.mem_append_left _ hf))
      (fun f hf => hkeys f (List.mem_append_left _ hf)) h) ?_
    rintro _ s₁ ⟨⟨writer, info, rfl⟩, hholds⟩
    refine Spec.bind (commitBatch_searchable hholds appliedLsn) ?_
    rintro _ s₂ ⟨⟨writer', info', rfl⟩, hholds', hsearchable⟩
    refine Spec.weaken (ih hkeyed (fun f hf => hfits f (List.mem_append_right _ hf))
      (fun f hf => hkeys f (List.mem_append_right _ hf)) hholds' hsearchable) ?_
    rintro _ s₃ ⟨⟨writer'', info'', rfl⟩, hholds'', hsearchable'⟩
    rw [List.map_append, List.foldl_append]
    exact ⟨⟨_, _, rfl⟩, hholds'', hsearchable'⟩

theorem feedBatches_fails (hkeyed : s.isKeyed = true)
    (hfits : s.Fits columns (batches.flatMap Prod.fst))
    (hkeys : ¬ s.KeysThere (batches.flatMap Prod.fst)) (h : s.Holds columns entries) :
    Fails (feedBatches batches) s := by
  induction batches generalizing s entries with
  | nil => exact absurd (fun f hf => absurd hf List.not_mem_nil) hkeys
  | cons batch batches ih =>
    obtain ⟨fs, appliedLsn⟩ := batch
    rw [List.flatMap_cons] at hfits hkeys
    have hfits₁ : s.Fits columns fs := fun f hf => hfits f (List.mem_append_left _ hf)
    by_cases hfs : s.KeysThere fs
    · refine Fails.bind_of_spec (feedAll_spec hkeyed hfits₁ hfs h) ?_
      rintro _ s₁ ⟨⟨writer, info, rfl⟩, hholds⟩
      refine Fails.bind_of_spec (commitBatch_searchable hholds appliedLsn) ?_
      rintro _ s₂ ⟨⟨writer', info', rfl⟩, hholds', -⟩
      refine ih hkeyed (fun f hf => hfits f (List.mem_append_right _ hf)) ?_ hholds'
      intro hrest
      apply hkeys
      intro f hf
      rcases List.mem_append.mp hf with hf | hf
      · exact hfs f hf
      · exact hrest f hf
    · exact Fails.bind (feedAll_fails hkeyed hfits₁ hfs h)

end SearchStore

open SearchStore

/-- For a new index of a keyed table, whose rows all have a value in each key column: what is
fed goes through, and a reader then finds one document for each live row with the values of
the row, exactly if nothing is disturbed. -/
theorem index_mirrors [IndexWriter W] [LawfulIndexWriter W] {s : SearchStore W}
    {columns : List String} {batches : List (List Feeding × Nat)} (hkeyed : s.isKeyed = true)
    (hnew : staged s.writer = 0 ∧ searchable s.writer = 0)
    (hfits : s.Fits columns (batches.flatMap Prod.fst)) :
    (∃ s', (feedBatches batches).outcome s = some ((), s') ∧
        Mirrors s' columns (s.tableAfter columns (batches.flatMap Prod.fst))) ↔
      Undisturbed s columns (batches.flatMap Prod.fst) := by
  have hholds : s.Holds columns [] := by
    unfold Holds
    rw [hnew.1]
    rfl
  rw [undisturbed_iff hfits]
  by_cases hkeys : s.KeysThere (batches.flatMap Prod.fst)
  · obtain ⟨_, s', hout, ⟨⟨writer, info, rfl⟩, hdocs, hsearchable⟩, -⟩ :=
      (feedBatches_spec hkeyed hfits hkeys hholds (hnew.2.trans hnew.1.symm)).exec
    have hmirrors : Mirrors { s with writer, info } columns
        (s.tableAfter columns (batches.flatMap Prod.fst)) ↔
        survivors ((batches.flatMap Prod.fst).map (s.docEvent columns))
            = survivors ((batches.flatMap Prod.fst).map (s.rowEvent columns)) ∧
          ∀ a ∈ survivors ((batches.flatMap Prod.fst).map (s.rowEvent columns)),
            a.2 = s.rowValues columns a.1 := by
      unfold Mirrors
      rw [hsearchable, tableAfter_eq hfits, show shown (staged writer) = _ from hdocs]
      exact docs_eq_iff docs_sublist (fun a ha => rows_present hfits ha)
    constructor
    · intro ⟨s', hout', hm⟩
      rw [hout] at hout'
      obtain ⟨-, rfl⟩ := Prod.mk.inj (Option.some.inj hout')
      exact ⟨hkeys, hmirrors.mp hm⟩
    · intro ⟨_, h⟩
      exact ⟨_, hout, hmirrors.mpr h⟩
  · have hfails := (feedBatches_fails hkeyed hfits hkeys hholds).outcome
    rw [hfails]
    simp [hkeys]

/-! ## Fixed histories -/

/-- The list keeps what is promised. -/
@[reducible] def listWriter_lawful : @LawfulIndexWriter (List Document × List Document) listWriter :=
  let _ := listWriter
  { staged := fun w => Multiset.ofList w.1
    searchable := fun w => Multiset.ofList w.2
    staged_addDocument := fun _ _ => rfl
    staged_deleteTerm := fun key w => by
      show Multiset.ofList (w.1.filter (·.key != key)) = _
      rw [Multiset.filter_coe]
      congr 2
      funext d
      simp [bne, Bool.beq_eq_decide_eq]
    staged_commit := fun _ => rfl
    searchable_commit := fun _ => rfl }

/-- A change of `p.docs`. -/
private def docsChange (commitLsn : Nat) (op : Op) (new old : Option Named) : Fed :=
  .change { commitLsn, xid := 1, table := "p.docs", op, new, old } ""

/-- A row is loaded and its key changed, another one is inserted and deleted. -/
def docsFeedings : List Feeding :=
  [⟨.backfill "1" [some "zephyr"] 10, .insert [some "1", some "zephyr"]⟩,
    ⟨docsChange 20 .insert (some [("id", .text "2"), ("body", .text "quokka")]) none,
      .insert [some "2", some "quokka"]⟩,
    ⟨docsChange 20 .update (some [("id", .text "3"), ("body", .text "marmot")])
        (some [("id", .text "1"), ("body", .null)]),
      .update [some "1", some "zephyr"] [some "3", some "marmot"]⟩,
    ⟨docsChange 30 .delete none (some [("id", .text "2"), ("body", .null)]),
      .delete [some "2", some "quokka"]⟩]

theorem index_mirrors_docs : letI := listWriter
    letI := listWriter_lawful
    ∃ s' : SearchStore (List Document × List Document),
      (feedBatches [(docsFeedings.take 1, 10), (docsFeedings.drop 1, 30)]).outcome
        (SearchStore.create "p.docs" ["body"] ["id"] ([], [])) = some ((), s') ∧
      Mirrors s' ["id", "body"] [[some "3", some "marmot"]] := by
  let _ := listWriter
  let _ := listWriter_lawful
  let s : SearchStore (List Document × List Document) := .create "p.docs" ["body"] ["id"] ([], [])
  have hfits : s.Fits ["id", "body"]
      ([(docsFeedings.take 1, 10), (docsFeedings.drop 1, 30)].flatMap Prod.fst) := by
    decide +kernel
  have hkeyed : s.isKeyed = true := rfl
  exact (index_mirrors hkeyed ⟨rfl, rfl⟩ hfits).mpr
    ((undisturbed_iff hfits).mpr ⟨by decide +kernel, by decide +kernel, by decide +kernel⟩)

/-- An update that does not change the large column. -/
def toastFeedings : List Feeding :=
  [⟨.backfill "1" [some "large"] 10, .insert [some "1", some "n", some "large"]⟩,
    ⟨docsChange 20 .update
        (some [("id", .text "1"), ("name", .text "m"), ("body", .unchangedToast)]) none,
      .update [some "1", some "n", some "large"] [some "1", some "m", some "large"]⟩]

/-- Two rows with different keys that join to the same string. -/
def joinFeedings : List Feeding :=
  [⟨docsChange 20 .insert
        (some [("a", .text "x\u001f"), ("b", .text "y"), ("body", .text "zephyr")]) none,
      .insert [some "x\u001f", some "y", some "zephyr"]⟩,
    ⟨docsChange 20 .insert
        (some [("a", .text "x"), ("b", .text "\u001fy"), ("body", .text "quokka")]) none,
      .insert [some "x", some "\u001fy", some "quokka"]⟩]

/-- The update loses the large column, and the second insert loses the first row. -/
theorem index_differs : letI := listWriter
    letI := listWriter_lawful
    (∃ (s s' : SearchStore (List Document × List Document)) (columns : List String),
      s.isKeyed = true ∧ s.Fits columns toastFeedings ∧
      RowChange.ValidFrom (s.rowKey columns) [] (toastFeedings.map fun f => (0, f.row)) ∧
      (feedBatches [(toastFeedings, 20)]).outcome s = some ((), s') ∧
      searchable s'.writer = {⟨"1", 20, [none]⟩} ∧
      ¬ Mirrors s' columns (s.tableAfter columns toastFeedings)) ∧
    ∃ (s s' : SearchStore (List Document × List Document)) (columns : List String),
      s.isKeyed = true ∧ s.Fits columns joinFeedings ∧
      RowChange.ValidFrom (s.rowKey columns) [] (joinFeedings.map fun f => (0, f.row)) ∧
      (feedBatches [(joinFeedings, 20)]).outcome s = some ((), s') ∧
      searchable s'.writer = {⟨"x\u001f\u001fy", 20, [some "quokka"]⟩} ∧
      ¬ Mirrors s' columns (s.tableAfter columns joinFeedings) := by
  let _ := listWriter
  let _ := listWriter_lawful
  constructor
  · exact ⟨.create "p.docs" ["body"] ["id"] ([], []), _, ["id", "name", "body"], by decide,
      by decide +kernel, by decide +kernel, rfl, by decide +kernel, by decide +kernel⟩
  · exact ⟨.create "p.docs" ["body"] ["a", "b"] ([], []), _, ["a", "b", "body"], by decide,
      by decide +kernel, by decide +kernel, rfl, by decide +kernel, by decide +kernel⟩

end GrayDB.Search
