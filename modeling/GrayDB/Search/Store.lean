import GrayDB.Lib.Crash
import GrayDB.Registry.Decoder

/-!
# `SearchStore`

The search index of one table.  A document is found again by its key: the values of
the key columns, or a synthetic key for a table without one.  The `tantivy` writer
enters as the class `IndexWriter`; adding, deleting all and committing can fail.

`Takes` is the condition under which a change is applied when no call fails, and
`apply_spec` its result.
-/

namespace GrayDB.Search

open Lib Lib.Crash Registry

structure Document where
  key : String
  lsn : Nat
  /-- The declared columns, in order. -/
  fields : List (Option String)
  deriving DecidableEq, Repr

/-- The writer of the `tantivy` crate. -/
class IndexWriter (W : Type) where
  addDocument : Document → W → W
  /-- Delete the documents with this key. -/
  deleteTerm : String → W → W
  deleteAllDocuments : W → W
  commit : W → W

/-- A writer that keeps the documents in a list, and what was last committed, for runs
on fixed inputs. -/
@[reducible] def listWriter : IndexWriter (List Document × List Document) where
  addDocument d w := (w.1 ++ [d], w.2)
  deleteTerm key w := (w.1.filter (·.key != key), w.2)
  deleteAllDocuments w := ([], w.2)
  commit w := (w.1, w.1)

structure SearchMeta where
  table : String
  columns : List String
  /-- Last committed batch LSN. -/
  appliedLsn : Nat := 0
  commits : Nat := 0
  deriving DecidableEq, Repr

structure SearchStore (W : Type) where
  table : String
  columns : List String
  /-- Empty is keyless (append-only). -/
  keyColumns : List String
  writer : W
  info : SearchMeta

inductive SearchError where
  | noImage (text : String)
  | keyMissing (column : String)
  | keyless (op : String)
  | io (context : Option String)
  deriving DecidableEq, Repr

/-- The text of an error of the index of `table`. -/
def SearchError.message (table : String) : SearchError → String
  | .noImage text => text
  | .keyMissing column => s!"{table}: key column {column} missing from image"
  | .keyless op => s!"{table}: {op} on keyless index"
  | .io context => context.getD "I/O error"

/-- The value of the first column of that name, when it is a text. -/
def columnText (named : Named) (column : String) : Option String :=
  match named.find? fun c => c.1 = column with
  | some (_, .text s) => some s
  | _ => none

namespace SearchStore

variable {W : Type}

def isKeyed (s : SearchStore W) : Bool := !s.keyColumns.isEmpty

def keyParts (named : Named) : List String → Except SearchError (List String)
  | [] => .ok []
  | kc :: kcs =>
    match columnText named kc with
    | none => .error (.keyMissing kc)
    | some v => (keyParts named kcs).map (v :: ·)

def keyFromImage (s : SearchStore W) (named : Named) : Except SearchError String :=
  (keyParts named s.keyColumns).map fun parts => "\u001f".intercalate parts

/-- A new index. -/
def create (table : String) (columns keyColumns : List String) (writer : W) : SearchStore W :=
  { table, columns, keyColumns, writer, info := { table, columns } }

/-- The declared columns of an image. -/
def project (s : SearchStore W) (named : Named) : List (Option String) :=
  s.columns.map (columnText named)

end SearchStore

abbrev SearchM (W : Type) := IoM SearchError (SearchStore W)

variable {W : Type}

def keyOrThrow (named : Named) : SearchM W String := do
  let s ← IoM.get
  match s.keyFromImage named with
  | .ok key => pure key
  | .error e => IoM.throw e

section Writer

variable [IndexWriter W]

open IndexWriter

def addDoc (key : String) (values : List (Option String)) (lsn : Nat) : SearchM W Unit :=
  IoM.call (.io none)
    (fun s => { s with writer := addDocument { key, lsn, fields := values } s.writer })
    fun _ s => s

def deleteKey (key : String) : SearchM W Unit :=
  IoM.modify fun s => { s with writer := deleteTerm key s.writer }

/-- A row of the backfill, with the values of the declared columns. -/
def indexBackfillRow (key : String) (values : List (Option String)) (lsn0 : Nat) : SearchM W Unit := do
  deleteKey key
  addDoc key values lsn0

/-- The key of an inserted row. -/
def insertKey (named : Named) (syntheticKey : String) : SearchM W String := do
  let s ← IoM.get
  if s.isKeyed then keyOrThrow named else pure syntheticKey

def applyInsert (change : TypedChange) (syntheticKey : String) : SearchM W Unit :=
  match change.new with
  | none => IoM.throw (.noImage "insert without image")
  | some named => do
    let key ← insertKey named syntheticKey
    -- replay idempotency
    deleteKey key
    let s ← IoM.get
    addDoc key (s.project named) change.commitLsn

def updateDoc (named : Named) (old : Option Named) (lsn : Nat) : SearchM W Unit := do
  let oldKey ← keyOrThrow (old.getD named)
  deleteKey oldKey
  let newKey ← keyOrThrow named
  let s ← IoM.get
  addDoc newKey (s.project named) lsn

def applyUpdate (change : TypedChange) : SearchM W Unit := do
  let s ← IoM.get
  if s.isKeyed then
    match change.new with
    | none => IoM.throw (.noImage "update without new image")
    | some named => updateDoc named change.old change.commitLsn
  else IoM.throw (.keyless "update")

def applyDelete (change : TypedChange) : SearchM W Unit := do
  let s ← IoM.get
  if s.isKeyed then
    match change.old with
    | none => IoM.throw (.noImage "delete without old image")
    | some old => do
      let key ← keyOrThrow old
      deleteKey key
  else IoM.throw (.keyless "delete")

def applyTruncate : SearchM W Unit :=
  IoM.call (.io none) (fun s => { s with writer := deleteAllDocuments s.writer }) fun _ s => s

/-- Apply one typed change. -/
def apply (change : TypedChange) (syntheticKey : String) : SearchM W Unit :=
  match change.op with
  | .insert => applyInsert change syntheticKey
  | .update => applyUpdate change
  | .delete => applyDelete change
  | .truncate => applyTruncate

/-- Commit the current batch; the watermark is then written to a file. -/
def commitBatch (appliedLsn : Nat) : SearchM W Unit := do
  IoM.call (.io (some "tantivy commit"))
    (fun s => { s with writer := IndexWriter.commit s.writer }) fun _ s => s
  IoM.modify fun s =>
    { s with info := { s.info with appliedLsn, commits := s.info.commits + 1 } }
  IoM.call (.io none) id fun _ s => s

end Writer

/-! ## Changes that are applied -/

/-- The image has a text for every key column. -/
def SearchStore.HasKey (s : SearchStore W) (named : Named) : Prop :=
  ∀ kc ∈ s.keyColumns, (columnText named kc).isSome

/-- The change fits the index. -/
def SearchStore.Takes (s : SearchStore W) (c : TypedChange) : Prop :=
  match c.op with
  | .insert => ∃ named ∈ c.new, s.isKeyed = true → s.HasKey named
  | .update => s.isKeyed = true ∧ ∃ named ∈ c.new, s.HasKey (c.old.getD named) ∧ s.HasKey named
  | .delete => s.isKeyed = true ∧ ∃ old ∈ c.old, s.HasKey old
  | .truncate => True

instance (s : SearchStore W) (named : Named) : Decidable (s.HasKey named) :=
  inferInstanceAs (Decidable (∀ kc ∈ s.keyColumns, (columnText named kc).isSome))

instance (s : SearchStore W) (c : TypedChange) : Decidable (s.Takes c) := by
  delta SearchStore.Takes
  exact match c.op with
    | .insert => inferInstance
    | .update => inferInstance
    | .delete => inferInstance
    | .truncate => inferInstance

private theorem exists_keyParts {named : Named} {kcs : List String}
    (h : ∀ kc ∈ kcs, (columnText named kc).isSome) : ∃ parts, SearchStore.keyParts named kcs = .ok parts := by
  induction kcs with
  | nil => exact ⟨[], rfl⟩
  | cons kc kcs ih =>
    obtain ⟨v, hv⟩ := Option.isSome_iff_exists.mp (h kc List.mem_cons_self)
    obtain ⟨parts, hparts⟩ := ih fun k hk => h k (List.mem_cons_of_mem kc hk)
    exact ⟨v :: parts, by simp [SearchStore.keyParts, hv, hparts, Except.map]⟩

theorem exists_keyFromImage {s : SearchStore W} {named : Named} (h : s.HasKey named) :
    ∃ key, s.keyFromImage named = .ok key := by
  obtain ⟨parts, hparts⟩ := exists_keyParts h
  exact ⟨_, by rw [SearchStore.keyFromImage, hparts, Except.map]⟩

theorem keyOrThrow_spec {s : SearchStore W} {named : Named} {key : String}
    (h : s.keyFromImage named = .ok key) :
    Returns (keyOrThrow named) s fun k s' => k = key ∧ s' = s := by
  refine Spec.bind_get ?_
  simp only [h]
  exact Spec.pure ⟨rfl, rfl⟩

variable [IndexWriter W]

theorem applyUpdate_spec {s : SearchStore W} {c : TypedChange} {named : Named}
    (hkeyed : s.isKeyed = true) (hnew : c.new = some named) (hold : s.HasKey (c.old.getD named))
    (hkey : s.HasKey named) : Returns (applyUpdate c) s fun _ _ => True := by
  obtain ⟨oldKey, hold⟩ := exists_keyFromImage hold
  obtain ⟨newKey, hkey⟩ := exists_keyFromImage hkey
  refine Spec.bind_get ?_
  rw [if_pos hkeyed, hnew]
  refine Spec.bind (keyOrThrow_spec hold) ?_
  rintro _ _ ⟨rfl, rfl⟩
  refine Spec.bind_modify (Spec.bind (keyOrThrow_spec hkey) ?_)
  rintro _ _ ⟨rfl, rfl⟩
  exact Spec.bind_get (Spec.call trivial trivial)

/-- A change that the index takes is applied. -/
theorem apply_spec {s : SearchStore W} {c : TypedChange} (h : s.Takes c) (syntheticKey : String) :
    Returns (apply c syntheticKey) s fun _ _ => True := by
  unfold SearchStore.Takes at h
  unfold apply
  cases hop : c.op with
  | insert =>
    rw [hop] at h
    obtain ⟨named, hnew, hkey⟩ := h
    have hinsert : Returns (insertKey named syntheticKey) s fun _ s' => s' = s := by
      refine Spec.bind_get ?_
      split
      · rename_i hkeyed
        obtain ⟨key, hkey⟩ := exists_keyFromImage (hkey hkeyed)
        exact Spec.weaken (keyOrThrow_spec hkey) fun _ _ h => h.2
      · exact Spec.pure rfl
    dsimp only
    rw [applyInsert, hnew]
    refine Spec.bind hinsert ?_
    rintro key _ rfl
    exact Spec.bind_modify (Spec.bind_get (Spec.call trivial trivial))
  | update =>
    rw [hop] at h
    obtain ⟨hkeyed, named, hnew, hold, hkey⟩ := h
    exact applyUpdate_spec hkeyed hnew hold hkey
  | delete =>
    rw [hop] at h
    obtain ⟨hkeyed, old, hold, hkey⟩ := h
    refine Spec.bind_get ?_
    rw [if_pos hkeyed, hold]
    obtain ⟨key, hkey⟩ := exists_keyFromImage hkey
    refine Spec.bind (keyOrThrow_spec hkey) ?_
    rintro _ _ ⟨rfl, rfl⟩
    exact Spec.modify trivial
  | truncate => exact Spec.call trivial trivial

theorem commitBatch_spec (s : SearchStore W) (appliedLsn : Nat) :
    Returns (commitBatch appliedLsn) s fun _ _ => True :=
  Spec.bind_call trivial (Spec.bind_modify (Spec.call trivial trivial))

end GrayDB.Search
