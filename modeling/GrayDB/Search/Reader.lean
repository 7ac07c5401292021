import GrayDB.Search.Mirror

/-!
# `SearchReader`

A query opens the index of a table in its directory: first the file of the metadata, and
the index itself each time it searches.  The reader of the `tantivy` crate enters as the
class `IndexReader`; it sees the index as of the last commit.

`commitIndex` and `writeMeta` are the two parts of `commitBatch` between which a reader can
look, and `apply_keeps` says that it sees nothing of a change before that.
-/

namespace GrayDB.Search

open Lib Lib.Crash Registry

/-- The reader of the `tantivy` crate.  A hit is the key of a document and its score. -/
class IndexReader (W : Type) (I K : outParam Type) where
  /-- The index in the directory. -/
  image : W → I
  docs : I → Multiset Document
  /-- Search these columns, up to a number of hits. -/
  search : I → List String → String → Nat → Except SearchError (List (String × K))

export IndexReader (image docs)

/-- Documents become visible with a commit. -/
class LawfulIndexReader (W : Type) {I K : outParam Type} [IndexWriter W] [LawfulIndexWriter W]
    [IndexReader W I K] : Prop where
  docs_image : ∀ w : W, docs W (image w) = searchable w
  image_addDocument : ∀ d (w : W), image (IndexWriter.addDocument d w) = image w
  image_deleteTerm : ∀ key (w : W), image (IndexWriter.deleteTerm key w) = image w
  image_deleteAllDocuments : ∀ w : W, image (IndexWriter.deleteAllDocuments w) = image w

structure SearchReader where
  info : SearchMeta
  deriving DecidableEq, Repr

def SearchReader.search (W : Type) {I K : Type} [IndexReader W I K] (r : SearchReader) (index : I)
    (query : String) (limit : Nat) : Except SearchError (List (String × K)) :=
  IndexReader.search W index r.info.columns query limit

variable {W I K : Type} [IndexWriter W] [IndexReader W I K]

/-! ## A commit in two parts -/

/-- The index is committed, and the metadata in memory follow. -/
def commitIndex (appliedLsn : Nat) : SearchM W Unit := do
  IoM.call (.io (some "tantivy commit"))
    (fun s => { s with writer := IndexWriter.commit s.writer }) fun _ s => s
  IoM.modify fun s =>
    { s with info := { s.info with appliedLsn, commits := s.info.commits + 1 } }

/-- The file of the metadata. -/
def writeMeta : SearchM W Unit := IoM.call (.io none) id fun _ s => s

omit [IndexReader W I K] in
theorem commitBatch_eq (appliedLsn : Nat) :
    commitBatch appliedLsn = (commitIndex appliedLsn >>= fun _ => writeMeta : SearchM W Unit) :=
  (IoM.bind_assoc _ _ _).symm

omit [IndexReader W I K] in
theorem commitIndex_ok {lsn : Nat} {store : SearchStore W} {plan : List Outcome}
    {r : Flight (SearchStore W)} (h : commitIndex lsn ⟨store, plan, []⟩ = (.ok (), r)) :
    r.state = { store with
      writer := IndexWriter.commit store.writer
      info := { store.info with appliedLsn := lsn, commits := store.info.commits + 1 } } := by
  obtain ⟨_, r₁, hcall, hmodify⟩ := IoM.bind_ok_iff.mp h
  obtain ⟨-, rfl⟩ := IoM.call_ok_iff.mp hcall
  obtain ⟨-, rfl⟩ := Prod.mk.inj hmodify
  rfl

/-! ## What a reader sees -/

/-- The index, and the metadata behind its last commit. -/
def SearchStore.published (s : SearchStore W) : I × SearchMeta := (image s.writer, s.info)

variable (s : SearchStore W)

omit [IndexWriter W] in
theorem keyOrThrow_keeps (named : Named) : Keeps SearchStore.published (keyOrThrow named) s := by
  refine Keeps.bind_get ?_
  cases s.keyFromImage named with
  | error e => exact Keeps.throw
  | ok key => exact Keeps.pure

variable [LawfulIndexWriter W] [LawfulIndexReader W]

theorem addDoc_keeps (key : String) (values : List (Option String)) (lsn : Nat) :
    Keeps SearchStore.published (addDoc key values lsn) s :=
  Keeps.call (congrArg (·, s.info) (LawfulIndexReader.image_addDocument _ _)) fun _ => rfl

theorem published_deleteTerm (key : String) :
    SearchStore.published { s with writer := IndexWriter.deleteTerm key s.writer } = s.published :=
  congrArg (·, s.info) (LawfulIndexReader.image_deleteTerm _ _)

theorem updateDoc_keeps (named : Named) (old : Option Named) (lsn : Nat) :
    Keeps SearchStore.published (updateDoc named old lsn) s := by
  refine Keeps.bind (keyOrThrow_keeps s _) fun key s₁ _ => ?_
  refine Keeps.bind_modify (published_deleteTerm s₁ key) ?_
  exact Keeps.bind (keyOrThrow_keeps _ named) fun newKey s₂ _ =>
    Keeps.bind_get (addDoc_keeps s₂ newKey _ lsn)

/-- A change is not visible before the commit. -/
theorem apply_keeps (c : TypedChange) (syntheticKey : String) :
    Keeps SearchStore.published (apply c syntheticKey) s := by
  unfold apply
  cases c.op with
  | insert =>
    show Keeps _ (applyInsert c syntheticKey) s
    unfold applyInsert
    split
    · exact Keeps.throw
    · refine Keeps.bind (k := fun key => _) ?_ fun key s₁ _ => ?_
      · refine Keeps.bind_get ?_
        split
        · exact keyOrThrow_keeps s _
        · exact Keeps.pure
      · refine Keeps.bind_modify (published_deleteTerm s₁ key) (Keeps.bind_get ?_)
        exact addDoc_keeps _ key _ _
  | update =>
    refine Keeps.bind_get ?_
    split
    · split
      · exact Keeps.throw
      · exact updateDoc_keeps s _ _ _
    · exact Keeps.throw
  | delete =>
    refine Keeps.bind_get ?_
    split
    · split
      · exact Keeps.throw
      · refine Keeps.bind (keyOrThrow_keeps s _) fun key s₁ _ => ?_
        exact Keeps.modify (published_deleteTerm s₁ key)
    · exact Keeps.throw
  | truncate =>
    refine Keeps.call ?_ fun _ => rfl
    exact congrArg (·, s.info) (LawfulIndexReader.image_deleteAllDocuments _)

end GrayDB.Search
