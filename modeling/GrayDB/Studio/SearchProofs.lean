import GrayDB.Columnar.Rendering
import GrayDB.Lib.Guarded
import GrayDB.Registry.Replay
import GrayDB.Studio.Engine

/-!
# The proofs of a search

A query says with which LSN its hits and its rows go.  `Query.Exact` is that it says so
rightly, and `Query.SamePosition` that all of them are of one commit position.

An index that is committed while the query is on its way breaks both: the metadata file was
read before, and the column stores were copied before.  `CommitsApart` excludes such commits,
and `search_proofs_exact` says that nothing else goes wrong.  `EngineInv` is the invariant
between the steps, and `Serves` its part about the query.
-/

namespace GrayDB.Studio

open Lib Lib.Crash Log Registry Columnar Search

variable {W I K : Type}

/-- The LSN of each row and that of the proof are those of the commit that made the index. -/
def Query.Exact (q : Query I K) : Prop :=
  ∀ call ∈ q.calls, (∀ row ∈ call.rows, row.appliedLsn = call.commitLsn) ∧
    ∀ proof ∈ q.proof, ∀ lsn, (Shape.search call.table, lsn) ∈ proof.shapes ↔ lsn = call.commitLsn

/-- The rows that were read, and the documents of the indexes that were searched, are those
of the pipeline `p`. -/
def Query.ReadsAt [FloatText] [IndexWriter W] [LawfulIndexWriter W] [IndexReader W I K]
    (b : Batching) (q : Query I K) (p : Pipeline W) : Prop :=
  p.snapshots q.target = .ok q.snapshots ∧
    (∀ part ∈ q.parts, ∃ store ∈ p.columnar.lookup part.name,
      part.segment.scan b part.readSet (q.target.getD maxLsn) store.files = some part.rows) ∧
    ∀ call ∈ q.calls, ∃ store ∈ p.search.lookup call.table,
      docs W call.index = staged store.writer

instance [FloatText] [IndexWriter W] [LawfulIndexWriter W] [IndexReader W I K] (b : Batching)
    (q : Query I K) (p : Pipeline W) : Decidable (q.ReadsAt b p) := by
  unfold Query.ReadsAt
  infer_instance

/-- The query has read one of these positions. -/
def Query.SamePosition [FloatText] [IndexWriter W] [LawfulIndexWriter W] [IndexReader W I K]
    (b : Batching) (positions : List (Pipeline W)) (q : Query I K) : Prop :=
  ∃ p ∈ positions, q.ReadsAt b p

instance [FloatText] [IndexWriter W] [LawfulIndexWriter W] [IndexReader W I K] (b : Batching)
    (positions : List (Pipeline W)) (q : Query I K) : Decidable (q.SamePosition b positions) :=
  inferInstanceAs (Decidable (∃ p ∈ positions, q.ReadsAt b p))

/-- No index is committed while a query is on its way; and then the column stores have room
for a segment. -/
def CommitsApart : EngineAct → Engine W I K → Prop
  | .commit _, σ => σ.query = none
  | .change _, σ => σ.query ≠ none →
      ∀ table, ∀ store ∈ σ.pipe.columnar.lookup table, store.segments.length < 2 ^ 32
  | _, _ => True

/-! ## What a change leaves -/

section Change

variable [FloatText] [IndexWriter W]

omit [IndexWriter W] in
theorem applyColumnar_extends {p : Pipeline W}
    (h : ∀ table, ∀ store ∈ p.columnar.lookup table, store.Numbered) (c : TypedChange)
    (plan : List Outcome) :
    Fallible (applyColumnar c) p plan (fun _ => True) (fun _ p' _ => p'.search = p.search ∧
      ∀ table, Option.Rel Extends (p.columnar.lookup table) (p'.columnar.lookup table))
      fun _ => True := by
  have hrefl : ∀ table, Option.Rel Extends (p.columnar.lookup table) (p.columnar.lookup table) := by
    intro table
    cases hstore : p.columnar.lookup table with
    | none => exact .none
    | some store => exact .some (.refl (h table store hstore))
  refine Fallible.bind_get ?_
  cases hstore : p.columnar.lookup c.table with
  | none => exact Fallible.pure ⟨rfl, hrefl⟩
  | some store =>
    refine Fallible.embed (Columnar.apply_extends (h _ store hstore) c plan) ?_ fun _ _ => trivial
    intro _ store' _ hextends
    refine ⟨rfl, fun table => ?_⟩
    by_cases htable : table = c.table
    · subst htable
      rw [AList.lookup_insert, hstore]
      exact .some hextends
    · rw [AList.lookup_insert_ne htable]
      exact hrefl table

variable [LawfulIndexWriter W] [IndexReader W I K] [LawfulIndexReader W]

/-- A reader sees the same of every index. -/
def SamePublished (p p' : Pipeline W) : Prop :=
  ∀ table, (p'.search.lookup table).map SearchStore.published
    = (p.search.lookup table).map SearchStore.published

omit [FloatText] in
theorem applySearch_published (p : Pipeline W) (c : TypedChange) (i : Nat) (plan : List Outcome) :
    Fallible (applySearch c i) p plan (fun _ => True) (fun touched p' _ =>
      p'.columnar = p.columnar ∧ SamePublished p p' ∧ (touched = false → p'.search = p.search))
      fun _ => True := by
  refine Fallible.bind_get ?_
  cases hstore : p.search.lookup c.table with
  | none => exact Fallible.pure ⟨rfl, fun _ => rfl, fun _ => rfl⟩
  | some store =>
    refine Fallible.bind (Q := fun _ p' _ => p'.columnar = p.columnar ∧ SamePublished p p') (Fallible.embed (Search.apply_keeps store c (searchKey i) plan) ?_
        fun _ _ => trivial) ?_
    · intro _ store' _ hpublished
      refine ⟨rfl, fun table => ?_⟩
      by_cases htable : table = c.table
      · subst htable
        rw [AList.lookup_insert, hstore]
        exact congrArg some hpublished
      · rw [AList.lookup_insert_ne htable]
    · intro _ p' _ ⟨hcolumnar, hpublished⟩
      exact Fallible.pure ⟨hcolumnar, hpublished, nofun⟩

theorem applyChange_leaves {p : Pipeline W}
    (h : ∀ table, ∀ store ∈ p.columnar.lookup table, store.Numbered) (c : TypedChange) (i : Nat)
    (plan : List Outcome) :
    Fallible (applyChange c i) p plan (fun _ => True) (fun touched p' _ =>
      (∀ table, Option.Rel Extends (p.columnar.lookup table) (p'.columnar.lookup table)) ∧
        SamePublished p p' ∧ (touched = false → p'.search = p.search)) fun _ => True := by
  refine Fallible.bind (applyColumnar_extends h c plan) fun _ p₁ plan₁ ⟨hsearch, hextends⟩ => ?_
  refine (applySearch_published p₁ c i plan₁).mono ?_ fun _ h => h
  intro touched p' _ ⟨hcolumnar, hpublished, huntouched⟩
  refine ⟨fun table => ?_, fun table => ?_, fun h => (huntouched h).trans hsearch⟩
  · rw [hcolumnar]
    exact hextends table
  · rw [hpublished table, hsearch]

end Change

/-! ## The invariant -/

/-- All that was applied to the index of `table` is committed. -/
def Phase.Clean : Phase → String → Prop
  | .free, _ => True
  | .applying _ _ touched _, _ => touched = false
  | .committing tables, table | .committed _ tables, table | .writing _ tables, table =>
    table ∉ tables

/-- The metadata file of `table` is behind its index. -/
def Phase.Lags : Phase → String → Prop
  | .committed t _, table | .writing t _, table => t = table
  | _, _ => False

section Invariant

variable [FloatText] [IndexWriter W] [LawfulIndexWriter W] [IndexReader W I K]

/-- The query has read what the pipeline was at the position `p`. -/
structure Serves (b : Batching) (σ : Engine W I K) (p : Pipeline W) (q : Query I K) : Prop where
  current : ∀ table, ¬ σ.phase.Lags table
  snapshots : p.snapshots q.target = .ok q.snapshots
  columnar : ∀ table, Option.Rel StillHas (p.columnar.lookup table) (σ.pipe.columnar.lookup table)
  published : SamePublished p σ.pipe
  clean : ∀ table, ∀ store ∈ p.search.lookup table, searchable store.writer = staged store.writer
  pending : ∀ table ∈ q.pending, table ∈ p.search
  readers : ∀ table, ∀ reader ∈ q.readers.lookup table,
    ∃ store ∈ p.search.lookup table, reader.info = store.info
  proof : ∀ proof ∈ q.proof, q.pending = [] ∧ proof.shapes = q.shapes
  parts : ∀ part ∈ q.parts, ∃ store ∈ p.columnar.lookup part.name,
    part.segment.scan b part.readSet (q.target.getD maxLsn) store.files = some part.rows
  calls : ∀ call ∈ q.calls, call.table ∈ q.readers ∧
    ∃ store ∈ p.search.lookup call.table, call.index = image store.writer ∧
      call.commitLsn = store.info.appliedLsn ∧
      ∀ row ∈ call.rows, row.appliedLsn = store.info.appliedLsn

structure EngineInv (b : Batching) (σ : Engine W I K) : Prop where
  numbered : ∀ table, ∀ store ∈ σ.pipe.columnar.lookup table, store.Numbered
  commitLsns : ∀ table, ∀ store ∈ σ.pipe.search.lookup table,
    σ.commitLsns.lookup table = some store.info.appliedLsn
  metaFiles : ∀ table, ∀ store ∈ σ.pipe.search.lookup table, ¬ σ.phase.Lags table →
    σ.metaFiles.lookup table = some store.info
  clean : ∀ table, ∀ store ∈ σ.pipe.search.lookup table, σ.phase.Clean table →
    searchable store.writer = staged store.writer
  position : σ.phase = .free → ∃ p ∈ σ.positions, p.lsn0 = σ.pipe.lsn0 ∧
    p.columnar = σ.pipe.columnar ∧ p.search = σ.pipe.search
  serves : ∀ q ∈ σ.query, ∃ p ∈ σ.positions, Serves b σ p q

/-- An engine behind its attach: everything is committed, and no one is at work. -/
structure Engine.Attached (σ : Engine W I K) : Prop where
  free : σ.phase = .free
  query : σ.query = none
  positions : σ.positions = [σ.pipe]
  numbered : ∀ table, ∀ store ∈ σ.pipe.columnar.lookup table, store.Numbered
  committed : ∀ table, ∀ store ∈ σ.pipe.search.lookup table,
    searchable store.writer = staged store.writer ∧
      σ.metaFiles.lookup table = some store.info ∧
      σ.commitLsns.lookup table = some store.info.appliedLsn

theorem Engine.Attached.inv {σ : Engine W I K} (h : σ.Attached) (b : Batching) : EngineInv b σ where
  numbered := h.numbered
  commitLsns table store hstore := (h.committed table store hstore).2.2
  metaFiles table store hstore _ := (h.committed table store hstore).2.1
  clean table store hstore _ := (h.committed table store hstore).1
  position _ := ⟨σ.pipe, by rw [h.positions]; exact List.mem_singleton_self _, rfl, rfl, rfl⟩
  serves q hq := by
    rw [h.query] at hq
    exact nomatch hq

variable {b : Batching} {σ σ' : Engine W I K} {p : Pipeline W} {q : Query I K}

/-- A step that leaves the stores and the commits leaves what the query has read. -/
theorem Serves.congr (h : Serves b σ p q) (hcolumnar : σ'.pipe.columnar = σ.pipe.columnar)
    (hsearch : σ'.pipe.search = σ.pipe.search) (hcurrent : ∀ table, ¬ σ'.phase.Lags table) :
    Serves b σ' p q :=
  { h with
    current := hcurrent
    columnar := by rw [hcolumnar]; exact h.columnar
    published := by rw [SamePublished, hsearch]; exact h.published }

/-- A store that a reader sees is one of the pipeline now. -/
theorem Serves.store (h : Serves b σ p q) {table : String} {store : SearchStore W}
    (hstore : store ∈ p.search.lookup table) :
    ∃ store' ∈ σ.pipe.search.lookup table, (image store'.writer : I) = image store.writer ∧
      store'.info = store.info := by
  have hpublished := h.published table
  rw [Option.mem_def.mp hstore] at hpublished
  obtain ⟨store', hstore', heq⟩ := Option.map_eq_some_iff.mp hpublished
  obtain ⟨himage, hinfo⟩ := Prod.mk.inj heq
  exact ⟨store', hstore', himage, hinfo⟩

/-! ## The steps of a tick -/

/-- Only the cursors and the watermark move, and the phase. -/
theorem EngineInv.move (h : EngineInv b σ) {pipe : Pipeline W} (phase : Phase)
    (hlsn0 : pipe.lsn0 = σ.pipe.lsn0) (hcolumnar : pipe.columnar = σ.pipe.columnar)
    (hsearch : pipe.search = σ.pipe.search) (hfree : phase = .free → σ.phase = .free)
    (hlags : ∀ table, phase.Lags table ↔ σ.phase.Lags table)
    (hclean : ∀ table ∈ σ.pipe.search, phase.Clean table → σ.phase.Clean table) :
    EngineInv b { σ with pipe, phase } where
  numbered := by
    dsimp only
    rw [hcolumnar]
    exact h.numbered
  commitLsns := by
    dsimp only
    rw [hsearch]
    exact h.commitLsns
  metaFiles table store hstore hnot := by
    dsimp only at hstore
    rw [hsearch] at hstore
    exact h.metaFiles table store hstore (mt (hlags table).mpr hnot)
  clean table store hstore hphase := by
    dsimp only at hstore
    rw [hsearch] at hstore
    have hmem : table ∈ σ.pipe.search :=
      AList.lookup_isSome.mp (Option.isSome_iff_exists.mpr ⟨store, hstore⟩)
    exact h.clean table store hstore (hclean table hmem hphase)
  position hphase := by
    obtain ⟨p, hp, hp₀, hpcolumnar, hpsearch⟩ := h.position (hfree hphase)
    exact ⟨p, hp, hp₀.trans hlsn0.symm, hpcolumnar.trans hcolumnar.symm, hpsearch.trans hsearch.symm⟩
  serves q hq := by
    obtain ⟨p, hp, hserves⟩ := h.serves q hq
    exact ⟨p, hp, hserves.congr hcolumnar hsearch fun table ht =>
      hserves.current table ((hlags table).mp ht)⟩

theorem EngineInv.begin (h : EngineInv b σ) (hfree : σ.phase = .free) (tail : LogTail)
    (batch : TailBatch) : EngineInv b (σ.begin tail batch) := by
  have haborted : ∀ p : Pipeline W, (p.aborted batch.rewound).lsn0 = p.lsn0 ∧
      (p.aborted batch.rewound).columnar = p.columnar ∧
      (p.aborted batch.rewound).search = p.search := by
    intro p
    unfold Pipeline.aborted
    split
    · exact ⟨rfl, rfl, rfl⟩
    · exact ⟨rfl, rfl, rfl⟩
  obtain ⟨hlsn0, hcolumnar, hsearch⟩ := haborted { σ.pipe with tail }
  have hidle : ∀ pipe : Pipeline W, pipe.lsn0 = σ.pipe.lsn0 → pipe.columnar = σ.pipe.columnar →
      pipe.search = σ.pipe.search → EngineInv b { σ with pipe } := fun pipe h₀ hc hs =>
    h.move σ.phase h₀ hc hs id (fun _ => Iff.rfl) fun _ _ => id
  unfold Engine.begin
  dsimp only
  split
  · exact hidle _ hlsn0 hcolumnar hsearch
  split
  · exact hidle _ hlsn0 hcolumnar hsearch
  split
  · exact hidle _ hlsn0 hcolumnar hsearch
  · refine h.move _ hlsn0 hcolumnar hsearch nofun (fun table => ?_) fun table _ _ => ?_
    · rw [hfree]
      exact Iff.rfl
    · rw [hfree]
      trivial

theorem EngineInv.raise (h : EngineInv b σ) (hstep : σ.raise = some σ') : EngineInv b σ' := by
  unfold Engine.raise at hstep
  split at hstep
  · rename_i index touched lastCommitLsn hphase
    obtain rfl := Option.some.inj hstep
    refine h.move _ rfl rfl rfl nofun (fun table => ?_) fun table hmem hclean => ?_
    · rw [hphase]
      exact Iff.rfl
    · rw [hphase]
      show touched = false
      cases touched with
      | false => rfl
      | true => exact absurd hmem hclean
  · exact nomatch hstep

theorem EngineInv.finish (h : EngineInv b σ) (hstep : σ.finish = some σ') : EngineInv b σ' := by
  unfold Engine.finish at hstep
  split at hstep
  · rename_i hphase
    obtain rfl := Option.some.inj hstep
    refine ⟨h.numbered, h.commitLsns, fun table store hstore _ => ?_, fun table store hstore _ => ?_,
      fun _ => ?_, fun q hq => ?_⟩
    · exact h.metaFiles table store hstore (by rw [hphase]; exact id)
    · exact h.clean table store hstore (by rw [hphase]; exact List.not_mem_nil)
    · exact ⟨σ.pipe, List.mem_append_right _ (List.mem_singleton_self _), rfl, rfl, rfl⟩
    · obtain ⟨p, hp, hserves⟩ := h.serves q hq
      exact ⟨p, List.mem_append_left _ hp, hserves.congr rfl rfl fun _ => id⟩
  · exact nomatch hstep

theorem EngineInv.change [LawfulIndexReader W] (h : EngineInv b σ) {plan : List Outcome}
    (hguard : CommitsApart (.change plan) σ) (hstep : σ.change plan = some σ')
    (hfailed : σ'.failed = false) : EngineInv b σ' := by
  unfold Engine.change at hstep
  split at hstep
  · rename_i index c cs touched lastCommitLsn hphase
    split at hstep
    · rename_i t r happly
      obtain rfl := Option.some.inj hstep
      obtain ⟨hextends, hpublished, huntouched⟩ :=
        (applyChange_leaves h.numbered c index plan).of_ok happly
      have hold : ∀ table, ∀ store ∈ r.state.search.lookup table,
          ∃ store' ∈ σ.pipe.search.lookup table, (image store.writer : I) = image store'.writer ∧
            store.info = store'.info := by
        intro table store hstore
        have heq := hpublished table
        rw [Option.mem_def.mp hstore] at heq
        obtain ⟨store', hstore', heq⟩ := Option.map_eq_some_iff.mp heq.symm
        obtain ⟨himage, hinfo⟩ := Prod.mk.inj heq
        exact ⟨store', hstore', himage.symm, hinfo.symm⟩
      have hlags : ∀ table, ¬ σ.phase.Lags table := by
        intro table
        rw [hphase]
        exact id
      refine ⟨fun table store hstore => ?_, fun table store hstore => ?_,
        fun table store hstore _ => ?_, fun table store hstore hclean => ?_, nofun, fun q hq => ?_⟩
      · have hrel := hextends table
        rw [Option.mem_def.mp hstore] at hrel
        generalize σ.pipe.columnar.lookup table = o at hrel
        cases hrel with
        | some hextends => exact hextends.numbered
      · obtain ⟨store', hstore', -, hinfo⟩ := hold table store hstore
        rw [hinfo]
        exact h.commitLsns table store' hstore'
      · obtain ⟨store', hstore', -, hinfo⟩ := hold table store hstore
        rw [hinfo]
        exact h.metaFiles table store' hstore' (hlags table)
      · obtain ⟨htouched, rfl⟩ := Bool.or_eq_false_iff.mp hclean
        dsimp only at hstore
        rw [huntouched rfl] at hstore
        exact h.clean table store hstore (by rw [hphase]; exact htouched)
      · obtain ⟨p, hp, hserves⟩ := h.serves q hq
        have hroom := hguard (by rw [hq]; exact nofun)
        refine ⟨p, hp, { hserves with current := fun _ => id, columnar := ?_, published := ?_ }⟩
        · intro table
          have hrel := hserves.columnar table
          have hnext := hextends table
          have hroom := hroom table
          generalize p.columnar.lookup table = o at hrel ⊢
          generalize σ.pipe.columnar.lookup table = o₁ at hrel hnext hroom
          dsimp only
          generalize r.state.columnar.lookup table = o₂ at hnext ⊢
          cases hrel with
          | none =>
            cases hnext
            exact .none
          | some hhas =>
            cases hnext with
            | some hextends => exact .some (hhas.extends hextends (hroom _ rfl))
        · exact fun table => (hpublished table).trans (hserves.published table)
    · obtain rfl := Option.some.inj hstep
      exact nomatch hfailed
  · exact nomatch hstep

theorem EngineInv.commit (h : EngineInv b σ) {plan : List Outcome}
    (hguard : CommitsApart (.commit plan) σ) (hstep : σ.commit plan = some σ')
    (hfailed : σ'.failed = false) : EngineInv b σ' := by
  have hquery : σ.query = none := hguard
  unfold Engine.commit at hstep
  split at hstep
  · rename_i table tables hphase
    split at hstep
    · rename_i hnone
      obtain rfl := Option.some.inj hstep
      refine h.move _ rfl rfl rfl nofun (fun t => ?_) fun t hmem hclean => ?_
      · rw [hphase]
        exact Iff.rfl
      · rw [hphase]
        intro hmem'
        rcases List.mem_cons.mp hmem' with rfl | hmem'
        · exact AList.lookup_eq_none.mp hnone hmem
        · exact hclean hmem'
    · rename_i store hstore
      split at hstep
      · rename_i r hcommit
        obtain rfl := Option.some.inj hstep
        have hlags : ∀ t, ¬ σ.phase.Lags t := by
          intro t
          rw [hphase]
          exact id
        refine ⟨h.numbered, fun t u hu => ?_, fun t u hu hnot => ?_, fun t u hu hclean => ?_,
          nofun, fun q hq => ?_⟩
        · by_cases ht : t = table
          · subst ht
            obtain rfl := Option.mem_unique hu (AList.lookup_insert _)
            rw [commitIndex_ok hcommit]
            exact AList.lookup_insert _
          · dsimp only at hu ⊢
            rw [AList.lookup_insert_ne ht] at hu ⊢
            exact h.commitLsns t u hu
        · have ht : t ≠ table := fun heq => hnot heq.symm
          dsimp only at hu ⊢
          rw [AList.lookup_insert_ne ht] at hu
          exact h.metaFiles t u hu (hlags t)
        · by_cases ht : t = table
          · subst ht
            obtain rfl := Option.mem_unique hu (AList.lookup_insert _)
            rw [commitIndex_ok hcommit]
            exact (LawfulIndexWriter.searchable_commit _).trans
              (LawfulIndexWriter.staged_commit _).symm
          · dsimp only at hu
            rw [AList.lookup_insert_ne ht] at hu
            refine h.clean t u hu ?_
            rw [hphase]
            exact fun hmem => (List.mem_cons.mp hmem).elim ht hclean
        · exact nomatch hquery.symm.trans hq
      · obtain rfl := Option.some.inj hstep
        exact nomatch hfailed
  · exact nomatch hstep

/-- While a metadata file is behind, there is no query. -/
theorem EngineInv.query_eq_none (h : EngineInv b σ) {table : String} (hlags : σ.phase.Lags table) :
    σ.query = none := by
  cases hq : σ.query with
  | none => rfl
  | some q =>
    obtain ⟨p, -, hserves⟩ := h.serves q hq
    exact absurd hlags (hserves.current table)

theorem EngineInv.truncateMeta (h : EngineInv b σ) (hstep : σ.truncateMeta = some σ') :
    EngineInv b σ' := by
  unfold Engine.truncateMeta at hstep
  split at hstep
  · rename_i table tables hphase
    have hquery : σ.query = none := h.query_eq_none (by rw [hphase]; exact rfl)
    obtain rfl := Option.some.inj hstep
    refine ⟨h.numbered, h.commitLsns, fun t store hstore hnot => ?_,
      fun t store hstore hclean => ?_, nofun, fun q hq => ?_⟩
    · have ht : t ≠ table := fun heq => hnot heq.symm
      dsimp only
      rw [AList.lookup_erase_ne ht]
      exact h.metaFiles t store hstore (by rw [hphase]; exact hnot)
    · exact h.clean t store hstore (by rw [hphase]; exact hclean)
    · exact nomatch hquery.symm.trans hq
  · exact nomatch hstep

theorem EngineInv.writeMeta (h : EngineInv b σ) (hstep : σ.writeMeta = some σ') :
    EngineInv b σ' := by
  unfold Engine.writeMeta at hstep
  split at hstep
  · rename_i table tables hphase
    have hquery : σ.query = none := h.query_eq_none (by rw [hphase]; exact rfl)
    obtain ⟨store, hstore, hstep⟩ := Option.bind_eq_some_iff.mp hstep
    obtain rfl := Option.some.inj hstep
    refine ⟨h.numbered, h.commitLsns, fun t u hu _ => ?_, fun t u hu hclean => ?_, nofun,
      fun q hq => ?_⟩
    · by_cases ht : t = table
      · subst ht
        obtain rfl := Option.mem_unique hstore hu
        exact AList.lookup_insert _
      · dsimp only
        rw [AList.lookup_insert_ne ht]
        refine h.metaFiles t u hu ?_
        rw [hphase]
        exact fun heq => ht heq.symm
    · exact h.clean t u hu (by rw [hphase]; exact hclean)
    · exact nomatch hquery.symm.trans hq
  · exact nomatch hstep

/-! ## The steps of a query -/

/-- The query moves on. -/
theorem EngineInv.read (h : EngineInv b σ) {query : Option (Query I K)}
    (hserves : ∀ q ∈ query, ∃ p ∈ σ.positions, Serves b σ p q) :
    EngineInv b { σ with query } :=
  { h with
    serves := fun q hq => by
      obtain ⟨p, hp, hq⟩ := hserves q hq
      exact ⟨p, hp, hq.congr rfl rfl hq.current⟩ }

theorem EngineInv.snapshot (h : EngineInv b σ) {target : Option Nat}
    (hstep : σ.snapshot target = some σ') : EngineInv b σ' := by
  unfold Engine.snapshot at hstep
  split at hstep
  · rename_i snapshots hphase hquery hsnapshots
    obtain rfl := Option.some.inj hstep
    refine h.read fun q hq => ?_
    obtain rfl := Option.some.inj hq
    obtain ⟨p, hp, hlsn0, hcolumnar, hsearch⟩ := h.position hphase
    refine ⟨p, hp, ?_⟩
    have hsame : p.snapshots target = σ.pipe.snapshots target := by
      rw [Pipeline.snapshots, hlsn0, hcolumnar]
      rfl
    refine {
      current := fun table => by rw [hphase]; exact id
      snapshots := hsame.trans hsnapshots
      columnar := fun table => ?_
      published := fun table => by rw [hsearch]
      clean := fun table store hstore => ?_
      pending := fun table htable => ?_
      readers := nofun
      proof := nofun
      parts := nofun
      calls := nofun }
    · rw [hcolumnar]
      cases σ.pipe.columnar.lookup table with
      | none => exact .none
      | some store => exact .some (.refl store)
    · rw [hsearch] at hstore
      exact h.clean table store hstore (by rw [hphase]; trivial)
    · rw [hsearch]
      exact htable
  · exact nomatch hstep

theorem EngineInv.openReader (h : EngineInv b σ) {table : String}
    (hstep : σ.openReader table = some σ') : EngineInv b σ' := by
  unfold Engine.openReader at hstep
  obtain ⟨q, hq, hstep⟩ := Option.bind_eq_some_iff.mp hstep
  split at hstep
  · rename_i hpending
    split at hstep
    · obtain rfl := Option.some.inj hstep
      exact h.read nofun
    · rename_i info hinfo
      obtain rfl := Option.some.inj hstep
      refine h.read fun q' hq' => ?_
      obtain rfl := Option.some.inj hq'
      obtain ⟨p, hp, hserves⟩ := h.serves q hq
      obtain ⟨store, hstore⟩ := Option.isSome_iff_exists.mp
        (AList.lookup_isSome.mpr (hserves.pending table hpending))
      obtain ⟨store', hstore', -, hsame⟩ := hserves.store hstore
      have hfile := h.metaFiles table store' hstore' (hserves.current table)
      obtain rfl : store'.info = info := Option.some.inj (hfile.symm.trans hinfo)
      have hproof : q.proof = none := by
        cases hproof : q.proof with
        | none => rfl
        | some proof =>
          rw [(hserves.proof proof hproof).1] at hpending
          exact absurd hpending List.not_mem_nil
      refine ⟨p, hp, { hserves with pending := ?_, readers := ?_, proof := ?_, calls := ?_ }⟩
      · exact fun t ht => hserves.pending t (List.mem_of_mem_erase ht)
      · intro t reader hreader
        by_cases ht : t = table
        · subst ht
          obtain rfl := Option.mem_unique hreader (AList.lookup_insert _)
          exact ⟨store, hstore, hsame⟩
        · dsimp only at hreader
          rw [AList.lookup_insert_ne ht] at hreader
          exact hserves.readers t reader hreader
      · intro proof hsome
        exact nomatch hproof.symm.trans hsome
      · intro call hcall
        obtain ⟨hreader, hcall⟩ := hserves.calls call hcall
        exact ⟨(AList.mem_insert _).mpr (Or.inr hreader), hcall⟩
  · exact nomatch hstep

theorem EngineInv.run (h : EngineInv b σ) {receivedLsn : Nat}
    (hstep : σ.run receivedLsn = some σ') : EngineInv b σ' := by
  unfold Engine.run at hstep
  obtain ⟨q, hq, hstep⟩ := Option.bind_eq_some_iff.mp hstep
  split at hstep
  · rename_i hready
    obtain rfl := Option.some.inj hstep
    refine h.read fun q' hq' => ?_
    obtain rfl := Option.some.inj hq'
    obtain ⟨p, hp, hserves⟩ := h.serves q hq
    refine ⟨p, hp, { hserves with proof := fun proof hproof => ?_ }⟩
    obtain rfl := Option.some.inj hproof
    exact ⟨hready.1, rfl⟩
  · exact nomatch hstep

omit [IndexWriter W] [LawfulIndexWriter W] in
/-- A snapshot is that of a store. -/
private theorem exists_of_snapshots {target : Option Nat} {snapshots : List TableSnapshot}
    (h : p.snapshots target = .ok snapshots) {snap : TableSnapshot} (hsnap : snap ∈ snapshots) :
    ∃ store ∈ p.columnar.lookup snap.name, snap.segments = store.segmentsSnapshot ∧
      snap.targetLsn = target.getD maxLsn := by
  obtain ⟨⟨name, store⟩, hentry, hsnap⟩ := exists_of_mapM_eq_ok h hsnap
  unfold snapshotOf at hsnap
  cases hoverlay : store.openRowsBatch (target.getD maxLsn) with
  | error e =>
    simp only [hoverlay] at hsnap
    exact nomatch hsnap
  | ok overlay =>
    simp only [hoverlay] at hsnap
    obtain rfl := Except.ok.inj hsnap
    exact ⟨store, AList.mem_lookup_iff.mpr hentry, rfl, rfl⟩

theorem EngineInv.scan (h : EngineInv b σ) {name : String} {segment : Nat} {readSet : List Nat}
    (hstep : σ.scan b name segment readSet = some σ') : EngineInv b σ' := by
  unfold Engine.scan at hstep
  obtain ⟨q, hq, hstep⟩ := Option.bind_eq_some_iff.mp hstep
  split at hstep
  · obtain ⟨snap, hsnap, hstep⟩ := Option.bind_eq_some_iff.mp hstep
    obtain ⟨seg, hseg, hstep⟩ := Option.bind_eq_some_iff.mp hstep
    obtain ⟨store, hstore, hstep⟩ := Option.bind_eq_some_iff.mp hstep
    split at hstep
    · obtain rfl := Option.some.inj hstep
      exact h.read nofun
    · rename_i rows hrows
      obtain rfl := Option.some.inj hstep
      refine h.read fun q' hq' => ?_
      obtain rfl := Option.some.inj hq'
      obtain ⟨p, hp, hserves⟩ := h.serves q hq
      refine ⟨p, hp, { hserves with parts := fun part hpart => ?_ }⟩
      rcases List.mem_append.mp hpart with hpart | hpart
      · exact hserves.parts part hpart
      · obtain rfl := List.mem_singleton.mp hpart
        obtain rfl : snap.name = name := by simpa using List.find?_some hsnap
        obtain ⟨store₀, hstore₀, hsegments, htarget⟩ :=
          exists_of_snapshots hserves.snapshots (List.mem_of_find?_eq_some hsnap)
        have hrel := hserves.columnar snap.name
        rw [Option.mem_def.mp hstore₀, hstore] at hrel
        cases hrel with
        | some hhas =>
          refine ⟨store₀, hstore₀, ?_⟩
          have hmem : seg ∈ store₀.segmentsSnapshot := hsegments ▸ List.mem_of_getElem? hseg
          rw [← htarget, ← hhas.scan_later hmem]
          exact hrows
  · exact nomatch hstep

theorem EngineInv.search (h : EngineInv b σ) {table query : String}
    (hstep : σ.search table query = some σ') : EngineInv b σ' := by
  unfold Engine.search at hstep
  obtain ⟨q, hq, hstep⟩ := Option.bind_eq_some_iff.mp hstep
  split at hstep
  · split at hstep
    · obtain rfl := Option.some.inj hstep
      exact h.read nofun
    · rename_i reader hreader
      obtain ⟨store, hstore, hstep⟩ := Option.bind_eq_some_iff.mp hstep
      obtain ⟨commitLsn, hcommitLsn, hstep⟩ := Option.bind_eq_some_iff.mp hstep
      dsimp only at hstep
      split at hstep
      · obtain rfl := Option.some.inj hstep
        exact h.read nofun
      · rename_i hits hhits
        obtain rfl := Option.some.inj hstep
        refine h.read fun q' hq' => ?_
        obtain rfl := Option.some.inj hq'
        obtain ⟨p, hp, hserves⟩ := h.serves q hq
        refine ⟨p, hp, { hserves with calls := fun call hcall => ?_ }⟩
        rcases List.mem_append.mp hcall with hcall | hcall
        · exact hserves.calls call hcall
        · obtain rfl := List.mem_singleton.mp hcall
          obtain ⟨store₀, hstore₀, hinfo⟩ := hserves.readers table reader hreader
          obtain ⟨store', hstore', himage, hsame⟩ := hserves.store hstore₀
          obtain rfl := Option.mem_unique hstore hstore'
          have hcommitted := h.commitLsns table store hstore
          refine ⟨AList.lookup_isSome.mp (Option.isSome_iff_exists.mpr ⟨reader, hreader⟩), store₀,
            hstore₀, himage, ?_, fun row hrow => ?_⟩
          · rw [← hsame]
            exact Option.some.inj (hcommitLsn.symm.trans hcommitted)
          · obtain ⟨hit, -, rfl⟩ := List.mem_map.mp hrow
            exact congrArg SearchMeta.appliedLsn hinfo
  · exact nomatch hstep

/-! ## Runs -/

omit [LawfulIndexWriter W] in
/-- A tick that has failed is not forgotten. -/
theorem failed_of_step {act : EngineAct} (hstep : act.step b σ = some σ')
    (hfailed : σ.failed = true) : σ'.failed = true := by
  cases act with
  | begin tail batch =>
    simp only [EngineAct.step] at hstep
    split at hstep
    · obtain rfl := Option.some.inj hstep
      unfold Engine.begin
      dsimp only
      repeat' split
      all_goals exact hfailed
    · exact nomatch hstep
  | change plan => grind [EngineAct.step, Engine.change, Engine.stop]
  | raise => grind [EngineAct.step, Engine.raise]
  | commit plan =>
    simp only [EngineAct.step, Engine.commit] at hstep
    split at hstep
    · split at hstep
      · obtain rfl := Option.some.inj hstep
        exact hfailed
      · split at hstep
        · obtain rfl := Option.some.inj hstep
          exact hfailed
        · obtain rfl := Option.some.inj hstep
          rfl
    · exact nomatch hstep
  | truncateMeta => grind [EngineAct.step, Engine.truncateMeta]
  | writeMeta =>
    simp only [EngineAct.step, Engine.writeMeta, Option.bind_eq_bind] at hstep
    grind [Option.bind_eq_some_iff]
  | finish => grind [EngineAct.step, Engine.finish]
  | fail => grind [EngineAct.step, Engine.fail, Engine.stop]
  | snapshot target =>
    simp only [EngineAct.step, Engine.snapshot] at hstep
    split at hstep
    · obtain rfl := Option.some.inj hstep
      exact hfailed
    · exact nomatch hstep
  | openReader table =>
    simp only [EngineAct.step, Engine.openReader, Option.bind_eq_bind] at hstep
    grind [Option.bind_eq_some_iff]
  | run receivedLsn =>
    simp only [EngineAct.step, Engine.run, Option.bind_eq_bind] at hstep
    grind [Option.bind_eq_some_iff]
  | scan name segment readSet =>
    simp only [EngineAct.step, Engine.scan, Option.bind_eq_bind] at hstep
    grind [Option.bind_eq_some_iff]
  | search table query =>
    simp only [EngineAct.step, Engine.search, Option.bind_eq_bind] at hstep
    grind [Option.bind_eq_some_iff]
  | close => grind [EngineAct.step, Engine.close]

theorem EngineInv.step [LawfulIndexReader W] (h : EngineInv b σ) {act : EngineAct}
    (hguard : CommitsApart act σ) (hstep : act.step b σ = some σ') (hfailed : σ'.failed = false) :
    EngineInv b σ' := by
  cases act with
  | begin tail batch =>
    change (if σ.phase = .free then some (σ.begin tail batch) else none) = some σ' at hstep
    split at hstep
    · rename_i hfree
      obtain rfl := Option.some.inj hstep
      exact h.begin hfree tail batch
    · exact nomatch hstep
  | change plan => exact h.change hguard hstep hfailed
  | raise => exact h.raise hstep
  | commit plan => exact h.commit hguard hstep hfailed
  | truncateMeta => exact h.truncateMeta hstep
  | writeMeta => exact h.writeMeta hstep
  | finish => exact h.finish hstep
  | fail =>
    change σ.fail = some σ' at hstep
    unfold Engine.fail at hstep
    split at hstep
    · obtain rfl := Option.some.inj hstep
      exact nomatch hfailed
    · obtain rfl := Option.some.inj hstep
      exact nomatch hfailed
    · exact nomatch hstep
  | snapshot target => exact h.snapshot hstep
  | openReader table => exact h.openReader hstep
  | run receivedLsn => exact h.run hstep
  | scan name segment readSet => exact h.scan hstep
  | search table query => exact h.search hstep
  | close =>
    obtain rfl := Option.some.inj hstep
    exact h.read nofun


theorem Serves.exact (h : Serves b σ p q) : q.Exact := by
  intro call hcall
  obtain ⟨hreader, store, hstore, -, hlsn, hrows⟩ := h.calls call hcall
  refine ⟨fun row hrow => (hrows row hrow).trans hlsn.symm, fun proof hproof lsn => ?_⟩
  obtain ⟨reader, hlookup⟩ := Option.isSome_iff_exists.mp (AList.lookup_isSome.mpr hreader)
  obtain ⟨store', hstore', hinfo⟩ := h.readers call.table reader hlookup
  obtain rfl := Option.mem_unique hstore hstore'
  rw [(h.proof proof hproof).2, Query.shapes, hlsn, ← hinfo]
  constructor
  · intro hmem
    rcases List.mem_append.mp hmem with hmem | hmem
    · obtain ⟨snap, -, heq⟩ := List.mem_map.mp hmem
      exact nomatch heq
    · obtain ⟨⟨table, reader'⟩, hentry, heq⟩ := List.mem_map.mp hmem
      obtain ⟨hshape, rfl⟩ := Prod.mk.inj heq
      obtain rfl := Shape.search.inj hshape
      obtain rfl := Option.mem_unique (AList.mem_lookup_iff.mpr hentry) hlookup
      rfl
  · rintro rfl
    exact List.mem_append_right _ (List.mem_map.mpr
      ⟨⟨call.table, reader⟩, AList.mem_lookup_iff.mp hlookup, rfl⟩)

theorem Serves.samePosition [LawfulIndexReader W] (h : Serves b σ p q) {positions : List (Pipeline W)}
    (hp : p ∈ positions) : q.SamePosition b positions := by
  refine ⟨p, hp, h.snapshots, h.parts, fun call hcall => ?_⟩
  obtain ⟨-, store, hstore, hindex, -⟩ := h.calls call hcall
  refine ⟨store, hstore, ?_⟩
  rw [hindex, LawfulIndexReader.docs_image]
  exact h.clean call.table store hstore

/-- **Search proofs are exact** in every run in which no index is committed while a query is
on its way, as long as no tick has failed. -/
theorem search_proofs_exact [LawfulIndexReader W] {σ₀ : Engine W I K} (hstart : σ₀.Attached)
    (hrun : GuardedRun (EngineStep b) CommitsApart σ₀ σ) (hfailed : σ.failed = false) :
    ∀ q ∈ σ.query, q.Exact ∧ q.SamePosition b σ.positions := by
  have hkept : ∀ act (s s' : Engine W I K), CommitsApart act s → EngineStep b act s s' →
      (s.failed = false → EngineInv b s) → s'.failed = false → EngineInv b s' := by
    intro act s s' hguard hstep h hfailed
    refine EngineInv.step (h ?_) hguard hstep hfailed
    cases hs : s.failed with
    | false => rfl
    | true => exact nomatch hfailed.symm.trans (failed_of_step hstep hs)
  have hinv : σ.failed = false → EngineInv b σ := hrun.invariant hkept fun _ => hstart.inv b
  intro q hq
  obtain ⟨p, hp, hserves⟩ := (hinv hfailed).serves q hq
  exact ⟨hserves.exact, hserves.samePosition hp⟩

end Invariant

/-! ## Runs on fixed inputs -/

/-- Documents in a list; a hit is a document with the query in one of its columns. -/
@[reducible] def listReader : IndexReader (List Document × List Document) (List Document) Nat where
  image w := w.2
  docs index := Multiset.ofList index
  search index _ query limit := .ok (((index.filter fun d =>
    d.fields.contains (some query)).map fun d => (d.key, 1)).take limit)

def wholeFile : Batching where
  cut _ rows := [rows]
  flatten_cut _ rows := by simp

/-- An engine with a column store and an index of `p.u`, both empty at 10. -/
def attached : Engine (List Document × List Document) (List Document) Nat :=
  let store : TableStore :=
    { table := "p.u", columns := [{ name := "a", typeOid := 25, isKey := false }], flushRows := 100 }
  let info : SearchMeta := { table := "p.u", columns := ["a"], appliedLsn := 10, commits := 1 }
  let pipe : Pipeline (List Document × List Document) :=
    { lsn0 := 10
      columnar := AList.singleton "p.u" store
      search := AList.singleton "p.u"
        { table := "p.u", columns := ["a"], keyColumns := [], writer := ([], []), info }
      appliedLsn := 10 }
  { pipe, metaFiles := AList.singleton "p.u" info, commitLsns := AList.singleton "p.u" 10
    positions := [pipe] }

/-- A tick with the first transaction. -/
def firstTick : List EngineAct :=
  [.begin {} { frames := framesOf firstTxn }, .change [], .change [], .raise, .commit [],
    .truncateMeta, .writeMeta, .finish]

/-- A query that searches for the row of that transaction; some acts come in between. -/
def searching (acts : List EngineAct) : List EngineAct :=
  [.snapshot none, .openReader "p.u", .run 20] ++ acts ++ [.search "p.u" "1"]

theorem listReader_lawful :
    letI := listWriter
    letI := listWriter_lawful
    letI := listReader
    LawfulIndexReader (List Document × List Document) :=
  let _ := listWriter
  let _ := listWriter_lawful
  let _ := listReader
  { docs_image := fun _ => rfl
    image_addDocument := fun _ _ => rfl
    image_deleteTerm := fun _ _ => rfl
    image_deleteAllDocuments := fun _ => rfl }

theorem attached_attached :
    letI := listWriter
    letI := listWriter_lawful
    attached.Attached := by
  let _ := listWriter
  let _ := listWriter_lawful
  refine ⟨rfl, rfl, rfl, fun table store hstore => ?_, fun table store hstore => ?_⟩
  · cases List.mem_singleton.mp (AList.mem_lookup_iff.mp hstore)
    exact fun seg hseg => nomatch hseg
  · cases List.mem_singleton.mp (AList.mem_lookup_iff.mp hstore)
    exact ⟨rfl, rfl, rfl⟩

/-- A step that applies and commits only while there is no query. -/
def EngineAct.stepApart [FloatText] [IndexWriter W] [IndexReader W I K] (b : Batching)
    (act : EngineAct) (σ : Engine W I K) : Option (Engine W I K) :=
  match act with
  | .change plan => if σ.query.isNone then σ.change plan else none
  | .commit plan => if σ.query.isNone then σ.commit plan else none
  | act => act.step b σ

theorem apart_of_step [FloatText] [IndexWriter W] [IndexReader W I K] {b : Batching}
    {σ σ' : Engine W I K} {act : EngineAct} (h : act.stepApart b σ = some σ') :
    CommitsApart act σ ∧ act.step b σ = some σ' := by
  have hapart : ∀ {o : Option (Engine W I K)},
      (if σ.query.isNone then o else none) = some σ' → σ.query = none ∧ o = some σ' := by
    intro o ho
    split at ho
    · rename_i hquery
      exact ⟨Option.isNone_iff_eq_none.mp hquery, ho⟩
    · exact nomatch ho
  cases act with
  | change plan =>
    obtain ⟨hquery, hstep⟩ := hapart h
    exact ⟨fun hne => absurd hquery hne, hstep⟩
  | commit plan => exact hapart h
  | _ => exact ⟨trivial, h⟩

/-- The query comes behind the tick. -/
theorem search_proofs_exact_after_tick :
    letI := castagnoli
    letI := wholeFloats
    letI := listWriter
    letI := listWriter_lawful
    letI := listReader
    ∃ σ₀ σ : Engine (List Document × List Document) (List Document) Nat, σ₀.Attached ∧
      GuardedRun (EngineStep wholeFile) CommitsApart σ₀ σ ∧
      ∃ q ∈ σ.query, q.calls.flatMap SearchCall.rows = [⟨"s:1", 1, 20⟩] ∧
        q.Exact ∧ q.SamePosition wholeFile σ.positions := by
  let _ := castagnoli
  let _ := wholeFloats
  let _ := listWriter
  let _ := listWriter_lawful
  let _ := listReader
  have hlawful := listReader_lawful
  have hplay : ((firstTick ++ searching []).foldlM
      (fun σ act => EngineAct.stepApart wholeFile act σ) attached).any (fun σ =>
        !σ.failed && σ.query.any fun q =>
          q.calls.flatMap SearchCall.rows == [⟨"s:1", 1, 20⟩]) = true := by
    decide +kernel
  obtain ⟨σ, hacts, hcheck⟩ := (Option.any_eq_true _ _).mp hplay
  rw [Bool.and_eq_true, Bool.not_eq_true'] at hcheck
  obtain ⟨hfailed, hcheck⟩ := hcheck
  obtain ⟨q, hq, hrows⟩ := (Option.any_eq_true _ _).mp hcheck
  have hrun : GuardedRun (EngineStep wholeFile) CommitsApart attached σ := by
    refine GuardedRun.of_foldlM (fun s act s' hstep => ?_) hacts
    obtain ⟨hapart, hstep⟩ := apart_of_step hstep
    exact (GuardedRun.refl s).tail hapart hstep
  obtain ⟨hexact, hsame⟩ := search_proofs_exact attached_attached hrun hfailed q hq
  exact ⟨_, _, attached_attached, hrun, q, hq, by simpa using hrows, hexact, hsame⟩

/-- The tick comes between the metadata file and the search: the hit of 20 is shown as of
10, beside the rows of 10. -/
theorem search_proofs_late :
    letI := castagnoli
    letI := wholeFloats
    letI := listWriter
    letI := listWriter_lawful
    letI := listReader
    ∃ σ₀ σ : Engine (List Document × List Document) (List Document) Nat, σ₀.Attached ∧
      Run (EngineStep wholeFile) σ₀ σ ∧ σ.failed = false ∧
      ∃ q ∈ σ.query, q.target = none ∧ ¬ q.Exact ∧ ¬ q.SamePosition wholeFile σ.positions := by
  let _ := castagnoli
  let _ := wholeFloats
  let _ := listWriter
  let _ := listWriter_lawful
  let _ := listReader
  have hplay : ((searching firstTick).foldlM
      (fun σ act => EngineAct.step wholeFile act σ) attached).any (fun σ =>
        !σ.failed && σ.query.any fun q => decide (q.target = none ∧
          (∃ call ∈ q.calls, ∃ row ∈ call.rows, row.appliedLsn ≠ call.commitLsn) ∧
          ¬ q.SamePosition wholeFile σ.positions)) = true := by
    decide +kernel
  obtain ⟨σ, hacts, hcheck⟩ := (Option.any_eq_true _ _).mp hplay
  rw [Bool.and_eq_true, Bool.not_eq_true'] at hcheck
  obtain ⟨hfailed, hcheck⟩ := hcheck
  obtain ⟨q, hq, hcheck⟩ := (Option.any_eq_true _ _).mp hcheck
  obtain ⟨htarget, ⟨call, hcall, row, hrow, hne⟩, hsame⟩ := of_decide_eq_true hcheck
  have hrun : Run (EngineStep wholeFile) attached σ :=
    GuardedRun.of_foldlM (fun s act s' hstep => (GuardedRun.refl s).tail trivial hstep) hacts
  exact ⟨_, _, attached_attached, hrun, hfailed, q, hq, htarget,
    fun hexact => hne ((hexact call hcall).1 row hrow), hsame⟩

end GrayDB.Studio
