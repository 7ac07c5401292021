import GrayDB.Columnar.Apply
import GrayDB.Log.Tail
import GrayDB.Search.Store

/-!
# The materializer

`applyNewFrames` is one tick of the apply loop: it reads the frames that are new in
the log, decodes them, applies the changes of the transactions they complete to the
stores, and raises `applied_lsn`.  It moves three cursors before the watermark (the
tail, the decoder and the stores), and any of the calls on the way can end the tick.

* `TakesBatch` is the condition under which a batch goes through when no I/O call
  fails.
* `Materialized` relates the stores before and after: each change is applied, in
  order, with its synthetic key.
* `applyBatch_spec` is the result of a tick under the condition.
-/

namespace GrayDB.Studio

open Lib Lib.Crash Log Registry Columnar Search

structure Pipeline (W : Type) where
  lsn0 : Nat
  columnar : AList fun _ : String => TableStore
  search : AList fun _ : String => SearchStore W
  appliedLsn : Nat
  tail : LogTail := {}
  decoder : StreamDecoder := {}

inductive TickError where
  | tail (e : TailError)
  | feed (e : FeedError)
  | store (table : String) (e : StoreError)
  | search (table : String) (e : SearchError)
  deriving DecidableEq

variable {W : Type}

abbrev TickM (W : Type) := IoM TickError (Pipeline W)

/-! ## One tick -/

section Tick

variable [FloatText] [IndexWriter W]

def applyColumnar (change : TypedChange) : TickM W Unit := do
  let p ← IoM.get
  match p.columnar.lookup change.table with
  | none => pure ()
  | some store =>
    IoM.embed store
      (fun store p => { p with columnar := p.columnar.insert change.table store })
      (.store change.table) (Columnar.apply change)

def searchKey (index : Nat) : String := s!"s:{index}"

/-- Whether a search store was touched. -/
def applySearch (change : TypedChange) (index : Nat) : TickM W Bool := do
  let p ← IoM.get
  match p.search.lookup change.table with
  | none => pure false
  | some store => do
    IoM.embed store
      (fun store p => { p with search := p.search.insert change.table store })
      (.search change.table) (Search.apply change (searchKey index))
    pure true

/-- One round of the loop over the changes. -/
def applyChange (change : TypedChange) (index : Nat) : TickM W Bool := do
  applyColumnar change
  applySearch change index

/-- The loop, from the change with this global index on. -/
def applyChanges : Nat → List TypedChange → TickM W Bool
  | _, [] => pure false
  | index, change :: changes => do
    let touched ← applyChange change index
    let rest ← applyChanges (index + 1) changes
    pure (touched || rest)

/-- Commit the search stores with these names. -/
def commitAll (appliedLsn : Nat) : List String → TickM W Unit
  | [] => pure ()
  | table :: tables => do
    let p ← IoM.get
    match p.search.lookup table with
    | none => commitAll appliedLsn tables
    | some store => do
      IoM.embed store
        (fun store p => { p with search := p.search.insert table store })
        (.search table) (Search.commitBatch appliedLsn)
      commitAll appliedLsn tables

def commitTouched (touched : Bool) : TickM W Unit := do
  let p ← IoM.get
  if touched then commitAll p.appliedLsn p.search.keys

def materialize (decoded : DecodedBatch) : TickM W Unit := do
  let touched ← applyChanges decoded.firstChangeIndex decoded.changes
  IoM.modify fun p => { p with appliedLsn := max decoded.lastCommitLsn p.appliedLsn }
  commitTouched touched

def feedBatch (frames : List Frame) : TickM W Unit := do
  let p ← IoM.get
  match p.decoder.feed frames with
  | (.error e, decoder) => do
    IoM.modify fun p => { p with decoder }
    IoM.throw (.feed e)
  | (.ok decoded, decoder) => do
    IoM.modify fun p => { p with decoder }
    if decoded.changes.isEmpty then pure () else materialize decoded

/-- The open transaction is dropped when the log was cut. -/
def abortIfRewound (batch : TailBatch) : TickM W Unit :=
  if batch.rewound then
    IoM.modify fun p => { p with decoder := p.decoder.abortOpenTxn }
  else pure ()

def applyBatch (batch : TailBatch) : TickM W Unit := do
  abortIfRewound batch
  if batch.frames.isEmpty then pure () else feedBatch batch.frames

variable [Crc32c]

def applyNewFrames (log : Dir) : TickM W Unit := do
  let p ← IoM.get
  match p.tail.readNew log with
  | (.error e, tail) => do
    IoM.modify fun p => { p with tail }
    IoM.throw (.tail e)
  | (.ok batch, tail) => do
    IoM.modify fun p => { p with tail }
    applyBatch batch

end Tick

/-! ## What the stores have taken -/

/-- A column store behind some changes, each of which it has taken. -/
inductive Applied [FloatText] : List TypedChange → TableStore → TableStore → Prop
  | refl (s : TableStore) : Applied [] s s
  | change {cs : List TypedChange} {s s' s'' : TableStore} {c : TypedChange}
      (h : Applied cs s s') (hc : (Columnar.apply c).outcome s' = some ((), s'')) :
      Applied (cs ++ [c]) s s''

/-- A search store behind some changes with their global indices, and any commits.  The
flag says that nothing waits for a commit. -/
inductive Indexed [IndexWriter W] :
    Bool → List (TypedChange × Nat) → SearchStore W → SearchStore W → Prop
  | refl (s : SearchStore W) : Indexed true [] s s
  | change {b : Bool} {cs : List (TypedChange × Nat)} {s s' s'' : SearchStore W}
      {c : TypedChange × Nat} (h : Indexed b cs s s')
      (hc : (Search.apply c.1 (searchKey c.2)).outcome s' = some ((), s'')) :
      Indexed false (cs ++ [c]) s s''
  | commit {b : Bool} {cs : List (TypedChange × Nat)} {s s' s'' : SearchStore W}
      {appliedLsn : Nat} (h : Indexed b cs s s')
      (hc : (Search.commitBatch appliedLsn).outcome s' = some ((), s'')) : Indexed true cs s s''

theorem Applied.single [FloatText] {s s' : TableStore} {c : TypedChange}
    (h : (Columnar.apply c).outcome s = some ((), s')) : Applied [c] s s' := (Applied.refl s).change h

theorem Indexed.single [IndexWriter W] {s s' : SearchStore W} {c : TypedChange × Nat}
    (h : (Search.apply c.1 (searchKey c.2)).outcome s = some ((), s')) : Indexed false [c] s s' :=
  (Indexed.refl s).change h

theorem Applied.trans [FloatText] {cs ds : List TypedChange} {s s' s'' : TableStore}
    (h : Applied cs s s') (h' : Applied ds s' s'') : Applied (cs ++ ds) s s'' := by
  induction h' with
  | refl => simpa using h
  | change _ hc ih =>
    rw [← List.append_assoc]
    exact (ih h).change hc

theorem Indexed.trans [IndexWriter W] {b b' : Bool} {cs ds : List (TypedChange × Nat)}
    {s s' s'' : SearchStore W} (h : Indexed b cs s s') (h' : Indexed b' ds s' s'') :
    ∃ b'', (b = true → b' = true → b'' = true) ∧ Indexed b'' (cs ++ ds) s s'' := by
  induction h' with
  | refl => exact ⟨b, fun hb _ => hb, by simpa using h⟩
  | change _ hc ih =>
    obtain ⟨_, -, hall⟩ := ih h
    refine ⟨false, by simp, ?_⟩
    rw [← List.append_assoc]
    exact hall.change hc
  | commit _ hc ih =>
    obtain ⟨_, -, hall⟩ := ih h
    exact ⟨true, fun _ _ => rfl, hall.commit hc⟩

/-- The changes of one table. -/
def ofTable (table : String) (cs : List (TypedChange × Nat)) : List (TypedChange × Nat) :=
  cs.filter fun c => c.1.table = table

@[simp] theorem ofTable_append (table : String) (cs ds : List (TypedChange × Nat)) :
    ofTable table (cs ++ ds) = ofTable table cs ++ ofTable table ds :=
  List.filter_append ..

private theorem ofTable_singleton (table : String) (c : TypedChange) (i : Nat) :
    ofTable table [(c, i)] = if c.table = table then [(c, i)] else [] := by
  by_cases h : c.table = table
  · simp [ofTable, h]
  · simp [ofTable, h]

private theorem rel_refl {α : Type} {r : α → α → Prop} (h : ∀ a, r a a) (o : Option α) :
    Option.Rel r o o := by
  cases o with
  | none => exact .none
  | some a => exact .some (h a)

private theorem rel_mono {α : Type} {r s : α → α → Prop} (h : ∀ a b, r a b → s a b)
    {o o' : Option α} (hr : Option.Rel r o o') : Option.Rel s o o' := by
  cases hr with
  | none => exact .none
  | some hab => exact .some (h _ _ hab)

private theorem rel_trans {α : Type} {r s t : α → α → Prop} (h : ∀ a b c, r a b → s b c → t a c)
    {o o' o'' : Option α} (hr : Option.Rel r o o') (hs : Option.Rel s o' o'') :
    Option.Rel t o o'' := by
  cases hr with
  | none =>
    cases hs
    exact .none
  | some hab =>
    cases hs with
    | some hbc => exact .some (h _ _ _ hab hbc)

/-- The cursors and the watermark stay. -/
def SameCursors (p p' : Pipeline W) : Prop :=
  p'.lsn0 = p.lsn0 ∧ p'.appliedLsn = p.appliedLsn ∧ p'.tail = p.tail ∧ p'.decoder = p.decoder

theorem SameCursors.trans {p p' p'' : Pipeline W} (h : SameCursors p p')
    (h' : SameCursors p' p'') : SameCursors p p'' :=
  ⟨h'.1.trans h.1, h'.2.1.trans h.2.1, h'.2.2.1.trans h.2.2.1, h'.2.2.2.trans h.2.2.2⟩

section Stores

variable [FloatText] [IndexWriter W]

/-- The stores of each table behind its changes; no index of a `settled` table waits for
a commit. -/
structure Materialized (settled : String → Prop) (cs : List (TypedChange × Nat))
    (p p' : Pipeline W) : Prop where
  columnar (table : String) : Option.Rel (Applied ((ofTable table cs).map Prod.fst))
    (p.columnar.lookup table) (p'.columnar.lookup table)
  search (table : String) : Option.Rel
    (fun s s' => ∃ b, (settled table → b = true) ∧ Indexed b (ofTable table cs) s s')
    (p.search.lookup table) (p'.search.lookup table)

theorem Materialized.refl (settled : String → Prop) (p : Pipeline W) :
    Materialized settled [] p p :=
  ⟨fun _ => rel_refl .refl _, fun _ => rel_refl (fun s => ⟨true, fun _ => rfl, .refl s⟩) _⟩

theorem Materialized.trans {settled : String → Prop} {cs ds : List (TypedChange × Nat)}
    {p p' p'' : Pipeline W} (h : Materialized settled cs p p')
    (h' : Materialized settled ds p' p'') : Materialized settled (cs ++ ds) p p'' := by
  refine ⟨fun table => ?_, fun table => ?_⟩
  · rw [ofTable_append, List.map_append]
    refine rel_trans ?_ (h.columnar table) (h'.columnar table)
    exact fun _ _ _ => Applied.trans
  · rw [ofTable_append]
    refine rel_trans ?_ (h.search table) (h'.search table)
    intro s s' s'' ⟨b, hb, hs⟩ ⟨b', hb', hs'⟩
    obtain ⟨b'', hb'', hall⟩ := hs.trans hs'
    exact ⟨b'', fun ht => hb'' (hb ht) (hb' ht), hall⟩

theorem Materialized.weaken {settled settled' : String → Prop} {cs : List (TypedChange × Nat)}
    {p p' : Pipeline W} (h : Materialized settled cs p p')
    (hs : ∀ table, settled' table → settled table) : Materialized settled' cs p p' := by
  refine ⟨h.columnar, fun table => ?_⟩
  refine rel_mono ?_ (h.search table)
  intro s s' ⟨b, hb, hi⟩
  exact ⟨b, fun ht => hb (hs table ht), hi⟩

/-- Each store of the table of a change takes it. -/
def Pipeline.TakesChange (p : Pipeline W) (c : TypedChange) : Prop :=
  (∀ store ∈ p.columnar.lookup c.table, store.Takes c) ∧
    ∀ store ∈ p.search.lookup c.table, store.Takes c

/-- The column stores behind a change. -/
def columnarAfter (c : TypedChange) (stores : AList fun _ : String => TableStore) :
    AList fun _ : String => TableStore :=
  match stores.lookup c.table with
  | none => stores
  | some store =>
    match (Columnar.apply c).outcome store with
    | none => stores
    | some (_, store') => stores.insert c.table store'

/-- The search stores behind a change. -/
def searchAfter (c : TypedChange) (index : Nat) (stores : AList fun _ : String => SearchStore W) :
    AList fun _ : String => SearchStore W :=
  match stores.lookup c.table with
  | none => stores
  | some store =>
    match (Search.apply c (searchKey index)).outcome store with
    | none => stores
    | some (_, store') => stores.insert c.table store'

/-- The pipeline behind a change. -/
def Pipeline.afterChange (p : Pipeline W) (c : TypedChange) (index : Nat) : Pipeline W :=
  { p with columnar := columnarAfter c p.columnar, search := searchAfter c index p.search }

omit [IndexWriter W] in
theorem applyColumnar_spec {p : Pipeline W} {c : TypedChange}
    (h : ∀ store ∈ p.columnar.lookup c.table, store.Takes c) :
    Returns (applyColumnar c) p fun _ p' =>
      p' = { p with columnar := columnarAfter c p.columnar } := by
  refine Spec.bind_get ?_
  unfold columnarAfter
  cases hstore : p.columnar.lookup c.table with
  | none => exact Spec.pure rfl
  | some store =>
    refine Spec.weaken (Spec.embed (Columnar.apply_spec (h store hstore))) ?_
    rintro _ _ ⟨store', -, hout, rfl⟩
    simp only [hout]

omit [FloatText] in
theorem applySearch_spec {p : Pipeline W} {c : TypedChange}
    (h : ∀ store ∈ p.search.lookup c.table, store.Takes c) (i : Nat) :
    Returns (applySearch c i) p fun touched p' =>
      p' = { p with search := searchAfter c i p.search } ∧
        touched = (p.search.lookup c.table).isSome := by
  refine Spec.bind_get ?_
  unfold searchAfter
  cases hstore : p.search.lookup c.table with
  | none => exact Spec.pure ⟨rfl, rfl⟩
  | some store =>
    refine Spec.bind (Spec.embed (Search.apply_spec (h store hstore) _)) ?_
    rintro _ _ ⟨store', -, hout, rfl⟩
    simp only [hout]
    exact Spec.pure ⟨rfl, rfl⟩

theorem applyChange_spec {p : Pipeline W} {c : TypedChange} (h : p.TakesChange c) (i : Nat) :
    Returns (applyChange c i) p fun touched p' =>
      p' = p.afterChange c i ∧ touched = (p.search.lookup c.table).isSome := by
  refine Spec.bind (applyColumnar_spec h.1) ?_
  rintro _ _ rfl
  exact applySearch_spec (p := { p with columnar := columnarAfter c p.columnar }) h.2 i

omit [IndexWriter W] in
private theorem columnarAfter_rel {p : Pipeline W} {c : TypedChange} (h : p.TakesChange c)
    (table : String) (i : Nat) :
    Option.Rel (Applied ((ofTable table [(c, i)]).map Prod.fst)) (p.columnar.lookup table)
      ((columnarAfter c p.columnar).lookup table) := by
  rw [ofTable_singleton]
  unfold columnarAfter
  by_cases htable : c.table = table
  · subst htable
    rw [if_pos rfl]
    cases hstore : p.columnar.lookup c.table with
    | none =>
      simp only [hstore]
      exact .none
    | some store =>
      obtain ⟨_, store', hout, -⟩ := (Columnar.apply_spec (h.1 store hstore)).exec
      simp only [hout, AList.lookup_insert]
      exact .some (.single hout)
  · rw [if_neg htable]
    split
    · exact rel_refl .refl _
    · split
      · exact rel_refl .refl _
      · rw [AList.lookup_insert_ne (Ne.symm htable)]
        exact rel_refl .refl _

omit [FloatText] in
private theorem searchAfter_rel {p : Pipeline W} {c : TypedChange}
    (h : ∀ store ∈ p.search.lookup c.table, store.Takes c) (table : String) (i : Nat) :
    Option.Rel (fun s s' => ∃ b, ((p.search.lookup c.table).isSome = false → b = true) ∧
        Indexed b (ofTable table [(c, i)]) s s')
      (p.search.lookup table) ((searchAfter c i p.search).lookup table) := by
  have hrefl : ∀ s : SearchStore W, ∃ b, ((p.search.lookup c.table).isSome = false → b = true) ∧
      Indexed b [] s s := fun s => ⟨true, fun _ => rfl, .refl s⟩
  rw [ofTable_singleton]
  unfold searchAfter
  by_cases htable : c.table = table
  · subst htable
    rw [if_pos rfl]
    cases hstore : p.search.lookup c.table with
    | none =>
      simp only [hstore]
      exact .none
    | some store =>
      obtain ⟨_, store', hout, -⟩ := (Search.apply_spec (h store hstore) (searchKey i)).exec
      simp only [hout, AList.lookup_insert]
      exact .some ⟨false, by simp, Indexed.single (c := (c, i)) hout⟩
  · rw [if_neg htable]
    split
    · exact rel_refl hrefl _
    · split
      · exact rel_refl hrefl _
      · rw [AList.lookup_insert_ne (Ne.symm htable)]
        exact rel_refl hrefl _

theorem Materialized.change {p : Pipeline W} {c : TypedChange} (h : p.TakesChange c) (i : Nat) :
    Materialized (fun _ => (p.search.lookup c.table).isSome = false) [(c, i)] p
      (p.afterChange c i) :=
  ⟨fun table => columnarAfter_rel h table i, fun table => searchAfter_rel h.2 table i⟩

/-- The stores of one table behind the changes of it, and its index is committed. -/
structure TableBehind (table : String) (cs : List (TypedChange × Nat)) (p p' : Pipeline W) :
    Prop where
  columnar : Option.Rel (Applied ((ofTable table cs).map Prod.fst)) (p.columnar.lookup table)
    (p'.columnar.lookup table)
  search : Option.Rel (Indexed true (ofTable table cs)) (p.search.lookup table)
    (p'.search.lookup table)

theorem Materialized.table {cs : List (TypedChange × Nat)} {p p' : Pipeline W}
    (h : Materialized (fun _ => True) cs p p') (table : String) : TableBehind table cs p p' := by
  refine ⟨h.columnar table, rel_mono ?_ (h.search table)⟩
  intro s s' ⟨b, hb, hi⟩
  rwa [hb trivial] at hi

/-! ## The changes of a batch -/

/-- Each change fits the stores that it comes to. -/
def Pipeline.TakesAll : Pipeline W → Nat → List TypedChange → Prop
  | _, _, [] => True
  | p, i, c :: cs => p.TakesChange c ∧ (p.afterChange c i).TakesAll (i + 1) cs

theorem applyChanges_spec {cs : List TypedChange} :
    ∀ {p : Pipeline W} {i : Nat}, p.TakesAll i cs →
      Returns (applyChanges i cs) p fun touched p' =>
        SameCursors p p' ∧ Materialized (fun _ => touched = false) (cs.zipIdx i) p p' := by
  induction cs with
  | nil =>
    intro p i _
    exact Spec.pure ⟨⟨rfl, rfl, rfl, rfl⟩, .refl _ p⟩
  | cons c cs ih =>
    intro p i h
    refine Spec.bind (applyChange_spec h.1 i) ?_
    rintro touched _ ⟨rfl, htouched⟩
    refine Spec.bind (ih h.2) ?_
    intro rest p' ⟨hsame, hrest⟩
    refine Spec.pure ⟨SameCursors.trans ⟨rfl, rfl, rfl, rfl⟩ hsame, ?_⟩
    have hfirst := Materialized.change h.1 i
    rw [← htouched] at hfirst
    have hboth : ∀ _ : String, (touched || rest) = false → touched = false ∧ rest = false :=
      fun _ => Bool.or_eq_false_iff.mp
    exact (hfirst.weaken fun t ht => (hboth t ht).1).trans
      (hrest.weaken fun t ht => (hboth t ht).2)

/-- A commit of one index. -/
private theorem Materialized.commit {settled : String → Prop} {cs : List (TypedChange × Nat)}
    {p₀ p : Pipeline W} (h : Materialized settled cs p₀ p) {table : String}
    {store store' : SearchStore W} {lsn : Nat} (hstore : p.search.lookup table = some store)
    (hout : (Search.commitBatch lsn).outcome store = some ((), store')) :
    Materialized (fun t => settled t ∨ t = table) cs p₀
      { p with search := p.search.insert table store' } := by
  refine ⟨h.columnar, fun t => ?_⟩
  by_cases ht : t = table
  · subst ht
    have hold := h.search t
    rw [hstore] at hold
    rw [AList.lookup_insert]
    cases hl : p₀.search.lookup t with
    | none =>
      rw [hl] at hold
      cases hold
    | some store₀ =>
      rw [hl] at hold
      cases hold with
      | some hold =>
        obtain ⟨b, -, hi⟩ := hold
        exact .some ⟨true, fun _ => rfl, hi.commit hout⟩
  · rw [AList.lookup_insert_ne ht]
    refine rel_mono ?_ (h.search t)
    intro s s' ⟨b, hb, hi⟩
    exact ⟨b, fun hs => hb (hs.resolve_right ht), hi⟩

theorem commitAll_spec {cs : List (TypedChange × Nat)} {p₀ : Pipeline W} (lsn : Nat)
    {tables : List String} :
    ∀ {p : Pipeline W} {settled : String → Prop}, Materialized settled cs p₀ p →
      (∀ t ∈ tables, t ∈ p.search) →
      Returns (commitAll lsn tables) p fun _ p' =>
        SameCursors p p' ∧ Materialized (fun t => settled t ∨ t ∈ tables) cs p₀ p' := by
  induction tables with
  | nil =>
    intro p settled h _
    exact Spec.pure ⟨⟨rfl, rfl, rfl, rfl⟩, h.weaken fun t ht => by simpa using ht⟩
  | cons table tables ih =>
    intro p settled h hkeys
    refine Spec.bind_get ?_
    obtain ⟨store, hstore⟩ := Option.isSome_iff_exists.mp
      (AList.lookup_isSome.mpr (hkeys table List.mem_cons_self))
    simp only [hstore]
    refine Spec.bind (Spec.embed (Search.commitBatch_spec store lsn)) ?_
    rintro _ _ ⟨store', -, hout, rfl⟩
    refine Spec.weaken (ih (h.commit hstore hout) fun t ht => ?_) ?_
    · exact (AList.mem_insert _).mpr (Or.inr (hkeys t (List.mem_cons_of_mem _ ht)))
    · intro _ p' ⟨hsame, hmat⟩
      refine ⟨SameCursors.trans ⟨rfl, rfl, rfl, rfl⟩ hsame, hmat.weaken fun t ht => ?_⟩
      rw [List.mem_cons] at ht
      rw [or_assoc]
      exact ht

/-- If an index was touched, all indexes are committed. -/
theorem commitTouched_spec {cs : List (TypedChange × Nat)} {p₀ p : Pipeline W} {touched : Bool}
    (h : Materialized (fun _ => touched = false) cs p₀ p) :
    Returns (commitTouched touched) p fun _ p' =>
      SameCursors p p' ∧ Materialized (fun _ => True) cs p₀ p' := by
  refine Spec.bind_get ?_
  cases touched with
  | false => exact Spec.pure ⟨⟨rfl, rfl, rfl, rfl⟩, h.weaken fun _ _ => rfl⟩
  | true =>
    refine Spec.weaken (commitAll_spec p.appliedLsn h fun t ht => ht) ?_
    intro _ p' ⟨hsame, hmat⟩
    refine ⟨hsame, hmat.columnar, fun t => ?_⟩
    by_cases ht : t ∈ p.search.keys
    · refine rel_mono ?_ (hmat.search t)
      intro s s' ⟨b, hb, hi⟩
      exact ⟨b, fun _ => hb (Or.inr ht), hi⟩
    · -- without a store there is nothing to commit
      have hnone : p.search.lookup t = none := AList.lookup_eq_none.mpr ht
      have hfirst := h.search t
      have hlast := hmat.search t
      rw [hnone] at hfirst
      generalize p₀.search.lookup t = o at hfirst hlast
      cases hfirst
      generalize p'.search.lookup t = o' at hlast
      cases hlast
      exact .none

/-! ## A tick -/

/-- The last commit of a batch; 0 is no commit. -/
def lastEnd (ts : List DecodedTxn) : Nat := (ts.getLast?.map DecodedTxn.endLsn).getD 0

/-- The changes of some transactions, numbered from `i` on. -/
def numbered (i : Nat) (ts : List DecodedTxn) : List (TypedChange × Nat) :=
  (ts.flatMap DecodedTxn.changes).zipIdx i

/-- The decoder takes the frames, and the stores take their changes. -/
def Pipeline.TakesFrames (p : Pipeline W) (frames : List Frame) : Prop :=
  p.decoder.AcceptsAll frames ∧
    p.TakesAll p.decoder.changeCounter ((p.decoder.txnsOf frames).flatMap DecodedTxn.changes)

instance (p : Pipeline W) (c : TypedChange) : Decidable (p.TakesChange c) :=
  inferInstanceAs (Decidable ((∀ store ∈ p.columnar.lookup c.table, store.Takes c) ∧
    ∀ store ∈ p.search.lookup c.table, store.Takes c))

instance decidableTakesAll :
    (cs : List TypedChange) → (p : Pipeline W) → (i : Nat) → Decidable (p.TakesAll i cs)
  | [], _, _ => inferInstanceAs (Decidable True)
  | c :: cs, p, i =>
    let _ := decidableTakesAll cs (p.afterChange c i) (i + 1)
    inferInstanceAs (Decidable (p.TakesChange c ∧ (p.afterChange c i).TakesAll (i + 1) cs))

instance (p : Pipeline W) (frames : List Frame) : Decidable (p.TakesFrames frames) :=
  inferInstanceAs (Decidable (p.decoder.AcceptsAll frames ∧ p.TakesAll p.decoder.changeCounter
    ((p.decoder.txnsOf frames).flatMap DecodedTxn.changes)))

/-- The pipeline behind some frames. -/
structure Fed (p : Pipeline W) (frames : List Frame) (p' : Pipeline W) : Prop where
  lsn0 : p'.lsn0 = p.lsn0
  tail : p'.tail = p.tail
  decoder : p'.decoder = p.decoder.after frames
  stores : Materialized (fun _ => True)
    (numbered p.decoder.changeCounter (p.decoder.txnsOf frames)) p p'
  appliedLsn : p'.appliedLsn = if (p.decoder.txnsOf frames).flatMap DecodedTxn.changes = [] then
    p.appliedLsn else max (lastEnd (p.decoder.txnsOf frames)) p.appliedLsn

/-- Only the stores matter to what they take. -/
theorem Pipeline.TakesAll.congr {cs : List TypedChange} :
    ∀ {p q : Pipeline W} {i : Nat}, q.columnar = p.columnar → q.search = p.search →
      p.TakesAll i cs → q.TakesAll i cs := by
  induction cs with
  | nil => exact fun _ _ _ => trivial
  | cons c cs ih =>
    intro p q i hcolumnar hsearch h
    refine ⟨⟨?_, ?_⟩, ih ?_ ?_ h.2⟩
    · rw [hcolumnar]
      exact h.1.1
    · rw [hsearch]
      exact h.1.2
    · simp only [Pipeline.afterChange, hcolumnar]
    · simp only [Pipeline.afterChange, hsearch]

/-- The stores do not see the cursors. -/
theorem Materialized.congr {settled : String → Prop} {cs : List (TypedChange × Nat)}
    {p q p' q' : Pipeline W} (h : Materialized settled cs p p') (hcolumnar : q.columnar = p.columnar)
    (hsearch : q.search = p.search) (hcolumnar' : q'.columnar = p'.columnar)
    (hsearch' : q'.search = p'.search) : Materialized settled cs q q' := by
  refine ⟨fun t => ?_, fun t => ?_⟩
  · rw [hcolumnar, hcolumnar']
    exact h.columnar t
  · rw [hsearch, hsearch']
    exact h.search t

theorem materialize_spec {p : Pipeline W} {decoded : DecodedBatch}
    (h : p.TakesAll decoded.firstChangeIndex decoded.changes) :
    Returns (materialize decoded) p fun _ p' =>
      p'.lsn0 = p.lsn0 ∧ p'.tail = p.tail ∧ p'.decoder = p.decoder ∧
        Materialized (fun _ => True) (decoded.changes.zipIdx decoded.firstChangeIndex) p p' ∧
        p'.appliedLsn = max decoded.lastCommitLsn p.appliedLsn := by
  refine Spec.bind (applyChanges_spec h) ?_
  intro touched p₁ ⟨hsame, hmat⟩
  refine Spec.bind_modify ?_
  refine Spec.weaken (commitTouched_spec (hmat.congr rfl rfl rfl rfl)) ?_
  intro _ p₂ ⟨hsame', hmat'⟩
  refine ⟨hsame'.1.trans hsame.1, hsame'.2.2.1.trans hsame.2.2.1,
    hsame'.2.2.2.trans hsame.2.2.2, hmat', ?_⟩
  rw [hsame'.2.1, ← hsame.2.1]

theorem feedBatch_spec {p : Pipeline W} {frames : List Frame} (h : p.TakesFrames frames) :
    Returns (feedBatch frames) p fun _ p' => Fed p frames p' := by
  refine Spec.bind_get ?_
  have hchanges := DecodedBatch.changes_foldl_add (p.decoder.txnsOf frames)
    { firstChangeIndex := p.decoder.changeCounter }
  have hfirst := DecodedBatch.firstChangeIndex_foldl_add (p.decoder.txnsOf frames)
    { firstChangeIndex := p.decoder.changeCounter }
  have hlast := DecodedBatch.lastCommitLsn_foldl_add (p.decoder.txnsOf frames)
    { firstChangeIndex := p.decoder.changeCounter }
  rw [StreamDecoder.feed_of_accepts h.1]
  generalize (p.decoder.txnsOf frames).foldl DecodedBatch.add
    { firstChangeIndex := p.decoder.changeCounter } = decoded at hchanges hfirst hlast
  rw [List.nil_append] at hchanges
  change decoded.firstChangeIndex = p.decoder.changeCounter at hfirst
  change decoded.lastCommitLsn = lastEnd (p.decoder.txnsOf frames) at hlast
  refine Spec.bind_modify ?_
  by_cases hempty : decoded.changes = []
  · rw [if_pos (by rw [hempty]; rfl)]
    rw [hempty] at hchanges
    refine Spec.pure ⟨rfl, rfl, rfl, ?_, by rw [if_pos hchanges.symm]⟩
    rw [numbered, ← hchanges]
    exact Materialized.congr (.refl _ p) rfl rfl rfl rfl
  · rw [if_neg (by simpa using hempty)]
    have htakes := h.2
    rw [← hchanges, ← hfirst] at htakes
    refine Spec.weaken (materialize_spec (Pipeline.TakesAll.congr (p := p) rfl rfl htakes)) ?_
    intro _ p' ⟨hlsn0, htail, hdecoder, hmat, happlied⟩
    refine ⟨hlsn0, htail, hdecoder, ?_, ?_⟩
    · rw [numbered, ← hchanges, ← hfirst]
      exact hmat.congr rfl rfl rfl rfl
    · rw [← hchanges, if_neg hempty, happlied, hlast]

/-- The pipeline before a batch is fed: the open transaction is dropped after a rewind. -/
def Pipeline.aborted (p : Pipeline W) (rewound : Bool) : Pipeline W :=
  if rewound then { p with decoder := p.decoder.abortOpenTxn } else p

theorem applyBatch_spec {p : Pipeline W} {batch : TailBatch}
    (h : (p.aborted batch.rewound).TakesFrames batch.frames) :
    Returns (applyBatch batch) p fun _ p' => Fed (p.aborted batch.rewound) batch.frames p' := by
  have habort : Returns (abortIfRewound batch) p fun _ p' => p' = p.aborted batch.rewound := by
    unfold abortIfRewound Pipeline.aborted
    split
    · exact Spec.modify rfl
    · exact Spec.pure rfl
  refine Spec.bind habort ?_
  rintro _ _ rfl
  by_cases hnil : batch.frames = []
  · rw [if_pos (by rw [hnil]; rfl), hnil]
    exact Spec.pure ⟨rfl, rfl, rfl, .refl _ _, rfl⟩
  · rw [if_neg (by simpa using hnil)]
    exact feedBatch_spec h

variable [Crc32c]

/-- A tick whose frames are taken. -/
theorem applyNewFrames_spec {p : Pipeline W} {log : Dir} {batch : TailBatch} {tail : LogTail}
    (hread : p.tail.readNew log = (.ok batch, tail))
    (h : ({ p with tail }.aborted batch.rewound).TakesFrames batch.frames) :
    Returns (applyNewFrames log) p fun _ p' =>
      Fed ({ p with tail }.aborted batch.rewound) batch.frames p' := by
  refine Spec.bind_get ?_
  rw [hread]
  exact Spec.bind_modify (applyBatch_spec h)

end Stores

end GrayDB.Studio
