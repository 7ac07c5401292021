import GrayDB.Registry.Rewind

/-!
# The schema at an LSN

The registry keeps, for each relation, the versions of its columns with the LSNs from
which they are valid.  A Relation message outside a transaction is recorded at the end of
its frame, one inside a transaction at the commit.  A row, however, is named under the
Relation message that is in force where the row stands in the stream.

* `schemaAt_after` says which message `schema_at` answers with: the last one that is
  recorded at the LSN or below it.
* `rowsFrom` and `recordedFrom` read the frames without a decoder: the rows with the message
  in force at each, and the messages with the LSN they are recorded at.  `changes_of_rows`
  and `after_registry` say that the decoder reads the same.
* `schema_at_exact` puts the two together.  The images agree with `schema_at` exactly if
  the message recorded last has the names of the one in force.
-/

set_option linter.dupNamespace false

namespace GrayDB.Registry

open Lib Log

/-- The schema in force for a relation at a commit LSN. -/
def Registry.schemaAt (r : Registry) (relid lsn : Nat) : Option SchemaVersion :=
  (r.tables.lookup relid).bind fun entry =>
    entry.versions.reverse.find? fun v => decide (v.validFromLsn ≤ lsn)

/-! ## What is recorded -/

/-- A Relation message and the LSN it is recorded at. -/
structure Recorded where
  lsn : Nat
  rel : RelationDesc
  deriving DecidableEq, Repr

def Registry.record (r : Registry) (v : Recorded) : Registry := r.recordVersion v.rel v.lsn

/-- The last message for a relation that is recorded at an LSN or below it. -/
def lastRecorded (vs : List Recorded) (relid lsn : Nat) : Option RelationDesc :=
  ((vs.filter fun v => decide (v.rel.relid = relid ∧ v.lsn ≤ lsn)).getLast?).map Recorded.rel

/-- The versions of a relation. -/
def Registry.versions (r : Registry) (relid : Nat) : List SchemaVersion :=
  ((r.tables.lookup relid).map TableEntry.versions).getD []

theorem Registry.schemaAt_eq (r : Registry) (relid lsn : Nat) : r.schemaAt relid lsn
    = (r.versions relid).reverse.find? fun v => decide (v.validFromLsn ≤ lsn) := by
  unfold schemaAt versions
  cases r.tables.lookup relid <;> rfl

/-- A message adds a version to its relation, unless the last one looks the same. -/
theorem Registry.versions_record (r : Registry) (v : Recorded) (relid : Nat) :
    (r.record v).versions relid = if v.rel.relid = relid then
        if (r.versions relid).getLast?.map SchemaVersion.columns = some v.rel.columns ∧
            (r.versions relid).getLast?.map SchemaVersion.replident = some v.rel.replident then
          r.versions relid
        else r.versions relid ++ [⟨v.lsn, v.rel.replident, v.rel.columns⟩]
      else r.versions relid := by
  unfold record recordVersion versions
  by_cases hrel : v.rel.relid = relid
  · subst hrel
    rw [if_pos rfl]
    cases r.tables.lookup v.rel.relid with
    | none => simp
    | some entry =>
      dsimp only [Option.getD_some, Option.map_some]
      split
      · rw [AList.lookup_insert]
        rfl
      · rw [AList.lookup_insert]
        rfl
  · rw [if_neg hrel]
    have hne : relid ≠ v.rel.relid := fun h => hrel h.symm
    dsimp only
    split
    · rw [AList.lookup_insert_ne hne]
    · rw [AList.lookup_insert_ne hne]

/-- The registry behind some recorded messages. -/
def Registry.recordAll (r : Registry) (vs : List Recorded) : Registry := vs.foldl Registry.record r

theorem Registry.recordAll_append (r : Registry) (vs ws : List Recorded) :
    r.recordAll (vs ++ ws) = (r.recordAll vs).recordAll ws :=
  List.foldl_append

/-- A version bears the LSN of a recorded message. -/
theorem Registry.validFrom_recordAll (vs : List Recorded) (relid : Nat) :
    ∀ x ∈ (({} : Registry).recordAll vs).versions relid, ∃ v ∈ vs, v.lsn = x.validFromLsn := by
  induction vs using List.reverseRecOn with
  | nil =>
    intro x hx
    exact absurd hx List.not_mem_nil
  | append_singleton vs v ih =>
    have hold : ∀ x ∈ (({} : Registry).recordAll vs).versions relid,
        ∃ w ∈ vs ++ [v], w.lsn = x.validFromLsn := by
      intro x hx
      obtain ⟨w, hw, hlsn⟩ := ih x hx
      exact ⟨w, List.mem_append_left _ hw, hlsn⟩
    intro x hx
    unfold recordAll at hx hold
    rw [List.foldl_append, List.foldl_cons, List.foldl_nil, versions_record] at hx
    split at hx
    · split at hx
      · exact hold x hx
      · rcases List.mem_append.mp hx with hx | hx
        · exact hold x hx
        · rw [List.mem_singleton.mp hx]
          exact ⟨v, by simp, rfl⟩
    · exact hold x hx

theorem lastRecorded_snoc (vs : List Recorded) (v : Recorded) (relid lsn : Nat) :
    lastRecorded (vs ++ [v]) relid lsn
      = if v.rel.relid = relid ∧ v.lsn ≤ lsn then some v.rel else lastRecorded vs relid lsn := by
  unfold lastRecorded
  rw [List.filter_append]
  by_cases h : v.rel.relid = relid ∧ v.lsn ≤ lsn
  · rw [if_pos h, List.filter_cons_of_pos (by simpa using h)]
    simp
  · rw [if_neg h, List.filter_cons_of_neg (by simpa using h)]
    simp

private theorem find?_reverse_of_getLast? {α : Type} {p : α → Bool} {xs : List α} {x : α}
    (h : xs.getLast? = some x) (hx : p x = true) : xs.reverse.find? p = some x := by
  have hxs : xs = xs.dropLast ++ [x] := (List.dropLast_append_getLast? x h).symm
  rw [hxs, List.reverse_append, List.reverse_singleton, List.singleton_append,
    List.find?_cons_of_pos hx]

/-- `schema_at` answers with the last message that is recorded at the LSN or below. -/
theorem schemaAt_after {vs : List Recorded} (hmono : (vs.map Recorded.lsn).Pairwise (· ≤ ·))
    (relid lsn : Nat) : ((({} : Registry).recordAll vs).schemaAt relid lsn).map
        SchemaVersion.columns
      = (lastRecorded vs relid lsn).map RelationDesc.columns := by
  induction vs using List.reverseRecOn with
  | nil => rfl
  | append_singleton vs v ih =>
    rw [List.map_append, List.pairwise_append] at hmono
    obtain ⟨hvs, -, hlast⟩ := hmono
    have ih := ih hvs
    have hvalid := Registry.validFrom_recordAll vs relid
    rw [Registry.schemaAt_eq] at ih ⊢
    rw [lastRecorded_snoc]
    unfold Registry.recordAll at ih hvalid ⊢
    rw [List.foldl_append, List.foldl_cons, List.foldl_nil, Registry.versions_record]
    generalize (vs.foldl Registry.record {}).versions relid = versions at ih hvalid ⊢
    by_cases hrel : v.rel.relid = relid
    · rw [if_pos hrel]
      by_cases hsame : versions.getLast?.map SchemaVersion.columns = some v.rel.columns ∧
          versions.getLast?.map SchemaVersion.replident = some v.rel.replident
      · rw [if_pos hsame]
        by_cases hlsn : v.lsn ≤ lsn
        · -- The version that looks the same was recorded before, hence at most at `lsn`.
          rw [if_pos ⟨hrel, hlsn⟩]
          obtain ⟨x, hx, hcols⟩ := Option.map_eq_some_iff.mp hsame.1
          obtain ⟨w, hw, hwx⟩ := hvalid x (List.mem_of_getLast? hx)
          have hle : w.lsn ≤ v.lsn :=
            hlast w.lsn (List.mem_map_of_mem hw) v.lsn (by simp)
          have hp : decide (x.validFromLsn ≤ lsn) = true := by
            rw [decide_eq_true_eq]
            omega
          rw [find?_reverse_of_getLast? hx hp, Option.map_some, Option.map_some, hcols]
        · rw [if_neg fun h => hlsn h.2]
          exact ih
      · rw [if_neg hsame, List.reverse_append, List.reverse_singleton, List.singleton_append]
        by_cases hlsn : v.lsn ≤ lsn
        · rw [if_pos ⟨hrel, hlsn⟩, List.find?_cons_of_pos (by simpa using hlsn)]
          rfl
        · rw [if_neg fun h => hlsn h.2, List.find?_cons_of_neg (by simpa using hlsn)]
          exact ih
    · rw [if_neg hrel, if_neg fun h => hrel h.1]
      exact ih

/-! ## Reading the frames -/

/-- What is recorded from some frames, and where: `pending` are the messages of the open
transaction. -/
def recordedFrom (pending : Option (List RelationDesc)) : List Frame → List Recorded
  | [] => []
  | frame :: frames =>
    match parse frame.payload with
    | .ok (.begin _ _ _) => recordedFrom (some []) frames
    | .ok (.relation rel) =>
      match pending with
      | some rels => recordedFrom (some (rels ++ [rel])) frames
      | none => ⟨frame.lsnEnd, rel⟩ :: recordedFrom none frames
    | .ok (.commit _ _ endLsn _) =>
      (pending.getD []).map (Recorded.mk endLsn) ++ recordedFrom none frames
    | _ => recordedFrom pending frames

/-- The LSNs of the Commits and of the Relation messages outside a transaction. -/
def boundariesFrom (inTxn : Bool) : List Frame → List Nat
  | [] => []
  | frame :: frames =>
    match parse frame.payload with
    | .ok (.begin _ _ _) => boundariesFrom true frames
    | .ok (.relation _) =>
      if inTxn then boundariesFrom true frames else frame.lsnEnd :: boundariesFrom false frames
    | .ok (.commit _ _ endLsn _) => endLsn :: boundariesFrom false frames
    | _ => boundariesFrom inTxn frames

/-- A row as the frames have it: its relation, the Relation message that is in force where
the row stands, its images, and the `end_lsn` of its Commit. -/
structure FrameRow where
  relid : Nat
  inForce : RelationDesc
  images : List (List TupleValue)
  commitLsn : Nat := 0
  deriving DecidableEq, Repr

def rowOf (live : LiveRel) (images : List (List TupleValue)) (relid : Nat) : Option FrameRow :=
  (live.lookup relid).map fun inForce => { relid, inForce, images }

/-- The rows of a message.  A truncation has no images. -/
def Message.rows (live : LiveRel) : Message → List FrameRow
  | .insert relid new => (rowOf live [new] relid).toList
  | .update relid old new => (rowOf live (new :: old.toList.map Prod.snd) relid).toList
  | .delete relid old => (rowOf live [old.2] relid).toList
  | .truncate _ relids => relids.filterMap (rowOf live [])
  | _ => []

/-- The rows that some frames commit: `pending` are the ones of the open transaction. -/
def rowsFrom (live : LiveRel) (pending : List FrameRow) : List Frame → List FrameRow
  | [] => []
  | frame :: frames =>
    match parse frame.payload with
    | .ok (.begin _ _ _) => rowsFrom live [] frames
    | .ok (.commit _ _ endLsn _) =>
      pending.map (fun row => { row with commitLsn := endLsn }) ++ rowsFrom live [] frames
    | .ok msg => rowsFrom (live.behind frame) (pending ++ msg.rows live) frames
    | .error _ => rowsFrom live pending frames

/-- What is recorded stands at the boundaries. -/
theorem recordedFrom_mem {frames : List Frame} {pending : Option (List RelationDesc)}
    {v : Recorded} (h : v ∈ recordedFrom pending frames) :
    v.lsn ∈ boundariesFrom pending.isSome frames := by
  induction frames generalizing pending with
  | nil => exact absurd h List.not_mem_nil
  | cons frame frames ih =>
    unfold recordedFrom at h
    unfold boundariesFrom
    split at h
    · exact ih h
    · cases pending with
      | some rels => exact ih h
      | none =>
        rcases List.mem_cons.mp h with hv | hv
        · rw [hv]
          exact List.mem_cons_self
        · exact List.mem_cons_of_mem _ (ih hv)
    · rcases List.mem_append.mp h with hv | hv
      · obtain ⟨rel, -, hrel⟩ := List.mem_map.mp hv
        rw [← hrel]
        exact List.mem_cons_self
      · exact List.mem_cons_of_mem _ (ih hv)
    · exact ih h

/-- Boundaries in order give what is recorded in order. -/
theorem recordedFrom_pairwise {frames : List Frame} (pending : Option (List RelationDesc))
    (h : (boundariesFrom pending.isSome frames).Pairwise (· ≤ ·)) :
    ((recordedFrom pending frames).map Recorded.lsn).Pairwise (· ≤ ·) := by
  induction frames generalizing pending with
  | nil => exact List.Pairwise.nil
  | cons frame frames ih =>
    unfold boundariesFrom at h
    unfold recordedFrom
    split at h
    · exact ih _ h
    · cases pending with
      | some rels => exact ih _ h
      | none =>
        obtain ⟨hfirst, hrest⟩ := List.pairwise_cons.mp h
        rw [List.map_cons, List.pairwise_cons]
        refine ⟨?_, ih _ hrest⟩
        intro lsn hlsn
        obtain ⟨v, hv, rfl⟩ := List.mem_map.mp hlsn
        exact hfirst _ (recordedFrom_mem hv)
    · rename_i endLsn _ _
      obtain ⟨hfirst, hrest⟩ := List.pairwise_cons.mp h
      have hconst : (pending.getD []).map (Recorded.lsn ∘ Recorded.mk endLsn)
          = List.replicate (pending.getD []).length endLsn := List.map_const'
      rw [List.map_append, List.pairwise_append, List.map_map, hconst]
      refine ⟨List.pairwise_replicate.mpr (Or.inr (Nat.le_refl _)), ih _ hrest, ?_⟩
      intro a ha b hb
      rw [List.eq_of_mem_replicate ha]
      obtain ⟨v, hv, rfl⟩ := List.mem_map.mp hb
      exact hfirst _ (recordedFrom_mem hv)
    · exact ih _ h

/-! ## The decoder reads the same -/

/-- The row images of a change. -/
def TypedChange.images (c : TypedChange) : List Named := c.new.toList ++ c.old.toList

/-- The change is the row, named under the message that is in force. -/
def FrameRow.Becomes (row : FrameRow) (c : TypedChange) : Prop :=
  c.table = row.inForce.qualifiedName ∧ c.commitLsn = row.commitLsn ∧
    c.images = row.images.map (nameTuple row.inForce)

/-- A truncation changes the relations that are known, in their order. -/
private theorem rows_truncate (live : LiveRel) (xid : Nat) (relids : List Nat) :
    List.Forall₂ FrameRow.Becomes (relids.filterMap (rowOf live []))
      ((relids.filterMap fun relid => live.lookup relid).map fun rel =>
        { commitLsn := 0, xid, table := rel.qualifiedName, op := .truncate
          new := none, old := none }) := by
  induction relids with
  | nil => exact List.Forall₂.nil
  | cons relid relids ih =>
    rw [List.filterMap_cons, List.filterMap_cons, rowOf]
    cases live.lookup relid with
    | none => exact ih
    | some rel => exact List.Forall₂.cons ⟨rfl, rfl, rfl⟩ ih

/-- A row or a truncation. -/
def Message.IsRows : Message → Prop
  | .insert _ _ | .update _ _ _ | .delete _ _ | .truncate _ _ => True
  | _ => False

namespace StreamDecoder

/-- Rows go to the open transaction, under the relation that is in force. -/
theorem feedMessage_rows {d : StreamDecoder} {msg : Message} (h : d.Admits msg)
    (hrows : msg.IsRows) (frame : Frame) :
    ∃ t changes ddlRows, d.txn = some t ∧
      List.Forall₂ FrameRow.Becomes (msg.rows d.liveRel) changes ∧
      d.feedMessage frame msg = (.ok none, { d with
        txn := some { t with changes := t.changes ++ changes, ddlRows } }) := by
  have hpush : ∀ relid, (d.liveRel.lookup relid).isSome ∧ d.txn.isSome → ∃ rel t,
      (∀ images, rowOf d.liveRel images relid = some ⟨relid, rel, images, 0⟩) ∧ d.txn = some t ∧
        ∀ kind change, d.push kind relid change
          = (.ok none, { d with txn := some (change rel t) }) := by
    intro relid h
    obtain ⟨rel, hrel⟩ := Option.isSome_iff_exists.mp h.1
    obtain ⟨t, ht⟩ := Option.isSome_iff_exists.mp h.2
    refine ⟨rel, t, fun images => by simp [rowOf, hrel], ht, fun kind change => ?_⟩
    unfold push
    rw [hrel, ht]
  cases msg with
  | insert relid new =>
    obtain ⟨rel, t, hrow, ht, hpush⟩ := hpush relid h
    refine ⟨t, _, _, ht, ?_, hpush _ _⟩
    rw [Message.rows, hrow]
    exact List.Forall₂.cons ⟨rfl, rfl, rfl⟩ List.Forall₂.nil
  | update relid old new =>
    obtain ⟨rel, t, hrow, ht, hpush⟩ := hpush relid h
    refine ⟨t, _, _, ht, ?_, hpush _ _⟩
    rw [Message.rows, hrow]
    refine List.Forall₂.cons ⟨rfl, rfl, ?_⟩ List.Forall₂.nil
    cases old with
    | none => rfl
    | some o => rfl
  | delete relid old =>
    obtain ⟨rel, t, hrow, ht, hpush⟩ := hpush relid h
    refine ⟨t, _, _, ht, ?_, hpush _ _⟩
    rw [Message.rows, hrow]
    exact List.Forall₂.cons ⟨rfl, rfl, rfl⟩ List.Forall₂.nil
  | truncate options relids =>
    obtain ⟨t, ht⟩ := Option.isSome_iff_exists.mp h
    exact ⟨t, _, t.ddlRows, ht, rows_truncate d.liveRel t.xid relids,
      by simp [feedMessage, feedTruncate, ht]⟩
  | _ => exact hrows.elim

theorem next_of_parse {d : StreamDecoder} {frame : Frame} {msg : Message}
    (hseq : frame.seq = d.nextSeq) (hmsg : parse frame.payload = .ok msg) :
    d.next frame
      = ({ d with nextSeq := frame.seq + 1, started := true }.feedMessage frame msg).2 := by
  unfold next feedFrame
  rw [if_neg (not_not_intro hseq), hmsg]

/-- The registry behind some frames is what they record. -/
theorem after_registry {d : StreamDecoder} {frames : List Frame} (h : d.AcceptsAll frames) :
    (d.after frames).registry
      = d.registry.recordAll (recordedFrom (d.txn.map TxnBuf.relations) frames) := by
  induction frames generalizing d with
  | nil => rfl
  | cons frame frames ih =>
    obtain ⟨⟨hseq, msg, hmsg, hadmits⟩, hrest⟩ := h
    have hnext := next_of_parse hseq hmsg
    have hafter := ih hrest
    rw [after, hafter, recordedFrom, hmsg]
    let d' : StreamDecoder := { d with nextSeq := frame.seq + 1, started := true }
    have hrows : msg.IsRows → (d.next frame).registry = d.registry ∧
        (d.next frame).txn.map TxnBuf.relations = d.txn.map TxnBuf.relations := by
      intro hrows
      obtain ⟨t, changes, ddlRows, ht, -, hfeed⟩ :=
        feedMessage_rows (d := d') hadmits hrows frame
      have ht : d.txn = some t := ht
      rw [hnext, hfeed, ht]
      exact ⟨rfl, rfl⟩
    cases msg with
    | insert relid new => rw [(hrows trivial).1, (hrows trivial).2]
    | update relid old new => rw [(hrows trivial).1, (hrows trivial).2]
    | delete relid old => rw [(hrows trivial).1, (hrows trivial).2]
    | truncate options relids => rw [(hrows trivial).1, (hrows trivial).2]
    | relation rel =>
      rw [hnext]
      unfold feedMessage feedRelation
      cases d.txn with
      | none => rfl
      | some t => rfl
    | commit flags commitLsn endLsn commitTs =>
      obtain ⟨t, ht⟩ := Option.isSome_iff_exists.mp hadmits
      have ht : d.txn = some t := ht
      rw [hnext]
      simp only [feedMessage, feedCommit, ht]
      rw [Registry.recordAll_append]
      congr 1
      simp [Registry.recordAll, List.foldl_map, Registry.record]
    | begin finalLsn commitTs xid =>
      rw [hnext]
      rfl
    | origin commitLsn name =>
      rw [hnext]
      rfl
    | type typeOid ns name =>
      rw [hnext]
      rfl
    | logicalMessage flags lsn tag payload =>
      rw [hnext]
      rfl

/-- The changes of the open transaction. -/
def pendingChanges (d : StreamDecoder) : List TypedChange := (d.txn.map TxnBuf.changes).getD []

/-- The changes that some frames emit are their rows. -/
theorem changes_of_rows {d : StreamDecoder} {frames : List Frame} {pending : List FrameRow}
    (h : d.AcceptsAll frames) (hpending : List.Forall₂ FrameRow.Becomes pending d.pendingChanges) :
    List.Forall₂ FrameRow.Becomes (rowsFrom d.liveRel pending frames)
      ((d.txnsOf frames).flatMap DecodedTxn.changes) := by
  induction frames generalizing d pending with
  | nil => exact List.Forall₂.nil
  | cons frame frames ih =>
    have hlive := next_liveRel h.1
    have hemitted := emitted_endLsn h.1
    obtain ⟨⟨hseq, msg, hmsg, hadmits⟩, hrest⟩ := h
    have hnext := next_of_parse hseq hmsg
    have hend : commitEnd frame = msg.commitEnd := by
      unfold commitEnd
      rw [hmsg]
    rw [hend] at hemitted
    let d' : StreamDecoder := { d with nextSeq := frame.seq + 1, started := true }
    have hother : msg.commitEnd = none → ∀ pending',
        List.Forall₂ FrameRow.Becomes pending' (d.next frame).pendingChanges →
        List.Forall₂ FrameRow.Becomes (rowsFrom (LiveRel.behind d.liveRel frame) pending' frames)
          ((d.txnsOf (frame :: frames)).flatMap DecodedTxn.changes) := by
      intro hnone pending' hpending'
      rw [hnone, Option.map_eq_none_iff] at hemitted
      rw [txnsOf, hemitted, ← hlive]
      exact ih hrest hpending'
    have hsame : (d.next frame).pendingChanges = d.pendingChanges →
        List.Forall₂ FrameRow.Becomes (pending ++ []) (d.next frame).pendingChanges := by
      intro heq
      rw [heq, List.append_nil]
      exact hpending
    have hbehind : msg.sends = none → LiveRel.behind d.liveRel frame = d.liveRel := by
      intro hsends
      unfold LiveRel.behind sentBy
      rw [hmsg]
      dsimp only
      rw [hsends]
    have hrows : msg.IsRows → List.Forall₂ FrameRow.Becomes
        (pending ++ msg.rows d.liveRel) (d.next frame).pendingChanges := by
      intro hrows
      obtain ⟨t, changes, ddlRows, ht, hchanges, hfeed⟩ :=
        feedMessage_rows (d := d') hadmits hrows frame
      have ht : d.txn = some t := ht
      unfold pendingChanges at hpending ⊢
      rw [ht] at hpending
      rw [hnext, hfeed]
      exact List.rel_append hpending hchanges
    rw [rowsFrom, hmsg]
    cases msg with
    | insert relid new => exact hother rfl _ (hrows trivial)
    | update relid old new => exact hother rfl _ (hrows trivial)
    | delete relid old => exact hother rfl _ (hrows trivial)
    | truncate options relids => exact hother rfl _ (hrows trivial)
    | relation rel =>
      apply hother rfl
      apply hsame
      rw [hnext]
      unfold pendingChanges feedMessage feedRelation
      cases d.txn with
      | none => rfl
      | some t => rfl
    | begin finalLsn commitTs xid =>
      have hpending' : List.Forall₂ FrameRow.Becomes [] (d.next frame).pendingChanges := by
        rw [hnext]
        exact List.Forall₂.nil
      have hchanges := hother rfl _ hpending'
      rw [hbehind rfl] at hchanges
      exact hchanges
    | commit flags commitLsn endLsn commitTs =>
      obtain ⟨t, ht⟩ := Option.isSome_iff_exists.mp hadmits
      have ht : d.txn = some t := ht
      have hpending' : List.Forall₂ FrameRow.Becomes [] (d.next frame).pendingChanges := by
        rw [hnext]
        simp only [feedMessage, feedCommit, ht]
        exact List.Forall₂.nil
      have hout : d.emitted frame = some (t.complete endLsn) := by
        unfold emitted feedFrame
        rw [if_neg (not_not_intro hseq), hmsg]
        simp only [feedMessage, feedCommit, ht]
      have hcommit : List.Forall₂ FrameRow.Becomes
          (pending.map fun row => { row with commitLsn := endLsn }) (t.complete endLsn).changes := by
        unfold pendingChanges at hpending
        rw [ht] at hpending
        refine List.forall₂_map_left_iff.mpr (List.forall₂_map_right_iff.mpr ?_)
        exact hpending.imp fun row c hrow => ⟨hrow.1, rfl, hrow.2.2⟩
      have hchanges := ih hrest hpending'
      rw [hlive, hbehind rfl] at hchanges
      rw [txnsOf, hout, Option.toList_some, List.singleton_append, List.flatMap_cons]
      exact List.rel_append hcommit hchanges
    | origin commitLsn name =>
      apply hother rfl
      apply hsame
      rw [hnext]
      rfl
    | type typeOid ns name =>
      apply hother rfl
      apply hsame
      rw [hnext]
      rfl
    | logicalMessage flags lsn tag payload =>
      apply hother rfl
      apply hsame
      rw [hnext]
      rfl

end StreamDecoder

/-! ## The schema at the commit of a row -/

/-- The first `n` column names. -/
def firstNames (n : Nat) (columns : List ColumnDesc) : List String :=
  (columns.map ColumnDesc.name).take n

/-- The names in the images of the change are the first columns of what `schema_at` answers. -/
def NamedBy (registry : Registry) (row : FrameRow) (c : TypedChange) : Prop :=
  ∀ image ∈ c.images, (registry.schemaAt row.relid c.commitLsn).map
    (fun v => firstNames image.length v.columns) = some (image.map Prod.fst)

/-- The message recorded last at the commit of the row or below has the names of the one in
force at the row, as far as an image goes. -/
def SameNames (vs : List Recorded) (row : FrameRow) : Prop :=
  ∀ values ∈ row.images, (lastRecorded vs row.relid row.commitLsn).map
      (fun rel => firstNames (min row.inForce.columns.length values.length) rel.columns)
    = some (firstNames (min row.inForce.columns.length values.length) row.inForce.columns)

instance (registry : Registry) (row : FrameRow) (c : TypedChange) :
    Decidable (NamedBy registry row c) :=
  inferInstanceAs (Decidable (∀ image ∈ c.images, _ = _))

instance (vs : List Recorded) (row : FrameRow) : Decidable (SameNames vs row) :=
  inferInstanceAs (Decidable (∀ values ∈ row.images, _ = _))

theorem nameTuple_length (rel : RelationDesc) (values : List TupleValue) :
    (nameTuple rel values).length = min rel.columns.length values.length := by
  simp [nameTuple]

theorem nameTuple_fst (rel : RelationDesc) (values : List TupleValue) :
    (nameTuple rel values).map Prod.fst
      = firstNames (min rel.columns.length values.length) rel.columns := by
  have htake : ∀ (as : List String) (bs : List TupleValue),
      (as.zip bs).map Prod.fst = as.take (min as.length bs.length) := by
    intro as
    induction as with
    | nil => intro bs; rfl
    | cons a as ih =>
      intro bs
      cases bs with
      | nil => rfl
      | cons b bs => simp [ih]
  unfold nameTuple firstNames
  rw [htake, List.length_map]

/-- A change is named by the registry exactly if the names of its row are the same. -/
theorem FrameRow.Becomes.namedBy_iff {row : FrameRow} {c : TypedChange} (h : row.Becomes c)
    {vs : List Recorded} (hmono : (vs.map Recorded.lsn).Pairwise (· ≤ ·)) :
    NamedBy (({} : Registry).recordAll vs) row c ↔ SameNames vs row := by
  obtain ⟨-, hlsn, himages⟩ := h
  have hschema := schemaAt_after hmono row.relid row.commitLsn
  unfold NamedBy SameNames
  rw [hlsn, himages, List.forall_mem_map]
  apply forall₂_congr
  intro values _
  rw [nameTuple_length, nameTuple_fst]
  have hnames := congrArg
    (Option.map (firstNames (min row.inForce.columns.length values.length))) hschema
  rw [Option.map_map, Option.map_map] at hnames
  exact ⟨fun h => hnames.symm.trans h, fun h => hnames.trans h⟩

private theorem forall₂_iff_of_forall₂ {α β : Type} {R P : α → β → Prop} {Q : α → Prop}
    {as : List α} {bs : List β} (h : List.Forall₂ R as bs)
    (hiff : ∀ a b, R a b → (P a b ↔ Q a)) : List.Forall₂ P as bs ↔ ∀ a ∈ as, Q a := by
  induction h with
  | nil => simp
  | cons hab _ ih => rw [List.forall₂_cons, List.forall_mem_cons, hiff _ _ hab, ih]

/-- For frames that are taken in some feeds, with the boundaries in order: the changes are the
rows, and `schema_at` on the last registry has the names of all of them exactly if, for each
row, the message recorded last at its commit has the names of the one in force. -/
theorem schema_at_exact {batches : List (List Frame)} {bs : List DecodedBatch} {d : StreamDecoder}
    (hfeed : ({} : StreamDecoder).feedAll batches = (.ok bs, d))
    (hmono : (boundariesFrom false batches.flatten).Pairwise (· ≤ ·)) :
    List.Forall₂ FrameRow.Becomes (rowsFrom ∅ [] batches.flatten) (bs.flatMap DecodedBatch.changes) ∧
      (List.Forall₂ (NamedBy d.registry) (rowsFrom ∅ [] batches.flatten)
          (bs.flatMap DecodedBatch.changes) ↔
        ∀ row ∈ rowsFrom ∅ [] batches.flatten,
          SameNames (recordedFrom none batches.flatten) row) := by
  have hall : ({} : StreamDecoder).AcceptsAll batches.flatten := by
    by_contra hnot
    obtain ⟨e, he⟩ := StreamDecoder.feedAll_of_not_accepts hnot
    rw [hfeed] at he
    simp at he
  rw [StreamDecoder.feedAll_of_accepts hall] at hfeed
  obtain ⟨hbs, rfl⟩ := Prod.mk.inj hfeed
  obtain rfl := Except.ok.inj hbs
  have hchanges := StreamDecoder.changes_of_rows hall (show List.Forall₂ FrameRow.Becomes [] [] from List.Forall₂.nil)
  have hregistry := StreamDecoder.after_registry hall
  rw [(StreamDecoder.batchesOf_output hall).1, hregistry]
  refine ⟨hchanges, ?_⟩
  have hrecorded := recordedFrom_pairwise none hmono
  exact forall₂_iff_of_forall₂ hchanges fun row c hrow => hrow.namedBy_iff hrecorded

/-- A later transaction that renames the column of `p.u` before its row. -/
def alterTxn : List LogOp :=
  [.append 31 31 false (beginMessage 40 3),
    .append 32 32 false (relationMessage 2 "p" "u" ["b"]),
    .append 33 33 false (insertMessage 2 ["3"]), .append 40 40 true (commitMessage 40)]

/-- Three transactions, the last of which renames a column, in two feeds. -/
theorem schema_at_exact_rename : ∃ batches bs d, batches.length = 2 ∧
    ({} : StreamDecoder).feedAll batches = (.ok bs, d) ∧
    (rowsFrom ∅ [] batches.flatten).length = 4 ∧
    List.Forall₂ (NamedBy d.registry) (rowsFrom ∅ [] batches.flatten)
      (bs.flatMap DecodedBatch.changes) := by
  let frames := framesOf (firstTxn ++ secondTxn ++ alterTxn)
  have hfeed := StreamDecoder.feedAll_of_accepts
    (show ({} : StreamDecoder).AcceptsAll [frames.take 4, frames.drop 4].flatten by decide +kernel)
  exact ⟨_, _, _, rfl, hfeed, by decide +kernel,
    (schema_at_exact hfeed (by decide +kernel)).2.mpr (by decide +kernel)⟩

/-- A transaction that renames the column of `p.t` behind its first row. -/
def renameInTxn : List LogOp :=
  [.append 11 11 false (beginMessage 20 1),
    .append 12 12 false (relationMessage 1 "p" "t" ["a"]),
    .append 12 12 false (insertMessage 1 ["x"]),
    .append 13 13 false (relationMessage 1 "p" "t" ["b"]),
    .append 14 14 false (insertMessage 1 ["y"]), .append 20 20 true (commitMessage 20)]

/-- The first row has the column `a`, but at the commit `schema_at` answers with `b`. -/
theorem schema_at_differs : ∃ batches bs d,
    ({} : StreamDecoder).feedAll batches = (.ok bs, d) ∧
    (boundariesFrom false batches.flatten).Pairwise (· ≤ ·) ∧
    (bs.flatMap DecodedBatch.changes).map TypedChange.images
      = [[[("a", .text "x")]], [[("b", .text "y")]]] ∧
    (d.registry.schemaAt 1 20).map (fun v => v.columns.map ColumnDesc.name) = some ["b"] ∧
    ¬ List.Forall₂ (NamedBy d.registry) (rowsFrom ∅ [] batches.flatten)
      (bs.flatMap DecodedBatch.changes) := by
  have hfeed := StreamDecoder.feedAll_of_accepts
    (show ({} : StreamDecoder).AcceptsAll [framesOf renameInTxn].flatten by decide +kernel)
  exact ⟨_, _, _, hfeed, by decide +kernel, by decide +kernel, by decide +kernel,
    by decide +kernel⟩

end GrayDB.Registry
