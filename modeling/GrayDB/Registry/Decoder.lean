import GrayDB.Registry.Pgoutput
import Mathlib.Data.List.AList

/-!
# `StreamDecoder`

The incremental decoder of log frames: it keeps the live relations, the registry
and the open transaction across feeds, and emits the changes of a transaction
at its commit.

* `feedFrame` is one round of the loop of `feed`.  Where the source returns early
  with an error, the state it has reached stays; so the result comes with the
  decoder in both cases.
* `Accepts` is the exact condition under which a frame is taken.
* `feed_of_accepts` is the result of `feed` on frames that are all taken, in terms
  of the transactions `txnsOf` that they complete.
-/

set_option linter.dupNamespace false

namespace GrayDB.Registry

open Log

structure SchemaVersion where
  /-- Commit `end_lsn` of the transaction that carried the Relation message. -/
  validFromLsn : Nat
  replident : UInt8
  columns : List ColumnDesc
  deriving DecidableEq, Repr

structure TableEntry where
  qualifiedName : String := ""
  versions : List SchemaVersion := []
  deriving DecidableEq, Repr

/-- The schema registry, keyed by relation OID. -/
structure Registry where
  tables : AList fun _ : Nat => TableEntry := ∅
  deriving DecidableEq

/-- A Relation message that is sent again without a change of shape adds no version. -/
def Registry.recordVersion (r : Registry) (rel : RelationDesc) (validFromLsn : Nat) : Registry :=
  let entry := { (r.tables.lookup rel.relid).getD {} with qualifiedName := rel.qualifiedName }
  let version : SchemaVersion :=
    { validFromLsn, replident := rel.replident, columns := rel.columns }
  if entry.versions.getLast?.map SchemaVersion.columns = some version.columns ∧
      entry.versions.getLast?.map SchemaVersion.replident = some version.replident then
    { tables := r.tables.insert rel.relid entry }
  else
    { tables := r.tables.insert rel.relid
        { entry with versions := entry.versions ++ [version] } }

inductive Op where
  | insert
  | update
  | delete
  | truncate
  deriving DecidableEq, Repr

/-- A row image: column names and values. -/
abbrev Named := List (String × TupleValue)

structure TypedChange where
  commitLsn : Nat
  xid : Nat
  table : String
  op : Op
  /-- New image (Insert and Update). -/
  new : Option Named
  /-- Old image or key (Update that changes the identity, and Delete). -/
  old : Option Named
  deriving DecidableEq, Repr

structure DdlEvent where
  commitLsn : Nat
  kind : String
  commandTag : Option String
  objectIdentity : Option String
  ddlText : Option String
  deriving DecidableEq, Repr

def nameTuple (rel : RelationDesc) (values : List TupleValue) : Named :=
  (rel.columns.map ColumnDesc.name).zip values

/-- The first text value of a column of that name. -/
def textOf (named : Named) (col : String) : Option String :=
  named.findSome? fun
    | (n, .text s) => if n = col then some s else none
    | _ => none

def ddlEventFromRow (named : Named) : DdlEvent :=
  { commitLsn := 0
    kind := (textOf named "kind").getD "?"
    commandTag := textOf named "command_tag"
    objectIdentity := textOf named "object_identity"
    ddlText := textOf named "ddl_text" }

structure DecodedBatch where
  changes : List TypedChange := []
  ddlEvents : List DdlEvent := []
  txns : Nat := 0
  /-- `end_lsn` of the last commit in this batch; 0 is no commit. -/
  lastCommitLsn : Nat := 0
  /-- Global index of the first change, the base of the synthetic keys. -/
  firstChangeIndex : Nat
  deriving DecidableEq, Repr

structure TxnBuf where
  xid : Nat
  changes : List TypedChange := []
  relations : List RelationDesc := []
  ddlRows : List DdlEvent := []
  deriving DecidableEq, Repr

structure StreamDecoder where
  registry : Registry := {}
  liveRel : AList fun _ : Nat => RelationDesc := ∅
  txn : Option TxnBuf := none
  /-- The next sequence number. -/
  nextSeq : Nat := 0
  /-- The number of the last commit frame, where a rewind goes. -/
  lastCommitSeq : Nat := 0
  started : Bool := false
  /-- Changes emitted so far. -/
  changeCounter : Nat := 0
  deriving DecidableEq

inductive FeedError where
  | frameGap (expected got : Nat)
  | decoding (seq : Nat) (e : ParseError)
  | context (text : String)
  deriving DecidableEq, Repr

def FeedError.message : FeedError → String
  | .frameGap expected got =>
    s!"frame gap: expected seq {expected}, got {got} (log custody violated)"
  | .decoding seq _ => s!"decoding frame seq {seq}"
  | .context text => text

/-- The panic of a read past the end of a message. -/
def FeedError.panics (e : FeedError) : Prop := ∃ seq, e = .decoding seq .panic

/-- What a commit frame adds to the batch. -/
structure DecodedTxn where
  endLsn : Nat
  changes : List TypedChange
  ddlEvents : List DdlEvent
  deriving DecidableEq, Repr

def TxnBuf.complete (t : TxnBuf) (endLsn : Nat) : DecodedTxn :=
  { endLsn
    changes := t.changes.map fun c => { c with commitLsn := endLsn }
    ddlEvents := t.ddlRows.map fun e => { e with commitLsn := endLsn } }

def DecodedBatch.add (out : DecodedBatch) (t : DecodedTxn) : DecodedBatch :=
  { out with
    changes := out.changes ++ t.changes
    ddlEvents := out.ddlEvents ++ t.ddlEvents
    txns := out.txns + 1
    lastCommitLsn := t.endLsn }

namespace StreamDecoder

/-- Drop the open transaction after the log has been cut. -/
def abortOpenTxn (d : StreamDecoder) : StreamDecoder :=
  { d with txn := none, nextSeq := if d.started then d.lastCommitSeq + 1 else 0 }

/-- A change of the open transaction, under the relation in force. -/
def push (d : StreamDecoder) (kind : String) (relid : Nat)
    (change : RelationDesc → TxnBuf → TxnBuf) :
    Except FeedError (Option DecodedTxn) × StreamDecoder :=
  match d.liveRel.lookup relid with
  | none => (.error (.context (kind ++ " before Relation")), d)
  | some rel =>
    match d.txn with
    | none => (.error (.context (kind ++ " outside transaction")), d)
    | some t => (.ok none, { d with txn := some (change rel t) })

def feedInsert (d : StreamDecoder) (relid : Nat) (new : List TupleValue) :
    Except FeedError (Option DecodedTxn) × StreamDecoder :=
  d.push "Insert" relid fun rel t =>
    let named := nameTuple rel new
    { t with
      ddlRows := if rel.qualifiedName = "graydb.ddl_log" then t.ddlRows ++ [ddlEventFromRow named]
        else t.ddlRows
      changes := t.changes ++ [{
        commitLsn := 0, xid := t.xid, table := rel.qualifiedName, op := .insert
        new := some named, old := none }] }

def feedUpdate (d : StreamDecoder) (relid : Nat) (old : Option (UInt8 × List TupleValue))
    (new : List TupleValue) : Except FeedError (Option DecodedTxn) × StreamDecoder :=
  d.push "Update" relid fun rel t =>
    { t with changes := t.changes ++ [{
        commitLsn := 0, xid := t.xid, table := rel.qualifiedName, op := .update
        new := some (nameTuple rel new), old := old.map fun o => nameTuple rel o.2 }] }

def feedDelete (d : StreamDecoder) (relid : Nat) (old : UInt8 × List TupleValue) :
    Except FeedError (Option DecodedTxn) × StreamDecoder :=
  d.push "Delete" relid fun rel t =>
    { t with changes := t.changes ++ [{
        commitLsn := 0, xid := t.xid, table := rel.qualifiedName, op := .delete
        new := none, old := some (nameTuple rel old.2) }] }

/-- Relations that are not known are passed over. -/
def feedTruncate (d : StreamDecoder) (relids : List Nat) :
    Except FeedError (Option DecodedTxn) × StreamDecoder :=
  match d.txn with
  | none => (.error (.context "Truncate outside transaction"), d)
  | some t =>
    (.ok none, { d with txn := some { t with
      changes := t.changes ++ (relids.filterMap fun relid => d.liveRel.lookup relid).map fun rel =>
        { commitLsn := 0, xid := t.xid, table := rel.qualifiedName, op := .truncate
          new := none, old := none } } })

/-- A relation outside a transaction is in force from its frame on, one inside from
the commit on. -/
def feedRelation (d : StreamDecoder) (rel : RelationDesc) (lsnEnd : Nat) : StreamDecoder :=
  match d.txn with
  | some t =>
    { d with
      txn := some { t with relations := t.relations ++ [rel] }
      liveRel := d.liveRel.insert rel.relid rel }
  | none =>
    { d with
      registry := d.registry.recordVersion rel lsnEnd
      liveRel := d.liveRel.insert rel.relid rel }

def feedCommit (d : StreamDecoder) (seq endLsn : Nat) :
    Except FeedError (Option DecodedTxn) × StreamDecoder :=
  match d.txn with
  | none => (.error (.context "Commit without Begin"), d)
  | some t =>
    (.ok (some (t.complete endLsn)), { d with
      txn := none
      lastCommitSeq := seq
      registry := t.relations.foldl (fun r rel => r.recordVersion rel endLsn) d.registry
      changeCounter := d.changeCounter + t.changes.length })

def feedMessage (d : StreamDecoder) (frame : Frame) :
    Message → Except FeedError (Option DecodedTxn) × StreamDecoder
  | .begin _ _ xid => (.ok none, { d with txn := some { xid } })
  | .relation rel => (.ok none, d.feedRelation rel frame.lsnEnd)
  | .insert relid new => d.feedInsert relid new
  | .update relid old new => d.feedUpdate relid old new
  | .delete relid old => d.feedDelete relid old
  | .truncate _ relids => d.feedTruncate relids
  | .commit _ _ endLsn _ => d.feedCommit frame.seq endLsn
  | .origin _ _ | .type _ _ _ | .logicalMessage _ _ _ _ => (.ok none, d)

/-- One round of the loop. -/
def feedFrame (d : StreamDecoder) (frame : Frame) :
    Except FeedError (Option DecodedTxn) × StreamDecoder :=
  if frame.seq ≠ d.nextSeq then
    (.error (.frameGap d.nextSeq frame.seq), d)
  else
    let d := { d with nextSeq := frame.seq + 1, started := true }
    match parse frame.payload with
    | .error e => (.error (.decoding frame.seq e), d)
    | .ok msg => d.feedMessage frame msg

def feedAux (d : StreamDecoder) (out : DecodedBatch) :
    List Frame → Except FeedError DecodedBatch × StreamDecoder
  | [] => (.ok out, d)
  | frame :: frames =>
    match d.feedFrame frame with
    | (.error e, d) => (.error e, d)
    | (.ok none, d) => feedAux d out frames
    | (.ok (some t), d) => feedAux d (out.add t) frames

def feed (d : StreamDecoder) (frames : List Frame) : Except FeedError DecodedBatch × StreamDecoder :=
  d.feedAux { firstChangeIndex := d.changeCounter } frames

/-! ## Frames that are taken -/

/-- A row change needs its relation and an open transaction, a truncation and a commit
an open transaction. -/
def Admits (d : StreamDecoder) : Message → Prop
  | .insert relid _ | .update relid _ _ | .delete relid _ =>
    (d.liveRel.lookup relid).isSome ∧ d.txn.isSome
  | .truncate _ _ | .commit _ _ _ _ => d.txn.isSome
  | .begin _ _ _ | .relation _ | .origin _ _ | .type _ _ _ | .logicalMessage _ _ _ _ => True

/-- The frame is the next one, and it holds a message that has its place there. -/
def Accepts (d : StreamDecoder) (frame : Frame) : Prop :=
  frame.seq = d.nextSeq ∧ ∃ msg, parse frame.payload = .ok msg ∧ d.Admits msg

/-- The decoder behind a frame. -/
def next (d : StreamDecoder) (frame : Frame) : StreamDecoder := (d.feedFrame frame).2

/-- The transaction that a frame completes. -/
def emitted (d : StreamDecoder) (frame : Frame) : Option DecodedTxn :=
  match (d.feedFrame frame).1 with
  | .ok t => t
  | .error _ => none

/-- A change completes no transaction. -/
theorem push_completes_none (d : StreamDecoder) (kind : String) (relid : Nat)
    (change : RelationDesc → TxnBuf → TxnBuf) :
    (match (d.push kind relid change).1 with
      | .ok t => t
      | .error _ => none) = none := by
  unfold push
  cases d.liveRel.lookup relid with
  | none => rfl
  | some rel =>
    cases d.txn with
    | none => rfl
    | some t => rfl

private theorem push_isOk (d : StreamDecoder) (kind : String) (relid : Nat)
    (change : RelationDesc → TxnBuf → TxnBuf) :
    (d.push kind relid change).1.isOk = true ↔
      (d.liveRel.lookup relid).isSome ∧ d.txn.isSome := by
  unfold push
  cases d.liveRel.lookup relid with
  | none => simp [Except.isOk, Except.toBool]
  | some rel =>
    cases d.txn with
    | none => simp [Except.isOk, Except.toBool]
    | some t => simp [Except.isOk, Except.toBool]

private theorem feedMessage_isOk (d : StreamDecoder) (frame : Frame) (msg : Message) :
    (d.feedMessage frame msg).1.isOk = true ↔ d.Admits msg := by
  cases msg with
  | insert relid new => exact push_isOk d _ _ _
  | update relid old new => exact push_isOk d _ _ _
  | delete relid old => exact push_isOk d _ _ _
  | truncate options relids =>
    simp only [feedMessage, feedTruncate, Admits]
    cases d.txn <;> simp [Except.isOk, Except.toBool]
  | commit flags commitLsn endLsn commitTs =>
    simp only [feedMessage, feedCommit, Admits]
    cases d.txn <;> simp [Except.isOk, Except.toBool]
  | _ => simp [feedMessage, Admits, Except.isOk, Except.toBool]

/-- A frame is taken exactly when it is accepted. -/
theorem feedFrame_isOk (d : StreamDecoder) (frame : Frame) :
    (d.feedFrame frame).1.isOk = true ↔ d.Accepts frame := by
  unfold feedFrame Accepts
  by_cases hseq : frame.seq = d.nextSeq
  · rw [if_neg (not_not_intro hseq)]
    cases hp : parse frame.payload with
    | error e => simp [Except.isOk, Except.toBool]
    | ok msg =>
      simp only [feedMessage_isOk]
      constructor
      · exact fun h => ⟨hseq, msg, rfl, h⟩
      · rintro ⟨-, msg', hmsg, h⟩
        rw [Except.ok.inj hmsg]
        exact h
  · rw [if_pos hseq]
    simp [Except.isOk, Except.toBool, hseq]

theorem feedFrame_of_accepts {d : StreamDecoder} {frame : Frame} (h : d.Accepts frame) :
    d.feedFrame frame = (.ok (d.emitted frame), d.next frame) := by
  have hok := (feedFrame_isOk d frame).mpr h
  unfold emitted next
  cases hr : d.feedFrame frame with
  | mk r d' =>
    rw [hr] at hok
    cases r with
    | error e => simp [Except.isOk, Except.toBool] at hok
    | ok t => rfl

/-- Every frame is taken in its turn. -/
def AcceptsAll (d : StreamDecoder) : List Frame → Prop
  | [] => True
  | frame :: frames => d.Accepts frame ∧ (d.next frame).AcceptsAll frames

instance decidableAccepts (d : StreamDecoder) (frame : Frame) : Decidable (d.Accepts frame) :=
  decidable_of_iff _ (feedFrame_isOk d frame)

instance decidableAcceptsAll :
    (frames : List Frame) → (d : StreamDecoder) → Decidable (d.AcceptsAll frames)
  | [], _ => inferInstanceAs (Decidable True)
  | frame :: frames, d =>
    let _ := decidableAcceptsAll frames (d.next frame)
    inferInstanceAs (Decidable (d.Accepts frame ∧ (d.next frame).AcceptsAll frames))

/-- The decoder behind some frames. -/
def after (d : StreamDecoder) : List Frame → StreamDecoder
  | [] => d
  | frame :: frames => (d.next frame).after frames

/-- The transactions that some frames complete. -/
def txnsOf (d : StreamDecoder) : List Frame → List DecodedTxn
  | [] => []
  | frame :: frames => (d.emitted frame).toList ++ (d.next frame).txnsOf frames

theorem acceptsAll_append (d : StreamDecoder) (fs gs : List Frame) :
    d.AcceptsAll (fs ++ gs) ↔ d.AcceptsAll fs ∧ (d.after fs).AcceptsAll gs := by
  induction fs generalizing d with
  | nil => simp [AcceptsAll, after]
  | cons f fs ih => simp [AcceptsAll, after, ih, and_assoc]

theorem after_append (d : StreamDecoder) (fs gs : List Frame) :
    d.after (fs ++ gs) = (d.after fs).after gs := by
  induction fs generalizing d with
  | nil => rfl
  | cons f fs ih => exact ih _

theorem txnsOf_append (d : StreamDecoder) (fs gs : List Frame) :
    d.txnsOf (fs ++ gs) = d.txnsOf fs ++ (d.after fs).txnsOf gs := by
  induction fs generalizing d with
  | nil => rfl
  | cons f fs ih => simp [txnsOf, after, ih]

/-- The changes of the transaction that a frame completes. -/
def outputOf : Except FeedError (Option DecodedTxn) → List TypedChange
  | .ok (some t) => t.changes
  | _ => []

/-- A message leaves the sequence number, and counts the changes that it emits. -/
private theorem feedMessage_counts (d : StreamDecoder) (frame : Frame) (msg : Message) :
    (d.feedMessage frame msg).2.nextSeq = d.nextSeq ∧
      (d.feedMessage frame msg).2.changeCounter
        = d.changeCounter + (outputOf (d.feedMessage frame msg).1).length := by
  have hpush : ∀ kind relid change, (d.push kind relid change).2.nextSeq = d.nextSeq ∧
      (d.push kind relid change).2.changeCounter
        = d.changeCounter + (outputOf (d.push kind relid change).1).length := by
    intro kind relid change
    unfold push
    cases d.liveRel.lookup relid with
    | none => exact ⟨rfl, rfl⟩
    | some rel =>
      cases d.txn with
      | none => exact ⟨rfl, rfl⟩
      | some t => exact ⟨rfl, rfl⟩
  cases msg with
  | insert relid new => exact hpush _ _ _
  | update relid old new => exact hpush _ _ _
  | delete relid old => exact hpush _ _ _
  | truncate options relids =>
    simp only [feedMessage, feedTruncate]
    cases d.txn <;> exact ⟨rfl, rfl⟩
  | relation rel =>
    simp only [feedMessage, feedRelation]
    cases d.txn <;> exact ⟨rfl, rfl⟩
  | commit flags commitLsn endLsn commitTs =>
    simp only [feedMessage, feedCommit]
    cases d.txn with
    | none => exact ⟨rfl, rfl⟩
    | some t => exact ⟨rfl, by simp [outputOf, TxnBuf.complete]⟩
  | _ => exact ⟨rfl, rfl⟩

theorem next_counts {d : StreamDecoder} {frame : Frame} (h : d.Accepts frame) :
    (d.next frame).nextSeq = d.nextSeq + 1 ∧
      (d.next frame).changeCounter
        = d.changeCounter + ((d.emitted frame).toList.flatMap DecodedTxn.changes).length := by
  obtain ⟨hseq, msg, hmsg, -⟩ := h
  obtain ⟨h1, h2⟩ := feedMessage_counts
    { d with nextSeq := frame.seq + 1, started := true } frame msg
  have hfeed : d.feedFrame frame
      = { d with nextSeq := frame.seq + 1, started := true }.feedMessage frame msg := by
    unfold feedFrame
    rw [if_neg (not_not_intro hseq), hmsg]
  unfold next emitted
  rw [hfeed, h1, h2]
  refine ⟨by rw [hseq], ?_⟩
  congr 2
  unfold outputOf
  split
  · rename_i t ht
    simp [ht]
  · rename_i r hr
    cases hr' : (feedMessage { d with nextSeq := frame.seq + 1, started := true } frame msg).1 with
    | error e => rfl
    | ok o =>
      cases o with
      | none => rfl
      | some t => exact absurd hr' (hr t)

/-- The sequence number and the change counter behind some frames. -/
theorem after_counts {d : StreamDecoder} {frames : List Frame} (h : d.AcceptsAll frames) :
    (d.after frames).nextSeq = d.nextSeq + frames.length ∧
      (d.after frames).changeCounter
        = d.changeCounter + ((d.txnsOf frames).flatMap DecodedTxn.changes).length := by
  induction frames generalizing d with
  | nil => exact ⟨rfl, rfl⟩
  | cons frame frames ih =>
    obtain ⟨h1, h2⟩ := next_counts h.1
    obtain ⟨h3, h4⟩ := ih h.2
    refine ⟨?_, ?_⟩
    · rw [after, h3, h1, List.length_cons]
      omega
    · rw [after, h4, h2, txnsOf, List.flatMap_append, List.length_append]
      omega

private theorem feedAux_of_accepts {d : StreamDecoder} {frames : List Frame}
    (h : d.AcceptsAll frames) (out : DecodedBatch) :
    d.feedAux out frames = (.ok ((d.txnsOf frames).foldl DecodedBatch.add out), d.after frames) := by
  induction frames generalizing d out with
  | nil => rfl
  | cons frame frames ih =>
    rw [feedAux, feedFrame_of_accepts h.1, txnsOf, after]
    cases d.emitted frame with
    | none => exact ih h.2 out
    | some t => exact ih h.2 (out.add t)

/-- `feed` on frames that are all taken: the batch of the transactions they complete. -/
theorem feed_of_accepts {d : StreamDecoder} {frames : List Frame} (h : d.AcceptsAll frames) :
    d.feed frames = (.ok ((d.txnsOf frames).foldl DecodedBatch.add
      { firstChangeIndex := d.changeCounter }), d.after frames) :=
  feedAux_of_accepts h _

end StreamDecoder

/-! ## The batch of some transactions -/

theorem DecodedBatch.changes_foldl_add (ts : List DecodedTxn) (out : DecodedBatch) :
    (ts.foldl DecodedBatch.add out).changes = out.changes ++ ts.flatMap DecodedTxn.changes := by
  induction ts generalizing out with
  | nil => simp
  | cons t ts ih => simp [ih, DecodedBatch.add]

theorem DecodedBatch.firstChangeIndex_foldl_add (ts : List DecodedTxn) (out : DecodedBatch) :
    (ts.foldl DecodedBatch.add out).firstChangeIndex = out.firstChangeIndex := by
  induction ts generalizing out with
  | nil => rfl
  | cons t ts ih => simp [ih, DecodedBatch.add]

theorem DecodedBatch.lastCommitLsn_foldl_add (ts : List DecodedTxn) (out : DecodedBatch) :
    (ts.foldl DecodedBatch.add out).lastCommitLsn
      = (ts.getLast?.map DecodedTxn.endLsn).getD out.lastCommitLsn := by
  induction ts using List.reverseRecOn with
  | nil => rfl
  | append_singleton ts t _ => simp [DecodedBatch.add]

end GrayDB.Registry
