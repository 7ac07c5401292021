import GrayDB.Log.Runs
import GrayDB.Registry.Decoder

/-!
# `replay_log`

The offline replay of a whole frame log, and its agreement with the incremental
decoder.  The replay is a second interpreter of the same messages.  It verifies the
log first, and it checks the open transaction before the relation, where the decoder
checks them the other way round.

* `Tracks` relates the two interpreters, and `Tracks.frame` is one frame: both take it
  or both refuse it.
* `replay_eq_feeds` is the result, for every way of cutting the frames into feeds.
-/

namespace GrayDB.Registry

open Log

/-- The output of a replay. -/
structure Replay where
  registry : Registry := {}
  changes : List TypedChange := []
  ddlEvents : List DdlEvent := []
  txns : Nat := 0
  frames : Nat := 0

inductive ReplayError where
  | verify (e : VerifyError)
  /-- `frame log failed verification before replay` -/
  | failedVerification
  | decoding (seq : Nat) (e : ParseError)
  | context (text : String)
  deriving DecidableEq, Repr

/-- The variables of the loop. -/
structure Replaying where
  out : Replay := {}
  liveRel : AList fun _ : Nat => RelationDesc := ∅
  txn : Option TxnBuf := none

namespace Replaying

/-- A change of the open transaction, under the relation in force. -/
def push (s : Replaying) (kind : String) (relid : Nat) (change : RelationDesc → TxnBuf → TxnBuf) :
    Except ReplayError Replaying :=
  match s.txn with
  | none => .error (.context (kind ++ " outside transaction"))
  | some t =>
    match s.liveRel.lookup relid with
    | none => .error (.context (kind ++ " before Relation"))
    | some rel => .ok { s with txn := some (change rel t) }

def relation (s : Replaying) (rel : RelationDesc) (lsnEnd : Nat) : Replaying :=
  match s.txn with
  | some t =>
    { s with
      txn := some { t with relations := t.relations ++ [rel] }
      liveRel := s.liveRel.insert rel.relid rel }
  | none =>
    { s with
      out := { s.out with registry := s.out.registry.recordVersion rel lsnEnd }
      liveRel := s.liveRel.insert rel.relid rel }

def commit (s : Replaying) (endLsn : Nat) : Except ReplayError Replaying :=
  match s.txn with
  | none => .error (.context "Commit without Begin")
  | some t =>
    .ok { s with
      txn := none
      out := { s.out with
        registry := t.relations.foldl (fun r rel => r.recordVersion rel endLsn) s.out.registry
        changes := s.out.changes ++ (t.complete endLsn).changes
        ddlEvents := s.out.ddlEvents ++ (t.complete endLsn).ddlEvents
        txns := s.out.txns + 1 } }

def truncate (s : Replaying) (relids : List Nat) : Except ReplayError Replaying :=
  match s.txn with
  | none => .error (.context "Truncate outside transaction")
  | some t =>
    .ok { s with txn := some { t with
      changes := t.changes ++ (relids.filterMap fun relid => s.liveRel.lookup relid).map fun rel =>
        { commitLsn := 0, xid := t.xid, table := rel.qualifiedName, op := .truncate
          new := none, old := none } } }

def message (s : Replaying) (lsnEnd : Nat) : Message → Except ReplayError Replaying
  | .begin _ _ xid => .ok { s with txn := some { xid } }
  | .relation rel => .ok (s.relation rel lsnEnd)
  | .insert relid new =>
    s.push "Insert" relid fun rel t =>
      let named := nameTuple rel new
      { t with
        ddlRows := if rel.qualifiedName = "graydb.ddl_log" then
            t.ddlRows ++ [ddlEventFromRow named]
          else t.ddlRows
        changes := t.changes ++ [{
          commitLsn := 0, xid := t.xid, table := rel.qualifiedName, op := .insert
          new := some named, old := none }] }
  | .update relid old new =>
    s.push "Update" relid fun rel t =>
      { t with changes := t.changes ++ [{
          commitLsn := 0, xid := t.xid, table := rel.qualifiedName, op := .update
          new := some (nameTuple rel new), old := old.map fun o => nameTuple rel o.2 }] }
  | .delete relid old =>
    s.push "Delete" relid fun rel t =>
      { t with changes := t.changes ++ [{
          commitLsn := 0, xid := t.xid, table := rel.qualifiedName, op := .delete
          new := none, old := some (nameTuple rel old.2) }] }
  | .truncate _ relids => s.truncate relids
  | .commit _ _ endLsn _ => s.commit endLsn
  | .origin _ _ | .type _ _ _ | .logicalMessage _ _ _ _ => .ok s

/-- One round of the loop. -/
def frame (s : Replaying) (frame : Frame) : Except ReplayError Replaying :=
  match parse frame.payload with
  | .error e => .error (.decoding frame.seq e)
  | .ok msg => s.message frame.lsnEnd msg

end Replaying

/-- The loop over the frames. -/
def replayFrames (frames : List Frame) (s : Replaying) : Except ReplayError Replaying :=
  frames.foldlM Replaying.frame s

def replayLog [Crc32c] (dir : Dir) : Except ReplayError Replay :=
  match verifyLog dir false with
  | .error e => .error (.verify e)
  | .ok (verification, frames) =>
    if verification.seqContiguous && verification.lsnMonotone then
      (replayFrames frames { out := { frames := verification.frames } }).map Replaying.out
    else .error .failedVerification

/-! ## The feeds of a decoder -/

namespace StreamDecoder

/-- Batches of frames, fed one after the other up to the first error. -/
def feedAll (d : StreamDecoder) :
    List (List Frame) → Except FeedError (List DecodedBatch) × StreamDecoder
  | [] => (.ok [], d)
  | frames :: rest =>
    match d.feed frames with
    | (.error e, d) => (.error e, d)
    | (.ok batch, d) =>
      let (batches, d) := d.feedAll rest
      (batches.map (batch :: ·), d)

/-- The batches of feeds that succeed. -/
def batchesOf (d : StreamDecoder) : List (List Frame) → List DecodedBatch
  | [] => []
  | frames :: rest =>
    (d.txnsOf frames).foldl DecodedBatch.add { firstChangeIndex := d.changeCounter } ::
      (d.after frames).batchesOf rest

private theorem feedAux_of_not_accepts {d : StreamDecoder} {frames : List Frame}
    (h : ¬ d.AcceptsAll frames) (out : DecodedBatch) : ∃ e, (d.feedAux out frames).1 = .error e := by
  induction frames generalizing d out with
  | nil => exact absurd trivial h
  | cons frame frames ih =>
    unfold feedAux
    by_cases hframe : d.Accepts frame
    · have hrest : ¬ (d.next frame).AcceptsAll frames := fun hr => h ⟨hframe, hr⟩
      rw [feedFrame_of_accepts hframe]
      cases d.emitted frame with
      | none => exact ih hrest out
      | some t => exact ih hrest (out.add t)
    · rw [← feedFrame_isOk] at hframe
      cases hr : d.feedFrame frame with
      | mk r d' =>
        rw [hr] at hframe
        cases r with
        | error e => exact ⟨e, rfl⟩
        | ok t => exact absurd rfl hframe

theorem feed_of_not_accepts {d : StreamDecoder} {frames : List Frame} (h : ¬ d.AcceptsAll frames) :
    ∃ e, (d.feed frames).1 = .error e :=
  feedAux_of_not_accepts h _

/-- All feeds succeed when the frames are all taken. -/
theorem feedAll_of_accepts {d : StreamDecoder} {batches : List (List Frame)}
    (h : d.AcceptsAll batches.flatten) :
    d.feedAll batches = (.ok (d.batchesOf batches), d.after batches.flatten) := by
  induction batches generalizing d with
  | nil => rfl
  | cons frames batches ih =>
    rw [List.flatten_cons, acceptsAll_append] at h
    rw [feedAll, feed_of_accepts h.1]
    simp only [ih h.2, Except.map, List.flatten_cons, after_append, batchesOf]

/-- Otherwise one of them fails. -/
theorem feedAll_of_not_accepts {d : StreamDecoder} {batches : List (List Frame)}
    (h : ¬ d.AcceptsAll batches.flatten) : ∃ e, (d.feedAll batches).1 = .error e := by
  induction batches generalizing d with
  | nil => exact absurd trivial h
  | cons frames batches ih =>
    rw [List.flatten_cons, acceptsAll_append] at h
    unfold feedAll
    by_cases hframes : d.AcceptsAll frames
    · have hrest : ¬ (d.after frames).AcceptsAll batches.flatten := fun hr => h ⟨hframes, hr⟩
      obtain ⟨e, he⟩ := ih hrest
      rw [feed_of_accepts hframes]
      exact ⟨e, by simp [he, Except.map]⟩
    · obtain ⟨e, he⟩ := feed_of_not_accepts hframes
      cases hr : d.feed frames with
      | mk r d' =>
        rw [hr] at he
        change r = .error e at he
        subst he
        exact ⟨e, rfl⟩

end StreamDecoder

/-! ## The two interpreters -/

/-- The replay has the state of the decoder. -/
def Tracks (s : Replaying) (d : StreamDecoder) : Prop :=
  s.liveRel = d.liveRel ∧ s.txn = d.txn ∧ s.out.registry = d.registry

/-- What the replay adds to its output for some transactions. -/
def Emits (s : Replaying) (ts : List DecodedTxn) (s' : Replaying) : Prop :=
  s'.out.changes = s.out.changes ++ ts.flatMap DecodedTxn.changes ∧
    s'.out.ddlEvents = s.out.ddlEvents ++ ts.flatMap DecodedTxn.ddlEvents ∧
    s'.out.txns = s.out.txns + ts.length

/-- Both refuse the frame, or both take it and go on alike. -/
def Agree (s : Replaying) :
    Except ReplayError Replaying → Except FeedError (Option DecodedTxn) × StreamDecoder → Prop
  | .error _, (.error _, _) => True
  | .ok s', (.ok t, d) => Tracks s' d ∧ Emits s t.toList s'
  | _, _ => False

theorem Emits.refl (s : Replaying) : Emits s [] s := by simp [Emits]

/-- The two look up the relation and the transaction in a different order. -/
private theorem push_agree {s : Replaying} {d : StreamDecoder} (h : Tracks s d) (kind : String)
    (relid : Nat) (change : RelationDesc → TxnBuf → TxnBuf) :
    Agree s (s.push kind relid change) (d.push kind relid change) := by
  obtain ⟨hlive, htxn, hregistry⟩ := h
  unfold Replaying.push StreamDecoder.push
  rw [hlive, htxn]
  cases d.txn with
  | none =>
    cases d.liveRel.lookup relid with
    | none => trivial
    | some rel => trivial
  | some t =>
    cases d.liveRel.lookup relid with
    | none => trivial
    | some rel => exact ⟨⟨rfl, rfl, hregistry⟩, Emits.refl s⟩

private theorem message_agree {s : Replaying} {d : StreamDecoder} (h : Tracks s d) (frame : Frame)
    (msg : Message) : Agree s (s.message frame.lsnEnd msg) (d.feedMessage frame msg) := by
  cases msg with
  | insert relid new => exact push_agree h _ _ _
  | update relid old new => exact push_agree h _ _ _
  | delete relid old => exact push_agree h _ _ _
  | begin finalLsn commitTs xid => exact ⟨⟨h.1, rfl, h.2.2⟩, Emits.refl s⟩
  | relation rel =>
    obtain ⟨hlive, htxn, hregistry⟩ := h
    unfold Replaying.message StreamDecoder.feedMessage Replaying.relation
      StreamDecoder.feedRelation
    rw [hlive, htxn, hregistry]
    cases d.txn with
    | none => exact ⟨⟨rfl, rfl, rfl⟩, Emits.refl s⟩
    | some t => exact ⟨⟨rfl, rfl, hregistry⟩, Emits.refl s⟩
  | truncate options relids =>
    obtain ⟨hlive, htxn, hregistry⟩ := h
    unfold Replaying.message StreamDecoder.feedMessage Replaying.truncate
      StreamDecoder.feedTruncate
    rw [hlive, htxn]
    cases d.txn with
    | none => trivial
    | some t => exact ⟨⟨rfl, rfl, hregistry⟩, Emits.refl s⟩
  | commit flags commitLsn endLsn commitTs =>
    obtain ⟨hlive, htxn, hregistry⟩ := h
    unfold Replaying.message StreamDecoder.feedMessage Replaying.commit StreamDecoder.feedCommit
    rw [htxn, hregistry]
    cases d.txn with
    | none => trivial
    | some t => exact ⟨⟨hlive, rfl, rfl⟩, by simp [Emits]⟩
  | origin commitLsn name => exact ⟨h, Emits.refl s⟩
  | type typeOid ns name => exact ⟨h, Emits.refl s⟩
  | logicalMessage flags lsn tag payload => exact ⟨h, Emits.refl s⟩

theorem Tracks.frame {s : Replaying} {d : StreamDecoder} (h : Tracks s d) {frame : Frame}
    (hseq : frame.seq = d.nextSeq) : Agree s (s.frame frame) (d.feedFrame frame) := by
  unfold Replaying.frame StreamDecoder.feedFrame
  rw [if_neg (not_not_intro hseq)]
  cases parse frame.payload with
  | error e => trivial
  | ok msg =>
    apply message_agree
    exact h

theorem Emits.trans {s s' s'' : Replaying} {ts us : List DecodedTxn} (h : Emits s ts s')
    (h' : Emits s' us s'') : Emits s (ts ++ us) s'' := by
  obtain ⟨hchanges, hddl, htxns⟩ := h
  obtain ⟨hchanges', hddl', htxns'⟩ := h'
  refine ⟨?_, ?_, ?_⟩
  · rw [hchanges', hchanges, List.flatMap_append, List.append_assoc]
  · rw [hddl', hddl, List.flatMap_append, List.append_assoc]
  · rw [htxns', htxns, List.length_append]
    omega

/-- The frames are numbered from `n` on. -/
def Numbered (n : Nat) (frames : List Frame) : Prop :=
  ∀ (i : Nat) (f : Frame), frames[i]? = some f → f.seq = n + i

theorem Numbered.cons {n : Nat} {frame : Frame} {frames : List Frame}
    (h : Numbered n (frame :: frames)) : frame.seq = n ∧ Numbered (n + 1) frames := by
  refine ⟨h 0 frame rfl, fun i f hf => ?_⟩
  have := h (i + 1) f (by simpa using hf)
  omega

/-- Over numbered frames the replay succeeds exactly when the decoder takes all of
them, and then the two end alike. -/
theorem replayFrames_of_numbered {s : Replaying} {d : StreamDecoder} {frames : List Frame}
    (h : Tracks s d) (hnum : Numbered d.nextSeq frames) :
    (d.AcceptsAll frames → ∃ s', replayFrames frames s = .ok s' ∧ Tracks s' (d.after frames) ∧
      Emits s (d.txnsOf frames) s') ∧
    (¬ d.AcceptsAll frames → ∃ e, replayFrames frames s = .error e) := by
  induction frames generalizing s d with
  | nil => exact ⟨fun _ => ⟨s, rfl, h, Emits.refl s⟩, fun hnot => absurd trivial hnot⟩
  | cons frame frames ih =>
    obtain ⟨hseq, hrest⟩ := hnum.cons
    have hagree := h.frame hseq
    unfold replayFrames
    rw [List.foldlM_cons]
    by_cases hframe : d.Accepts frame
    · rw [StreamDecoder.feedFrame_of_accepts hframe] at hagree
      cases hs : s.frame frame with
      | error e =>
        rw [hs] at hagree
        exact hagree.elim
      | ok s₁ =>
        rw [hs] at hagree
        obtain ⟨htracks, hemits⟩ := hagree
        rw [← (StreamDecoder.next_counts hframe).1] at hrest
        obtain ⟨hok, herr⟩ := ih htracks hrest
        refine ⟨fun hall => ?_, fun hnot => herr fun hr => hnot ⟨hframe, hr⟩⟩
        obtain ⟨s', hs', htracks', hemits'⟩ := hok hall.2
        exact ⟨s', hs', htracks', hemits.trans hemits'⟩
    · refine ⟨fun hall => absurd hall.1 hframe, fun _ => ?_⟩
      rw [← StreamDecoder.feedFrame_isOk] at hframe
      cases hs : s.frame frame with
      | error e => exact ⟨e, rfl⟩
      | ok s₁ =>
        rw [hs] at hagree
        cases hd : d.feedFrame frame with
        | mk r d' =>
          rw [hd] at hagree hframe
          cases r with
          | error e => exact hagree.elim
          | ok t => exact absurd rfl hframe

/-! ## Verified frames -/

private theorem verifying_snoc (fs : List Frame) (f : Frame) (w : Verifying) :
    (fs ++ [f]).foldl Verifying.frame w = (fs.foldl Verifying.frame w).frame f := by
  rw [List.foldl_append, List.foldl_cons, List.foldl_nil]

/-- The variables of the verification behind some frames. -/
private theorem verifying_foldl (fs : List Frame) :
    (fs.foldl Verifying.frame {}).inspected = fs ∧
      (fs.foldl Verifying.frame {}).v.firstSeq = fs.head?.map Frame.seq ∧
      (fs.foldl Verifying.frame {}).expectedSeq = fs.getLast?.map fun f => f.seq + 1 := by
  induction fs using List.reverseRecOn with
  | nil => exact ⟨rfl, rfl, rfl⟩
  | append_singleton fs f ih =>
    obtain ⟨hseen, hfirst, -⟩ := ih
    rw [verifying_snoc, Verifying.frame]
    refine ⟨by rw [hseen], ?_, by simp⟩
    rw [hfirst]
    cases fs with
    | nil => rfl
    | cons g fs => rfl

/-- Contiguous frames that start at 0 are numbered from 0. -/
private theorem numbered_of_verifying (fs : List Frame)
    (hcont : (fs.foldl Verifying.frame {}).v.seqContiguous = true)
    (hstart : ∀ n ∈ (fs.foldl Verifying.frame {}).v.firstSeq, n = 0) : Numbered 0 fs := by
  induction fs using List.reverseRecOn with
  | nil =>
    intro i f hf
    simp at hf
  | append_singleton fs f ih =>
    obtain ⟨-, hfirst, hexpected⟩ := verifying_foldl fs
    rw [verifying_snoc, Verifying.frame] at hcont hstart
    rw [Bool.and_eq_true] at hcont
    rw [hfirst] at hstart
    rw [hexpected, Option.all_eq_true] at hcont
    have hlast : f.seq = fs.length := by
      rcases List.eq_nil_or_concat fs with hnil | ⟨gs, g, hgs⟩
      · subst hnil
        exact hstart f.seq rfl
      · have hg : Numbered 0 fs := by
          refine ih hcont.1 ?_
          intro n hn
          rw [hfirst] at hn
          apply hstart
          rw [Option.mem_def.mp hn]
          rfl
        have hseq : f.seq = g.seq + 1 := by
          have := hcont.2 (g.seq + 1) (by rw [hgs]; simp)
          simpa using this
        have hprev := hg gs.length g (by rw [hgs]; simp)
        rw [hgs, List.length_concat]
        omega
    intro i h hi
    by_cases hlt : i < fs.length
    · rw [List.getElem?_append_left hlt] at hi
      refine ih hcont.1 ?_ i h hi
      intro n hn
      rw [hfirst] at hn
      apply hstart
      rw [Option.mem_def.mp hn]
      rfl
    · rw [List.getElem?_append_right (by omega)] at hi
      obtain ⟨hbound, hget⟩ := List.getElem?_eq_some_iff.mp hi
      rw [List.length_singleton] at hbound
      rw [List.getElem_singleton] at hget
      rw [← hget, hlast]
      omega

/-- A verification without a torn end has folded over all frames. -/
private theorem verifySegs_foldl [Crc32c] {segs : List (Nat × SegFile)} :
    ∀ {w w' : Verifying}, verifySegs false segs w = .ok w' →
      ∃ fs : List Frame, w' = fs.foldl Verifying.frame w := by
  induction segs with
  | nil =>
    intro w w' h
    exact ⟨[], (Except.ok.inj h).symm⟩
  | cons seg segs ih =>
    intro w w' h
    unfold verifySegs at h
    generalize readFrames seg.2.data = r at h
    obtain ⟨frames, error⟩ := r
    cases error with
    | some e => simp at h
    | none =>
      obtain ⟨fs, hfs⟩ := ih h
      exact ⟨frames.map Prod.fst ++ fs, by rw [hfs, List.foldl_append]⟩

/-- The frames of a log that passes verification and starts at 0 are numbered. -/
theorem numbered_of_verifyLog [Crc32c] {dir : Dir} {v : LogVerification} {frames : List Frame}
    (h : verifyLog dir false = .ok (v, frames)) (hcont : v.seqContiguous = true)
    (hstart : ∀ n ∈ v.firstSeq, n = 0) : Numbered 0 frames := by
  unfold verifyLog at h
  cases hsegs : verifySegs false dir.segs {} with
  | error e =>
    rw [hsegs] at h
    simp [Except.map] at h
  | ok w =>
    rw [hsegs] at h
    obtain ⟨rfl, rfl⟩ := Prod.mk.inj (Except.ok.inj h)
    obtain ⟨fs, rfl⟩ := verifySegs_foldl hsegs
    rw [(verifying_foldl fs).1]
    exact numbered_of_verifying fs hcont hstart

/-! ## The batches -/

theorem DecodedBatch.ddlEvents_foldl_add (ts : List DecodedTxn) (out : DecodedBatch) :
    (ts.foldl DecodedBatch.add out).ddlEvents
      = out.ddlEvents ++ ts.flatMap DecodedTxn.ddlEvents := by
  induction ts generalizing out with
  | nil => simp
  | cons t ts ih => simp [ih, DecodedBatch.add]

theorem DecodedBatch.txns_foldl_add (ts : List DecodedTxn) (out : DecodedBatch) :
    (ts.foldl DecodedBatch.add out).txns = out.txns + ts.length := by
  induction ts generalizing out with
  | nil => rfl
  | cons t ts ih =>
    rw [List.foldl_cons, ih, List.length_cons]
    show out.txns + 1 + ts.length = out.txns + (ts.length + 1)
    omega

/-- The `end_lsn` of a Commit. -/
def Message.commitEnd : Message → Option Nat
  | .commit _ _ endLsn _ => some endLsn
  | _ => none

def commitEnd (frame : Frame) : Option Nat :=
  match parse frame.payload with
  | .ok msg => msg.commitEnd
  | .error _ => none

/-- The `end_lsn` of the last Commit; 0 is no commit. -/
def lastCommitIn (frames : List Frame) : Nat := ((frames.filterMap commitEnd).getLast?).getD 0

namespace StreamDecoder

/-- A frame that is taken completes a transaction exactly if it is a Commit. -/
theorem emitted_endLsn {d : StreamDecoder} {frame : Frame} (h : d.Accepts frame) :
    (d.emitted frame).map DecodedTxn.endLsn = commitEnd frame := by
  obtain ⟨hseq, msg, hmsg, hadmits⟩ := h
  unfold emitted feedFrame commitEnd
  rw [if_neg (not_not_intro hseq), hmsg]
  cases msg with
  | insert relid new => exact congrArg _ (push_completes_none _ _ _ _)
  | update relid old new => exact congrArg _ (push_completes_none _ _ _ _)
  | delete relid old => exact congrArg _ (push_completes_none _ _ _ _)
  | truncate options relids =>
    obtain ⟨t, ht⟩ := Option.isSome_iff_exists.mp hadmits
    simp [feedMessage, feedTruncate, ht, Message.commitEnd]
  | commit flags commitLsn endLsn commitTs =>
    obtain ⟨t, ht⟩ := Option.isSome_iff_exists.mp hadmits
    simp [feedMessage, feedCommit, ht, TxnBuf.complete, Message.commitEnd]
  | begin finalLsn commitTs xid => rfl
  | relation rel => rfl
  | origin commitLsn name => rfl
  | type typeOid ns name => rfl
  | logicalMessage flags lsn tag payload => rfl

theorem txnsOf_endLsn {d : StreamDecoder} {frames : List Frame} (h : d.AcceptsAll frames) :
    (d.txnsOf frames).map DecodedTxn.endLsn = frames.filterMap commitEnd := by
  induction frames generalizing d with
  | nil => rfl
  | cons frame frames ih =>
    have hfirst := emitted_endLsn h.1
    rw [txnsOf, List.map_append, ih h.2, List.filterMap_cons, ← hfirst]
    cases d.emitted frame with
    | none => rfl
    | some t => rfl

/-- Everything that the feeds emit is what the transactions of all frames hold, and each
batch is numbered from the number of changes before it. -/
theorem batchesOf_output {d : StreamDecoder} {batches : List (List Frame)}
    (h : d.AcceptsAll batches.flatten) :
    let bs := d.batchesOf batches
    let ts := d.txnsOf batches.flatten
    bs.flatMap DecodedBatch.changes = ts.flatMap DecodedTxn.changes ∧
      bs.flatMap DecodedBatch.ddlEvents = ts.flatMap DecodedTxn.ddlEvents ∧
      (bs.map DecodedBatch.txns).sum = ts.length ∧
      bs.map DecodedBatch.lastCommitLsn = batches.map lastCommitIn ∧
      ∀ (i : Nat) (b : DecodedBatch), bs[i]? = some b → b.firstChangeIndex
        = d.changeCounter + ((bs.take i).flatMap DecodedBatch.changes).length := by
  induction batches generalizing d with
  | nil => simp [batchesOf, txnsOf]
  | cons frames batches ih =>
    rw [List.flatten_cons, acceptsAll_append] at h
    obtain ⟨hchanges, hddl, htxns, hlast, hindex⟩ := ih h.2
    have hcount := (after_counts h.1).2
    dsimp only at hchanges hddl htxns hlast hindex ⊢
    rw [List.flatten_cons, txnsOf_append, batchesOf]
    refine ⟨?_, ?_, ?_, ?_, ?_⟩
    · rw [List.flatMap_cons, hchanges, List.flatMap_append, DecodedBatch.changes_foldl_add]
      rfl
    · rw [List.flatMap_cons, hddl, List.flatMap_append, DecodedBatch.ddlEvents_foldl_add]
      rfl
    · rw [List.map_cons, List.sum_cons, htxns, List.length_append, DecodedBatch.txns_foldl_add]
      simp only [Nat.zero_add]
    · rw [List.map_cons, List.map_cons, hlast, DecodedBatch.lastCommitLsn_foldl_add, lastCommitIn,
        ← txnsOf_endLsn h.1, List.getLast?_map]
    · intro i b hb
      cases i with
      | zero =>
        obtain rfl := Option.some.inj hb
        rw [DecodedBatch.firstChangeIndex_foldl_add]
        simp
      | succ i =>
        have hb := hindex i b (by simpa using hb)
        rw [hb, hcount, List.take_succ_cons, List.flatMap_cons, List.length_append,
          DecodedBatch.changes_foldl_add, List.nil_append]
        omega

end StreamDecoder

/-! ## Feeds against the replay -/

/-- For a log that starts at 0 and passes verification, and every way of cutting its
frames into feeds: the replay succeeds exactly when all feeds do, and then the feeds
together give what the replay gives. -/
theorem replay_eq_feeds [Crc32c] {dir : Dir} {v : LogVerification} {batches : List (List Frame)}
    (hverify : verifyLog dir false = .ok (v, batches.flatten)) (hcont : v.seqContiguous = true)
    (hmono : v.lsnMonotone = true) (hstart : ∀ n ∈ v.firstSeq, n = 0) :
    (replayLog dir).isOk = (({} : StreamDecoder).feedAll batches).1.isOk ∧
      ∀ r bs d, replayLog dir = .ok r → ({} : StreamDecoder).feedAll batches = (.ok bs, d) →
        bs.flatMap DecodedBatch.changes = r.changes ∧
        bs.flatMap DecodedBatch.ddlEvents = r.ddlEvents ∧
        (bs.map DecodedBatch.txns).sum = r.txns ∧ d.registry = r.registry ∧
        bs.map DecodedBatch.lastCommitLsn = batches.map lastCommitIn ∧
        ∀ (i : Nat) (b : DecodedBatch), bs[i]? = some b →
          b.firstChangeIndex = ((bs.take i).flatMap DecodedBatch.changes).length := by
  have hnum : Numbered ({} : StreamDecoder).nextSeq batches.flatten :=
    numbered_of_verifyLog hverify hcont hstart
  have htracks : Tracks { out := { frames := v.frames } } {} := ⟨rfl, rfl, rfl⟩
  obtain ⟨hok, herr⟩ := replayFrames_of_numbered htracks hnum
  have hlog : replayLog dir = (replayFrames batches.flatten
      { out := { frames := v.frames } }).map Replaying.out := by
    unfold replayLog
    rw [hverify]
    simp [hcont, hmono]
  by_cases hall : ({} : StreamDecoder).AcceptsAll batches.flatten
  · obtain ⟨s, hs, ⟨-, -, hregistry⟩, hchanges, hddl, htxns⟩ := hok hall
    rw [hlog, hs, StreamDecoder.feedAll_of_accepts hall]
    refine ⟨rfl, ?_⟩
    intro r bs d hr hfeeds
    obtain rfl : s.out = r := Except.ok.inj hr
    obtain ⟨hbs, rfl⟩ := Prod.mk.inj hfeeds
    obtain rfl := Except.ok.inj hbs
    obtain ⟨hchanges', hddl', htxns', hlast, hindex⟩ := StreamDecoder.batchesOf_output hall
    refine ⟨?_, ?_, ?_, hregistry.symm, hlast, ?_⟩
    · rw [hchanges', hchanges]
      rfl
    · rw [hddl', hddl]
      rfl
    · rw [htxns', htxns]
      exact (Nat.zero_add _).symm
    · intro i b hb
      rw [hindex i b hb]
      exact Nat.zero_add _
  · obtain ⟨e, he⟩ := herr hall
    obtain ⟨e', he'⟩ := StreamDecoder.feedAll_of_not_accepts hall
    rw [hlog, he, he']
    refine ⟨rfl, ?_⟩
    intro r bs d hr
    simp [Except.map] at hr

/-- A transaction that inserts into `p.t` and into `p.u`, which have one column. -/
def firstTxn : List LogOp :=
  [.append 11 11 false (beginMessage 20 1),
    .append 12 12 false (relationMessage 1 "p" "t" ["a"]),
    .append 12 12 false (insertMessage 1 ["x"]),
    .append 13 13 false (relationMessage 2 "p" "u" ["a"]),
    .append 13 13 false (insertMessage 2 ["1"]), .append 20 20 true (commitMessage 20)]

/-- A later one, which inserts into `p.u`. -/
def secondTxn : List LogOp :=
  [.append 21 21 false (beginMessage 30 2), .append 22 22 false (insertMessage 2 ["2"]),
    .append 30 30 true (commitMessage 30)]

/-- The frames of some appends. -/
def framesOf (ops : List LogOp) : List Frame :=
  ops.zipIdx.filterMap fun
    | (.append lsnStart lsnEnd txnComplete payload, seq) =>
      some ⟨seq, lsnStart.toNat, lsnEnd.toNat, txnComplete, payload⟩
    | _ => none

/-- One transaction, cut into two feeds in the middle. -/
theorem replay_eq_feeds_two_feeds : letI := castagnoli
    ∃ (dir : Dir) (r : Replay) (bs : List DecodedBatch) (d : StreamDecoder)
      (batches : List (List Frame)), batches.length = 2 ∧ replayLog dir = .ok r ∧
        ({} : StreamDecoder).feedAll batches = (.ok bs, d) ∧
        bs.flatMap DecodedBatch.changes = r.changes ∧ d.registry = r.registry := by
  let _ := castagnoli
  have hplay : ((LogOp.runAll firstTxn (emptyLog 1000)).any fun s =>
      match verifyLog s.dir false with
      | .ok (v, fs) => v.seqContiguous && v.lsnMonotone && (v.firstSeq == some 0) &&
        (({} : StreamDecoder).feedAll [fs.take 3, fs.drop 3]).1.isOk
      | .error _ => false) = true := by
    decide +kernel
  obtain ⟨s, -, hcheck⟩ := (Option.any_eq_true _ _).mp hplay
  cases hverify : verifyLog s.dir false with
  | error e => simp [hverify] at hcheck
  | ok p =>
    obtain ⟨v, fs⟩ := p
    simp only [hverify, Bool.and_eq_true, beq_iff_eq] at hcheck
    obtain ⟨⟨⟨hcont, hmono⟩, hfirst⟩, hfeeds⟩ := hcheck
    have hcut : [fs.take 3, fs.drop 3].flatten = fs := by simp
    have hverify' : verifyLog s.dir false = .ok (v, [fs.take 3, fs.drop 3].flatten) := by
      rw [hcut]
      exact hverify
    obtain ⟨hiff, hout⟩ := replay_eq_feeds hverify' hcont hmono (by simp [hfirst])
    rw [hfeeds] at hiff
    cases hr : replayLog s.dir with
    | error e => simp [hr, Except.isOk, Except.toBool] at hiff
    | ok r =>
      cases hd : ({} : StreamDecoder).feedAll [fs.take 3, fs.drop 3] with
      | mk b d =>
        rw [hd] at hfeeds
        cases b with
        | error e => simp [Except.isOk, Except.toBool] at hfeeds
        | ok bs =>
          obtain ⟨hchanges, -, -, hregistry, -⟩ := hout r bs d hr hd
          exact ⟨s.dir, r, bs, d, _, rfl, hr, hd, hchanges, hregistry⟩

end GrayDB.Registry
