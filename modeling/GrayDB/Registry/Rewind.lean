import GrayDB.Lib.Guarded
import GrayDB.Lib.UptoLast
import GrayDB.Registry.Replay

/-!
# Rewinds of the decoder

After the log has been cut, `abort_open_txn` sends the decoder back to the frame
behind the last Commit, and the frames from there are fed again.  The open
transaction and the sequence number go back.  The live relations do not: they keep
what the dropped frames have sent.

* `LooksSame` says that some frames cannot tell two maps of live relations apart.
* `rewind_exact` is the result: if at every interruption a Commit has been fed, and
  the frames that are fed again cannot tell the relations apart, nothing is lost,
  repeated or renamed.
* `rewind_fails` holds the two runs that break it.
-/

namespace GrayDB.Registry

open Lib Log

/-! ## The relations that frames see -/

/-- The relations that a message looks up. -/
def Message.uses : Message → List Nat
  | .insert relid _ | .update relid _ _ | .delete relid _ => [relid]
  | .truncate _ relids => relids
  | _ => []

/-- The relation that a message sends. -/
def Message.sends : Message → Option RelationDesc
  | .relation rel => some rel
  | _ => none

def usesOf (frame : Frame) : List Nat :=
  match parse frame.payload with
  | .ok msg => msg.uses
  | .error _ => []

def sentBy (frame : Frame) : Option RelationDesc :=
  match parse frame.payload with
  | .ok msg => msg.sends
  | .error _ => none

abbrev LiveRel := AList fun _ : Nat => RelationDesc

/-- The live relations behind a frame. -/
def LiveRel.behind (live : LiveRel) (frame : Frame) : LiveRel :=
  match sentBy frame with
  | some rel => live.insert rel.relid rel
  | none => live

/-- The live relations behind some frames. -/
def LiveRel.behindAll (live : LiveRel) (frames : List Frame) : LiveRel :=
  frames.foldl LiveRel.behind live

/-- The frames look up the same relations in both maps. -/
def LooksSame : LiveRel → LiveRel → List Frame → Prop
  | _, _, [] => True
  | live, live', frame :: frames =>
    (∀ relid ∈ usesOf frame, live.lookup relid = live'.lookup relid) ∧
      LooksSame (live.behind frame) (live'.behind frame) frames

instance decidableLooksSame :
    (frames : List Frame) → (live live' : LiveRel) → Decidable (LooksSame live live' frames)
  | [], _, _ => inferInstanceAs (Decidable True)
  | frame :: frames, live, live' =>
    let _ := decidableLooksSame frames (live.behind frame) (live'.behind frame)
    inferInstanceAs (Decidable ((∀ relid ∈ usesOf frame, live.lookup relid = live'.lookup relid) ∧
      LooksSame (live.behind frame) (live'.behind frame) frames))

theorem LooksSame.refl (live : LiveRel) (frames : List Frame) : LooksSame live live frames := by
  induction frames generalizing live with
  | nil => trivial
  | cons frame frames ih => exact ⟨fun _ _ => rfl, ih _⟩

theorem looksSame_append (live live' : LiveRel) (as bs : List Frame) :
    LooksSame live live' (as ++ bs) ↔
      LooksSame live live' as ∧ LooksSame (live.behindAll as) (live'.behindAll as) bs := by
  induction as generalizing live live' with
  | nil => simp [LooksSame, LiveRel.behindAll]
  | cons frame as ih =>
    rw [List.cons_append, LooksSame, LooksSame, ih, and_assoc]
    rfl

/-- What a relation is behind a frame: what the frame sends, or what it was. -/
theorem lookup_behind (frame : Frame) (relid : Nat) :
    (∃ rel, ∀ live : LiveRel, (live.behind frame).lookup relid = some rel) ∨
      ∀ live : LiveRel, (live.behind frame).lookup relid = live.lookup relid := by
  unfold LiveRel.behind
  cases sentBy frame with
  | none => exact Or.inr fun _ => rfl
  | some rel =>
    by_cases h : relid = rel.relid
    · subst h
      exact Or.inl ⟨rel, fun live => AList.lookup_insert live⟩
    · exact Or.inr fun live => AList.lookup_insert_ne h

theorem lookup_behindAll (frames : List Frame) (relid : Nat) :
    (∃ rel, ∀ live : LiveRel, (live.behindAll frames).lookup relid = some rel) ∨
      ∀ live : LiveRel, (live.behindAll frames).lookup relid = live.lookup relid := by
  induction frames with
  | nil => exact Or.inr fun _ => rfl
  | cons frame frames ih =>
    rcases ih with ⟨rel, hrel⟩ | hsame
    · exact Or.inl ⟨rel, fun live => hrel _⟩
    · rcases lookup_behind frame relid with ⟨rel, hrel⟩ | hframe
      · exact Or.inl ⟨rel, fun live => (hsame _).trans (hrel live)⟩
      · exact Or.inr fun live => (hsame _).trans (hframe live)

/-- A map that takes each relation from one of two maps that look the same. -/
theorem LooksSame.between {live live' live'' : LiveRel} {frames : List Frame}
    (h : LooksSame live live' frames) (hb : ∀ relid, live''.lookup relid = live'.lookup relid ∨
      live''.lookup relid = live.lookup relid) : LooksSame live live'' frames := by
  induction frames generalizing live live' live'' with
  | nil => trivial
  | cons frame frames ih =>
    refine ⟨fun relid hrelid => ?_, ih h.2 fun relid => ?_⟩
    · rcases hb relid with heq | heq
      · rw [heq]
        exact h.1 relid hrelid
      · exact heq.symm
    · rcases lookup_behind frame relid with ⟨rel, hrel⟩ | hsame
      · exact Or.inl ((hrel live'').trans (hrel live').symm)
      · rw [hsame live'', hsame live', hsame live]
        exact hb relid

/-! ## Decoders that differ in their relations -/

/-- Two decoders with the same transaction and the same counters. -/
def SameButLive (d d' : StreamDecoder) : Prop :=
  d.txn = d'.txn ∧ d.nextSeq = d'.nextSeq ∧ d.lastCommitSeq = d'.lastCommitSeq ∧
    d.started = d'.started ∧ d.changeCounter = d'.changeCounter

/-- The result of a frame, up to the relations. -/
private def SameResult (r r' : Except FeedError (Option DecodedTxn) × StreamDecoder) : Prop :=
  r.1 = r'.1 ∧ SameButLive r.2 r'.2

private theorem push_same {d d' : StreamDecoder} (h : SameButLive d d') {kind : String} {relid : Nat}
    {change : RelationDesc → TxnBuf → TxnBuf}
    (hlook : d.liveRel.lookup relid = d'.liveRel.lookup relid) :
    SameResult (d.push kind relid change) (d'.push kind relid change) := by
  unfold StreamDecoder.push
  rw [← hlook, ← h.1]
  cases d.liveRel.lookup relid with
  | none => exact ⟨rfl, h⟩
  | some rel =>
    cases ht : d.txn with
    | none => exact ⟨rfl, h⟩
    | some t => exact ⟨rfl, rfl, h.2⟩

private theorem filterMap_lookup_eq {live live' : LiveRel} {relids : List Nat}
    (h : ∀ relid ∈ relids, live.lookup relid = live'.lookup relid) :
    relids.filterMap (fun relid => live.lookup relid)
      = relids.filterMap (fun relid => live'.lookup relid) := by
  apply List.filterMap_congr
  exact h

private theorem feedMessage_same {d d' : StreamDecoder} (h : SameButLive d d') (frame : Frame)
    {msg : Message} (hlook : ∀ relid ∈ msg.uses, d.liveRel.lookup relid = d'.liveRel.lookup relid) :
    SameResult (d.feedMessage frame msg) (d'.feedMessage frame msg) := by
  cases msg with
  | insert relid new => exact push_same h (hlook relid (by simp [Message.uses]))
  | update relid old new => exact push_same h (hlook relid (by simp [Message.uses]))
  | delete relid old => exact push_same h (hlook relid (by simp [Message.uses]))
  | begin finalLsn commitTs xid => exact ⟨rfl, rfl, h.2⟩
  | relation rel =>
    unfold StreamDecoder.feedMessage StreamDecoder.feedRelation
    rw [← h.1]
    cases ht : d.txn with
    | none => exact ⟨rfl, rfl, h.2⟩
    | some t => exact ⟨rfl, rfl, h.2⟩
  | truncate options relids =>
    unfold StreamDecoder.feedMessage StreamDecoder.feedTruncate
    rw [← h.1]
    cases ht : d.txn with
    | none => exact ⟨rfl, h⟩
    | some t =>
      have hrelids : ∀ relid ∈ relids, d.liveRel.lookup relid = d'.liveRel.lookup relid := hlook
      refine ⟨rfl, ?_, h.2⟩
      dsimp only
      rw [filterMap_lookup_eq hrelids]
  | commit flags commitLsn endLsn commitTs =>
    unfold StreamDecoder.feedMessage StreamDecoder.feedCommit
    rw [← h.1, ← h.2.2.2.2]
    cases ht : d.txn with
    | none => exact ⟨rfl, h⟩
    | some t => exact ⟨rfl, rfl, h.2.1, rfl, h.2.2.2.1, rfl⟩
  | origin commitLsn name => exact ⟨rfl, h⟩
  | type typeOid ns name => exact ⟨rfl, h⟩
  | logicalMessage flags lsn tag payload => exact ⟨rfl, h⟩

namespace StreamDecoder

/-- What a message does to the relations. -/
private theorem feedMessage_liveRel {d : StreamDecoder} {frame : Frame} {msg : Message}
    (h : d.Admits msg) : (d.feedMessage frame msg).2.liveRel = match msg.sends with
      | some rel => d.liveRel.insert rel.relid rel
      | none => d.liveRel := by
  have hpush : ∀ kind relid change, (d.push kind relid change).2.liveRel = d.liveRel := by
    intro kind relid change
    unfold push
    cases d.liveRel.lookup relid with
    | none => rfl
    | some rel =>
      cases d.txn with
      | none => rfl
      | some t => rfl
  cases msg with
  | insert relid new => exact hpush _ _ _
  | update relid old new => exact hpush _ _ _
  | delete relid old => exact hpush _ _ _
  | relation rel =>
    unfold feedMessage feedRelation
    cases d.txn with
    | none => rfl
    | some t => rfl
  | truncate options relids =>
    obtain ⟨t, ht⟩ := Option.isSome_iff_exists.mp h
    simp [feedMessage, feedTruncate, ht, Message.sends]
  | commit flags commitLsn endLsn commitTs =>
    obtain ⟨t, ht⟩ := Option.isSome_iff_exists.mp h
    simp [feedMessage, feedCommit, ht, Message.sends]
  | begin finalLsn commitTs xid => rfl
  | origin commitLsn name => rfl
  | type typeOid ns name => rfl
  | logicalMessage flags lsn tag payload => rfl

theorem next_liveRel {d : StreamDecoder} {frame : Frame} (h : d.Accepts frame) :
    (d.next frame).liveRel = LiveRel.behind d.liveRel frame := by
  obtain ⟨hseq, msg, hmsg, hadmits⟩ := h
  unfold next feedFrame LiveRel.behind sentBy
  rw [if_neg (not_not_intro hseq), hmsg]
  exact feedMessage_liveRel hadmits

theorem after_liveRel {d : StreamDecoder} {frames : List Frame} (h : d.AcceptsAll frames) :
    (d.after frames).liveRel = LiveRel.behindAll d.liveRel frames := by
  induction frames generalizing d with
  | nil => rfl
  | cons frame frames ih =>
    rw [after, ih h.2, next_liveRel h.1]
    rfl

/-- Decoders that see the same relations take a frame alike. -/
theorem accepts_of_same {d d' : StreamDecoder} (hsame : SameButLive d d') {frame : Frame}
    (hlook : ∀ relid ∈ usesOf frame, d.liveRel.lookup relid = d'.liveRel.lookup relid)
    (h : d.Accepts frame) : d'.Accepts frame ∧ d'.emitted frame = d.emitted frame ∧
      SameButLive (d.next frame) (d'.next frame) := by
  have hok := (feedFrame_isOk d frame).mpr h
  obtain ⟨hseq, msg, hmsg, -⟩ := h
  have huses : ∀ relid ∈ msg.uses, d.liveRel.lookup relid = d'.liveRel.lookup relid := by
    unfold usesOf at hlook
    rw [hmsg] at hlook
    exact hlook
  have hstart : SameButLive { d with nextSeq := frame.seq + 1, started := true }
      { d' with nextSeq := frame.seq + 1, started := true } :=
    ⟨hsame.1, rfl, hsame.2.2.1, rfl, hsame.2.2.2.2⟩
  obtain ⟨hresult, hnext⟩ := feedMessage_same hstart frame huses
  have hfeed : d.feedFrame frame
      = { d with nextSeq := frame.seq + 1, started := true }.feedMessage frame msg := by
    unfold feedFrame
    rw [if_neg (not_not_intro hseq), hmsg]
  have hfeed' : d'.feedFrame frame
      = { d' with nextSeq := frame.seq + 1, started := true }.feedMessage frame msg := by
    unfold feedFrame
    rw [if_neg (not_not_intro (hseq.trans hsame.2.1)), hmsg]
  refine ⟨?_, ?_, ?_⟩
  · rw [← feedFrame_isOk, hfeed', ← hresult, ← hfeed]
    exact hok
  · unfold emitted
    rw [hfeed, hfeed', hresult]
  · unfold next
    rw [hfeed, hfeed']
    exact hnext

/-- The same over many frames. -/
theorem acceptsAll_of_same {d d' : StreamDecoder} {frames : List Frame}
    (hsame : SameButLive d d') (hlook : LooksSame d.liveRel d'.liveRel frames)
    (h : d.AcceptsAll frames) : d'.AcceptsAll frames ∧ d'.txnsOf frames = d.txnsOf frames ∧
      SameButLive (d.after frames) (d'.after frames) := by
  induction frames generalizing d d' with
  | nil => exact ⟨trivial, rfl, hsame⟩
  | cons frame frames ih =>
    obtain ⟨hfirst, hemitted, hnext⟩ := accepts_of_same hsame hlook.1 h.1
    have hrest := hlook.2
    rw [← next_liveRel h.1, ← next_liveRel hfirst] at hrest
    obtain ⟨hall, htxns, hafter⟩ := ih hnext hrest h.2
    refine ⟨⟨hfirst, hall⟩, ?_, hafter⟩
    rw [txnsOf, txnsOf, hemitted, htxns]

/-! ## Behind the last Commit -/

def isCommit (frame : Frame) : Bool := (commitEnd frame).isSome

private theorem feedMessage_commit {d : StreamDecoder} {msg : Message} (h : d.Admits msg)
    (frame : Frame) : (d.feedMessage frame msg).2.started = d.started ∧
      (msg.commitEnd.isSome = true → (d.feedMessage frame msg).2.lastCommitSeq = frame.seq ∧
        (d.feedMessage frame msg).2.txn = none) ∧
      (msg.commitEnd.isSome = false →
        (d.feedMessage frame msg).2.lastCommitSeq = d.lastCommitSeq) := by
  have hpush : ∀ kind relid change, (d.push kind relid change).2.started = d.started ∧
      (d.push kind relid change).2.lastCommitSeq = d.lastCommitSeq := by
    intro kind relid change
    unfold push
    cases d.liveRel.lookup relid with
    | none => exact ⟨rfl, rfl⟩
    | some rel =>
      cases d.txn with
      | none => exact ⟨rfl, rfl⟩
      | some t => exact ⟨rfl, rfl⟩
  have hno : ∀ {P Q : Prop}, Q → ((none : Option Nat).isSome = true → P) ∧
      ((none : Option Nat).isSome = false → Q) := fun hq => ⟨by simp, fun _ => hq⟩
  cases msg with
  | insert relid new => exact ⟨(hpush _ _ _).1, hno (hpush _ _ _).2⟩
  | update relid old new => exact ⟨(hpush _ _ _).1, hno (hpush _ _ _).2⟩
  | delete relid old => exact ⟨(hpush _ _ _).1, hno (hpush _ _ _).2⟩
  | relation rel =>
    unfold feedMessage feedRelation
    cases d.txn with
    | none => exact ⟨rfl, hno rfl⟩
    | some t => exact ⟨rfl, hno rfl⟩
  | truncate options relids =>
    obtain ⟨t, ht⟩ := Option.isSome_iff_exists.mp h
    simp [feedMessage, feedTruncate, ht, Message.commitEnd]
  | commit flags commitLsn endLsn commitTs =>
    obtain ⟨t, ht⟩ := Option.isSome_iff_exists.mp h
    simp [feedMessage, feedCommit, ht, Message.commitEnd]
  | begin finalLsn commitTs xid => exact ⟨rfl, hno rfl⟩
  | origin commitLsn name => exact ⟨rfl, hno rfl⟩
  | type typeOid ns name => exact ⟨rfl, hno rfl⟩
  | logicalMessage flags lsn tag payload => exact ⟨rfl, hno rfl⟩

/-- A frame that is taken starts the decoder, and a Commit closes the transaction and is
remembered. -/
theorem next_commit {d : StreamDecoder} {frame : Frame} (h : d.Accepts frame) :
    (d.next frame).started = true ∧
      (isCommit frame = true →
        (d.next frame).lastCommitSeq = d.nextSeq ∧ (d.next frame).txn = none) ∧
      (isCommit frame = false → d.emitted frame = none ∧
        (d.next frame).lastCommitSeq = d.lastCommitSeq ∧
        (d.next frame).changeCounter = d.changeCounter) := by
  have hemitted := emitted_endLsn h
  have hcount := (next_counts h).2
  obtain ⟨hseq, msg, hmsg, hadmits⟩ := h
  have hfeed : d.next frame
      = ({ d with nextSeq := frame.seq + 1, started := true }.feedMessage frame msg).2 := by
    unfold next feedFrame
    rw [if_neg (not_not_intro hseq), hmsg]
  have hend : commitEnd frame = msg.commitEnd := by
    unfold commitEnd
    rw [hmsg]
  obtain ⟨hstarted, hcommit, hother⟩ := feedMessage_commit
    (show StreamDecoder.Admits { d with nextSeq := frame.seq + 1, started := true } msg from hadmits)
    frame
  rw [← hfeed] at hstarted hcommit hother
  rw [← hend] at hcommit hother
  refine ⟨hstarted, fun hc => ?_, fun hc => ?_⟩
  · obtain ⟨hlast, htxn⟩ := hcommit hc
    exact ⟨hlast.trans hseq, htxn⟩
  · have hnone : commitEnd frame = none := by simpa [isCommit] using hc
    rw [hnone, Option.map_eq_none_iff] at hemitted
    rw [hemitted] at hcount
    exact ⟨hemitted, hother hc, hcount⟩

/-- Frames without a Commit emit nothing, and the counters of the commits stay. -/
theorem after_of_no_commit {d : StreamDecoder} {frames : List Frame} (h : d.AcceptsAll frames)
    (hnone : ∀ f ∈ frames, isCommit f = false) :
    d.txnsOf frames = [] ∧ (d.after frames).lastCommitSeq = d.lastCommitSeq ∧
      (d.after frames).changeCounter = d.changeCounter := by
  induction frames generalizing d with
  | nil => exact ⟨rfl, rfl, rfl⟩
  | cons frame frames ih =>
    obtain ⟨hemitted, hlast, hcount⟩ := (next_commit h.1).2.2 (hnone frame List.mem_cons_self)
    obtain ⟨htxns, hlast', hcount'⟩ := ih h.2 fun f hf => hnone f (List.mem_cons_of_mem frame hf)
    refine ⟨?_, hlast'.trans hlast, hcount'.trans hcount⟩
    rw [txnsOf, hemitted, htxns]
    rfl

/-- Frames start the decoder. -/
theorem after_started {d : StreamDecoder} {frames : List Frame} (h : d.AcceptsAll frames) :
    (d.after frames).started = (d.started || !frames.isEmpty) := by
  induction frames generalizing d with
  | nil => simp [after]
  | cons frame frames ih =>
    rw [after, ih h.2, (next_commit h.1).1]
    simp

/-- Behind a Commit no transaction is open, and the Commit is the last frame. -/
theorem after_of_last_commit {frames : List Frame} {frame : Frame}
    (h : ({} : StreamDecoder).AcceptsAll (frames ++ [frame])) (hc : isCommit frame = true) :
    (({} : StreamDecoder).after (frames ++ [frame])).txn = none ∧
      (({} : StreamDecoder).after (frames ++ [frame])).lastCommitSeq = frames.length := by
  obtain ⟨hfirst, hframe, -⟩ := (acceptsAll_append _ _ _).mp h
  obtain ⟨-, hcommit, -⟩ := next_commit hframe
  obtain ⟨hlast, htxn⟩ := hcommit hc
  rw [(after_counts hfirst).1] at hlast
  rw [after_append]
  exact ⟨htxn, hlast.trans (Nat.zero_add _)⟩

end StreamDecoder

/-! ## The system -/

open StreamDecoder

/-- A decoder, its place among the frames, and what it has emitted. -/
structure RewindSys where
  decoder : StreamDecoder := {}
  pos : Nat := 0
  changes : List (TypedChange × Nat) := []
  ddlEvents : List DdlEvent := []
  failed : Bool := false

/-- Feed the next `n` frames, or go back behind the last Commit. -/
inductive RewindAct where
  | feed (n : Nat)
  | interrupt
  deriving DecidableEq, Repr

def RewindSys.act (σ : RewindSys) (frames : List Frame) : RewindAct → RewindSys
  | .feed n =>
    match σ.decoder.feed ((frames.drop σ.pos).take n) with
    | (.ok batch, decoder) =>
      { decoder
        pos := σ.pos + ((frames.drop σ.pos).take n).length
        changes := σ.changes ++ batch.changes.zipIdx batch.firstChangeIndex
        ddlEvents := σ.ddlEvents ++ batch.ddlEvents
        failed := σ.failed }
    | (.error _, decoder) => { σ with decoder, failed := true }
  | .interrupt =>
    { σ with
      decoder := σ.decoder.abortOpenTxn
      pos := (uptoLast isCommit (frames.take σ.pos)).length }

def RewindStep (frames : List Frame) (a : RewindAct) (σ σ' : RewindSys) : Prop :=
  σ' = σ.act frames a

/-- At an interruption a Commit has been fed, or nothing; and the frames that are fed
again look up the relations that they have looked up before. -/
def CleanInterrupt (frames : List Frame) : RewindAct → RewindSys → Prop
  | .feed _, _ => True
  | .interrupt, σ => (σ.pos = 0 ∨ uptoLast isCommit (frames.take σ.pos) ≠ []) ∧
      LooksSame (LiveRel.behindAll ∅ (uptoLast isCommit (frames.take σ.pos))) σ.decoder.liveRel
        (afterLast isCommit (frames.take σ.pos))

/-- The decoder is where the uninterrupted one is, and the frames to come cannot tell
the two apart. -/
structure RewindInv (frames : List Frame) (σ : RewindSys) : Prop where
  ok : σ.failed = false
  le : σ.pos ≤ frames.length
  same : SameButLive (({} : StreamDecoder).after (frames.take σ.pos)) σ.decoder
  looks : LooksSame (LiveRel.behindAll ∅ (frames.take σ.pos)) σ.decoder.liveRel
    (frames.drop σ.pos)
  changes : σ.changes
    = ((({} : StreamDecoder).txnsOf (frames.take σ.pos)).flatMap DecodedTxn.changes).zipIdx
  ddlEvents : σ.ddlEvents
    = (({} : StreamDecoder).txnsOf (frames.take σ.pos)).flatMap DecodedTxn.ddlEvents

theorem RewindInv.start (frames : List Frame) : RewindInv frames {} :=
  ⟨rfl, Nat.zero_le _, ⟨rfl, rfl, rfl, rfl, rfl⟩, .refl _ _, rfl, rfl⟩

/-- A part of frames that are taken. -/
private theorem accepts_take {frames : List Frame} (h : ({} : StreamDecoder).AcceptsAll frames)
    (n : Nat) : ({} : StreamDecoder).AcceptsAll (frames.take n) := by
  rw [← List.take_append_drop n frames, acceptsAll_append] at h
  exact h.1

theorem RewindInv.feed {frames : List Frame} {σ : RewindSys}
    (hall : ({} : StreamDecoder).AcceptsAll frames) (h : RewindInv frames σ) (n : Nat) :
    RewindInv frames (σ.act frames (.feed n)) := by
  have hle := h.le
  let new := (frames.drop σ.pos).take n
  let rest := (frames.drop σ.pos).drop n
  have hsplit : frames.drop σ.pos = new ++ rest := (List.take_append_drop n _).symm
  have hframes : frames = (frames.take σ.pos ++ new) ++ rest := by
    rw [List.append_assoc, ← hsplit, List.take_append_drop]
  have hlen : (frames.take σ.pos ++ new).length = σ.pos + new.length := by
    rw [List.length_append, List.length_take]
    omega
  have htake : frames.take (σ.pos + new.length) = frames.take σ.pos ++ new := by
    conv_lhs => rw [hframes]
    rw [← hlen, List.take_left]
  have hdrop : frames.drop (σ.pos + new.length) = rest := by
    conv_lhs => rw [hframes]
    rw [← hlen, List.drop_left]
  have haccepts := hall
  rw [hframes, acceptsAll_append, acceptsAll_append] at haccepts
  obtain ⟨⟨hbefore, hnew⟩, -⟩ := haccepts
  have hlooks := h.looks
  rw [hsplit, looksSame_append] at hlooks
  have hlive := after_liveRel hbefore
  have hfeedlooks := hlooks.1
  change LooksSame (LiveRel.behindAll ({} : StreamDecoder).liveRel _) _ _ at hfeedlooks
  rw [← hlive] at hfeedlooks
  obtain ⟨hnew', htxns, hsame⟩ := acceptsAll_of_same h.same hfeedlooks hnew
  have hcounter : (({} : StreamDecoder).after (frames.take σ.pos)).changeCounter
      = σ.decoder.changeCounter := h.same.2.2.2.2
  have hcount := (after_counts hbefore).2
  have hfeed : σ.decoder.feed ((frames.drop σ.pos).take n) = _ := feed_of_accepts hnew'
  have hact : σ.act frames (.feed n) =
      { decoder := σ.decoder.after new
        pos := σ.pos + new.length
        changes := σ.changes ++ ((σ.decoder.txnsOf new).flatMap DecodedTxn.changes).zipIdx
          σ.decoder.changeCounter
        ddlEvents := σ.ddlEvents ++ (σ.decoder.txnsOf new).flatMap DecodedTxn.ddlEvents
        failed := σ.failed } := by
    unfold RewindSys.act
    dsimp only
    rw [hfeed]
    dsimp only
    rw [DecodedBatch.changes_foldl_add, DecodedBatch.firstChangeIndex_foldl_add,
      DecodedBatch.ddlEvents_foldl_add]
    rfl
  rw [hact]
  refine ⟨h.ok, ?_, ?_, ?_, ?_, ?_⟩
  · show σ.pos + new.length ≤ frames.length
    rw [hframes, List.length_append, hlen]
    omega
  · show SameButLive (({} : StreamDecoder).after (frames.take (σ.pos + new.length))) _
    rw [htake, after_append]
    exact hsame
  · show LooksSame (LiveRel.behindAll ∅ (frames.take (σ.pos + new.length))) _
      (frames.drop (σ.pos + new.length))
    rw [htake, hdrop, after_liveRel hnew', LiveRel.behindAll, List.foldl_append]
    exact hlooks.2
  · show _ = ((({} : StreamDecoder).txnsOf (frames.take (σ.pos + new.length))).flatMap _).zipIdx
    rw [htake, txnsOf_append, List.flatMap_append, List.zipIdx_append, h.changes, htxns,
      ← hcounter, hcount]
  · show _ = (({} : StreamDecoder).txnsOf (frames.take (σ.pos + new.length))).flatMap _
    rw [htake, txnsOf_append, List.flatMap_append, h.ddlEvents, htxns]

/-- Going back to a Commit finds the state behind it. -/
private theorem abort_same {kept cut : List Frame} {d : StreamDecoder}
    (h : ({} : StreamDecoder).AcceptsAll (kept ++ cut)) (hkept : uptoLast isCommit kept = kept)
    (hne : kept ≠ []) (hcut : ∀ f ∈ cut, isCommit f = false)
    (hsame : SameButLive (({} : StreamDecoder).after (kept ++ cut)) d) :
    SameButLive (({} : StreamDecoder).after kept) d.abortOpenTxn := by
  have hstarted := after_started h
  obtain ⟨hfirst, hrest⟩ := (acceptsAll_append _ _ _).mp h
  obtain ⟨-, hlast, hcount⟩ := after_of_no_commit hrest hcut
  obtain ⟨front, f, hf, hcommit⟩ := exists_of_uptoLast_ne_nil (p := isCommit) (l := kept)
    (by rw [hkept]; exact hne)
  rw [hkept] at hf
  subst hf
  obtain ⟨htxn, hseq⟩ := after_of_last_commit hfirst hcommit
  have hnext := (after_counts hfirst).1
  have hstarted' := after_started hfirst
  rw [after_append] at hsame hstarted
  obtain ⟨-, -, hlastd, hstartedd, hcountd⟩ := hsame
  have hd : d.started = true := by
    rw [← hstartedd, hstarted]
    simp
  unfold SameButLive abortOpenTxn
  refine ⟨htxn, ?_, ?_, ?_, ?_⟩
  · show _ = if d.started then d.lastCommitSeq + 1 else 0
    rw [hnext, if_pos hd, ← hlastd, hlast, hseq, List.length_append, List.length_singleton]
    exact Nat.zero_add _
  · exact hlast.symm.trans hlastd
  · rw [hstarted']
    simp [hd]
  · exact hcount.symm.trans hcountd

theorem RewindInv.interrupt {frames : List Frame} {σ : RewindSys}
    (hall : ({} : StreamDecoder).AcceptsAll frames) (h : RewindInv frames σ)
    (hclean : CleanInterrupt frames .interrupt σ) : RewindInv frames (σ.act frames .interrupt) := by
  have hle := h.le
  obtain ⟨hcommitted, hlook⟩ := hclean
  let kept := uptoLast isCommit (frames.take σ.pos)
  let cut := afterLast isCommit (frames.take σ.pos)
  have hsplit : kept ++ cut = frames.take σ.pos := uptoLast_append_afterLast _
  have hframes : frames = kept ++ (cut ++ frames.drop σ.pos) := by
    rw [← List.append_assoc, hsplit, List.take_append_drop]
  have htake : frames.take kept.length = kept := by
    conv_lhs => rw [hframes]
    rw [List.take_left]
  have hdrop : frames.drop kept.length = cut ++ frames.drop σ.pos := by
    conv_lhs => rw [hframes]
    rw [List.drop_left]
  have hnone : ∀ f ∈ cut, isCommit f = false := fun f hf => not_mem_afterLast hf
  have hfed := accepts_take hall σ.pos
  have hsame := h.same
  have htxns : ({} : StreamDecoder).txnsOf (frames.take σ.pos)
      = ({} : StreamDecoder).txnsOf kept := by
    rw [← hsplit, acceptsAll_append] at hfed
    rw [← hsplit, txnsOf_append, (after_of_no_commit hfed.2 hnone).1, List.append_nil]
  rw [← hsplit] at hfed hsame
  refine ⟨h.ok, ?_, ?_, ?_, ?_, ?_⟩
  · show kept.length ≤ frames.length
    rw [hframes, List.length_append]
    omega
  · show SameButLive (({} : StreamDecoder).after (frames.take kept.length)) _
    rw [htake]
    by_cases hne : kept = []
    · have hpos : σ.pos = 0 := hcommitted.resolve_right fun h => h hne
      have hstart := h.same
      rw [hpos] at hstart
      rw [hne]
      obtain ⟨-, -, hlast, hstarted, hcount⟩ := hstart
      have hd : σ.decoder.started = false := hstarted.symm
      refine ⟨rfl, ?_, hlast, hstarted, hcount⟩
      show 0 = σ.decoder.abortOpenTxn.nextSeq
      unfold abortOpenTxn
      simp [hd]
    · exact abort_same hfed (uptoLast_uptoLast _) hne hnone hsame
  · show LooksSame (LiveRel.behindAll ∅ (frames.take kept.length)) σ.decoder.liveRel
      (frames.drop kept.length)
    rw [htake, hdrop, looksSame_append]
    refine ⟨hlook, ?_⟩
    have hbehind : LiveRel.behindAll (LiveRel.behindAll ∅ kept) cut
        = LiveRel.behindAll ∅ (frames.take σ.pos) := by
      rw [← hsplit, LiveRel.behindAll, LiveRel.behindAll, LiveRel.behindAll, List.foldl_append]
    rw [hbehind]
    apply h.looks.between
    intro relid
    rcases lookup_behindAll cut relid with ⟨rel, hrel⟩ | hkeeps
    · right
      rw [← hbehind, hrel, hrel]
    · exact Or.inl (hkeeps _)
  · show σ.changes = ((({} : StreamDecoder).txnsOf (frames.take kept.length)).flatMap _).zipIdx
    rw [htake, h.changes, htxns]
  · show σ.ddlEvents = (({} : StreamDecoder).txnsOf (frames.take kept.length)).flatMap _
    rw [htake, h.ddlEvents, htxns]

/-- In every run from a fresh decoder whose interruptions are clean, no feed fails, and
what has been emitted is what the frames before the decoder's place give without an
interruption. -/
theorem rewind_exact {frames : List Frame} {σ : RewindSys}
    (hall : ({} : StreamDecoder).AcceptsAll frames)
    (hrun : GuardedRun (RewindStep frames) (CleanInterrupt frames) {} σ) :
    σ.failed = false ∧ ∃ b d, ({} : StreamDecoder).feed (frames.take σ.pos) = (.ok b, d) ∧
      σ.changes = b.changes.zipIdx b.firstChangeIndex ∧ σ.ddlEvents = b.ddlEvents := by
  have hinv : RewindInv frames σ := by
    refine hrun.invariant (fun a σ σ' hclean hstep h => ?_) (.start frames)
    subst hstep
    cases a with
    | feed n => exact h.feed hall n
    | interrupt => exact h.interrupt hall hclean
  refine ⟨hinv.ok, _, _, feed_of_accepts (accepts_take hall σ.pos), ?_, ?_⟩
  · rw [DecodedBatch.changes_foldl_add, DecodedBatch.firstChangeIndex_foldl_add]
    exact hinv.changes
  · rw [DecodedBatch.ddlEvents_foldl_add]
    exact hinv.ddlEvents

/-- The state behind some actions. -/
def RewindSys.play (frames : List Frame) (as : List RewindAct) : RewindSys :=
  as.foldl (fun σ a => σ.act frames a) {}

theorem RewindSys.play_run (frames : List Frame) (as : List RewindAct) :
    Run (RewindStep frames) {} (RewindSys.play frames as) := by
  induction as using List.reverseRecOn with
  | nil => exact .refl _
  | append_singleton as a ih =>
    unfold RewindSys.play at ih ⊢
    rw [List.foldl_append]
    exact ih.tail (a := a) trivial rfl

/-- An interruption in the second of two transactions. -/
theorem rewind_exact_two_txns :
    ∃ σ : RewindSys, σ.pos = 9 ∧ σ.changes.map Prod.snd = [0, 1, 2] ∧ σ.failed = false ∧
      ∃ b d, ({} : StreamDecoder).feed ((framesOf (firstTxn ++ secondTxn)).take σ.pos) = (.ok b, d) ∧
        σ.changes = b.changes.zipIdx b.firstChangeIndex ∧ σ.ddlEvents = b.ddlEvents := by
  let frames := framesOf (firstTxn ++ secondTxn)
  have hall : ({} : StreamDecoder).AcceptsAll frames := by decide +kernel
  have hclean : CleanInterrupt frames .interrupt (RewindSys.play frames [.feed 8]) :=
    ⟨Or.inr (by decide +kernel), by decide +kernel⟩
  have hrun : GuardedRun (RewindStep frames) (CleanInterrupt frames) {}
      (RewindSys.play frames [.feed 8, .interrupt, .feed 3]) :=
    (((GuardedRun.refl _).tail (a := .feed 8) trivial rfl).tail (a := .interrupt) hclean rfl).tail
      (a := .feed 3) trivial rfl
  exact ⟨_, by decide +kernel, by decide +kernel, rewind_exact hall hrun⟩

/-- A later transaction that renames the column of `p.t` between two rows. -/
def renamingTxn : List LogOp :=
  [.append 21 21 false (beginMessage 30 2), .append 22 22 false (insertMessage 1 ["y"]),
    .append 22 22 false (relationMessage 1 "p" "t" ["b"]),
    .append 23 23 false (insertMessage 1 ["z"]), .append 30 30 true (commitMessage 30)]

/-- Interrupted before the first Commit, the decoder expects frame 1 where it is fed frame
0.  Interrupted behind a Relation, it decodes the rows before that under the new names. -/
theorem rewind_fails :
    (∃ frames σ, ({} : StreamDecoder).AcceptsAll frames ∧ Run (RewindStep frames) {} σ ∧
      σ.failed = true) ∧
    ∃ frames σ, ({} : StreamDecoder).AcceptsAll frames ∧ Run (RewindStep frames) {} σ ∧
      σ.failed = false ∧ σ.pos = frames.length ∧
      ∀ b d, ({} : StreamDecoder).feed frames = (.ok b, d) →
        σ.changes ≠ b.changes.zipIdx b.firstChangeIndex := by
  constructor
  · exact ⟨framesOf firstTxn, .play (framesOf firstTxn) [.feed 3, .interrupt, .feed 6],
      by decide +kernel, RewindSys.play_run _ _, by decide +kernel⟩
  · let frames := framesOf (firstTxn ++ renamingTxn)
    have hall : ({} : StreamDecoder).AcceptsAll frames := by decide +kernel
    refine ⟨frames, .play frames [.feed 9, .interrupt, .feed 5], hall, RewindSys.play_run _ _,
      by decide +kernel, by decide +kernel, ?_⟩
    have hne : (RewindSys.play frames [.feed 9, .interrupt, .feed 5]).changes
        ≠ (RewindSys.play frames [.feed 11]).changes := by
      decide +kernel
    intro b d hfeed heq
    apply hne
    rw [heq]
    have htake : (frames.drop 0).take 11 = frames := by decide +kernel
    unfold RewindSys.play
    rw [List.foldl_cons, List.foldl_nil]
    unfold RewindSys.act
    dsimp only
    rw [htake, hfeed]
    rfl

end GrayDB.Registry
