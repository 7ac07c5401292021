import GrayDB.R1.Control
import GrayDB.Registry.Rewind
import GrayDB.Registry.Wire

/-!
# What the control slot sends

A `ControlTxn` is a committed transaction in the messages of pgoutput: what may stand before
its Begin, its Begin, its body and its Commit.  `mappings` says, in terms of the messages
alone, which transactions of a stream have inserted one control marker, and what the
`LedgerCommit` of each is.

`Decodes` is the state of the mapper over a part of a transaction.  The results are
`Decodes.inner`, for each message before the Commit, and `Decodes.commit`, for the Commit: the
mapper says there what `mapping` says, or it fails and there is no mapping.
-/

namespace GrayDB.Registry

/-- Neither a Begin nor a Commit. -/
def Message.Inner : Message → Prop
  | .begin _ _ _ | .commit _ _ _ _ => False
  | _ => True

/-- A message that has its place outside of a transaction, too. -/
def Message.Outer : Message → Prop
  | .relation _ | .origin _ _ | .type _ _ _ | .logicalMessage _ _ _ _ => True
  | _ => False

theorem Message.Outer.inner {m : Message} (h : m.Outer) : m.Inner := by
  cases m with
  | begin finalLsn commitTs xid => exact h.elim
  | commit flags commitLsn endLsn commitTs => exact h.elim
  | _ => trivial

theorem Message.Inner.commitEnd {m : Message} (h : m.Inner) : m.commitEnd = none := by
  cases m with
  | commit flags commitLsn endLsn commitTs => exact h.elim
  | _ => rfl

/-- The live relations behind a message. -/
def LiveRel.behindMessage (live : LiveRel) (m : Message) : LiveRel :=
  match m.sends with
  | some rel => live.insert rel.relid rel
  | none => live

end GrayDB.Registry

namespace GrayDB.R1

open Lib Log Registry

/-- A message and its `wal_start`. -/
abbrev WireMessage := UInt64 × Message

structure ControlTxn where
  before : List WireMessage := []
  beginAt : UInt64
  finalLsn : Nat
  beginTs : Int
  xid : Nat
  body : List WireMessage
  commitAt : UInt64
  flags : UInt8
  commitLsn : Nat
  endLsn : Nat
  commitTs : Int
  before_outer : ∀ x ∈ before, x.2.Outer
  body_inner : ∀ x ∈ body, x.2.Inner
  endLsn_pos : 0 < endLsn

namespace ControlTxn

def start (t : ControlTxn) : WireMessage := (t.beginAt, .begin t.finalLsn t.beginTs t.xid)

/-- All messages but the Commit. -/
def messages (t : ControlTxn) : List WireMessage := t.before ++ t.start :: t.body

def commit (t : ControlTxn) : WireMessage :=
  (t.commitAt, .commit t.flags t.commitLsn t.endLsn t.commitTs)

def wire (t : ControlTxn) : List WireMessage := t.messages ++ [t.commit]

theorem commitEnd_messages {t : ControlTxn} {x : WireMessage} (hx : x ∈ t.messages) :
    x.2.commitEnd = none := by
  rcases List.mem_append.mp hx with hbefore | hbegin
  · exact (t.before_outer x hbefore).inner.commitEnd
  · rcases List.mem_cons.mp hbegin with rfl | hbody
    · rfl
    · exact (t.body_inner x hbody).commitEnd

end ControlTxn

/-! ## The control markers of a stream -/

def behindMessages (live : LiveRel) (xs : List WireMessage) : LiveRel :=
  xs.foldl (fun live x => live.behindMessage x.2) live

/-- The relation of this OID, if it is the marker table. -/
def markerRel (live : LiveRel) (relid : Nat) : Option RelationDesc :=
  (live.lookup relid).filter fun rel => rel.qualifiedName = controlMarkerTable

/-- What a message changes in the marker table: the row that it inserts, or `none` for any
other change. -/
def messageMarkers (live : LiveRel) : Message → List (Option Named)
  | .insert relid new => (markerRel live relid).toList.map fun rel => some (nameTuple rel new)
  | .update relid _ _ | .delete relid _ => (markerRel live relid).toList.map fun _ => none
  | .truncate _ relids => (relids.filterMap (markerRel live)).map fun _ => none
  | _ => []

def markerChanges (live : LiveRel) : List WireMessage → List (Option Named)
  | [] => []
  | x :: xs => messageMarkers live x.2 ++ markerChanges (live.behindMessage x.2) xs

/-- The column of that name, if it is text. -/
def textField (row : Named) (name : String) : Option String :=
  match row.find? fun v => v.1 = name with
  | some (_, .text value) => some value
  | _ => none

namespace ControlTxn

/-- The mapping of a marker row. -/
def ledgerCommit (t : ControlTxn) (row : Named) : Option LedgerCommit := do
  let text ← textField row "sequence"
  let sequence ← parseU64 text
  let operationSha256 ← textField row "operation_sha256"
  pure { sequence, xid := t.xid, sourceLsn := t.endLsn, operationSha256 }

/-- One inserted marker, and no other change of the marker table, is mapped. -/
def mappingOf (t : ControlTxn) : List (Option Named) → Option LedgerCommit
  | [some row] => t.ledgerCommit row
  | _ => none

/-- The mapping of a transaction that inserts one control marker. -/
def mapping (live : LiveRel) (t : ControlTxn) : Option LedgerCommit :=
  t.mappingOf (markerChanges live t.messages)

end ControlTxn

/-- The mappings of some transactions, in commit order. -/
def mappings (live : LiveRel) : List ControlTxn → List LedgerCommit
  | [] => []
  | t :: ts => (t.mapping live).toList ++ mappings (behindMessages live t.wire) ts

/-- Every relation is described before it is used. -/
def Described : LiveRel → List WireMessage → Prop
  | _, [] => True
  | live, x :: xs =>
    (∀ relid ∈ x.2.uses, (live.lookup relid).isSome) ∧ Described (live.behindMessage x.2) xs

/-- What the server sends of some committed transactions: messages of pgoutput, each in a
CopyData message, with every relation described before it is used. -/
structure ControlStream (txns : List ControlTxn) : Prop where
  fits : ∀ x ∈ txns.flatMap ControlTxn.wire, x.2.Fits ∧ x.2.encode.length < 2 ^ 32
  described : Described ∅ (txns.flatMap ControlTxn.wire)

/-! ## The frames of the messages -/

/-- The frame that the loop makes of a message. -/
def wireFrame (seq : Nat) (x : WireMessage) : Frame where
  seq
  lsnStart := x.1.toNat
  lsnEnd := x.2.commitEnd.getD x.1.toNat
  txnComplete := x.2.commitEnd.isSome
  payload := x.2.encode

def wireFrames (n : Nat) : List WireMessage → List Frame
  | [] => []
  | x :: xs => wireFrame n x :: wireFrames (n + 1) xs

theorem wireFrames_append (n : Nat) (xs ys : List WireMessage) :
    wireFrames n (xs ++ ys) = wireFrames n xs ++ wireFrames (n + xs.length) ys := by
  induction xs generalizing n with
  | nil => rfl
  | cons x xs ih =>
    rw [List.cons_append, wireFrames, ih, wireFrames, List.cons_append, List.length_cons]
    congr 3
    omega

theorem length_wireFrames (n : Nat) (xs : List WireMessage) :
    (wireFrames n xs).length = xs.length := by
  induction xs generalizing n with
  | nil => rfl
  | cons x xs ih => rw [wireFrames, List.length_cons, ih, List.length_cons]

theorem behindMessages_append (live : LiveRel) (xs ys : List WireMessage) :
    behindMessages live (xs ++ ys) = behindMessages (behindMessages live xs) ys := by
  rw [behindMessages, List.foldl_append]
  rfl

theorem markerChanges_append (live : LiveRel) (xs ys : List WireMessage) :
    markerChanges live (xs ++ ys)
      = markerChanges live xs ++ markerChanges (behindMessages live xs) ys := by
  induction xs generalizing live with
  | nil => rfl
  | cons x xs ih =>
    rw [List.cons_append, markerChanges, ih, markerChanges, List.append_assoc]
    rfl

theorem described_append (live : LiveRel) (xs ys : List WireMessage) :
    Described live (xs ++ ys) ↔ Described live xs ∧ Described (behindMessages live xs) ys := by
  induction xs generalizing live with
  | nil => simp [Described, behindMessages]
  | cons x xs ih =>
    rw [List.cons_append, Described, ih, Described, and_assoc]
    rfl

theorem mappings_append (live : LiveRel) (ts us : List ControlTxn) :
    mappings live (ts ++ us)
      = mappings live ts ++ mappings (behindMessages live (ts.flatMap ControlTxn.wire)) us := by
  induction ts generalizing live with
  | nil => rfl
  | cons t ts ih =>
    rw [List.cons_append, mappings, ih, mappings, List.append_assoc, List.flatMap_cons,
      behindMessages_append]

/-! ## The mapper -/

/-- What a change does to the marker table. -/
def insertedRow (c : TypedChange) : Option Named := if c.op = .insert then c.new else none

def markerRows (cs : List TypedChange) : List (Option Named) :=
  (cs.filter fun c => c.table = controlMarkerTable).map insertedRow

/-- The mapper over the messages of a stream: `inTxn` is the xid of the open transaction and what
it has changed in the marker table. -/
structure Decodes (d : StreamDecoder) (live : LiveRel) (n : Nat)
    (inTxn : Option (Nat × List (Option Named))) : Prop where
  liveRel : d.liveRel = live
  nextSeq : d.nextSeq = n
  closed : inTxn = none → d.txn = none
  txn : ∀ xid rows, inTxn = some (xid, rows) → ∃ t, d.txn = some t ∧ t.xid = xid ∧
    (∀ c ∈ t.changes, c.xid = xid) ∧ markerRows t.changes = rows

/-- A frame whose message is taken. -/
theorem feed_of_message {d d' : StreamDecoder} {frame : Frame} {m : Message}
    {o : Option DecodedTxn} (hseq : frame.seq = d.nextSeq) (hmsg : parse frame.payload = .ok m)
    (hfeed : { d with nextSeq := frame.seq + 1, started := true }.feedMessage frame m
      = (.ok o, d')) :
    d.feed [frame] = (.ok (o.toList.foldl DecodedBatch.add
      { firstChangeIndex := d.changeCounter }), d') := by
  have hframe : d.feedFrame frame = (.ok o, d') := by
    unfold StreamDecoder.feedFrame
    rw [if_neg (not_not_intro hseq), hmsg]
    exact hfeed
  unfold StreamDecoder.feed StreamDecoder.feedAux
  rw [hframe]
  cases o with
  | none => rfl
  | some t => rfl

theorem markerRows_append (cs cs' : List TypedChange) :
    markerRows (cs ++ cs') = markerRows cs ++ markerRows cs' := by
  rw [markerRows, List.filter_append, List.map_append]
  rfl

/-- A change of a relation that is known. -/
theorem markerRows_singleton {live : LiveRel} {relid : Nat} {rel : RelationDesc} {c : TypedChange}
    (hrel : live.lookup relid = some rel) (hc : c.table = rel.qualifiedName) :
    markerRows [c] = (markerRel live relid).toList.map fun _ => insertedRow c := by
  unfold markerRows markerRel
  rw [hrel]
  by_cases hmarker : rel.qualifiedName = controlMarkerTable
  · simp [Option.filter, hc, hmarker]
  · simp [Option.filter, hc, hmarker]

/-- A row of a relation that is known goes to the open transaction. -/
theorem Decodes.push {d : StreamDecoder} {live : LiveRel} {n xid : Nat} {rows : List (Option Named)}
    (h : Decodes d live n (some (xid, rows))) {relid : Nat} {rel : RelationDesc} {kind : String}
    {change : RelationDesc → TxnBuf → TxnBuf} {c : TypedChange}
    (hrel : live.lookup relid = some rel) (hxid : c.xid = xid) (hc : c.table = rel.qualifiedName)
    (hchange : ∀ t : TxnBuf, t.xid = xid →
      (change rel t).xid = xid ∧ (change rel t).changes = t.changes ++ [c]) :
    ∃ d', d.push kind relid change = (.ok none, d') ∧ Decodes d' live n
      (some (xid, rows ++ (markerRel live relid).toList.map fun _ => insertedRow c)) := by
  obtain ⟨t, htxn, ht, hxids, hrows⟩ := h.txn xid rows rfl
  obtain ⟨hxid', hchanges⟩ := hchange t ht
  refine ⟨{ d with txn := some (change rel t) }, ?_, h.liveRel, h.nextSeq, nofun, ?_⟩
  · unfold StreamDecoder.push
    rw [h.liveRel, hrel, htxn]
  · intro xid' rows' heq
    obtain ⟨rfl, rfl⟩ := Prod.mk.inj (Option.some.inj heq)
    refine ⟨change rel t, rfl, hxid', ?_, ?_⟩
    · intro c' hc'
      rw [hchanges, List.mem_append, List.mem_singleton] at hc'
      rcases hc' with hold | rfl
      · exact hxids c' hold
      · exact hxid
    · rw [hchanges, markerRows_append, hrows, markerRows_singleton hrel hc]

theorem markerRel_eq {live : LiveRel} {relid : Nat} {rel rel' : RelationDesc}
    (hrel : live.lookup relid = some rel) (h : rel' ∈ (markerRel live relid).toList) :
    rel' = rel := by
  unfold markerRel at h
  rw [hrel, Option.mem_toList, Option.filter_eq_some_iff] at h
  exact (Option.some.inj h.1).symm

/-- The changes of a truncation. -/
theorem markerRows_truncate (live : LiveRel) (xid : Nat) (relids : List Nat) :
    markerRows ((relids.filterMap fun relid => live.lookup relid).map fun rel =>
        { commitLsn := 0, xid, table := rel.qualifiedName, op := .truncate
          new := none, old := none })
      = (relids.filterMap (markerRel live)).map fun _ => none := by
  induction relids with
  | nil => rfl
  | cons relid relids ih =>
    rw [List.filterMap_cons, List.filterMap_cons]
    cases hrel : live.lookup relid with
    | none =>
      have hmarker : markerRel live relid = none := by
        rw [markerRel, hrel]
        rfl
      rw [hmarker]
      exact ih
    | some rel =>
      simp only []
      rw [List.map_cons, ← List.singleton_append, markerRows_append, ih,
        markerRows_singleton hrel rfl]
      cases markerRel live relid with
      | none => rfl
      | some rel' => rfl

/-- A message that is neither a Begin nor a Commit. -/
theorem Decodes.feedMessage {d : StreamDecoder} {live : LiveRel} {n : Nat}
    {inTxn : Option (Nat × List (Option Named))} {m : Message} (h : Decodes d live n inTxn)
    (hinner : m.Inner) (hopen : inTxn = none → m.Outer)
    (huses : ∀ relid ∈ m.uses, (live.lookup relid).isSome) (frame : Frame) :
    ∃ d', d.feedMessage frame m = (.ok none, d') ∧ Decodes d' (live.behindMessage m) n
      (inTxn.map fun p => (p.1, p.2 ++ messageMarkers live m)) := by
  have hsame : inTxn.map (fun p => (p.1, p.2 ++ ([] : List (Option Named)))) = inTxn := by
    simp only [List.append_nil]
    exact Option.map_id'
  have hnothing : ∀ m : Message, m.sends = none → messageMarkers live m = [] →
      Decodes d (live.behindMessage m) n (inTxn.map fun p => (p.1, p.2 ++ messageMarkers live m)) := by
    intro m hsends hmarkers
    rw [hmarkers, hsame, LiveRel.behindMessage, hsends]
    exact h
  cases m with
  | begin finalLsn commitTs xid => exact hinner.elim
  | commit flags commitLsn endLsn commitTs => exact hinner.elim
  | origin commitLsn name => exact ⟨d, rfl, hnothing _ rfl rfl⟩
  | type typeOid ns name => exact ⟨d, rfl, hnothing _ rfl rfl⟩
  | logicalMessage transactional lsn tag payload => exact ⟨d, rfl, hnothing _ rfl rfl⟩
  | relation rel =>
    show ∃ d', (Except.ok none, d.feedRelation rel frame.lsnEnd) = (.ok none, d') ∧
      Decodes d' (live.insert rel.relid rel) n (inTxn.map fun p => (p.1, p.2 ++ []))
    rw [hsame]
    refine ⟨_, rfl, ?_⟩
    unfold StreamDecoder.feedRelation
    cases htxn : d.txn with
    | none =>
      refine ⟨by rw [← h.liveRel], h.nextSeq, fun _ => rfl, fun xid rows heq => ?_⟩
      obtain ⟨t, ht, -⟩ := h.txn xid rows heq
      exact nomatch htxn.symm.trans ht
    | some t =>
      have hopen : inTxn ≠ none := fun hnone => nomatch htxn.symm.trans (h.closed hnone)
      refine ⟨by rw [← h.liveRel], h.nextSeq, fun hnone => absurd hnone hopen,
        fun xid rows heq => ?_⟩
      obtain ⟨t', ht', hxid, hxids, hrows⟩ := h.txn xid rows heq
      obtain rfl := Option.some.inj (htxn.symm.trans ht')
      exact ⟨_, rfl, hxid, hxids, hrows⟩
  | insert relid new =>
    cases inTxn with
    | none => exact (hopen rfl).elim
    | some p =>
      obtain ⟨xid, rows⟩ := p
      obtain ⟨rel, hrel⟩ := Option.isSome_iff_exists.mp (huses relid List.mem_cons_self)
      have hmarkers : messageMarkers live (.insert relid new)
          = (markerRel live relid).toList.map fun _ => some (nameTuple rel new) :=
        List.map_congr_left fun rel' hrel' => by rw [markerRel_eq hrel hrel']
      show ∃ d', _ ∧ Decodes d' live n (some (xid, rows ++ messageMarkers live (.insert relid new)))
      rw [hmarkers]
      exact h.push (c := {
        commitLsn := 0, xid, table := rel.qualifiedName, op := .insert
        new := some (nameTuple rel new), old := none }) hrel rfl rfl fun t ht => ⟨ht, by rw [ht]⟩
  | update relid old new =>
    cases inTxn with
    | none => exact (hopen rfl).elim
    | some p =>
      obtain ⟨xid, rows⟩ := p
      obtain ⟨rel, hrel⟩ := Option.isSome_iff_exists.mp (huses relid List.mem_cons_self)
      exact h.push (c := {
        commitLsn := 0, xid, table := rel.qualifiedName, op := .update
        new := some (nameTuple rel new), old := old.map fun o => nameTuple rel o.2 })
        hrel rfl rfl fun t ht => ⟨ht, by rw [ht]⟩
  | delete relid old =>
    cases inTxn with
    | none => exact (hopen rfl).elim
    | some p =>
      obtain ⟨xid, rows⟩ := p
      obtain ⟨rel, hrel⟩ := Option.isSome_iff_exists.mp (huses relid List.mem_cons_self)
      exact h.push (c := {
        commitLsn := 0, xid, table := rel.qualifiedName, op := .delete
        new := none, old := some (nameTuple rel old.2) })
        hrel rfl rfl fun t ht => ⟨ht, by rw [ht]⟩
  | truncate options relids =>
    cases inTxn with
    | none => exact (hopen rfl).elim
    | some p =>
      obtain ⟨xid, rows⟩ := p
      obtain ⟨t, htxn, ht, hxids, hrows⟩ := h.txn xid rows rfl
      show ∃ d', d.feedTruncate relids = _ ∧ _
      unfold StreamDecoder.feedTruncate
      rw [htxn]
      refine ⟨_, rfl, h.liveRel, h.nextSeq, nofun, fun xid' rows' heq => ?_⟩
      obtain ⟨rfl, rfl⟩ := Prod.mk.inj (Option.some.inj heq)
      refine ⟨_, rfl, ht, ?_, ?_⟩
      · intro c hc
        cases List.mem_append.mp hc with
        | inl hold => exact hxids c hold
        | inr hnew =>
          obtain ⟨rel, -, rfl⟩ := List.mem_map.mp hnew
          exact ht
      · show markerRows (t.changes ++ _) = _
        rw [markerRows_append, hrows, h.liveRel, markerRows_truncate]
        rfl

theorem parse_wireFrame {n : Nat} {x : WireMessage} (h : x.2.Fits) :
    parse (wireFrame n x).payload = .ok x.2 := (parse_encode h).1

theorem Decodes.advance {d : StreamDecoder} {live : LiveRel} {n : Nat}
    {inTxn : Option (Nat × List (Option Named))} (h : Decodes d live n inTxn) :
    Decodes { d with nextSeq := n + 1, started := true } live (n + 1) inTxn :=
  ⟨h.liveRel, rfl, h.closed, h.txn⟩

/-- The mapper says nothing before the Commit. -/
theorem feed_none {d d' : StreamDecoder} {n : Nat} {x : WireMessage} (hseq : d.nextSeq = n)
    (hfits : x.2.Fits) (hfeed : { d with nextSeq := n + 1, started := true }.feedMessage
      (wireFrame n x) x.2 = (.ok none, d')) :
    ControlLsnMapper.feed d (wireFrame n x) = (.ok none, d') := by
  unfold ControlLsnMapper.feed
  rw [feed_of_message hseq.symm (parse_wireFrame hfits) hfeed]
  rfl

theorem Decodes.inner {d : StreamDecoder} {live : LiveRel} {n : Nat}
    {inTxn : Option (Nat × List (Option Named))} {x : WireMessage} (h : Decodes d live n inTxn)
    (hinner : x.2.Inner) (hopen : inTxn = none → x.2.Outer)
    (huses : ∀ relid ∈ x.2.uses, (live.lookup relid).isSome) (hfits : x.2.Fits) :
    ∃ d', ControlLsnMapper.feed d (wireFrame n x) = (.ok none, d') ∧
      Decodes d' (live.behindMessage x.2) (n + 1)
        (inTxn.map fun p => (p.1, p.2 ++ messageMarkers live x.2)) := by
  obtain ⟨d', hfeed, hd'⟩ := h.advance.feedMessage hinner hopen huses (wireFrame n x)
  exact ⟨d', feed_none h.nextSeq hfits hfeed, hd'⟩

theorem Decodes.begin {d : StreamDecoder} {live : LiveRel} {n : Nat} (t : ControlTxn)
    (h : Decodes d live n none) (hfits : t.start.2.Fits) :
    ∃ d', ControlLsnMapper.feed d (wireFrame n t.start) = (.ok none, d') ∧
      Decodes d' live (n + 1) (some (t.xid, [])) := by
  refine ⟨_, feed_none h.nextSeq hfits rfl, h.liveRel, rfl, nofun, fun xid rows heq => ?_⟩
  obtain ⟨rfl, rfl⟩ := Prod.mk.inj (Option.some.inj heq)
  exact ⟨_, rfl, rfl, nofun, rfl⟩

/-! ## The Commit -/

theorem markerField_eq (row : Named) (name : String) :
    (∃ value, markerField row name = .ok value ∧ textField row name = some value) ∨
      ∃ e, markerField row name = .error e ∧ textField row name = none := by
  unfold markerField textField
  cases row.find? fun v => v.1 = name with
  | none => exact .inr ⟨_, rfl, rfl⟩
  | some v =>
    obtain ⟨column, value⟩ := v
    cases value with
    | text value => exact .inl ⟨value, rfl, rfl⟩
    | _ => exact .inr ⟨_, rfl, rfl⟩

/-- A change is a marker exactly if it inserts a row that has a mapping. -/
theorem markerFromChange_eq {t : ControlTxn} {c : TypedChange} (hlsn : c.commitLsn = t.endLsn)
    (hxid : c.xid = t.xid) :
    (∃ m, markerFromChange c t.endLsn = .ok m ∧ (insertedRow c).bind t.ledgerCommit = some m) ∨
      ∃ e, markerFromChange c t.endLsn = .error e ∧
        (insertedRow c).bind t.ledgerCommit = none := by
  unfold markerFromChange insertedRow
  by_cases hop : c.op = .insert
  · rw [if_neg (not_not_intro hop), if_neg (not_not_intro hlsn), if_pos hop]
    cases c.new with
    | none => exact .inr ⟨_, rfl, rfl⟩
    | some row =>
      simp only [Option.bind_some]
      unfold ControlTxn.ledgerCommit
      rcases markerField_eq row "sequence" with ⟨text, hfield, htext⟩ | ⟨e, hfield, htext⟩
      · rw [hfield, htext]
        cases hparse : parseU64 text with
        | none => exact .inr ⟨.sequence, by simp [hparse, bind, Except.bind], by simp [hparse]⟩
        | some sequence =>
          rcases markerField_eq row "operation_sha256" with
            ⟨hash, hfield', hhash⟩ | ⟨e, hfield', hhash⟩
          · exact .inl ⟨⟨sequence, t.xid, t.endLsn, hash⟩,
              by simp [hparse, hfield', hxid, bind, Except.bind], by simp [hparse, hhash]⟩
          · exact .inr ⟨e, by simp [hparse, hfield', bind, Except.bind], by simp [hhash]⟩
      · exact .inr ⟨e, by rw [hfield]; rfl, by rw [htext]; rfl⟩
  · rw [if_pos hop, if_neg hop]
    exact .inr ⟨_, rfl, rfl⟩

theorem marker_eq {t : ControlTxn} {cs : List TypedChange} (hlsn : ∀ c ∈ cs, c.commitLsn = t.endLsn)
    (hxid : ∀ c ∈ cs, c.xid = t.xid) :
    ControlLsnMapper.marker t.endLsn cs none = .ok (t.mappingOf (cs.map insertedRow)) ∨
      ∃ e, ControlLsnMapper.marker t.endLsn cs none = .error e ∧
        t.mappingOf (cs.map insertedRow) = none := by
  cases cs with
  | nil => exact .inl rfl
  | cons c cs =>
    have hchange := markerFromChange_eq (hlsn c List.mem_cons_self) (hxid c List.mem_cons_self)
    unfold ControlLsnMapper.marker
    cases cs with
    | nil =>
      have hone : t.mappingOf ([c].map insertedRow) = (insertedRow c).bind t.ledgerCommit := by
        show t.mappingOf [insertedRow c] = _
        cases insertedRow c with
        | none => rfl
        | some row => rfl
      rw [hone]
      rcases hchange with ⟨m, hm, hrow⟩ | ⟨e, he, hrow⟩
      · rw [hm, hrow]
        exact .inl rfl
      · rw [he, hrow]
        exact .inr ⟨e, rfl, rfl⟩
    | cons c' cs =>
      have hmany : t.mappingOf ((c :: c' :: cs).map insertedRow) = none := by
        show t.mappingOf (insertedRow c :: insertedRow c' :: cs.map insertedRow) = none
        cases insertedRow c with
        | none => rfl
        | some row => rfl
      rw [hmany]
      rcases hchange with ⟨m, hm, -⟩ | ⟨e, he, -⟩
      · rw [hm]
        exact .inr ⟨.multiple, rfl, rfl⟩
      · rw [he]
        exact .inr ⟨e, rfl, rfl⟩

/-- The Commit: the mapper says what the mapping is, or it fails and there is none. -/
theorem Decodes.commit {d : StreamDecoder} {live : LiveRel} {n : Nat} {t : ControlTxn}
    {rows : List (Option Named)} (h : Decodes d live n (some (t.xid, rows)))
    (hfits : t.commit.2.Fits) :
    (∃ d', ControlLsnMapper.feed d (wireFrame n t.commit) = (.ok (t.mappingOf rows), d') ∧
        Decodes d' live (n + 1) none) ∨
      ∃ e d', ControlLsnMapper.feed d (wireFrame n t.commit) = (.error (.marker e), d') ∧
        t.mappingOf rows = none := by
  obtain ⟨buf, htxn, hbuf, hxids, hrows⟩ := h.txn t.xid rows rfl
  let d₁ : StreamDecoder := { d with nextSeq := n + 1, started := true }
  have hfeed : d₁.feedMessage (wireFrame n t.commit) t.commit.2
      = (.ok (some (buf.complete t.endLsn)), (d₁.feedCommit n t.endLsn).2) := by
    show d₁.feedCommit n t.endLsn = _
    unfold StreamDecoder.feedCommit
    rw [show d₁.txn = some buf from htxn]
  have hd' : Decodes (d₁.feedCommit n t.endLsn).2 live (n + 1) none := by
    unfold StreamDecoder.feedCommit
    rw [show d₁.txn = some buf from htxn]
    exact ⟨h.liveRel, rfl, fun _ => rfl, nofun⟩
  let cs := (buf.complete t.endLsn).changes.filter fun c => c.table = controlMarkerTable
  have hcs : cs = (buf.changes.filter fun c => c.table = controlMarkerTable).map
      fun c => { c with commitLsn := t.endLsn } := List.filter_map ..
  have hmapper : ControlLsnMapper.feed d (wireFrame n t.commit)
      = ((ControlLsnMapper.marker t.endLsn cs none).mapError .marker,
        (d₁.feedCommit n t.endLsn).2) := by
    unfold ControlLsnMapper.feed
    rw [feed_of_message h.nextSeq.symm (parse_wireFrame hfits) hfeed]
    exact if_neg (Nat.pos_iff_ne_zero.mp t.endLsn_pos)
  have hview : cs.map insertedRow = rows := by
    rw [hcs, List.map_map, ← hrows]
    rfl
  have hlsn : ∀ c ∈ cs, c.commitLsn = t.endLsn := by
    rw [hcs]
    intro c hc
    obtain ⟨c', -, rfl⟩ := List.mem_map.mp hc
    rfl
  have hxid : ∀ c ∈ cs, c.xid = t.xid := by
    rw [hcs]
    intro c hc
    obtain ⟨c', hc', rfl⟩ := List.mem_map.mp hc
    exact hxids c' (List.mem_filter.mp hc').1
  have hmarker := marker_eq hlsn hxid
  rw [hview] at hmarker
  rw [hmapper]
  rcases hmarker with hok | ⟨e, he, hnone⟩
  · rw [hok]
    exact .inl ⟨_, rfl, hd'⟩
  · rw [he]
    exact .inr ⟨e, _, rfl, hnone⟩

end GrayDB.R1
