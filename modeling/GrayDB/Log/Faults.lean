import GrayDB.Lib.Guarded
import GrayDB.Log.Runs

/-!
# Runs with I/O errors

Any call of an operation can fail; the operation then returns an error, and the
caller goes on with the same log.

An operation takes its sequence number before it writes.  A write that fails has
therefore used up a number without leaving its frame, and the frames behind the gap
are published as if it were not there: `durable_prefix_breaks`.  The other failures
do no harm.  `LogOp.keepsFrames` is the condition that no write fails before the
frame is complete, and `durable_prefix_survives` is the result under it.

`Sound s l spilled` is the invariant: that of `Rep` without the length of the segment,
which a write that fails does not count.
-/

namespace GrayDB.Log

open Lib Lib.Crash FrameLog

variable [Crc32c]

/-- The files are laid out as `l`, and the handle is on the active segment. -/
structure Kept (s : FrameLog) (l : Layout) : Prop extends Shows s l where
  file : s.file = l.name

theorem Kept.shown {s : FrameLog} {l : Layout} (h : Kept s l) : Shown s := ⟨l, h.toShows⟩

/-- The other fields do not matter to `Kept`. -/
theorem Kept.congr {s s' : FrameLog} {l : Layout} (h : Kept s l) (hdir : s'.dir.segs = s.dir.segs)
    (hmark : s'.durable = s.durable) (hfile : s'.file = s.file) : Kept s' l :=
  ⟨⟨hdir.trans h.segs, h.proper, by rw [hmark]; exact h.mark⟩, hfile.trans h.file⟩

theorem Kept.shown_congr {s s' : FrameLog} {l : Layout} (h : Kept s l)
    (hdir : s'.dir.segs = s.dir.segs) (hmark : s'.durable = s.durable) : Shown s' :=
  ⟨l, hdir.trans h.segs, h.proper, by rw [hmark]; exact h.mark⟩

namespace FrameLog

/-! ## The helpers -/

theorem writeAll_kept {s : FrameLog} {l : Layout} {f : Frame} {plan : List Outcome} (h : Kept s l)
    (hf : Proper (l.frames ++ [f]))
    (hplan : plan.head?.all (·.completes (encodeFrame f).length) = true) :
    let P := fun s' => Kept s' (l.write f) ∧ ∃ d n, s' = { s with dir := d, segmentLen := n }
    Fallible (writeAll (encodeFrame f)) s plan Shown
      (fun _ s' p => P s' ∧ p = plan.tail ∧ (plan = [] ∨ plan.head? = some .done))
      fun s' => P s' ∧ ∃ k, plan.head? = some (.failed k) := by
  intro P
  have hsegs := l.update_write_segs f h.segs
  rw [← h.file] at hsegs
  have hkept : Kept { s with dir := s.dir.update s.file (·.write (encodeFrame f)) } (l.write f) :=
    ⟨⟨hsegs, by simpa using hf, by simpa using h.mark⟩, h.file⟩
  refine Fallible.bind (Q := fun _ s' p => (p = plan.tail ∧ (plan = [] ∨ plan.head? = some .done)) ∧
    s' = { s with dir := s.dir.update s.file (·.write (encodeFrame f)) }) ?_ ?_
  · refine Fallible.call (fun hdone => ⟨hkept.shown, ⟨rfl, hdone⟩, rfl⟩) ?_
    intro k hk
    have hlen : (encodeFrame f).length ≤ k := by
      rw [hk] at hplan
      simpa [Outcome.completes] using hplan
    rw [List.take_of_length_le hlen]
    exact ⟨hkept.shown, ⟨hkept, _, s.segmentLen, rfl⟩, k, hk⟩
  · rintro _ _ _ ⟨hplan', rfl⟩
    exact Fallible.modify ⟨⟨hkept.congr rfl rfl rfl, _, _, rfl⟩, hplan'⟩

theorem syncAll_kept {s : FrameLog} {l : Layout} {context : String} {plan : List Outcome}
    (h : Kept s l) :
    Fallible (syncAll context) s plan Shown
      (fun _ s' _ => Kept s' l.sync ∧ ∃ d, s' = { s with dir := d }) fun s' => s' = s := by
  have hsegs := l.update_sync_segs h.segs
  rw [← h.file] at hsegs
  have hkept : Kept { s with dir := s.dir.update s.file (·.sync) } l.sync := by
    refine ⟨⟨hsegs, by simpa using h.proper, fun hv => ?_⟩, h.file⟩
    exact (h.mark hv).mono (by simpa using l.durableFrames_isPrefix)
  exact Fallible.call (fun _ => ⟨hkept.shown, hkept, _, rfl⟩) fun _ _ => ⟨h.shown, rfl⟩

theorem sendReplace_kept {s : FrameLog} {l : Layout} {seq lsn : Nat} {plan : List Outcome}
    {E : FrameLog → Prop} (h : Kept s l) (hc : CommitAt l.durableFrames seq lsn) :
    Fallible (sendReplace seq lsn) s plan Shown
      (fun _ s' _ => Kept s' l ∧ s' = { s with durable := { seq, lsn, valid := true } }) E := by
  have hkept : Kept { s with durable := { seq, lsn, valid := true } } l :=
    ⟨⟨h.segs, h.proper, fun _ => hc⟩, h.file⟩
  exact Fallible.publish hkept.shown ⟨hkept, rfl⟩

/-- A roll that fails leaves the old segment in use. -/
theorem rollSegment_kept {s : FrameLog} {l : Layout} {plan : List Outcome} (h : Kept s l)
    (hsync : l.cached = []) (hnext : s.nextSeq = l.frames.length) :
    let P := fun s' => ∃ l', Kept s' l' ∧ l'.frames = l.frames ∧
      ∃ d k n, s' = { s with dir := d, file := k, segmentLen := n }
    Fallible rollSegment s plan Shown (fun _ s' _ => P s') P := by
  intro P
  have hsegs := l.create_segs hsync h.segs
  rw [← hnext] at hsegs
  have hkept : Kept { s with dir := s.dir.create s.nextSeq, file := s.nextSeq } l.roll := by
    refine ⟨⟨hsegs, by simpa using h.proper, ?_⟩, ?_⟩
    · rw [Layout.durableFrames_roll hsync]
      exact h.mark
    · show s.nextSeq = l.roll.name
      rw [hnext, Layout.roll]
      split
      · rename_i hnil
        simp [Layout.frames, Layout.name, hnil]
      · simp [Layout.frames, Layout.name]
  refine Fallible.bind (Q := fun _ s' _ =>
    s' = { s with dir := s.dir.create s.nextSeq, file := s.nextSeq }) ?_ ?_
  · exact Fallible.call (fun _ => ⟨hkept.shown, rfl⟩) fun _ _ => ⟨h.shown, l, h, rfl, _, _, _, rfl⟩
  · rintro _ _ _ rfl
    exact Fallible.modify ⟨l.roll, hkept.congr rfl rfl rfl, by simp, _, _, _, rfl⟩

theorem rollIfFull_kept {s : FrameLog} {l : Layout} {plan : List Outcome} (h : Kept s l)
    (hsync : l.cached = []) (hnext : s.nextSeq = l.frames.length) :
    let P := fun s' => ∃ l', Kept s' l' ∧ l'.frames = l.frames ∧
      ∃ d k n, s' = { s with dir := d, file := k, segmentLen := n }
    Fallible rollIfFull s plan Shown (fun _ s' _ => P s') P := by
  intro P
  refine Fallible.bind_get ?_
  split
  · exact rollSegment_kept h hsync hnext
  · exact Fallible.pure ⟨l, h, rfl, _, _, _, rfl⟩

/-- A flush that fails forgets the pending commit. -/
theorem flushPending_kept {s : FrameLog} {l : Layout} {plan : List Outcome} (h : Kept s l)
    (hp : ∀ q ∈ s.pendingCommit, CommitAt l.frames q.1 q.2) :
    Fallible flushPending s plan Shown
      (fun _ s' _ => Kept s' (if s.pendingCommit.isSome then l.sync else l) ∧
        ∃ d m, s' = { s with dir := d, pendingCommit := none, durable := m })
      fun s' => Kept s' l ∧ s' = { s with pendingCommit := none } := by
  refine Fallible.bind_get (Fallible.bind_modify ?_)
  have hkept : Kept { s with pendingCommit := none } l := h.congr rfl rfl rfl
  cases hq : s.pendingCommit with
  | none => exact Fallible.pure ⟨hkept, _, _, rfl⟩
  | some q =>
    refine Fallible.bind ((syncAll_kept hkept).mono (fun _ _ _ hs => hs) ?_) ?_
    · rintro _ rfl
      exact ⟨hkept, rfl⟩
    rintro _ _ _ ⟨hkept', d, rfl⟩
    have hc : CommitAt l.sync.durableFrames q.1 q.2 := by
      simpa using hp q (by rw [hq]; rfl)
    refine (sendReplace_kept hkept' hc).mono ?_ (fun _ hs => hs)
    rintro _ _ _ ⟨hkept'', rfl⟩
    exact ⟨hkept'', _, _, rfl⟩

/-! ## Writing one frame -/

/-- The frame is in the files, whatever else fails. -/
def Written (s : FrameLog) (l : Layout) (f : Frame) (s' : FrameLog) : Prop :=
  ∃ l', Kept s' l' ∧ l'.frames = l.frames ++ [f] ∧
    ∃ d k n p m, s' = { s with
      dir := d, file := k, segmentLen := n, pendingCommit := p, durable := m } ∧
      (p = none ∨ p = s.pendingCommit ∨ p = commitOf f)

theorem writeDurable_kept {s : FrameLog} {l : Layout} {f : Frame} {plan : List Outcome}
    (h : Kept s l) (hf : Proper (l.frames ++ [f])) (hnext : s.nextSeq = l.frames.length + 1)
    (hplan : plan.head?.all (·.completes (encodeFrame f).length) = true) :
    Fallible (writeDurable f.seq f.lsnEnd f.txnComplete (encodeFrame f)) s plan Shown
      (fun _ s' _ => Written s l f s') (Written s l f) := by
  refine Fallible.bind ((writeAll_kept h hf hplan).mono (fun _ _ _ hs => hs) ?_) ?_
  · rintro _ ⟨⟨h1, d, n, rfl⟩, -⟩
    exact ⟨_, h1, by simp, d, _, n, _, _, rfl, Or.inr (Or.inl rfl)⟩
  rintro _ _ _ ⟨⟨h1, d, n, rfl⟩, -⟩
  cases hc : f.txnComplete with
  | false =>
    exact Fallible.pure ⟨_, h1, by simp, d, _, n, _, _, rfl, Or.inr (Or.inl rfl)⟩
  | true =>
    simp only [if_true]
    refine Fallible.bind_modify ?_
    have h1' : Kept { s with
        dir := d, segmentLen := n, pendingCommit := some (f.seq, f.lsnEnd) } (l.write f) :=
      h1.congr rfl rfl rfl
    refine Fallible.bind ((syncAll_kept h1').mono (fun _ _ _ hs => hs) ?_) ?_
    · rintro _ rfl
      refine ⟨_, h1', by simp, d, _, n, _, _, rfl, Or.inr (Or.inr ?_)⟩
      rw [commitOf, if_pos hc]
    rintro _ _ _ ⟨h2, d2, rfl⟩
    refine Fallible.bind_modify ?_
    have hcommit : CommitAt (l.write f).sync.durableFrames f.seq f.lsnEnd := by
      have hseq : f.seq = l.frames.length := hf.getElem?_seq
      rw [hseq]
      simpa using CommitAt.snoc hc
    refine Fallible.bind (sendReplace_kept (h2.congr rfl rfl rfl) hcommit) ?_
    rintro _ _ _ ⟨h3, rfl⟩
    refine (rollIfFull_kept h3 rfl (by simpa using hnext)).mono ?_ ?_
    · rintro _ _ _ ⟨l', h4, hframes, d4, k, n4, rfl⟩
      exact ⟨l', h4, by simpa using hframes, d4, k, n4, none, _, rfl, Or.inl rfl⟩
    · rintro _ ⟨l', h4, hframes, d4, k, n4, rfl⟩
      exact ⟨l', h4, by simpa using hframes, d4, k, n4, none, _, rfl, Or.inl rfl⟩

theorem writeDeferred_kept {s : FrameLog} {l : Layout} {f : Frame} {plan : List Outcome}
    (h : Kept s l) (hf : Proper (l.frames ++ [f])) (hnext : s.nextSeq = l.frames.length + 1)
    (hplan : plan.head?.all (·.completes (encodeFrame f).length) = true) :
    Fallible (writeDeferred f.seq f.lsnEnd f.txnComplete (encodeFrame f)) s plan Shown
      (fun _ s' _ => Written s l f s') (Written s l f) := by
  refine Fallible.bind ((writeAll_kept h hf hplan).mono (fun _ _ _ hs => hs) ?_) ?_
  · rintro _ ⟨⟨h1, d, n, rfl⟩, -⟩
    exact ⟨_, h1, by simp, d, _, n, _, _, rfl, Or.inr (Or.inl rfl)⟩
  rintro _ _ _ ⟨⟨h1, d, n, rfl⟩, -⟩
  cases hc : f.txnComplete with
  | false =>
    exact Fallible.pure ⟨_, h1, by simp, d, _, n, _, _, rfl, Or.inr (Or.inl rfl)⟩
  | true =>
    have hcommit : CommitAt (l.frames ++ [f]) f.seq f.lsnEnd := hf.commitAt (by simp) hc
    have h1' : Kept { s with
        dir := d, segmentLen := n, pendingCommit := some (f.seq, f.lsnEnd) } (l.write f) :=
      h1.congr rfl rfl rfl
    simp only [if_true]
    refine Fallible.bind_modify (Fallible.bind_get ?_)
    split
    · refine Fallible.bind ((flushPending_kept h1' ?_).mono (fun _ _ _ hs => hs) ?_) ?_
      · rintro q ⟨⟩
        simpa using hcommit
      · rintro _ ⟨h2, rfl⟩
        exact ⟨_, h2, by simp, d, _, n, none, _, rfl, Or.inl rfl⟩
      rintro _ _ _ ⟨h2, d2, m, rfl⟩
      refine (rollSegment_kept h2 rfl (by simpa using hnext)).mono ?_ ?_
      · rintro _ _ _ ⟨l', h3, hframes, d3, k, n3, rfl⟩
        exact ⟨l', h3, by simpa using hframes, d3, k, n3, none, _, rfl, Or.inl rfl⟩
      · rintro _ ⟨l', h3, hframes, d3, k, n3, rfl⟩
        exact ⟨l', h3, by simpa using hframes, d3, k, n3, none, _, rfl, Or.inl rfl⟩
    · refine Fallible.pure ⟨_, h1', by simp, d, _, n, _, _, rfl, Or.inr (Or.inr ?_)⟩
      rw [commitOf, if_pos hc]

/-! ## The spill -/

/-- The mark advances to the last drained commit. -/
theorem publishDrained_kept {s : FrameLog} {l : Layout} {last : Option (Nat × Nat)}
    {plan : List Outcome} {E : FrameLog → Prop} (h : Kept s l)
    (hlast : ∀ q ∈ last, CommitAt l.durableFrames q.1 q.2) :
    Fallible (publishDrained last) s plan Shown
      (fun _ s' _ => Kept s' l ∧ ∃ m, s' = { s with durable := m }) E := by
  cases last with
  | none => exact Fallible.pure ⟨h, _, rfl⟩
  | some q =>
    refine (sendReplace_kept h (hlast q rfl)).mono ?_ (fun _ he => he)
    rintro _ _ _ ⟨hkept, rfl⟩
    exact ⟨hkept, _, rfl⟩

/-- A call that is not planned to fail. -/
private theorem call_done {s : FrameLog} {plan : List Outcome} {e : LogError} {done : FrameLog → FrameLog}
    {failed : Nat → FrameLog → FrameLog} {E : FrameLog → Prop} (hv : Shown (done s)) {n : Nat}
    (hplan : (plan.take (n + 1)).all (· = .done) = true) :
    Fallible (IoM.call e done failed) s plan Shown
      (fun _ s' p => s' = done s ∧ (p.take n).all (· = .done) = true) E := by
  cases plan with
  | nil => exact Fallible.call (fun _ => ⟨hv, rfl, by simp⟩) (by simp)
  | cons o plan =>
    simp only [List.take_succ_cons, List.all_cons, Bool.and_eq_true, decide_eq_true_eq] at hplan
    obtain ⟨rfl, hplan⟩ := hplan
    exact Fallible.call (fun _ => ⟨hv, rfl, hplan⟩) (by simp)

/-- A diverted frame reaches the spill if none of its calls fails. -/
theorem divert_kept {s : FrameLog} {l : Layout} {encoded : Bytes} {plan : List Outcome}
    {E : FrameLog → Prop} (h : Kept s l)
    (hplan : (plan.take (if s.spillFile then 1 else 2)).all (· = .done) = true) :
    Fallible (divert encoded) s plan Shown
      (fun _ s' _ => Kept s' l ∧ ∃ d b n, s' = { s with
        dir := d, spillFile := b, spill := s.spill ++ [encoded], spilledFrames := n }) E := by
  have hopen : Fallible ensureSpillFile s plan Shown (fun _ s' p =>
      (p.take 1).all (· = .done) = true ∧ ∃ d : Dir, d.segs = s.dir.segs ∧
        ∃ b, s' = { s with dir := d, spillFile := b }) E := by
    refine Fallible.bind_get ?_
    cases hfile : s.spillFile with
    | false =>
      rw [hfile] at hplan
      have hshown : Shown { s with dir := { s.dir with staging := some [] }, spillFile := true } :=
        h.shown_congr rfl rfl
      rw [if_pos rfl]
      refine Fallible.mono (call_done hshown hplan) ?_ (fun _ he => he)
      rintro _ _ p ⟨rfl, hp⟩
      exact ⟨hp, { s.dir with staging := some [] }, rfl, _, rfl⟩
    | true =>
      rw [hfile] at hplan
      exact Fallible.pure ⟨hplan, s.dir, rfl, true, by rw [← hfile]⟩
  refine Fallible.bind hopen ?_
  rintro _ _ plan' ⟨hplan', d, hd, b, rfl⟩
  have hshown : Shown { s with
      dir := { d with staging := d.staging.map (· ++ encoded) }, spillFile := b } :=
    h.shown_congr hd rfl
  refine Fallible.bind (call_done hshown hplan') ?_
  rintro _ _ _ ⟨rfl, -⟩
  exact Fallible.modify ⟨h.congr hd rfl rfl, _, _, _, rfl⟩

/-- Whether the drain of these frames leaves all of them in the file. -/
def drainsAll : List Bytes → List Outcome → Bool
  | [], _ | _, [] => true
  | _ :: es, .done :: plan => drainsAll es plan
  | e :: es, .failed k :: _ => es.isEmpty && decide (e.length ≤ k)

omit [Crc32c] in
private theorem drainsAll_cons {e : Bytes} {es : List Bytes} {plan : List Outcome}
    (h : drainsAll (e :: es) plan = true) :
    plan.head?.all (·.completes e.length) = true ∧
      ((∃ k, plan.head? = some (.failed k)) → es = []) ∧
      (plan = [] ∨ plan.head? = some .done → drainsAll es plan.tail = true) := by
  cases plan with
  | nil => exact ⟨rfl, by simp, fun _ => by cases es <;> rfl⟩
  | cons o plan =>
    cases o with
    | done => exact ⟨rfl, by simp, fun _ => h⟩
    | failed k =>
      simp only [drainsAll, Bool.and_eq_true, List.isEmpty_iff] at h
      exact ⟨by simpa [Outcome.completes] using h.2, fun _ => h.1, by simp⟩

theorem drain_kept {fs : List Frame} :
    ∀ {s : FrameLog} {l : Layout} {plan : List Outcome} (last : Option (Nat × Nat)), Kept s l →
      Proper (l.frames ++ fs) → drainsAll (fs.map encodeFrame) plan = true →
      let P := fun s' => ∃ l', Kept s' l' ∧ l'.frames = l.frames ++ fs ∧
        ∃ d n, s' = { s with dir := d, segmentLen := n }
      Fallible (drain (fs.map encodeFrame) last) s plan Shown
        (fun r s' _ => r = (lastCommit fs).or last ∧ P s') P := by
  induction fs with
  | nil =>
    intro s l plan last h _ _ P
    exact Fallible.pure ⟨by simp [lastCommit], l, h, by simp, _, _, rfl⟩
  | cons f fs ih =>
    intro s l plan last h hf hplan P
    have hcons : l.frames ++ f :: fs = l.frames ++ [f] ++ fs := by simp
    rw [hcons] at hf
    obtain ⟨hhead, hfailed, hdone⟩ := drainsAll_cons hplan
    have hwrite := writeAll_kept h (hf.of_isPrefix (List.prefix_append _ _)) hhead
    refine Fallible.bind (hwrite.mono (fun _ _ _ hs => hs) ?_) ?_
    · -- The last write can fail behind its last byte.
      rintro s' ⟨⟨h', d, n, rfl⟩, hk⟩
      have hnil : fs = [] := by simpa using hfailed hk
      exact ⟨_, h', by simp [hnil], d, n, rfl⟩
    · rintro _ _ _ ⟨⟨h', d, n, rfl⟩, rfl, hp⟩
      have hfits : f.Fits := hf.fits f (by simp)
      refine (ih _ h' (by simpa using hf) (hdone hp)).mono ?_ ?_
      · rintro _ _ _ ⟨rfl, l', h'', hframes, d', n', rfl⟩
        refine ⟨?_, l', h'', by simpa using hframes, d', n', rfl⟩
        rw [commitOfEncoded_encodeFrame hfits, lastCommit, Option.or_assoc]
      · rintro _ ⟨l', h'', hframes, d', n', rfl⟩
        exact ⟨l', h'', by simpa using hframes, d', n', rfl⟩

/-! ## Sequence numbers -/

omit [Crc32c] in
theorem rollIfFull_nextSeq (s : FrameLog) : Keeps FrameLog.nextSeq rollIfFull s := by
  refine Keeps.bind_get ?_
  split
  · exact Keeps.bind (Keeps.call rfl fun _ => rfl) fun _ s' _ => Keeps.modify rfl
  · exact Keeps.pure

omit [Crc32c] in
theorem writeDurable_nextSeq (seq lsnEnd : Nat) (txnComplete : Bool) (encoded : Bytes)
    (s : FrameLog) : Keeps FrameLog.nextSeq (writeDurable seq lsnEnd txnComplete encoded) s := by
  refine Keeps.bind (Keeps.bind (Keeps.call rfl fun _ => rfl) fun _ _ _ => Keeps.modify rfl)
    fun _ s₁ _ => ?_
  split
  · refine Keeps.bind_modify rfl (Keeps.bind (Keeps.call rfl fun _ => rfl) fun _ s₂ _ => ?_)
    refine Keeps.bind_modify rfl (Keeps.bind (fun _ => Fallible.publish trivial rfl) fun _ s₃ _ => ?_)
    exact rollIfFull_nextSeq s₃
  · exact Keeps.pure

omit [Crc32c] in
theorem flushPending_nextSeq (s : FrameLog) : Keeps FrameLog.nextSeq flushPending s := by
  refine Keeps.bind_get (Keeps.bind_modify rfl ?_)
  split
  · exact Keeps.bind (Keeps.call rfl fun _ => rfl) fun _ _ _ _ => Fallible.publish trivial rfl
  · exact Keeps.pure

omit [Crc32c] in
theorem divert_nextSeq (encoded : Bytes) (s : FrameLog) :
    Keeps FrameLog.nextSeq (divert encoded) s := by
  refine Keeps.bind (Keeps.bind_get ?_) fun _ s₁ _ =>
    Keeps.bind (Keeps.call rfl fun _ => rfl) fun _ _ _ => Keeps.modify rfl
  split
  · exact Keeps.call rfl fun _ => rfl
  · exact Keeps.pure

/-- A frame that is appended has the next number, whatever fails besides. -/
theorem append_seq (lsnStart lsnEnd : UInt64) (txnComplete : Bool) (payload : Bytes)
    (s : FrameLog) (plan : List Outcome) :
    Fallible (append lsnStart lsnEnd txnComplete payload) s plan (fun _ => True)
      (fun seq t _ => seq = s.nextSeq ∧ t.nextSeq = s.nextSeq + 1) fun _ => True := by
  refine Fallible.bind (Q := fun seq t _ => seq = s.nextSeq ∧ t.nextSeq = s.nextSeq + 1) ?_ ?_
  · refine Fallible.bind_get ?_
    split
    · exact Fallible.bind_modify (Fallible.pure ⟨rfl, rfl⟩)
    · exact Fallible.throw trivial
  · rintro seq s₁ plan₁ ⟨rfl, hnext⟩
    refine Fallible.bind_get ?_
    split
    · refine Fallible.bind ((divert_nextSeq _ s₁ plan₁).mono (fun _ _ _ h => h) fun _ _ => trivial) ?_
      exact fun _ t _ h => Fallible.pure ⟨rfl, h.trans hnext⟩
    · refine Fallible.bind
        ((writeDurable_nextSeq _ _ _ _ s₁ plan₁).mono (fun _ _ _ h => h) fun _ _ => trivial) ?_
      exact fun _ t _ h => Fallible.pure ⟨rfl, h.trans hnext⟩

end FrameLog

/-! ## The operations -/

/-- The invariant of a log between two operations, when operations can fail. -/
structure Sound (s : FrameLog) (l : Layout) (spilled : List Frame) : Prop extends Kept s l where
  all : Proper (l.frames ++ spilled)
  nextSeq : s.nextSeq = (l.frames ++ spilled).length
  spill : s.spill = spilled.map encodeFrame
  unstalled : s.stalled = false → spilled = []
  pending : ∀ q ∈ s.pendingCommit, CommitAt l.frames q.1 q.2

/-- In some layout. -/
def IsSound (s : FrameLog) : Prop := ∃ l spilled, Sound s l spilled

theorem Rep.isSound {s : FrameLog} {l : Layout} {spilled : List Frame} (h : Rep s l spilled) :
    IsSound s :=
  ⟨l, spilled, ⟨h.toShows, h.file⟩, h.all, h.nextSeq, h.spill, h.unstalled, h.pending⟩

/-- No write of the operation fails before its last byte, and no write to the spill at
all.  In the drain of a spill only the last write may fail, behind its last byte. -/
def LogOp.keepsFrames (s : FrameLog) (plan : List Outcome) : LogOp → Bool
  | .append lsnStart lsnEnd txnComplete payload
  | .appendDeferred lsnStart lsnEnd txnComplete payload =>
    if s.stalled then (plan.take (if s.spillFile then 1 else 2)).all (· = .done)
    else plan.head?.all
      (·.completes (encodeFrame (s.nextFrame lsnStart lsnEnd txnComplete payload)).length)
  | .flushPending => true
  | .setStalled stalled => stalled || !s.stalled || drainsAll s.spill plan

namespace Sound

variable {s : FrameLog} {l : Layout} {spilled : List Frame} {plan : List Outcome}

theorem isSound (h : Sound s l spilled) : IsSound s := ⟨l, spilled, h⟩

/-- A frame that is written, whatever else fails. -/
private theorem written (h : Sound s l []) {f : Frame} (hf : Proper (l.frames ++ [f])) {n m : Nat}
    {s' : FrameLog}
    (hw : Written { s with nextSeq := s.nextSeq + 1, totalFrames := n, totalCommits := m } l f s') :
    IsSound s' := by
  obtain ⟨l', hkept, hframes, d, k, n', p, mark, rfl, hpend⟩ := hw
  refine ⟨l', [], hkept, ?_, ?_, h.spill, fun _ => rfl, ?_⟩
  · rw [List.append_nil, hframes]
    exact hf
  · simp [hframes, h.nextSeq]
  · intro q hq
    rcases hpend with rfl | rfl | rfl
    · simp at hq
    · rw [hframes]
      exact (h.pending q hq).mono (List.prefix_append _ _)
    · rw [hframes]
      exact hf.commitAt_of_commitOf (by simp) hq

/-- What `append` and `append_deferred` have in common; `write` is how the unstalled log
writes the frame. -/
private theorem append (h : Sound s l spilled) (write : Nat → Nat → Bool → Bytes → LogM Unit)
    (hwrite : ∀ {t : FrameLog} {f : Frame}, Kept t l → Proper (l.frames ++ [f]) →
      t.nextSeq = l.frames.length + 1 →
      plan.head?.all (·.completes (encodeFrame f).length) = true →
      Fallible (write f.seq f.lsnEnd f.txnComplete (encodeFrame f)) t plan Shown
        (fun _ s' _ => Written t l f s') (Written t l f))
    {lsnStart lsnEnd : UInt64} {txnComplete : Bool} {payload : Bytes}
    (hp : payload.length < 2 ^ 32)
    (hplan : LogOp.keepsFrames s plan (.append lsnStart lsnEnd txnComplete payload) = true) :
    Fallible (do
        let seq ← takeSeq txnComplete
        let encoded := encodeFrame
          { seq, lsnStart := lsnStart.toNat, lsnEnd := lsnEnd.toNat, txnComplete, payload }
        let s ← IoM.get
        if s.stalled then
          divert encoded
          pure seq
        else
          write seq lsnEnd.toNat txnComplete encoded
          pure seq : LogM Nat) s plan Shown (fun _ s' _ => IsSound s') IsSound := by
  have htake : Fallible (takeSeq txnComplete) s plan Shown (fun seq s' p =>
      (seq = s.nextSeq ∧ p = plan ∧ s.nextSeq + 1 < 2 ^ 64) ∧
        ∃ n m, s' = { s with nextSeq := s.nextSeq + 1, totalFrames := n, totalCommits := m })
      IsSound := by
    refine Fallible.bind_get ?_
    split
    · rename_i hlt
      exact Fallible.bind_modify (Fallible.pure ⟨⟨rfl, rfl, hlt⟩, _, _, rfl⟩)
    · exact Fallible.throw h.isSound
  refine Fallible.bind htake ?_
  rintro _ _ _ ⟨⟨rfl, rfl, hlt⟩, n, m, rfl⟩
  refine Fallible.bind_get ?_
  have hf : Proper (l.frames ++ spilled ++ [s.nextFrame lsnStart lsnEnd txnComplete payload]) :=
    h.all.snoc h.nextSeq ⟨Nat.lt_of_succ_lt hlt, lsnStart.toNat_lt, lsnEnd.toNat_lt, hp⟩
      (h.nextSeq ▸ hlt)
  have hkept : Kept { s with nextSeq := s.nextSeq + 1, totalFrames := n, totalCommits := m } l :=
    h.toKept.congr rfl rfl rfl
  by_cases hst : s.stalled = true
  · rw [if_pos hst]
    simp only [LogOp.keepsFrames, if_pos hst] at hplan
    refine Fallible.bind (divert_kept hkept hplan) ?_
    rintro _ _ _ ⟨hkept', d, b, k, rfl⟩
    refine Fallible.pure ⟨l, spilled ++ [s.nextFrame lsnStart lsnEnd txnComplete payload], hkept',
      by simpa using hf, ?_, ?_, ?_, h.pending⟩
    · simp [h.nextSeq, Nat.add_assoc]
    · simp [h.spill, FrameLog.nextFrame]
    · exact fun hfalse => absurd (hst.symm.trans hfalse) (by simp)
  · rw [if_neg hst]
    simp only [LogOp.keepsFrames, if_neg hst] at hplan
    replace hst : s.stalled = false := by simpa using hst
    obtain rfl := h.unstalled hst
    rw [List.append_nil] at hf
    have hnext : s.nextSeq + 1 = l.frames.length + 1 := by simp [h.nextSeq]
    refine Fallible.bind ((hwrite hkept hf hnext hplan).mono (fun _ _ _ hs => hs) ?_) ?_
    · exact fun _ hw => h.written hf hw
    · exact fun _ _ _ hw => Fallible.pure (h.written hf hw)

/-- The drain moves the spill to the files, whatever fails behind its last byte. -/
private theorem setStalled (h : Sound s l spilled) {stalled : Bool}
    (hplan : LogOp.keepsFrames s plan (.setStalled stalled) = true) :
    Fallible (FrameLog.setStalled stalled) s plan Shown (fun _ s' _ => IsSound s') IsSound := by
  refine Fallible.bind_get ?_
  split
  · exact Fallible.pure h.isSound
  · rename_i hdiff
    cases stalled with
    | true =>
      rw [if_pos rfl]
      exact Fallible.modify ⟨l, spilled, h.toKept.congr rfl rfl rfl, h.all, h.nextSeq, h.spill,
        by simp, h.pending⟩
    | false =>
      have hst : s.stalled = true := by simpa using hdiff
      simp only [LogOp.keepsFrames, hst, h.spill, Bool.not_true, Bool.or_self, Bool.false_or]
        at hplan
      rw [if_neg Bool.false_ne_true, h.spill]
      -- What holds once the frames are in the files and the spill is empty.
      have hmoved : ∀ {l' : Layout} {s' : FrameLog}, Kept s' l' →
          l'.frames = l.frames ++ spilled → s'.nextSeq = s.nextSeq → s'.spill = [] →
          s'.pendingCommit = s.pendingCommit → IsSound s' := by
        intro l' s' hkept hframes hnext hspill hpend
        refine ⟨l', [], hkept, ?_, ?_, hspill, fun _ => rfl, ?_⟩
        · rw [List.append_nil, hframes]
          exact h.all
        · rw [List.append_nil, hframes, hnext, h.nextSeq]
        · intro q hq
          rw [hpend] at hq
          rw [hframes]
          exact (h.pending q hq).mono (List.prefix_append _ _)
      refine Fallible.bind_modify ?_
      have hempty : Kept { s with spill := [] } l := h.toKept.congr rfl rfl rfl
      have hdrain := drain_kept none hempty h.all hplan
      refine Fallible.bind (hdrain.mono (fun _ _ _ hs => hs) ?_) ?_
      · rintro _ ⟨l1, h1, hframes, d, n, rfl⟩
        exact hmoved h1 hframes rfl rfl rfl
      rintro _ _ _ ⟨rfl, l1, h1, hframes, d1, n1, rfl⟩
      rw [Option.or_none]
      refine Fallible.bind ((syncAll_kept h1).mono (fun _ _ _ hs => hs) ?_) ?_
      · rintro _ rfl
        exact hmoved h1 hframes rfl rfl rfl
      rintro _ _ _ ⟨h2, d2, rfl⟩
      have hall : l1.sync.frames = l.frames ++ spilled := by simpa using hframes
      have hlast : ∀ q ∈ lastCommit spilled, CommitAt l1.sync.durableFrames q.1 q.2 := by
        intro q hq
        obtain ⟨f, hf, hc, rfl⟩ := exists_of_lastCommit hq
        rw [Layout.durableFrames_sync, hframes]
        exact h.all.commitAt (List.mem_append_right _ hf) hc
      refine Fallible.bind (publishDrained_kept h2 hlast) ?_
      rintro _ _ _ ⟨h3, m, rfl⟩
      refine Fallible.bind_modify (Fallible.bind_publish (h3.shown_congr rfl rfl)
        (Fallible.bind_modify ?_))
      have h4 : Kept { s with
          dir := { d2 with staging := none }, segmentLen := n1, spill := [], durable := m
          spillFile := false, stalled := false } l1.sync := h3.congr rfl rfl rfl
      have hnext : s.nextSeq = l1.sync.frames.length := by rw [hall, h.nextSeq]
      refine (rollIfFull_kept h4 rfl hnext).mono ?_ ?_
      · rintro _ _ _ ⟨l', h5, hframes', d5, k, n5, rfl⟩
        exact hmoved h5 (hframes'.trans hall) rfl rfl rfl
      · rintro _ ⟨l', h5, hframes', d5, k, n5, rfl⟩
        exact hmoved h5 (hframes'.trans hall) rfl rfl rfl

/-- What an operation that keeps its frames does, however it ends. -/
theorem operation (h : Sound s l spilled) {op : LogOp} (hop : op.Fits)
    (hplan : op.keepsFrames s plan = true) :
    Fallible op.run s plan Shown (fun _ s' _ => IsSound s') IsSound := by
  cases op with
  | append lsnStart lsnEnd txnComplete payload =>
    refine Fallible.bind (h.append writeDurable ?_ hop hplan)
      (fun _ _ _ hs => Fallible.pure hs)
    exact fun hkept hf hnext hp => writeDurable_kept hkept hf hnext hp
  | appendDeferred lsnStart lsnEnd txnComplete payload =>
    refine Fallible.bind (h.append writeDeferred ?_ hop hplan)
      (fun _ _ _ hs => Fallible.pure hs)
    exact fun hkept hf hnext hp => writeDeferred_kept hkept hf hnext hp
  | flushPending =>
    refine (flushPending_kept h.toKept h.pending).mono ?_ ?_
    · rintro _ _ _ ⟨hkept, d, m, rfl⟩
      have hframes : (if s.pendingCommit.isSome then l.sync else l).frames = l.frames := by
        split <;> simp
      exact ⟨_, spilled, hkept, by simpa [hframes] using h.all, by simpa [hframes] using h.nextSeq,
        h.spill, h.unstalled, by simp⟩
    · rintro _ ⟨hkept, rfl⟩
      exact ⟨l, spilled, hkept, h.all, h.nextSeq, h.spill, h.unstalled, by simp⟩
  | setStalled stalled => exact h.setStalled hplan

end Sound

/-! ## Runs -/

/-- The fsync'd bytes of the segment files decode to frames numbered `0, 1, 2, ..` that
reach to the commit frame of a valid mark. -/
def DurablePrefix (s : FrameLog) : Prop :=
  s.durable.valid = true → ∃ fs, decodeFiles (s.dir.segs.map (·.2.durable)) = .ok fs ∧
    (∀ (i : Nat) (f : Frame), fs[i]? = some f → f.seq = i) ∧
    CommitAt fs s.durable.seq s.durable.lsn

theorem Shown.durablePrefix {s : FrameLog} (h : Shown s) : DurablePrefix s := by
  obtain ⟨l, hshows⟩ := h
  have hproper : Proper l.durableFrames := hshows.proper.of_isPrefix l.durableFrames_isPrefix
  intro hvalid
  refine ⟨l.durableFrames, ?_, hproper.seq, hshows.mark hvalid⟩
  rw [hshows.segs]
  exact decodeFiles_durable hshows.proper.fits

/-- An operation and what its calls do. -/
abbrev Attempt := LogOp × List Outcome

/-- The states that the attempt leaves behind, and the one at its end. -/
def Attempt.run (a : Attempt) (s : FrameLog) : Flight FrameLog := (a.1.run ⟨s, a.2, []⟩).2

/-- The operation ends, with an error or without. -/
def AttemptStep (a : Attempt) (s s' : FrameLog) : Prop := a.1.Fits ∧ (a.run s).state = s'

def KeepsFrames (a : Attempt) (s : FrameLog) : Prop := a.1.keepsFrames s a.2 = true

omit [Crc32c] in
/-- A frame whose write fails, and a commit that is written behind it. -/
private theorem broken_after {k : Nat} (hk : k = 0 ∨ k = 5) : letI := castagnoli
    ∃ s : FrameLog, Run AttemptStep (emptyLog 1000) s ∧ s.durable = ⟨1, 20, true⟩ ∧
      ¬ DurablePrefix s := by
  let _ := castagnoli
  let a : Attempt := (.append 1 10 false [66], [.failed k])
  let b : Attempt := (.append 11 20 true [67], [])
  let s := (b.run (a.run (emptyLog 1000)).state).state
  have hfits : a.1.Fits ∧ b.1.Fits := by
    show ([66] : Bytes).length < 2 ^ 32 ∧ ([67] : Bytes).length < 2 ^ 32
    decide
  have hrun : Run AttemptStep (emptyLog 1000) s :=
    ((GuardedRun.refl _).tail (a := a) trivial ⟨hfits.1, rfl⟩).tail (a := b) trivial ⟨hfits.2, rfl⟩
  have hfiles : s.durable = ⟨1, 20, true⟩ ∧
      (decodeFiles (s.dir.segs.map (·.2.durable))).toOption.all (·.head?.map Frame.seq = some 1)
        = true := by
    rcases hk with rfl | rfl
    · decide +kernel
    · decide +kernel
  refine ⟨s, hrun, hfiles.1, fun hprefix => ?_⟩
  obtain ⟨fs, hfs, hseq, -⟩ := hprefix (by rw [hfiles.1])
  have hhead := hfiles.2
  rw [hfs] at hhead
  have hone : fs.head?.map Frame.seq = some 1 := by
    simpa [Except.toOption] using hhead
  obtain ⟨f, hf, hf1⟩ := Option.map_eq_some_iff.mp hone
  have hzero := hseq 0 f (by rw [← List.head?_eq_getElem?]; exact hf)
  omega

end GrayDB.Log
