import GrayDB.Log.Layout

/-!
# What the append path keeps

`Holds s l` says that the log `s` has its files laid out as `l`: every frame is
whole and numbered by its place, and a valid mark names a durable commit
frame.  The part of it that another process or a crash can see is `Shows`, and
every call of the append path leaves a state that `Shows` some layout.

There is one spec for each helper of the append path (`writeAll_spec`,
`syncAll_spec`, `sendReplace_spec`, `rollSegment_spec`, `divert_spec`,
`drain_spec`), which says how the layout changes and which fields of the log
do.  `Rep` adds the spill, the counter and the pending commit, and the specs of
the four operations are stated with it: `append_spec`, `appendDeferred_spec`,
`flushPending_rep` and `setStalled_spec`.
-/

namespace GrayDB.Log

open Lib Lib.Crash

/-! ## Frames in their places -/

/-- `(seq, lsn)` are those of a commit frame in the list. -/
def CommitAt (fs : List Frame) (seq lsn : Nat) : Prop :=
  ∃ f, fs[seq]? = some f ∧ f.txnComplete = true ∧ f.lsnEnd = lsn

/-- Each frame is numbered by its place, its fields are machine words, and there is
a number for the next frame. -/
structure Proper (fs : List Frame) : Prop where
  seq : ∀ (i : Nat) (f : Frame), fs[i]? = some f → f.seq = i
  fits : ∀ f ∈ fs, f.Fits
  length_lt : fs.length < 2 ^ 64

theorem Proper.nil : Proper [] := ⟨by simp, by simp, by simp⟩

theorem Proper.of_isPrefix {fs gs : List Frame} (h : Proper gs) (hp : fs <+: gs) : Proper fs := by
  refine ⟨fun i f hf => h.seq i f ?_, fun f hf => h.fits f (hp.subset hf),
    Nat.lt_of_le_of_lt hp.length_le h.length_lt⟩
  obtain ⟨t, rfl⟩ := hp
  rw [List.getElem?_append_left (List.getElem?_eq_some_iff.mp hf).1]
  exact hf

theorem Proper.snoc {fs : List Frame} (h : Proper fs) {f : Frame} (hseq : f.seq = fs.length)
    (hf : f.Fits) (hlt : fs.length + 1 < 2 ^ 64) : Proper (fs ++ [f]) := by
  refine ⟨?_, ?_, by simpa using hlt⟩
  · intro i g hg
    rcases Nat.lt_or_ge i fs.length with hi | hi
    · rw [List.getElem?_append_left hi] at hg
      exact h.seq i g hg
    · rw [List.getElem?_append_right hi] at hg
      obtain ⟨hlt, hget⟩ := List.getElem?_eq_some_iff.mp hg
      simp only [List.length_singleton] at hlt
      simp only [List.getElem_singleton] at hget
      rw [← hget, hseq]
      omega
  · intro g hg
    rcases List.mem_append.mp hg with hg | hg
    · exact h.fits g hg
    · rw [List.mem_singleton.mp hg]
      exact hf

/-- A frame stands at its own number. -/
theorem Proper.getElem?_seq {fs gs : List Frame} {f : Frame} (h : Proper (fs ++ f :: gs)) :
    f.seq = fs.length :=
  h.seq fs.length f (by simp)

theorem CommitAt.mono {fs gs : List Frame} {seq lsn : Nat} (h : CommitAt fs seq lsn)
    (hp : fs <+: gs) : CommitAt gs seq lsn := by
  obtain ⟨f, hf, hrest⟩ := h
  obtain ⟨t, rfl⟩ := hp
  refine ⟨f, ?_, hrest⟩
  rw [List.getElem?_append_left (List.getElem?_eq_some_iff.mp hf).1]
  exact hf

theorem CommitAt.lt_length {fs : List Frame} {seq lsn : Nat} (h : CommitAt fs seq lsn) :
    seq < fs.length := by
  obtain ⟨f, hf, -⟩ := h
  exact (List.getElem?_eq_some_iff.mp hf).1

theorem CommitAt.snoc {fs : List Frame} {f : Frame} (hf : f.txnComplete = true) :
    CommitAt (fs ++ [f]) fs.length f.lsnEnd :=
  ⟨f, by simp, hf, rfl⟩

theorem Proper.commitAt {fs : List Frame} (h : Proper fs) {f : Frame} (hf : f ∈ fs)
    (hc : f.txnComplete = true) : CommitAt fs f.seq f.lsnEnd := by
  obtain ⟨i, hi⟩ := List.mem_iff_getElem?.mp hf
  exact ⟨f, by rw [h.seq i f hi]; exact hi, hc, rfl⟩

/-- Frames in their places are contiguous, and all of them are inspected. -/
theorem foldl_verifying {fs : List Frame} (h : Proper fs) :
    (fs.foldl Verifying.frame {}).v.seqContiguous = true ∧
      (fs.foldl Verifying.frame {}).inspected = fs ∧
      ∀ n ∈ (fs.foldl Verifying.frame {}).expectedSeq, n = fs.length := by
  induction fs using List.reverseRecOn with
  | nil => simp
  | append_singleton fs f ih =>
    obtain ⟨hcont, hseen, hexp⟩ := ih (h.of_isPrefix (List.prefix_append _ _))
    have hseq : f.seq = fs.length := h.getElem?_seq
    rw [List.foldl_append, List.foldl_cons, List.foldl_nil, Verifying.frame]
    refine ⟨?_, by rw [hseen], by simp [hseq]⟩
    rw [Bool.and_eq_true]
    refine ⟨hcont, ?_⟩
    rw [Option.all_eq_true]
    intro n hn
    rw [hexp n hn, hseq]
    simp

/-- `(seq, lsn_end)` of a commit frame. -/
def commitOf (f : Frame) : Option (Nat × Nat) :=
  if f.txnComplete then some (f.seq, f.lsnEnd) else none

theorem Proper.commitAt_of_commitOf {fs : List Frame} (h : Proper fs) {f : Frame} (hf : f ∈ fs)
    {q : Nat × Nat} (hq : q ∈ commitOf f) : CommitAt fs q.1 q.2 := by
  rw [commitOf] at hq
  split at hq
  · rename_i hc
    obtain rfl := Option.some.inj hq
    exact h.commitAt hf hc
  · simp at hq

/-- The last commit of a run of frames. -/
def lastCommit : List Frame → Option (Nat × Nat)
  | [] => none
  | f :: fs => (lastCommit fs).or (commitOf f)

theorem lastCommit_append (fs gs : List Frame) :
    lastCommit (fs ++ gs) = (lastCommit gs).or (lastCommit fs) := by
  induction fs with
  | nil => simp [lastCommit]
  | cons f fs ih => rw [List.cons_append, lastCommit, ih, lastCommit, Option.or_assoc]

theorem exists_of_lastCommit {fs : List Frame} {q : Nat × Nat} (h : lastCommit fs = some q) :
    ∃ f ∈ fs, f.txnComplete = true ∧ q = (f.seq, f.lsnEnd) := by
  induction fs with
  | nil => simp [lastCommit] at h
  | cons f fs ih =>
    rw [lastCommit] at h
    cases hl : lastCommit fs with
    | some r =>
      rw [hl, Option.some_or] at h
      obtain ⟨g, hg, hrest⟩ := ih (hl.trans h)
      exact ⟨g, List.mem_cons_of_mem f hg, hrest⟩
    | none =>
      rw [hl, Option.none_or, commitOf] at h
      split at h
      · rename_i hc
        exact ⟨f, List.mem_cons_self, hc, (Option.some.inj h).symm⟩
      · simp at h

/-- The mark that a commit publishes. -/
def DurableMark.after (m : DurableMark) : Option (Nat × Nat) → DurableMark
  | some q => { seq := q.1, lsn := q.2, valid := true }
  | none => m

variable [Crc32c]

/-- What `set_stalled` reads off an encoded frame is its commit. -/
theorem commitOfEncoded_of_words {f : Frame} (hseq : f.seq < 2 ^ 64) (hstart : f.lsnStart < 2 ^ 64)
    (hend : f.lsnEnd < 2 ^ 64) : FrameLog.commitOfEncoded (encodeFrame f) = commitOf f := by
  have hseq : ∀ r, getNat 8 (beBytes 8 f.seq ++ r) = (f.seq, r) := getNat_beBytes hseq
  have hstart : ∀ r, getNat 8 (beBytes 8 f.lsnStart ++ r) = (f.lsnStart, r) :=
    getNat_beBytes hstart
  have hend : ∀ r, getNat 8 (beBytes 8 f.lsnEnd ++ r) = (f.lsnEnd, r) := getNat_beBytes hend
  have hdrop : (encodeFrame f).drop 4 = beBytes 8 f.seq ++ (beBytes 8 f.lsnStart ++
      (beBytes 8 f.lsnEnd ++ ((if f.txnComplete then flagTxnComplete else 0) ::
        (beBytes 4 f.payload.length ++ (f.payload ++
          beBytes 4 (crc32c (frameHeader f ++ f.payload)).toNat))))) := by
    rw [encodeFrame, frameHeader, List.append_assoc, List.append_assoc,
      List.drop_left' (length_beBytes 4 frameMagic)]
    simp
  rw [FrameLog.commitOfEncoded, hdrop]
  simp only [hseq, hstart, hend, List.headD_cons, commitOf]
  cases f.txnComplete <;> rfl

theorem commitOfEncoded_encodeFrame {f : Frame} (hf : f.Fits) :
    FrameLog.commitOfEncoded (encodeFrame f) = commitOf f :=
  commitOfEncoded_of_words hf.seq hf.lsnStart hf.lsnEnd

/-! ## The state of the files -/

/-- The directory is laid out as `l`, and a valid mark names a durable commit. -/
structure Shows (s : FrameLog) (l : Layout) : Prop where
  segs : s.dir.segs = l.segs
  proper : Proper l.frames
  mark : s.durable.valid = true → CommitAt l.durableFrames s.durable.seq s.durable.lsn

/-- `s` is in some such state. -/
def Shown (s : FrameLog) : Prop := ∃ l, Shows s l

/-- All of `lo` is durable, and nothing beyond `hi` is in the files. -/
structure Layout.Within (lo hi : List Frame) (l : Layout) : Prop where
  durable : lo <+: l.durableFrames
  frames : l.frames <+: hi

/-- `s` is in such a state, between `lo` and `hi`. -/
def ShownIn (lo hi : List Frame) (s : FrameLog) : Prop := ∃ l, Shows s l ∧ l.Within lo hi

theorem ShownIn.shown {lo hi : List Frame} {s : FrameLog} (h : ShownIn lo hi s) : Shown s := by
  obtain ⟨l, hshows, -⟩ := h
  exact ⟨l, hshows⟩

omit [Crc32c] in
theorem Layout.Within.sync {lo hi : List Frame} {l : Layout} (h : l.Within lo hi) :
    l.sync.Within lo hi :=
  ⟨by simpa using h.durable.trans l.durableFrames_isPrefix, by simpa using h.frames⟩

omit [Crc32c] in
theorem Layout.Within.roll {lo hi : List Frame} {l : Layout} (h : l.Within lo hi)
    (hsync : l.cached = []) : l.roll.Within lo hi :=
  ⟨by rw [Layout.durableFrames_roll hsync]; exact h.durable, by simpa using h.frames⟩

/-- The handle is on the active segment, and `segment_len` is its length. -/
structure Holds (s : FrameLog) (l : Layout) : Prop extends Shows s l where
  file : s.file = l.name
  segmentLen : s.segmentLen = (encodeFrames (l.kept ++ l.cached)).length

theorem Holds.shown {s : FrameLog} {l : Layout} (h : Holds s l) : Shown s := ⟨l, h.toShows⟩

/-- The other fields do not matter to `Holds`. -/
theorem Holds.congr {s s' : FrameLog} {l : Layout} (h : Holds s l) (hdir : s'.dir.segs = s.dir.segs)
    (hmark : s'.durable = s.durable) (hfile : s'.file = s.file)
    (hlen : s'.segmentLen = s.segmentLen) : Holds s' l :=
  ⟨⟨hdir.trans h.segs, h.proper, by rw [hmark]; exact h.mark⟩, hfile.trans h.file,
    hlen.trans h.segmentLen⟩

theorem Holds.shown_congr {s s' : FrameLog} {l : Layout} {lo hi : List Frame} (h : Holds s l)
    (hin : l.Within lo hi) (hdir : s'.dir.segs = s.dir.segs) (hmark : s'.durable = s.durable) :
    ShownIn lo hi s' :=
  ⟨l, ⟨hdir.trans h.segs, h.proper, by rw [hmark]; exact h.mark⟩, hin⟩

namespace FrameLog

variable {lo hi : List Frame}

theorem writeAll_spec {s : FrameLog} {l : Layout} {f : Frame} (h : Holds s l)
    (hf : Proper (l.frames ++ [f])) (hin : (l.write f).Within lo hi) :
    Spec (writeAll (encodeFrame f)) s (ShownIn lo hi) fun _ s' =>
      Holds s' (l.write f) ∧ ∃ d n, s' = { s with dir := d, segmentLen := n } := by
  have hsegs := l.update_write_segs f h.segs
  rw [← h.file] at hsegs
  have hshow : Shows { s with dir := s.dir.update s.file (·.write (encodeFrame f)) } (l.write f) :=
    ⟨hsegs, by simpa using hf, by simpa using h.mark⟩
  refine Spec.bind_call ⟨_, hshow, hin⟩ ?_
  refine Spec.modify ⟨⟨⟨hshow.segs, hshow.proper, hshow.mark⟩, h.file, ?_⟩, _, _, rfl⟩
  simp only [h.segmentLen, Layout.write, encodeFrames_append, encodeFrames_cons, encodeFrames_nil,
    List.append_nil, List.length_append]
  omega

theorem syncAll_spec {s : FrameLog} {l : Layout} {context : String} (h : Holds s l)
    (hin : l.Within lo hi) :
    Spec (syncAll context) s (ShownIn lo hi) fun _ s' =>
      Holds s' l.sync ∧ ∃ d, s' = { s with dir := d } := by
  have hsegs := l.update_sync_segs h.segs
  rw [← h.file] at hsegs
  have hold : Holds { s with dir := s.dir.update s.file (·.sync) } l.sync := by
    refine ⟨⟨hsegs, by simpa using h.proper, fun hv => ?_⟩, h.file, ?_⟩
    · exact (h.mark hv).mono (by simpa using l.durableFrames_isPrefix)
    · simpa [Layout.sync] using h.segmentLen
  exact Spec.call ⟨_, hold.toShows, hin.sync⟩ ⟨hold, _, rfl⟩

theorem sendReplace_spec {s : FrameLog} {l : Layout} {seq lsn : Nat} (h : Holds s l)
    (hc : CommitAt l.durableFrames seq lsn) (hin : l.Within lo hi) :
    Spec (sendReplace seq lsn) s (ShownIn lo hi) fun _ s' =>
      Holds s' l ∧ s' = { s with durable := { seq, lsn, valid := true } } := by
  have hold : Holds { s with durable := { seq, lsn, valid := true } } l :=
    ⟨⟨h.segs, h.proper, fun _ => hc⟩, h.file, h.segmentLen⟩
  exact Spec.publish ⟨_, hold.toShows, hin⟩ ⟨hold, rfl⟩

theorem rollSegment_spec {s : FrameLog} {l : Layout} (h : Holds s l) (hsync : l.cached = [])
    (hnext : s.nextSeq = l.frames.length) (hin : l.Within lo hi) :
    Spec rollSegment s (ShownIn lo hi) fun _ s' =>
      Holds s' l.roll ∧ ∃ d, s' = { s with dir := d, file := s.nextSeq, segmentLen := 0 } := by
  have hsegs := l.create_segs hsync h.segs
  rw [← hnext] at hsegs
  have hshow : Shows { s with dir := s.dir.create s.nextSeq, file := s.nextSeq } l.roll :=
    ⟨hsegs, by simpa using h.proper, by rw [Layout.durableFrames_roll hsync]; exact h.mark⟩
  refine Spec.bind_call ⟨_, hshow, hin.roll hsync⟩ ?_
  refine Spec.modify ⟨⟨⟨hshow.segs, hshow.proper, hshow.mark⟩, ?_, ?_⟩, _, rfl⟩
  · show s.nextSeq = l.roll.name
    rw [hnext, Layout.roll]
    split
    · rename_i hnil
      simp [Layout.frames, Layout.name, hnil]
    · simp [Layout.frames, Layout.name]
  · show 0 = _
    rw [Layout.roll]
    split
    · rename_i hnil
      simp [hnil]
    · rfl

/-- Rolling, when the segment is full, changes the files but not the frames. -/
theorem rollIfFull_spec {s : FrameLog} {l : Layout} (h : Holds s l) (hsync : l.cached = [])
    (hnext : s.nextSeq = l.frames.length) (hin : l.Within lo hi) :
    Spec rollIfFull s (ShownIn lo hi) fun _ s' =>
      ∃ l', Holds s' l' ∧ l'.frames = l.frames ∧ l'.durableFrames = l.durableFrames ∧
        ∃ d k n, s' = { s with dir := d, file := k, segmentLen := n } := by
  refine Spec.bind_get ?_
  split
  · refine Spec.mono (rollSegment_spec h hsync hnext hin) (fun _ hv => hv) ?_
    rintro _ _ ⟨hold, d, rfl⟩
    exact ⟨_, hold, by simp, Layout.durableFrames_roll hsync, d, _, _, rfl⟩
  · exact Spec.pure ⟨l, h, rfl, rfl, _, _, _, rfl⟩

theorem divert_spec {s : FrameLog} {l : Layout} {encoded : Bytes} (h : Holds s l)
    (hin : l.Within lo hi) :
    Spec (divert encoded) s (ShownIn lo hi) fun _ s' =>
      Holds s' l ∧ ∃ d, s' = { s with
        dir := d, spillFile := true, spill := s.spill ++ [encoded]
        spilledFrames := s.spilledFrames + 1 } := by
  have hopen : Spec ensureSpillFile s (ShownIn lo hi) fun _ s' => ∃ d : Dir, d.segs = s.dir.segs ∧
      s' = { s with dir := d, spillFile := true } := by
    refine Spec.bind_get ?_
    split
    · exact Spec.call (h.shown_congr hin rfl rfl) ⟨{ s.dir with staging := some [] }, rfl, rfl⟩
    · rename_i hopen
      refine Spec.pure ⟨s.dir, rfl, ?_⟩
      rw [← Bool.of_not_eq_false hopen]
  refine Spec.bind hopen ?_
  rintro _ _ ⟨d, hd, rfl⟩
  refine Spec.bind_call (h.shown_congr hin hd rfl) ?_
  exact Spec.modify ⟨h.congr hd rfl rfl rfl, _, rfl⟩

/-- A pending commit is published once the segment is synced. -/
theorem flushPending_spec {s : FrameLog} {l : Layout} (h : Holds s l)
    (hp : ∀ q ∈ s.pendingCommit, CommitAt l.frames q.1 q.2) (hin : l.Within lo hi) :
    Spec flushPending s (ShownIn lo hi) fun _ s' =>
      Holds s' (if s.pendingCommit.isSome then l.sync else l) ∧
        ∃ d, s' = { s with
          dir := d, pendingCommit := none
          durable := s.durable.after s.pendingCommit } := by
  refine Spec.bind_get ?_
  refine Spec.bind_modify ?_
  have hold : Holds { s with pendingCommit := none } l := h.congr rfl rfl rfl rfl
  cases hq : s.pendingCommit with
  | none => exact Spec.pure ⟨hold, _, rfl⟩
  | some q =>
    refine Spec.bind (syncAll_spec hold hin) ?_
    rintro _ _ ⟨hold', d, rfl⟩
    have hc : CommitAt l.sync.durableFrames q.1 q.2 := by
      simpa using hp q (by rw [hq]; rfl)
    refine Spec.mono (sendReplace_spec hold' hc hin.sync) (fun _ hv => hv) ?_
    rintro _ _ ⟨hold'', rfl⟩
    exact ⟨hold'', d, rfl⟩

/-- The mark advances to the last drained commit. -/
theorem publishDrained_spec {s : FrameLog} {l : Layout} {last : Option (Nat × Nat)}
    (h : Holds s l) (hlast : ∀ q ∈ last, CommitAt l.durableFrames q.1 q.2)
    (hin : l.Within lo hi) :
    Spec (publishDrained last) s (ShownIn lo hi) fun _ s' =>
      Holds s' l ∧ s' = { s with durable := s.durable.after last } := by
  cases last with
  | none => exact Spec.pure ⟨h, rfl⟩
  | some q => exact sendReplace_spec h (hlast q rfl) hin

/-- The loop of `set_stalled(false)` writes the spilled frames in order, and comes
back with the last commit among them. -/
theorem drain_spec {fs : List Frame} :
    ∀ {s : FrameLog} {l : Layout} (last : Option (Nat × Nat)), Holds s l →
      Proper (l.frames ++ fs) → lo <+: l.durableFrames → l.frames ++ fs <+: hi →
      Spec (drain (fs.map encodeFrame) last) s (ShownIn lo hi) fun r s' =>
        r = (lastCommit fs).or last ∧
          ∃ l', Holds s' l' ∧ l'.frames = l.frames ++ fs ∧ l'.durableFrames = l.durableFrames ∧
            ∃ d n, s' = { s with dir := d, segmentLen := n } := by
  induction fs with
  | nil =>
    intro s l last h _ _ _
    exact Spec.pure ⟨by simp [lastCommit], l, h, by simp, rfl, _, _, rfl⟩
  | cons f fs ih =>
    intro s l last h hf hlo hhi
    have hcons : l.frames ++ f :: fs = l.frames ++ [f] ++ fs := by simp
    rw [hcons] at hf hhi
    have hin : (l.write f).Within lo hi :=
      ⟨hlo, by simpa using (List.prefix_append (l.frames ++ [f]) fs).trans hhi⟩
    refine Spec.bind (writeAll_spec h (hf.of_isPrefix (List.prefix_append _ _)) hin) ?_
    rintro _ _ ⟨h', d, n, rfl⟩
    refine Spec.mono (ih _ h' (by simpa using hf) hlo (by simpa using hhi)) (fun _ hv => hv) ?_
    rintro r _ ⟨hr, l', hold, hframes, hdurable, d', n', rfl⟩
    refine ⟨?_, l', hold, by simpa using hframes, by simpa using hdurable, d', n', rfl⟩
    rw [hr, commitOfEncoded_encodeFrame (hf.fits f (by simp)), lastCommit, Option.or_assoc]

end FrameLog

end GrayDB.Log
