import GrayDB.Log.Writes

/-!
# The operations of a frame log

`Rep s l spilled` is the invariant of a `FrameLog` between two operations: its
files are laid out as `l`, the frames in the spill are `spilled`, and the two
together are numbered `0, 1, 2, ..` up to `next_seq`.

Each operation has one spec, which says how the layout, the spill and the mark
move.  `append_spec` and `appendDeferred_spec` add one frame, to the files or to
the spill; `flushPending_rep` only publishes; `setStalled_spec` moves the spill to
the files.  `LogOp` is one operation with its arguments, and `LogOp.spec` is what
all of them have in common: the frames in the files only grow at the end.
-/

namespace GrayDB.Log

open Lib Lib.Crash FrameLog

variable [Crc32c]

/-- The invariant of a log between two operations. -/
structure Rep (s : FrameLog) (l : Layout) (spilled : List Frame) : Prop extends Holds s l where
  all : Proper (l.frames ++ spilled)
  nextSeq : s.nextSeq = (l.frames ++ spilled).length
  spill : s.spill = spilled.map encodeFrame
  unstalled : s.stalled = false → spilled = []
  pending : ∀ q ∈ s.pendingCommit, CommitAt l.frames q.1 q.2

/-- What the files hold of the frame, at each call of an append. -/
theorem Rep.within {s : FrameLog} {l : Layout} {spilled : List Frame} (h : Rep s l spilled)
    (f : Frame) : l.Within l.durableFrames (l.frames ++ spilled ++ [f]) ∧
      (s.stalled = false → (l.write f).Within l.durableFrames (l.frames ++ spilled ++ [f])) := by
  refine ⟨⟨List.prefix_rfl, ?_⟩, fun hst => ⟨by simp, ?_⟩⟩
  · rw [List.append_assoc]
    exact List.prefix_append _ _
  · simp [h.unstalled hst]

namespace FrameLog

variable {lo hi : List Frame}

/-! ## Writing one frame -/

/-- The eager path: a commit is synced and published before the call returns. -/
theorem writeDurable_spec {s : FrameLog} {l : Layout} {f : Frame} (h : Holds s l)
    (hf : Proper (l.frames ++ [f])) (hnext : s.nextSeq = l.frames.length + 1)
    (hin : (l.write f).Within lo hi) :
    Spec (writeDurable f.seq f.lsnEnd f.txnComplete (encodeFrame f)) s (ShownIn lo hi) fun _ s' =>
      ∃ l', Holds s' l' ∧ l'.frames = l.frames ++ [f] ∧ Grows l l' ∧
        ∃ d k n p, s' = { s with
          dir := d, file := k, segmentLen := n, pendingCommit := p
          durable := s.durable.after (commitOf f) } ∧ (p = none ∨ p = s.pendingCommit) := by
  refine Spec.bind (writeAll_spec h hf hin) ?_
  rintro _ _ ⟨h1, d, n, rfl⟩
  cases hc : f.txnComplete with
  | false =>
    refine Spec.pure ⟨_, h1, by simp, Grows.write l f, d, s.file, n, s.pendingCommit, ?_, Or.inr rfl⟩
    simp [commitOf, hc, DurableMark.after]
  | true =>
    simp only [if_true]
    refine Spec.bind_modify ?_
    refine Spec.bind (syncAll_spec (h1.congr rfl rfl rfl rfl) hin) ?_
    rintro _ _ ⟨h2, d2, rfl⟩
    refine Spec.bind_modify ?_
    have hcommit : CommitAt (l.write f).sync.durableFrames f.seq f.lsnEnd := by
      have hseq : f.seq = l.frames.length := hf.getElem?_seq
      rw [hseq]
      simpa using CommitAt.snoc hc
    refine Spec.bind (sendReplace_spec (h2.congr rfl rfl rfl rfl) hcommit hin.sync) ?_
    rintro _ _ ⟨h3, rfl⟩
    refine Spec.mono (rollIfFull_spec h3 rfl (by simpa using hnext) hin.sync) (fun _ hv => hv) ?_
    rintro _ _ ⟨l', h4, hframes, hdurable, d4, k, n4, rfl⟩
    refine ⟨l', h4, by simpa using hframes, ?_, d4, k, n4, none, ?_, Or.inl rfl⟩
    · exact ((Grows.write l f).trans (Grows.sync _)).trans (Grows.of_eq hframes hdurable)
    · simp [commitOf, hc, DurableMark.after]

/-- The deferred path: a commit stays pending, or is published when the segment
is full. -/
theorem writeDeferred_spec {s : FrameLog} {l : Layout} {f : Frame} (h : Holds s l)
    (hf : Proper (l.frames ++ [f])) (hnext : s.nextSeq = l.frames.length + 1)
    (hin : (l.write f).Within lo hi) :
    Spec (writeDeferred f.seq f.lsnEnd f.txnComplete (encodeFrame f)) s (ShownIn lo hi) fun _ s' =>
      ∃ l', Holds s' l' ∧ l'.frames = l.frames ++ [f] ∧ Grows l l' ∧
        ∃ d k n p m, s' = { s with
          dir := d, file := k, segmentLen := n, pendingCommit := p, durable := m } ∧
          (p = none ∨ p = s.pendingCommit ∨ p = commitOf f) ∧
          (m = s.durable ∨ m = s.durable.after (commitOf f)) := by
  refine Spec.bind (writeAll_spec h hf hin) ?_
  rintro _ _ ⟨h1, d, n, rfl⟩
  cases hc : f.txnComplete with
  | false =>
    exact Spec.pure ⟨_, h1, by simp, Grows.write l f, d, s.file, n, s.pendingCommit, s.durable,
      rfl, Or.inr (Or.inl rfl), Or.inl rfl⟩
  | true =>
    have hcommit : CommitAt (l.frames ++ [f]) f.seq f.lsnEnd := hf.commitAt (by simp) hc
    simp only [if_true]
    refine Spec.bind_modify (Spec.bind_get ?_)
    split
    · refine Spec.bind (flushPending_spec (h1.congr rfl rfl rfl rfl) ?_ hin) ?_
      · rintro q ⟨⟩
        simpa using hcommit
      rintro _ _ ⟨h2, d2, rfl⟩
      refine Spec.mono (rollSegment_spec h2 rfl (by simpa using hnext) hin.sync) (fun _ hv => hv) ?_
      rintro _ _ ⟨h3, d3, rfl⟩
      refine ⟨_, h3, by simp, ?_, d3, s.nextSeq, 0, none, _, rfl, Or.inl rfl, Or.inr ?_⟩
      · exact ((Grows.write l f).trans (Grows.sync _)).trans
          (Grows.of_eq (by simp) (Layout.durableFrames_roll rfl))
      · simp [commitOf, hc, DurableMark.after]
    · refine Spec.pure ⟨_, h1.congr rfl rfl rfl rfl, by simp, Grows.write l f, d, s.file, n,
        some (f.seq, f.lsnEnd), s.durable, rfl, Or.inr (Or.inr ?_), Or.inl rfl⟩
      rw [commitOf, if_pos hc]

/-! ## The operations -/

omit [Crc32c] in
theorem takeSeq_spec {s : FrameLog} {V : FrameLog → Prop} (h : s.nextSeq + 1 < 2 ^ 64)
    (txnComplete : Bool) : Spec (takeSeq txnComplete) s V fun seq s' => seq = s.nextSeq ∧
      ∃ n m, s' = { s with
        nextSeq := s.nextSeq + 1, totalFrames := n, totalCommits := m } := by
  refine Spec.bind_get ?_
  rw [if_pos h]
  exact Spec.bind_modify (Spec.pure ⟨rfl, _, _, rfl⟩)

/-- A stalled log takes the frame into its spill and leaves its files alone. -/
private theorem divert_rep {s : FrameLog} {l : Layout} {spilled : List Frame}
    (h : Rep s l spilled) (hst : s.stalled = true) {f : Frame}
    (hf : Proper (l.frames ++ spilled ++ [f])) (hin : l.Within lo hi) {n m : Nat} :
    Spec (divert (encodeFrame f))
      { s with nextSeq := s.nextSeq + 1, totalFrames := n, totalCommits := m } (ShownIn lo hi)
      fun _ s' => Rep s' l (spilled ++ [f]) ∧ s'.stalled = true ∧ s'.durable = s.durable := by
  refine Spec.mono (divert_spec (h.toHolds.congr rfl rfl rfl rfl) hin) (fun _ hv => hv) ?_
  rintro _ _ ⟨h', d, rfl⟩
  refine ⟨⟨h', by simpa using hf, ?_, ?_, ?_, h.pending⟩, hst, rfl⟩
  · simp [h.nextSeq, Nat.add_assoc]
  · simp [h.spill]
  · intro hfalse
    exact absurd (hst.symm.trans hfalse) (by simp)

/-- What `append` and `append_deferred` do with a frame: to the spill while the log
is stalled, else to the files. -/
def Added (s : FrameLog) (l : Layout) (spilled : List Frame) (f : Frame) (s' : FrameLog)
    (l' : Layout) (spilled' : List Frame) : Prop :=
  s'.stalled = s.stalled ∧ Grows l l' ∧
    if s.stalled then l' = l ∧ spilled' = spilled ++ [f] ∧ s'.durable = s.durable
    else l'.frames = l.frames ++ [f] ∧ spilled' = []

/-- The frame that an append with these arguments makes. -/
def nextFrame (s : FrameLog) (lsnStart lsnEnd : UInt64) (txnComplete : Bool) (payload : Bytes) :
    Frame :=
  { seq := s.nextSeq, lsnStart := lsnStart.toNat, lsnEnd := lsnEnd.toNat, txnComplete, payload }

theorem nextFrame_proper {s : FrameLog} {l : Layout} {spilled : List Frame} (h : Rep s l spilled)
    (hlt : s.nextSeq + 1 < 2 ^ 64) {lsnStart lsnEnd : UInt64} {txnComplete : Bool}
    {payload : Bytes} (hp : payload.length < 2 ^ 32) :
    Proper (l.frames ++ spilled ++ [s.nextFrame lsnStart lsnEnd txnComplete payload]) :=
  h.all.snoc h.nextSeq ⟨Nat.lt_of_succ_lt hlt, lsnStart.toNat_lt, lsnEnd.toNat_lt, hp⟩
    (h.nextSeq ▸ hlt)

theorem append_within {s : FrameLog} {l : Layout} {spilled : List Frame} (h : Rep s l spilled)
    (hlt : s.nextSeq + 1 < 2 ^ 64) {lsnStart lsnEnd : UInt64} {txnComplete : Bool}
    {payload : Bytes} (hp : payload.length < 2 ^ 32) :
    Spec (append lsnStart lsnEnd txnComplete payload) s
      (ShownIn l.durableFrames
        (l.frames ++ spilled ++ [s.nextFrame lsnStart lsnEnd txnComplete payload])) fun seq s' => seq = s.nextSeq ∧
      ∃ l' spilled', Rep s' l' spilled' ∧
        Added s l spilled (s.nextFrame lsnStart lsnEnd txnComplete payload) s' l' spilled' ∧
        (s.stalled = false → s'.durable =
          s.durable.after (commitOf (s.nextFrame lsnStart lsnEnd txnComplete payload))) := by
  have hf : Proper (l.frames ++ spilled ++ [s.nextFrame lsnStart lsnEnd txnComplete payload]) :=
    nextFrame_proper h hlt hp
  refine Spec.bind (takeSeq_spec hlt txnComplete) ?_
  rintro _ _ ⟨rfl, n, m, rfl⟩
  refine Spec.bind_get ?_
  split
  · rename_i hst
    replace hst : s.stalled = true := hst
    refine Spec.bind (divert_rep h hst hf (h.within _).1) ?_
    rintro _ s' ⟨hrep, hst', hmark⟩
    exact Spec.pure ⟨rfl, l, _, hrep, ⟨hst'.trans hst.symm, Grows.refl l,
      by rw [if_pos hst]; exact ⟨rfl, rfl, hmark⟩⟩, by simp [hst]⟩
  · rename_i hst
    replace hst : s.stalled = false := by simpa using hst
    have hin := (h.within (s.nextFrame lsnStart lsnEnd txnComplete payload)).2 hst
    obtain rfl := h.unstalled hst
    rw [List.append_nil] at hf
    refine Spec.bind (writeDurable_spec (h.toHolds.congr rfl rfl rfl rfl) hf ?_ hin) ?_
    · simp [h.nextSeq]
    rintro _ _ ⟨l', hold, hframes, hgrows, d, k, n', p, rfl, hpend⟩
    refine Spec.pure ⟨rfl, l', [], ⟨hold, ?_, ?_, h.spill, fun _ => rfl, ?_⟩,
      ⟨rfl, hgrows, by rw [if_neg (by simp [hst])]; exact ⟨hframes, rfl⟩⟩, fun _ => rfl⟩
    · rw [List.append_nil, hframes]
      exact hf
    · simp [hframes, h.nextSeq]
    · intro q hq
      rcases hpend with rfl | rfl
      · exact absurd hq (by simp)
      · exact (h.pending q hq).mono hgrows.frames

/-- The same, when only the state of the files matters. -/
theorem append_spec {s : FrameLog} {l : Layout} {spilled : List Frame} (h : Rep s l spilled)
    (hlt : s.nextSeq + 1 < 2 ^ 64) {lsnStart lsnEnd : UInt64} {txnComplete : Bool}
    {payload : Bytes} (hp : payload.length < 2 ^ 32) :
    Spec (append lsnStart lsnEnd txnComplete payload) s Shown fun seq s' => seq = s.nextSeq ∧
      ∃ l' spilled', Rep s' l' spilled' ∧
        Added s l spilled (s.nextFrame lsnStart lsnEnd txnComplete payload) s' l' spilled' ∧
        (s.stalled = false → s'.durable =
          s.durable.after (commitOf (s.nextFrame lsnStart lsnEnd txnComplete payload))) :=
  (append_within h hlt hp).mono (fun _ => ShownIn.shown) fun _ _ hr => hr

theorem appendDeferred_spec {s : FrameLog} {l : Layout} {spilled : List Frame}
    (h : Rep s l spilled) (hlt : s.nextSeq + 1 < 2 ^ 64) {lsnStart lsnEnd : UInt64}
    {txnComplete : Bool} {payload : Bytes} (hp : payload.length < 2 ^ 32) :
    Spec (appendDeferred lsnStart lsnEnd txnComplete payload) s Shown fun seq s' =>
      seq = s.nextSeq ∧ ∃ l' spilled', Rep s' l' spilled' ∧
        Added s l spilled (s.nextFrame lsnStart lsnEnd txnComplete payload) s' l' spilled' := by
  have hf : Proper (l.frames ++ spilled ++ [s.nextFrame lsnStart lsnEnd txnComplete payload]) :=
    nextFrame_proper h hlt hp
  refine Spec.mono (V := ShownIn l.durableFrames
    (l.frames ++ spilled ++ [s.nextFrame lsnStart lsnEnd txnComplete payload])) ?_
    (fun _ => ShownIn.shown) fun _ _ hr => hr
  refine Spec.bind (takeSeq_spec hlt txnComplete) ?_
  rintro _ _ ⟨rfl, n, m, rfl⟩
  refine Spec.bind_get ?_
  split
  · rename_i hst
    replace hst : s.stalled = true := hst
    refine Spec.bind (divert_rep h hst hf (h.within _).1) ?_
    rintro _ s' ⟨hrep, hst', hmark⟩
    exact Spec.pure ⟨rfl, l, _, hrep, hst'.trans hst.symm, Grows.refl l,
      by rw [if_pos hst]; exact ⟨rfl, rfl, hmark⟩⟩
  · rename_i hst
    replace hst : s.stalled = false := by simpa using hst
    have hin := (h.within (s.nextFrame lsnStart lsnEnd txnComplete payload)).2 hst
    obtain rfl := h.unstalled hst
    rw [List.append_nil] at hf
    refine Spec.bind (writeDeferred_spec (h.toHolds.congr rfl rfl rfl rfl) hf ?_ hin) ?_
    · simp [h.nextSeq]
    rintro _ _ ⟨l', hold, hframes, hgrows, d, k, n', p, mark, rfl, hpend, -⟩
    refine Spec.pure ⟨rfl, l', [], ⟨hold, ?_, ?_, h.spill, fun _ => rfl, ?_⟩,
      ⟨rfl, hgrows, by rw [if_neg (by simp [hst])]; exact ⟨hframes, rfl⟩⟩⟩
    · rw [List.append_nil, hframes]
      exact hf
    · simp [hframes, h.nextSeq]
    · intro q hq
      rcases hpend with rfl | rfl | rfl
      · exact absurd hq (by simp)
      · exact (h.pending q hq).mono hgrows.frames
      · rw [hframes]
        exact hf.commitAt_of_commitOf (by simp [nextFrame]) hq

theorem flushPending_rep {s : FrameLog} {l : Layout} {spilled : List Frame}
    (h : Rep s l spilled) :
    Spec flushPending s Shown fun _ s' =>
      ∃ l', Rep s' l' spilled ∧ s'.stalled = s.stalled ∧ Grows l l' ∧ l'.frames = l.frames := by
  have hin : l.Within [] l.frames := ⟨List.nil_prefix, List.prefix_rfl⟩
  refine Spec.mono (flushPending_spec h.toHolds h.pending hin) (fun _ => ShownIn.shown) ?_
  rintro _ _ ⟨hold, d, rfl⟩
  have hframes : (if s.pendingCommit.isSome then l.sync else l).frames = l.frames := by
    split <;> simp
  refine ⟨_, ⟨hold, by simpa [hframes] using h.all, by simpa [hframes] using h.nextSeq,
    h.spill, h.unstalled, by simp⟩, rfl, ?_, hframes⟩
  split
  · exact Grows.sync l
  · exact Grows.refl l

/-- Leaving the stall moves the spill to the files, and the mark past its commits. -/
theorem setStalled_within {s : FrameLog} {l : Layout} {spilled : List Frame}
    (h : Rep s l spilled) (stalled : Bool) :
    Spec (setStalled stalled) s (ShownIn l.durableFrames (l.frames ++ spilled)) fun _ s' =>
      ∃ l' spilled', Rep s' l' spilled' ∧ s'.stalled = stalled ∧ Grows l l' ∧
        l'.frames ++ spilled' = l.frames ++ spilled ∧
        if stalled then l' = l ∧ s'.durable = s.durable
        else spilled' = [] ∧ s'.durable = s.durable.after (lastCommit spilled) := by
  refine Spec.bind_get ?_
  split
  · rename_i hsame
    subst hsame
    refine Spec.pure ⟨l, spilled, h, rfl, Grows.refl l, rfl, ?_⟩
    split
    · exact ⟨rfl, rfl⟩
    · rename_i hst
      obtain rfl := h.unstalled (by simpa using hst)
      exact ⟨rfl, rfl⟩
  · rename_i hdiff
    cases stalled with
    | true =>
      simp only [if_true]
      exact Spec.modify ⟨l, spilled, ⟨h.toHolds.congr rfl rfl rfl rfl, h.all, h.nextSeq,
        h.spill, by simp, h.pending⟩, rfl, Grows.refl l, rfl, rfl, rfl⟩
    | false =>
      simp only [if_false, Bool.false_eq_true]
      refine Spec.bind_modify ?_
      rw [h.spill]
      refine Spec.bind (drain_spec none (h.toHolds.congr rfl rfl rfl rfl) h.all List.prefix_rfl
        List.prefix_rfl) ?_
      rintro _ _ ⟨rfl, l1, h1, hframes, hdurable, d1, n1, rfl⟩
      have hin : l1.Within l.durableFrames (l.frames ++ spilled) :=
        ⟨by rw [hdurable], by rw [hframes]⟩
      refine Spec.bind (syncAll_spec h1 hin) ?_
      rintro _ _ ⟨h2, d2, rfl⟩
      rw [Option.or_none]
      dsimp only at h2 ⊢
      have hall : l1.sync.frames = l.frames ++ spilled := by simpa using hframes
      have hlast : ∀ q ∈ lastCommit spilled, CommitAt l1.sync.durableFrames q.1 q.2 := by
        intro q hq
        obtain ⟨f, hf, hc, rfl⟩ := exists_of_lastCommit hq
        rw [Layout.durableFrames_sync, hframes]
        exact h.all.commitAt (List.mem_append_right _ hf) hc
      refine Spec.bind (publishDrained_spec h2 hlast hin.sync) ?_
      rintro _ _ ⟨h3, rfl⟩
      refine Spec.bind_modify ?_
      refine Spec.bind_publish (h3.shown_congr hin.sync rfl rfl) ?_
      refine Spec.bind_modify ?_
      dsimp only at h3 ⊢
      refine Spec.mono (rollIfFull_spec (h3.congr rfl rfl rfl rfl) rfl ?_ hin.sync) (fun _ hv => hv) ?_
      · rw [hall]
        exact h.nextSeq
      rintro _ _ ⟨l4, h4, hframes4, hdurable4, d4, k4, n4, rfl⟩
      rw [hall] at hframes4
      refine ⟨l4, [], ⟨h4, by simpa [hframes4] using h.all, by simpa [hframes4] using h.nextSeq,
        rfl, fun _ => rfl, ?_⟩, rfl, ?_, by simp [hframes4], rfl, rfl⟩
      · intro q hq
        rw [hframes4]
        exact (h.pending q hq).mono (List.prefix_append _ _)
      · refine ⟨by simp [hframes4], ?_⟩
        rw [hdurable4, Layout.durableFrames_sync, hframes]
        exact l.durableFrames_isPrefix.trans (List.prefix_append _ _)

/-- The same, when only the state of the files matters. -/
theorem setStalled_spec {s : FrameLog} {l : Layout} {spilled : List Frame}
    (h : Rep s l spilled) (stalled : Bool) :
    Spec (setStalled stalled) s Shown fun _ s' =>
      ∃ l' spilled', Rep s' l' spilled' ∧ s'.stalled = stalled ∧ Grows l l' ∧
        l'.frames ++ spilled' = l.frames ++ spilled ∧
        if stalled then l' = l ∧ s'.durable = s.durable
        else spilled' = [] ∧ s'.durable = s.durable.after (lastCommit spilled) :=
  (setStalled_within h stalled).mono (fun _ => ShownIn.shown) fun _ _ hr => hr

end FrameLog

end GrayDB.Log
