import GrayDB.Lib.Guarded
import GrayDB.Log.Runs

/-!
# The order of the durable marks

`MarkState` is the part of a log that decides what is published: the mark, the pending
commit and the commits in the spill.  `MarkState.next` is what an operation does to
it, and `LogOp.marks_spec` says that the operation of the log does that, whatever
its files hold.

The three publishers do not look at each other.  A commit that is pending when
`set_stalled(false)` publishes a newer one from the spill stays pending, and
`flush_pending` then takes the mark back to it: `mark_goes_back`.  As long as
`flush_pending` does not find such a commit, the mark never goes back:
`mark_never_backwards`.
-/

namespace GrayDB.Log

open Lib Lib.Crash FrameLog

structure MarkState where
  nextSeq : Nat
  durable : DurableMark
  pending : Option (Nat × Nat)
  /-- The commits in the spill. -/
  spilled : List (Nat × Nat)
  stalled : Bool
  deriving DecidableEq, Repr

def FrameLog.marks (s : FrameLog) : MarkState :=
  { nextSeq := s.nextSeq
    durable := s.durable
    pending := s.pendingCommit
    spilled := s.spill.filterMap commitOfEncoded
    stalled := s.stalled }

namespace MarkState

/-- The frame of an append goes to the spill. -/
def divert (m : MarkState) (commit : Option (Nat × Nat)) : MarkState :=
  { m with nextSeq := m.nextSeq + 1, spilled := m.spilled ++ commit.toList }

/-- What an operation does.  `full` is whether a deferred commit finds the segment full. -/
def next (full : Bool) (m : MarkState) : LogOp → MarkState
  | .append _ lsnEnd txnComplete _ =>
    let commit := if txnComplete then some (m.nextSeq, lsnEnd.toNat) else none
    if m.stalled then m.divert commit
    else
      { m with
        nextSeq := m.nextSeq + 1
        durable := m.durable.after commit
        pending := if txnComplete then none else m.pending }
  | .appendDeferred _ lsnEnd txnComplete _ =>
    let commit := if txnComplete then some (m.nextSeq, lsnEnd.toNat) else none
    if m.stalled then m.divert commit
    else
      { m with
        nextSeq := m.nextSeq + 1
        durable := if full then m.durable.after commit else m.durable
        pending := if full then if txnComplete then none else m.pending else commit.or m.pending }
  | .flushPending => { m with durable := m.durable.after m.pending, pending := none }
  | .setStalled true => { m with stalled := true }
  | .setStalled false =>
    if m.stalled then
      { m with durable := m.durable.after m.spilled.getLast?, spilled := [], stalled := false }
    else m

end MarkState

/-! ## The operations of the log -/

/-- Another process sees the mark from before or the one from behind. -/
def Between (m m' : DurableMark) (t : FrameLog) : Prop := t.durable = m ∨ t.durable = m'

namespace FrameLog

theorem writeAll_marks (s : FrameLog) (encoded : Bytes) {m : DurableMark} :
    Spec (writeAll encoded) s (Between s.durable m) fun _ s' =>
      ∃ d, s' = { s with dir := d, segmentLen := s.segmentLen + encoded.length } :=
  Spec.bind_call (Or.inl rfl) (Spec.modify ⟨_, rfl⟩)

theorem syncAll_marks (s : FrameLog) (context : String) {m m' : DurableMark}
    (h : Between m m' s) :
    Spec (syncAll context) s (Between m m') fun _ s' => ∃ d, s' = { s with dir := d } :=
  Spec.call h ⟨_, rfl⟩

theorem rollIfFull_marks (s : FrameLog) {m m' : DurableMark} (h : Between m m' s) :
    Spec rollIfFull s (Between m m') fun _ s' =>
      ∃ d k n, s' = { s with dir := d, file := k, segmentLen := n } := by
  refine Spec.bind_get ?_
  split
  · exact Spec.bind_call h (Spec.modify ⟨_, _, _, rfl⟩)
  · exact Spec.pure ⟨_, _, _, rfl⟩

theorem writeDurable_marks (s : FrameLog) (seq lsnEnd : Nat) (txnComplete : Bool)
    (encoded : Bytes) :
    let m := s.durable.after (if txnComplete then some (seq, lsnEnd) else none)
    Spec (writeDurable seq lsnEnd txnComplete encoded) s (Between s.durable m) fun _ s' =>
      ∃ d k n, s' = { s with
        dir := d, file := k, segmentLen := n, durable := m
        pendingCommit := if txnComplete then none else s.pendingCommit } := by
  intro m
  refine Spec.bind (writeAll_marks s encoded) ?_
  rintro _ _ ⟨d, rfl⟩
  cases txnComplete with
  | false => exact Spec.pure ⟨_, _, _, rfl⟩
  | true =>
    simp only [if_true]
    refine Spec.bind_modify ?_
    refine Spec.bind (syncAll_marks _ _ (Or.inl rfl)) ?_
    rintro _ _ ⟨d, rfl⟩
    refine Spec.bind_modify ?_
    refine Spec.bind_publish (Or.inr rfl) ?_
    refine Spec.weaken (rollIfFull_marks _ (Or.inr rfl)) ?_
    rintro _ _ ⟨d, k, n, rfl⟩
    exact ⟨_, _, _, rfl⟩

theorem flushPending_marks (s : FrameLog) {m : DurableMark}
    (h : Between m (s.durable.after s.pendingCommit) s) :
    Spec flushPending s (Between m (s.durable.after s.pendingCommit)) fun _ s' =>
      ∃ d, s' = { s with
        dir := d, durable := s.durable.after s.pendingCommit, pendingCommit := none } := by
  refine Spec.bind_get (Spec.bind_modify ?_)
  cases hq : s.pendingCommit with
  | none => exact Spec.pure ⟨_, rfl⟩
  | some q =>
    rw [hq] at h
    refine Spec.bind (syncAll_marks _ _ h) ?_
    rintro _ _ ⟨d, rfl⟩
    exact Spec.publish (Or.inr rfl) ⟨_, rfl⟩

theorem writeDeferred_marks (s : FrameLog) (seq lsnEnd : Nat) (txnComplete : Bool)
    (encoded : Bytes) :
    let full := decide (s.segmentLen + encoded.length ≥ s.segmentMaxBytes)
    let commit := if txnComplete then some (seq, lsnEnd) else none
    let m := if full then s.durable.after commit else s.durable
    Spec (writeDeferred seq lsnEnd txnComplete encoded) s (Between s.durable m) fun _ s' =>
      ∃ d k n, s' = { s with
        dir := d, file := k, segmentLen := n, durable := m
        pendingCommit := if full then if txnComplete then none else s.pendingCommit
          else commit.or s.pendingCommit } := by
  intro full commit m
  cases txnComplete with
  | false =>
    have hm : m = s.durable := ite_self _
    refine Spec.bind (writeAll_marks s encoded) ?_
    rintro _ _ ⟨d, rfl⟩
    refine Spec.pure ⟨d, s.file, s.segmentLen + encoded.length, ?_⟩
    rw [hm]
    simp [commit]
  | true =>
    refine Spec.bind (writeAll_marks s encoded) ?_
    rintro _ _ ⟨d, rfl⟩
    simp only [if_true]
    refine Spec.bind_modify (Spec.bind_get ?_)
    by_cases hfull : s.segmentLen + encoded.length ≥ s.segmentMaxBytes
    · have hyes : full = true := by simpa [full] using hfull
      have hm : m = s.durable.after commit := if_pos hyes
      rw [if_pos hfull, hm, if_pos hyes]
      refine Spec.bind (flushPending_marks _ (Or.inl rfl)) ?_
      rintro _ _ ⟨d, rfl⟩
      exact Spec.bind_call (Or.inr rfl) (Spec.modify ⟨_, _, _, rfl⟩)
    · have hno : ¬ full = true := by simpa [full] using hfull
      have hm : m = s.durable := if_neg hno
      rw [if_neg hfull, hm, if_neg hno]
      exact Spec.pure ⟨_, _, _, rfl⟩

theorem divert_marks (s : FrameLog) (encoded : Bytes) {m : DurableMark} :
    Spec (divert encoded) s (Between s.durable m) fun _ s' =>
      ∃ d n b, s' = { s with
        dir := d, spillFile := b, spill := s.spill ++ [encoded], spilledFrames := n } := by
  have hopen : Spec ensureSpillFile s (Between s.durable m) fun _ s' =>
      ∃ d b, s' = { s with dir := d, spillFile := b } := by
    refine Spec.bind_get ?_
    split
    · exact Spec.call (Or.inl rfl) ⟨_, _, rfl⟩
    · exact Spec.pure ⟨_, _, rfl⟩
  refine Spec.bind hopen ?_
  rintro _ _ ⟨d, b, rfl⟩
  exact Spec.bind_call (Or.inl rfl) (Spec.modify ⟨_, _, _, rfl⟩)

theorem drain_marks {m : DurableMark} (es : List Bytes) :
    ∀ (s : FrameLog) (last : Option (Nat × Nat)),
      Spec (drain es last) s (Between s.durable m) fun r s' =>
        r = (es.filterMap commitOfEncoded).getLast?.or last ∧
          ∃ d n, s' = { s with dir := d, segmentLen := n } := by
  induction es with
  | nil => exact fun s last => Spec.pure ⟨rfl, _, _, rfl⟩
  | cons e es ih =>
    intro s last
    refine Spec.bind (writeAll_marks s e) ?_
    rintro _ _ ⟨d, rfl⟩
    refine Spec.weaken (ih _ _) ?_
    rintro _ _ ⟨rfl, d, n, rfl⟩
    refine ⟨?_, _, _, rfl⟩
    rw [List.filterMap_cons]
    cases commitOfEncoded e with
    | none => rfl
    | some q =>
      rw [List.getLast?_cons]
      cases (es.filterMap commitOfEncoded).getLast? <;> rfl

theorem takeSeq_marks (s : FrameLog) (h : s.nextSeq + 1 < 2 ^ 64) (txnComplete : Bool)
    {m : DurableMark} :
    Spec (takeSeq txnComplete) s (Between s.durable m) fun seq s' => seq = s.nextSeq ∧
      ∃ n k, s' = { s with
        nextSeq := s.nextSeq + 1, totalFrames := n, totalCommits := k } := by
  refine Spec.bind_get ?_
  rw [if_pos h]
  exact Spec.bind_modify (Spec.pure ⟨rfl, _, _, rfl⟩)

theorem setStalled_marks (s : FrameLog) (stalled : Bool) :
    let m := s.marks.next false (.setStalled stalled)
    Spec (setStalled stalled) s (Between s.durable m.durable) fun _ s' => s'.marks = m := by
  intro m
  refine Spec.bind_get ?_
  split
  · rename_i hsame
    refine Spec.pure ?_
    subst hsame
    cases hst : s.stalled <;> simp [m, MarkState.next, marks, hst]
  · rename_i hdiff
    cases stalled with
    | true =>
      rw [if_pos rfl]
      exact Spec.modify rfl
    | false =>
      have hst : s.stalled = true := by simpa using hdiff
      simp only [if_false, Bool.false_eq_true]
      have hm : m = { s.marks with
          durable := s.durable.after (s.spill.filterMap commitOfEncoded).getLast?
          spilled := [], stalled := false } := by
        simp [m, MarkState.next, marks, hst]
      refine Spec.bind_modify (Spec.bind (drain_marks _ _ none) ?_)
      rintro _ _ ⟨rfl, d, n, rfl⟩
      rw [Option.or_none]
      refine Spec.bind (syncAll_marks _ _ (Or.inl rfl)) ?_
      rintro _ _ ⟨d, rfl⟩
      have hpublish : ∀ (t : FrameLog) (last : Option (Nat × Nat)), t.durable = s.durable →
          m.durable = s.durable.after last →
          Spec (publishDrained last) t (Between s.durable m.durable) fun _ t' =>
            t' = { t with durable := m.durable } := by
        intro t last ht hlast
        cases last with
        | none =>
          have hm : m.durable = t.durable := hlast.trans ht.symm
          exact Spec.pure (by rw [hm])
        | some q =>
          have hmark : ({ seq := q.1, lsn := q.2, valid := true } : DurableMark) = m.durable :=
            hlast.symm
          show Spec (sendReplace q.1 q.2) t _ _
          unfold sendReplace
          rw [hmark]
          exact Spec.publish (Or.inr rfl) rfl
      refine Spec.bind (hpublish _ _ rfl (by rw [hm])) ?_
      rintro _ _ rfl
      refine Spec.bind_modify (Spec.bind_publish (Or.inr rfl) (Spec.bind_modify ?_))
      refine Spec.weaken (rollIfFull_marks _ (Or.inr rfl)) ?_
      rintro _ _ ⟨d, k, n, rfl⟩
      rw [hm]
      rfl

end FrameLog

variable [Crc32c]

/-- Whether an operation that defers a commit finds the segment full behind it. -/
def LogOp.full (s : FrameLog) : LogOp → Bool
  | .appendDeferred lsnStart lsnEnd txnComplete payload =>
    decide (s.segmentLen + (encodeFrame (s.nextFrame lsnStart lsnEnd txnComplete payload)).length
      ≥ s.segmentMaxBytes)
  | _ => false

/-- What a frame adds to the commits in the spill. -/
private theorem filterMap_snoc (es : List Bytes) {seq lsnStart lsnEnd : Nat} (txnComplete : Bool)
    (payload : Bytes) (hseq : seq < 2 ^ 64) (hstart : lsnStart < 2 ^ 64) (hend : lsnEnd < 2 ^ 64) :
    (es ++ [encodeFrame ⟨seq, lsnStart, lsnEnd, txnComplete, payload⟩]).filterMap FrameLog.commitOfEncoded
      = es.filterMap FrameLog.commitOfEncoded ++
        (if txnComplete then some (seq, lsnEnd) else none).toList := by
  have hcommit := commitOfEncoded_of_words
    (f := ⟨seq, lsnStart, lsnEnd, txnComplete, payload⟩) hseq hstart hend
  rw [List.filterMap_append, List.filterMap_cons, hcommit]
  unfold commitOf
  cases txnComplete <;> rfl

/-- A stalled log takes the frame of an append into its spill. -/
private theorem diverted_marks {s : FrameLog} (hseq : s.nextSeq < 2 ^ 64)
    (lsnStart lsnEnd : UInt64) (txnComplete : Bool) (payload : Bytes) {m : DurableMark} {n k : Nat} :
    Spec (divert (encodeFrame (s.nextFrame lsnStart lsnEnd txnComplete payload)))
      { s with nextSeq := s.nextSeq + 1, totalFrames := n, totalCommits := k } (Between s.durable m)
      fun _ s' => s'.marks
        = s.marks.divert (if txnComplete then some (s.nextSeq, lsnEnd.toNat) else none) := by
  refine Spec.weaken (divert_marks _ _) ?_
  rintro _ _ ⟨d, n', b, rfl⟩
  have hspill := filterMap_snoc s.spill txnComplete payload hseq
    lsnStart.toNat_lt lsnEnd.toNat_lt
  simp only [FrameLog.marks, MarkState.divert, ← hspill]
  rfl

/-- An operation does to the marks what `MarkState.next` says. -/
theorem LogOp.marks_spec {s : FrameLog} {op : LogOp} (hroom : op.HasRoom s) :
    let m := s.marks.next (op.full s) op
    Spec op.run s (Between s.durable m.durable) fun _ s' => s'.marks = m := by
  intro m
  cases op with
  | append lsnStart lsnEnd txnComplete payload =>
    refine Spec.bind (Q := fun _ (s' : FrameLog) => s'.marks = m) ?_ (fun _ _ h => Spec.pure h)
    refine Spec.bind (takeSeq_marks s hroom txnComplete) ?_
    rintro _ _ ⟨rfl, n, k, rfl⟩
    refine Spec.bind_get ?_
    by_cases hst : s.stalled = true
    · have hm : m = s.marks.divert (if txnComplete then some (s.nextSeq, lsnEnd.toNat) else none) :=
        if_pos hst
      rw [if_pos hst, hm]
      refine Spec.bind (diverted_marks (Nat.lt_of_succ_lt hroom) _ _ _ _) ?_
      exact fun _ _ h => Spec.pure h
    · have hm : m = _ := if_neg hst
      rw [if_neg hst, hm]
      refine Spec.bind (writeDurable_marks _ _ _ _ _) ?_
      rintro _ _ ⟨d, k, n', rfl⟩
      exact Spec.pure rfl
  | appendDeferred lsnStart lsnEnd txnComplete payload =>
    refine Spec.bind (Q := fun _ (s' : FrameLog) => s'.marks = m) ?_ (fun _ _ h => Spec.pure h)
    refine Spec.bind (takeSeq_marks s hroom txnComplete) ?_
    rintro _ _ ⟨rfl, n, k, rfl⟩
    refine Spec.bind_get ?_
    by_cases hst : s.stalled = true
    · have hm : m = s.marks.divert (if txnComplete then some (s.nextSeq, lsnEnd.toNat) else none) :=
        if_pos hst
      rw [if_pos hst, hm]
      refine Spec.bind (diverted_marks (Nat.lt_of_succ_lt hroom) _ _ _ _) ?_
      exact fun _ _ h => Spec.pure h
    · have hm : m = _ := if_neg hst
      rw [if_neg hst, hm]
      refine Spec.bind (writeDeferred_marks _ _ _ _ _) ?_
      rintro _ _ ⟨d, k, n', rfl⟩
      exact Spec.pure rfl
  | flushPending =>
    refine Spec.weaken (flushPending_marks s (Or.inl rfl)) ?_
    rintro _ _ ⟨d, rfl⟩
    rfl
  | setStalled stalled =>
    have hfull : m = s.marks.next false (.setStalled stalled) := rfl
    rw [hfull]
    exact setStalled_marks s stalled

/-! ## The invariant -/

instance : LE DurableMark := ⟨fun m m' => m.seq ≤ m'.seq ∧ m.lsn ≤ m'.lsn⟩

def DurableMark.commit (m : DurableMark) : Nat × Nat := (m.seq, m.lsn)

omit [Crc32c] in
@[simp] theorem DurableMark.after_none (m : DurableMark) : m.after none = m := rfl

omit [Crc32c] in
@[simp] theorem DurableMark.commit_after_some (m : DurableMark) (q : Nat × Nat) :
    (m.after (some q)).commit = q := rfl

/-- The commit that is published and those that are still due, except a pending one that
a drain has overtaken. -/
def MarkState.due (m : MarkState) (leftover : Bool) : List (Nat × Nat) :=
  m.durable.commit :: ((if leftover then [] else m.pending.toList) ++ m.spilled)

/-- What is due is in order, and not above the last frame and the last commit. -/
structure MarkInv (m : MarkState) (lastEnd : Nat) (leftover : Bool) : Prop where
  ascend : (m.due leftover).Pairwise (· ≤ ·)
  bound : ∀ q ∈ m.due leftover, q ≤ (m.nextSeq, lastEnd)
  unstalled : m.stalled = false → m.spilled = []

/-- Whether a commit is pending that a drain has overtaken: it stays so until a commit is
written to the files, or a flush takes it. -/
def LogOp.leaves (m : MarkState) (leftover : Bool) : LogOp → Bool
  | .setStalled false => leftover || m.stalled && m.pending.isSome && !m.spilled.isEmpty
  | .append _ _ txnComplete _ | .appendDeferred _ _ txnComplete _ =>
    leftover && (m.stalled || !txnComplete)
  | .flushPending => false
  | .setStalled true => leftover

/-- The `lsn_end` of the commit frame that an operation appends. -/
def LogOp.commitEnd : LogOp → Option Nat
  | .append _ lsnEnd txnComplete _ | .appendDeferred _ lsnEnd txnComplete _ =>
    if txnComplete then some lsnEnd.toNat else none
  | _ => none

namespace MarkInv

omit [Crc32c]

variable {m : MarkState} {lastEnd : Nat} {leftover : Bool}

/-- A frame that is no commit only takes a number. -/
theorem takeSeq (h : MarkInv m lastEnd leftover) :
    MarkInv { m with nextSeq := m.nextSeq + 1 } lastEnd leftover :=
  ⟨h.ascend, fun q hq => (h.bound q hq).trans ⟨Nat.le_succ _, Nat.le_refl _⟩, h.unstalled⟩

/-- The commit of the next frame is not below what is due. -/
theorem le_next (h : MarkInv m lastEnd leftover) {e : Nat} (he : lastEnd ≤ e) :
    ∀ q ∈ m.due leftover, q ≤ (m.nextSeq, e) :=
  fun q hq => (h.bound q hq).trans ⟨Nat.le_refl _, he⟩

theorem durable_le_next (h : MarkInv m lastEnd leftover) {e : Nat} (he : lastEnd ≤ e) :
    m.durable.commit ≤ (m.nextSeq, e) := h.le_next he _ List.mem_cons_self

/-- A commit that goes to the spill is the last one due. -/
theorem divert (h : MarkInv m lastEnd leftover) (hst : m.stalled = true) {e : Nat}
    (he : lastEnd ≤ e) : MarkInv (m.divert (some (m.nextSeq, e))) e leftover := by
  have hdue : (m.divert (some (m.nextSeq, e))).due leftover
      = m.due leftover ++ [(m.nextSeq, e)] := by
    simp [MarkState.due, MarkState.divert]
  refine ⟨?_, ?_, fun hfalse => absurd (hst.symm.trans hfalse) (by simp)⟩
  · rw [hdue, List.pairwise_append]
    refine ⟨h.ascend, List.pairwise_singleton _ _, fun q hq r hr => ?_⟩
    rw [List.mem_singleton.mp hr]
    exact h.le_next he q hq
  · rw [hdue]
    intro q hq
    rcases List.mem_append.mp hq with hq | hq
    · exact (h.le_next he q hq).trans ⟨Nat.le_succ _, Nat.le_refl _⟩
    · rw [List.mem_singleton.mp hq]
      exact ⟨Nat.le_succ _, Nat.le_refl _⟩

/-- A commit that is written and published is all that is due. -/
theorem publish (h : MarkInv m lastEnd leftover) (hst : m.stalled = false) (e : Nat) :
    MarkInv { m with
      nextSeq := m.nextSeq + 1, durable := m.durable.after (some (m.nextSeq, e)), pending := none }
      e false := by
  have hnil := h.unstalled hst
  refine ⟨?_, ?_, h.unstalled⟩
  · simp [MarkState.due, hnil]
  · intro q hq
    obtain rfl : q = (m.nextSeq, e) := by simpa [MarkState.due, hnil] using hq
    exact ⟨Nat.le_succ _, Nat.le_refl _⟩

/-- A commit that is written and deferred is due behind the published one. -/
theorem defer (h : MarkInv m lastEnd leftover) (hst : m.stalled = false) {e : Nat}
    (he : lastEnd ≤ e) :
    MarkInv { m with nextSeq := m.nextSeq + 1, pending := some (m.nextSeq, e) } e false := by
  have hnil := h.unstalled hst
  have hle := h.durable_le_next he
  have hdue : MarkState.due { m with nextSeq := m.nextSeq + 1, pending := some (m.nextSeq, e) } false
      = [m.durable.commit, (m.nextSeq, e)] := by
    simp [MarkState.due, hnil]
  refine ⟨?_, ?_, h.unstalled⟩
  · rw [hdue]
    simpa using hle
  · rw [hdue]
    have hnext : (m.nextSeq, e) ≤ (m.nextSeq + 1, e) := ⟨Nat.le_succ _, Nat.le_refl _⟩
    intro q hq
    rcases List.mem_pair.mp hq with rfl | rfl
    · exact hle.trans hnext
    · exact hnext

/-- The pending commit is published, when no drain has overtaken it. -/
theorem flush (h : MarkInv m lastEnd false) :
    MarkInv { m with durable := m.durable.after m.pending, pending := none } lastEnd false ∧
      m.durable ≤ m.durable.after m.pending := by
  cases hp : m.pending with
  | none =>
    refine ⟨⟨?_, ?_, h.unstalled⟩, Nat.le_refl _, Nat.le_refl _⟩
    · simpa [MarkState.due, hp] using h.ascend
    · simpa [MarkState.due, hp] using h.bound
  | some q =>
    have hascend := h.ascend
    have hbound := h.bound
    simp only [MarkState.due, hp, Bool.false_eq_true, if_false, Option.toList_some,
      List.singleton_append] at hascend hbound
    refine ⟨⟨?_, ?_, h.unstalled⟩, ?_⟩
    · exact hascend.of_cons
    · exact fun r hr => hbound r (List.mem_cons_of_mem _ hr)
    · exact List.rel_of_pairwise_cons hascend List.mem_cons_self

/-- The last commit in the spill is published. -/
theorem drain (h : MarkInv m lastEnd leftover) :
    MarkInv { m with
        durable := m.durable.after m.spilled.getLast?, spilled := [], stalled := false }
      lastEnd (leftover || m.pending.isSome && !m.spilled.isEmpty) ∧
      m.durable ≤ m.durable.after m.spilled.getLast? := by
  rcases List.eq_nil_or_concat m.spilled with hnil | ⟨qs, q, hqs⟩
  · refine ⟨⟨?_, ?_, fun _ => rfl⟩, ?_⟩
    · simpa [MarkState.due, hnil] using h.ascend
    · simpa [MarkState.due, hnil] using h.bound
    · rw [hnil]
      exact ⟨Nat.le_refl _, Nat.le_refl _⟩
  · have hmem : q ∈ (if leftover then [] else m.pending.toList) ++ m.spilled := by
      rw [hqs]
      simp
    have hlast : m.durable.after m.spilled.getLast? = ⟨q.1, q.2, true⟩ := by
      rw [hqs, List.concat_eq_append, List.getLast?_append]
      rfl
    have hdue : MarkState.due { m with durable := ⟨q.1, q.2, true⟩, spilled := [], stalled := false }
        (leftover || m.pending.isSome && !m.spilled.isEmpty) = [q] := by
      unfold MarkState.due
      rw [hqs]
      cases leftover <;> cases m.pending <;> simp [DurableMark.commit]
    rw [hlast]
    refine ⟨⟨?_, ?_, fun _ => rfl⟩, ?_⟩
    · rw [hdue]
      exact List.pairwise_singleton _ _
    · rw [hdue]
      intro r hr
      rw [List.mem_singleton.mp hr]
      exact h.bound q (List.mem_cons_of_mem _ hmem)
    · exact List.rel_of_pairwise_cons h.ascend hmem

/-- A frame that is no commit only takes a number. -/
private theorem next_of_no_commit (full : Bool) (lsnStart lsnEnd : UInt64) (payload : Bytes) :
    m.next full (.append lsnStart lsnEnd false payload) = { m with nextSeq := m.nextSeq + 1 } ∧
      m.next full (.appendDeferred lsnStart lsnEnd false payload)
        = { m with nextSeq := m.nextSeq + 1 } := by
  cases hst : m.stalled <;> cases full <;> simp [MarkState.next, MarkState.divert, hst]

/-- What an operation does to the invariant. -/
theorem next (h : MarkInv m lastEnd leftover) (full : Bool) {op : LogOp}
    (hflush : op = .flushPending → leftover = false) (he : ∀ e ∈ op.commitEnd, lastEnd ≤ e) :
    MarkInv (m.next full op) (op.commitEnd.getD lastEnd) (op.leaves m leftover) ∧
      m.durable ≤ (m.next full op).durable := by
  have hrefl : m.durable ≤ m.durable := ⟨Nat.le_refl _, Nat.le_refl _⟩
  cases op with
  | append lsnStart lsnEnd txnComplete payload =>
    cases txnComplete with
    | false =>
      rw [(next_of_no_commit full lsnStart lsnEnd payload).1]
      simpa [LogOp.leaves, LogOp.commitEnd] using ⟨h.takeSeq, hrefl⟩
    | true =>
      have hle : lastEnd ≤ lsnEnd.toNat := he _ rfl
      by_cases hst : m.stalled = true
      · simpa [MarkState.next, LogOp.leaves, LogOp.commitEnd, hst] using ⟨h.divert hst hle, hrefl⟩
      · have hnext : m.next full (.append lsnStart lsnEnd true payload) = _ := if_neg hst
        replace hst : m.stalled = false := by simpa using hst
        have hleaves : LogOp.leaves m leftover (.append lsnStart lsnEnd true payload) = false := by
          simp [LogOp.leaves, hst]
        rw [hnext, hleaves]
        exact ⟨h.publish hst lsnEnd.toNat, h.durable_le_next hle⟩
  | appendDeferred lsnStart lsnEnd txnComplete payload =>
    cases txnComplete with
    | false =>
      rw [(next_of_no_commit full lsnStart lsnEnd payload).2]
      simpa [LogOp.leaves, LogOp.commitEnd] using ⟨h.takeSeq, hrefl⟩
    | true =>
      have hle : lastEnd ≤ lsnEnd.toNat := he _ rfl
      by_cases hst : m.stalled = true
      · simpa [MarkState.next, LogOp.leaves, LogOp.commitEnd, hst] using ⟨h.divert hst hle, hrefl⟩
      · have hnext : m.next full (.appendDeferred lsnStart lsnEnd true payload) = _ := if_neg hst
        replace hst : m.stalled = false := by simpa using hst
        have hleaves :
            LogOp.leaves m leftover (.appendDeferred lsnStart lsnEnd true payload) = false := by
          simp [LogOp.leaves, hst]
        rw [hnext, hleaves]
        cases full with
        | true => exact ⟨h.publish hst lsnEnd.toNat, h.durable_le_next hle⟩
        | false => exact ⟨h.defer hst hle, hrefl⟩
  | flushPending =>
    obtain rfl := hflush rfl
    exact h.flush
  | setStalled stalled =>
    cases stalled with
    | true =>
      exact ⟨⟨h.ascend, h.bound, fun hfalse => absurd hfalse (by simp [MarkState.next])⟩, hrefl⟩
    | false =>
      by_cases hst : m.stalled = true
      · simpa [MarkState.next, LogOp.leaves, LogOp.commitEnd, hst] using h.drain
      · replace hst : m.stalled = false := by simpa using hst
        simpa [MarkState.next, LogOp.leaves, LogOp.commitEnd, hst] using ⟨h, hrefl⟩

end MarkInv

/-! ## Runs -/

/-- A log between two operations, with what its past says about the commits. -/
structure MarkSys where
  log : FrameLog
  /-- The `lsn_end` of the last commit frame. -/
  lastEnd : Nat
  /-- A commit is pending that is older than one that a drain has published. -/
  leftover : Bool

def MarkSys.Inv (σ : MarkSys) : Prop := MarkInv σ.log.marks σ.lastEnd σ.leftover

/-- A log that has just been opened; a resumed one has its last commit from its mark. -/
def MarkSys.start (s : FrameLog) : MarkSys := ⟨s, s.durable.lsn, false⟩

/-- An operation that returns.  A commit does not end below the one before it. -/
def MarkSys.step (op : LogOp) (σ : MarkSys) : Option MarkSys :=
  if op.commitEnd.all fun e => decide (σ.lastEnd ≤ e) then
    (op.run.outcome σ.log).map fun r =>
      { log := r.2
        lastEnd := op.commitEnd.getD σ.lastEnd
        leftover := op.leaves σ.log.marks σ.leftover }
  else none

def MarkStep (op : LogOp) (σ σ' : MarkSys) : Prop := σ.step op = some σ'

/-- A flush does not find a commit that a drain has overtaken. -/
def NoLeftover (op : LogOp) (σ : MarkSys) : Prop := op = .flushPending → σ.leftover = false

/-- What `create` or `resume` returns, whatever is on the disk. -/
def Opened (s : FrameLog) : Prop :=
  ∃ n disk disk', (create n).outcome disk = some (s, disk') ∨
    (resume n).outcome disk = some (s, disk')

omit [Crc32c] in
private theorem removeAll_returns (segs : List Nat) (disk : Disk) :
    Returns (removeAll segs) disk fun _ _ => True := by
  induction segs generalizing disk with
  | nil => exact Spec.pure trivial
  | cons seg segs ih => exact Spec.bind_call trivial (ih _)

omit [Crc32c] in
private theorem truncate_returns (segs : List Nat) (b : Option Boundary) (disk : Disk) :
    Returns (truncate segs b) disk fun r _ => r.2.seq ≤ r.1 := by
  cases b with
  | none =>
    refine Spec.bind (removeAll_returns segs disk) ?_
    exact fun _ _ _ => Spec.pure (Nat.le_refl 0)
  | some b =>
    refine Spec.bind_call trivial (Spec.bind_call trivial ?_)
    refine Spec.bind (removeAll_returns _ _) ?_
    exact fun _ _ _ => Spec.pure (Nat.le_succ b.seq)

/-- A log that has just been opened has nothing pending and nothing spilled. -/
theorem Opened.inv {s : FrameLog} (h : Opened s) : MarkInv s.marks s.durable.lsn false := by
  have hfields : s.durable.seq ≤ s.nextSeq ∧ s.pendingCommit = none ∧ s.spill = [] := by
    obtain ⟨n, disk, disk', hcreate | hresume⟩ := h
    · have hspec : Returns (create n) disk fun log _ =>
          log.durable.seq ≤ log.nextSeq ∧ log.pendingCommit = none ∧ log.spill = [] := by
        refine Spec.bind_publish trivial (Spec.bind_call trivial (Spec.bind_call trivial ?_))
        exact Spec.bind_get (Spec.pure ⟨Nat.le_refl 0, rfl, rfl⟩)
      exact hspec.of_outcome hcreate
    · cases disk with
      | none => simp [resume, IoM.outcome, IoM.exec, bind, IoM.bind, IoM.get, IoM.throw] at hresume
      | some dir =>
        have hspec : Returns (resume n) (some dir) fun log _ =>
            log.durable.seq ≤ log.nextSeq ∧ log.pendingCommit = none ∧ log.spill = [] := by
          refine Spec.bind_get (Spec.bind (truncate_returns _ _ _) ?_)
          intro r disk hr
          refine Spec.bind_publish trivial (Spec.bind_call trivial ?_)
          exact Spec.bind_get (Spec.pure ⟨hr, rfl, rfl⟩)
        exact hspec.of_outcome hresume
  obtain ⟨hle, hpending, hspill⟩ := hfields
  have hdue : s.marks.due false = [s.durable.commit] := by
    simp [MarkState.due, FrameLog.marks, hpending, hspill]
  refine ⟨?_, ?_, fun _ => ?_⟩
  · rw [hdue]
    exact List.pairwise_singleton _ _
  · rw [hdue]
    intro q hq
    rw [List.mem_singleton.mp hq]
    exact ⟨hle, Nat.le_refl _⟩
  · simp [FrameLog.marks, hspill]

/-- What a step does: the invariant holds behind it, and the mark is seen to advance. -/
theorem MarkStep.next {op : LogOp} {σ σ' : MarkSys}
    (h : σ.Inv) (hflush : NoLeftover op σ) (hstep : MarkStep op σ σ') :
    σ'.Inv ∧ σ.log.durable ≤ σ'.log.durable ∧
      ∀ t ∈ op.run.passes σ.log, σ.log.durable ≤ t.durable ∧ t.durable ≤ σ'.log.durable := by
  have hrefl : ∀ m : DurableMark, m ≤ m := fun m => ⟨Nat.le_refl _, Nat.le_refl _⟩
  unfold MarkStep MarkSys.step at hstep
  by_cases hends : (op.commitEnd.all fun e => decide (σ.lastEnd ≤ e)) = true
  · rw [if_pos hends] at hstep
    obtain ⟨⟨⟨⟩, s'⟩, hout, rfl⟩ := Option.map_eq_some_iff.mp hstep
    have hroom : op.HasRoom σ.log := by
      by_contra hno
      rw [(LogOp.no_room hno).1] at hout
      simp at hout
    have hspec := LogOp.marks_spec hroom
    have hmarks : s'.marks = _ := hspec.of_outcome hout
    have hends' : ∀ e ∈ op.commitEnd, σ.lastEnd ≤ e := by
      intro e he
      simpa using (Option.all_eq_true _ _).mp hends e he
    obtain ⟨hinv, hle⟩ := h.next (op.full σ.log) hflush hends'
    rw [← hmarks] at hinv hle
    refine ⟨hinv, hle, fun t ht => ?_⟩
    obtain ⟨_, _, -, -, hpasses⟩ := hspec.exec
    rcases hpasses t ht with heq | heq
    · rw [heq]
      exact ⟨hrefl _, hle⟩
    · rw [heq, ← hmarks]
      exact ⟨hle, hrefl _⟩
  · rw [if_neg hends] at hstep
    simp at hstep

/-- In every run from an opened log in which no flush finds a commit that a drain has
overtaken, the mark that is published never goes back, neither from one operation to a
later one nor inside of one. -/
theorem mark_never_backwards {s₀ : FrameLog} {σ σ' : MarkSys} (h₀ : Opened s₀)
    (h : GuardedRun MarkStep NoLeftover (.start s₀) σ) (h' : GuardedRun MarkStep NoLeftover σ σ') :
    σ.log.durable ≤ σ'.log.durable ∧
      ∀ op σ'', NoLeftover op σ' → MarkStep op σ' σ'' → ∀ t ∈ op.run.passes σ'.log,
        σ'.log.durable ≤ t.durable ∧ t.durable ≤ σ''.log.durable := by
  have hinv : σ.Inv := h.invariant (fun _ _ _ hg hstep hi => (hstep.next hi hg).1) h₀.inv
  have hrun : σ'.Inv ∧ σ.log.durable ≤ σ'.log.durable := by
    induction h' with
    | refl => exact ⟨hinv, Nat.le_refl _, Nat.le_refl _⟩
    | tail _ hlast ih =>
      obtain ⟨op, hg, hstep⟩ := hlast
      obtain ⟨hi, hle⟩ := ih
      obtain ⟨hi', hle', -⟩ := hstep.next hi hg
      exact ⟨hi', Nat.le_trans hle.1 hle'.1, Nat.le_trans hle.2 hle'.2⟩
  refine ⟨hrun.2, fun op σ'' hg hstep t ht => ?_⟩
  exact (hstep.next hrun.1 hg).2.2 t ht

/-- Steps one after the other, as far as they meet the condition. -/
def MarkSys.runAll (ops : List LogOp) (σ : MarkSys) : Option MarkSys :=
  ops.foldlM (fun σ op => if op = .flushPending ∧ σ.leftover then none else σ.step op) σ

theorem MarkSys.runAll_run {ops : List LogOp} {σ σ' : MarkSys} (h : σ.runAll ops = some σ') :
    GuardedRun MarkStep NoLeftover σ σ' := by
  refine GuardedRun.of_foldlM ?_ h
  intro σ op σ' hstep
  split at hstep
  · simp at hstep
  · rename_i hclean
    refine (GuardedRun.refl σ).tail (a := op) (fun hop => ?_) hstep
    simpa [hop] using hclean

omit [Crc32c] in
/-- A deferred commit is flushed before the log stalls. -/
theorem mark_never_backwards_stall : letI := castagnoli
    ∃ σ σ' : MarkSys, σ.log.durable = ⟨0, 10, true⟩ ∧ σ'.log.durable = ⟨1, 20, true⟩ ∧
      σ.log.durable ≤ σ'.log.durable := by
  let _ := castagnoli
  have hplay : (((MarkSys.start (emptyLog 1000)).runAll
      [.appendDeferred 1 10 true [], .flushPending]).any fun σ =>
        (σ.runAll [.setStalled true, .append 11 20 true [], .setStalled false]).any fun σ' =>
          decide (σ.log.durable = ⟨0, 10, true⟩ ∧ σ'.log.durable = ⟨1, 20, true⟩)) = true := by
    decide +kernel
  obtain ⟨σ, hσ, hplay⟩ := (Option.any_eq_true _ _).mp hplay
  obtain ⟨σ', hσ', hcheck⟩ := (Option.any_eq_true _ _).mp hplay
  obtain ⟨hmark, hmark'⟩ := of_decide_eq_true hcheck
  have h₀ : Opened (emptyLog 1000) := ⟨1000, none, _, Or.inl (create_outcome 1000)⟩
  exact ⟨σ, σ', hmark, hmark', (mark_never_backwards h₀ (MarkSys.runAll_run hσ)
    (MarkSys.runAll_run hσ')).1⟩

omit [Crc32c] in
/-- A deferred commit is pending while a newer one is drained; the flush behind the drain
takes the mark back to it. -/
theorem mark_goes_back : letI := castagnoli
    ∃ (s₀ : FrameLog) (σ σ' : MarkSys), Opened s₀ ∧ Run MarkStep (.start s₀) σ ∧
      Run MarkStep σ σ' ∧ σ.log.durable = ⟨1, 20, true⟩ ∧ σ'.log.durable = ⟨0, 10, true⟩ := by
  let _ := castagnoli
  have hplay : (((MarkSys.start (emptyLog 1000)).runAll
      [.appendDeferred 1 10 true [], .setStalled true, .appendDeferred 11 20 true [],
        .setStalled false]).any fun σ => (σ.step .flushPending).any fun σ' =>
          decide (σ.log.durable = ⟨1, 20, true⟩ ∧ σ'.log.durable = ⟨0, 10, true⟩)) = true := by
    decide +kernel
  obtain ⟨σ, hσ, hplay⟩ := (Option.any_eq_true _ _).mp hplay
  obtain ⟨σ', hσ', hcheck⟩ := (Option.any_eq_true _ _).mp hplay
  obtain ⟨hmark, hmark'⟩ := of_decide_eq_true hcheck
  have h₀ : Opened (emptyLog 1000) := ⟨1000, none, _, Or.inl (create_outcome 1000)⟩
  exact ⟨emptyLog 1000, σ, σ', h₀, (MarkSys.runAll_run hσ).run,
    (GuardedRun.refl σ).tail (a := .flushPending) trivial hσ', hmark, hmark'⟩

end GrayDB.Log
