import GrayDB.Studio.ApplyLoop

/-!
# The watermark of the apply loop

`applied_lsn` says how far the shapes are, and a strong read waits until it has reached
the durable mark of the log.  A tick consumes the frames that are new, and so the commits
in them, but raises `applied_lsn` only when one of the transactions has a row change.

* `Watched.tick` is one tick, with the last commit that the pipeline has consumed.
* `Complete` is what a tick that returns owes: `applied_lsn` is at the last commit, and a
  strong read need not wait longer for it.
* `ticks_complete_iff` is the result, for the ticks of any run.
-/

namespace GrayDB.Studio

open Lib Lib.Crash Log Registry Columnar Search

/-! ## What a feed consumes -/

/-- The transactions whose commit is consumed, up to the first frame that is refused. -/
def consumed (d : StreamDecoder) : List Frame → List DecodedTxn
  | [] => []
  | frame :: frames =>
    match d.feedFrame frame with
    | (.error _, _) => []
    | (.ok t, d) => t.toList ++ consumed d frames

theorem consumed_of_accepts {frames : List Frame} :
    ∀ {d : StreamDecoder}, d.AcceptsAll frames → consumed d frames = d.txnsOf frames := by
  induction frames with
  | nil => exact fun _ => rfl
  | cons frame frames ih =>
    intro d h
    rw [consumed, StreamDecoder.feedFrame_of_accepts h.1, StreamDecoder.txnsOf, ← ih h.2]

/-- The batch of a feed that returns holds all that is consumed. -/
theorem feed_ok {d d' : StreamDecoder} {frames : List Frame} {out : DecodedBatch}
    (h : d.feed frames = (.ok out, d')) :
    out.changes = (consumed d frames).flatMap DecodedTxn.changes ∧
      out.lastCommitLsn = lastEnd (consumed d frames) := by
  by_cases haccepts : d.AcceptsAll frames
  · rw [StreamDecoder.feed_of_accepts haccepts] at h
    obtain ⟨hout, -⟩ := Prod.mk.inj h
    rw [← Except.ok.inj hout, consumed_of_accepts haccepts]
    have hchanges := DecodedBatch.changes_foldl_add (d.txnsOf frames)
      { firstChangeIndex := d.changeCounter }
    have hlast := DecodedBatch.lastCommitLsn_foldl_add (d.txnsOf frames)
      { firstChangeIndex := d.changeCounter }
    exact ⟨by simpa using hchanges, hlast⟩
  · obtain ⟨e, he⟩ := StreamDecoder.feed_of_not_accepts haccepts
    rw [h] at he
    exact nomatch he

variable {W : Type}

section Tick

variable [FloatText] [IndexWriter W]

/-! ## What a tick does to the watermark -/

omit [IndexWriter W] in
theorem applyColumnar_leaves (c : TypedChange) :
    Leaves Pipeline.appliedLsn (applyColumnar c : TickM W Unit) := by
  refine .bind_get fun p => ?_
  cases p.columnar.lookup c.table with
  | none => exact .pure
  | some store => exact .embed fun _ _ => rfl

omit [FloatText] in
theorem applySearch_leaves (c : TypedChange) (i : Nat) :
    Leaves Pipeline.appliedLsn (applySearch c i : TickM W Bool) := by
  refine .bind_get fun p => ?_
  cases p.search.lookup c.table with
  | none => exact .pure
  | some store => exact .bind (.embed fun _ _ => rfl) fun _ => .pure

theorem applyChanges_leaves (cs : List TypedChange) :
    ∀ i, Leaves Pipeline.appliedLsn (applyChanges i cs : TickM W Bool) := by
  induction cs with
  | nil => exact fun _ => .pure
  | cons c cs ih =>
    intro i
    have hchange : Leaves Pipeline.appliedLsn (applyChange c i : TickM W Bool) :=
      .bind (applyColumnar_leaves c) fun _ => applySearch_leaves c i
    exact .bind hchange fun _ => .bind (ih (i + 1)) fun _ => .pure

omit [FloatText] in
theorem commitAll_leaves (lsn : Nat) (tables : List String) :
    Leaves Pipeline.appliedLsn (commitAll lsn tables : TickM W Unit) := by
  induction tables with
  | nil => exact .pure
  | cons table tables ih =>
    refine .bind_get fun p => ?_
    cases p.search.lookup table with
    | none => exact ih
    | some store => exact .bind (.embed fun _ _ => rfl) fun _ => ih

omit [FloatText] in
theorem commitTouched_leaves (touched : Bool) :
    Leaves Pipeline.appliedLsn (commitTouched touched : TickM W Unit) := by
  refine .bind_get fun p => ?_
  cases touched with
  | false => exact .pure
  | true => exact commitAll_leaves _ _

theorem materialize_appliedLsn {decoded : DecodedBatch} {r r' : Flight (Pipeline W)}
    (h : materialize decoded r = (.ok (), r')) :
    r'.state.appliedLsn = max decoded.lastCommitLsn r.state.appliedLsn := by
  obtain ⟨touched, r₁, hchanges, h⟩ := IoM.bind_ok_iff.mp h
  obtain ⟨_, r₂, hraise, hcommit⟩ := IoM.bind_ok_iff.mp h
  have happlied := applyChanges_leaves decoded.changes decoded.firstChangeIndex r
  have hleft := commitTouched_leaves touched r₂
  rw [hchanges] at happlied
  rw [hcommit] at hleft
  obtain ⟨-, rfl⟩ := Prod.mk.inj hraise
  rw [hleft, ← happlied]

theorem feedBatch_appliedLsn {frames : List Frame} {r r' : Flight (Pipeline W)}
    (h : feedBatch frames r = (.ok (), r')) :
    r'.state.appliedLsn =
      if (consumed r.state.decoder frames).flatMap DecodedTxn.changes = [] then r.state.appliedLsn
      else max (lastEnd (consumed r.state.decoder frames)) r.state.appliedLsn := by
  obtain ⟨_, _, hget, h⟩ := IoM.bind_ok_iff.mp h
  obtain ⟨rfl, rfl⟩ := hget
  rcases hfeed : r.state.decoder.feed frames with ⟨e | decoded, decoder⟩
  · simp only [hfeed] at h
    obtain ⟨_, _, -, h⟩ := IoM.bind_ok_iff.mp h
    exact nomatch (Prod.mk.inj h).1
  · simp only [hfeed] at h
    obtain ⟨hchanges, hlast⟩ := feed_ok hfeed
    obtain ⟨_, r₁, hset, h⟩ := IoM.bind_ok_iff.mp h
    obtain ⟨-, rfl⟩ := Prod.mk.inj hset
    rw [← hchanges, ← hlast]
    by_cases hempty : decoded.changes = []
    · rw [if_pos (by rw [hempty]; rfl)] at h
      rw [if_pos hempty]
      obtain ⟨-, rfl⟩ := Prod.mk.inj h
      rfl
    · rw [if_neg (by simpa using hempty)] at h
      rw [if_neg hempty]
      have hraised := materialize_appliedLsn h
      exact hraised

theorem applyBatch_appliedLsn {batch : TailBatch} {r r' : Flight (Pipeline W)}
    (h : applyBatch batch r = (.ok (), r')) :
    let new := consumed (r.state.aborted batch.rewound).decoder batch.frames
    r'.state.appliedLsn = if new.flatMap DecodedTxn.changes = [] then r.state.appliedLsn
      else max (lastEnd new) r.state.appliedLsn := by
  intro new
  obtain ⟨_, r₁, habort, h⟩ := IoM.bind_ok_iff.mp h
  have hstate : r₁.state = r.state.aborted batch.rewound := by
    unfold abortIfRewound at habort
    unfold Pipeline.aborted
    split at habort
    · obtain ⟨-, rfl⟩ := Prod.mk.inj habort
      rw [if_pos ‹_›]
    · obtain ⟨-, rfl⟩ := Prod.mk.inj habort
      rw [if_neg ‹_›]
  have happlied : r₁.state.appliedLsn = r.state.appliedLsn := by
    rw [hstate]
    unfold Pipeline.aborted
    split
    · rfl
    · rfl
  by_cases hempty : batch.frames = []
  · rw [if_pos (by rw [hempty]; rfl)] at h
    obtain ⟨-, rfl⟩ := Prod.mk.inj h
    have hnew : new = [] := by
      show consumed _ batch.frames = []
      rw [hempty]
      rfl
    rw [hnew]
    exact happlied
  · rw [if_neg (by simpa using hempty)] at h
    have hfed := feedBatch_appliedLsn h
    rw [hstate] at hfed
    rw [hfed, ← hstate, happlied, hstate]

variable [Crc32c]

/-- The transactions whose commit a tick consumes. -/
def Pipeline.newTxns (p : Pipeline W) (log : Dir) : List DecodedTxn :=
  match p.tail.readNew log with
  | (.error _, _) => []
  | (.ok batch, tail) => consumed ({ p with tail }.aborted batch.rewound).decoder batch.frames

/-- A tick that returns raises the watermark when a row changes. -/
theorem applyNewFrames_appliedLsn {log : Dir} {r r' : Flight (Pipeline W)}
    (h : applyNewFrames log r = (.ok (), r')) :
    r'.state.appliedLsn =
      if (r.state.newTxns log).flatMap DecodedTxn.changes = [] then r.state.appliedLsn
      else max (lastEnd (r.state.newTxns log)) r.state.appliedLsn := by
  obtain ⟨_, _, hget, h⟩ := IoM.bind_ok_iff.mp h
  obtain ⟨rfl, rfl⟩ := hget
  unfold Pipeline.newTxns
  rcases hread : r.state.tail.readNew log with ⟨e | batch, tail⟩
  · simp only [hread] at h
    obtain ⟨_, _, -, h⟩ := IoM.bind_ok_iff.mp h
    exact nomatch (Prod.mk.inj h).1
  · simp only [hread] at h
    obtain ⟨_, r₁, hset, h⟩ := IoM.bind_ok_iff.mp h
    obtain ⟨-, rfl⟩ := Prod.mk.inj hset
    have hbatch := applyBatch_appliedLsn h
    exact hbatch

/-! ## The ticks of a run -/

/-- A pipeline with the `end_lsn` of the last commit that it has consumed. -/
structure Watched (W : Type) where
  pipe : Pipeline W
  lastCommit : Option Nat := none

/-- One tick.  A tick that fails has consumed what it has read, too. -/
def Watched.tick (s : Watched W) (log : Dir) (plan : List Outcome) :
    Except TickError Unit × Watched W :=
  let (result, r) := applyNewFrames log ⟨s.pipe, plan, []⟩
  (result, { pipe := r.state
             lastCommit := ((s.pipe.newTxns log).getLast?.map DecodedTxn.endLsn).or s.lastCommit })

/-- The condition on which a strong read ends its wait. -/
def strongReady (stream barrier applied durable : Nat) : Prop :=
  barrier ≤ stream ∧ durable ≤ applied

/-- `applied_lsn` is at the last commit that is consumed.  So a strong read whose barrier the
stream has passed goes on when the log is durable to that commit and not further. -/
def Complete (s : Watched W) (_log : Dir) (s' : Watched W) : Prop :=
  s'.pipe.appliedLsn = max s.pipe.appliedLsn (s'.lastCommit.getD 0) ∧
    ∀ durable ∈ s'.lastCommit, ∀ stream barrier, barrier ≤ stream →
      strongReady stream barrier s'.pipe.appliedLsn durable

/-- A row changes in the transactions that the tick consumes, or the watermark was at their
end before. -/
def Covered (s : Watched W) (log : Dir) : Prop :=
  (∃ t ∈ s.pipe.newTxns log, t.changes ≠ []) ∨
    ∀ lsn ∈ ((s.pipe.newTxns log).getLast?.map DecodedTxn.endLsn).or s.lastCommit,
      lsn ≤ s.pipe.appliedLsn

/-- `P` holds at each tick that returns. -/
def AtTicks (P : Watched W → Dir → Watched W → Prop) :
    Watched W → List (Dir × List Outcome) → Prop
  | _, [] => True
  | s, (log, plan) :: ticks =>
    ((s.tick log plan).1 = .ok () → P s log (s.tick log plan).2) ∧
      AtTicks P (s.tick log plan).2 ticks

theorem AtTicks.congr {P Q : Watched W → Dir → Watched W → Prop}
    (h : ∀ s log plan, (s.tick log plan).1 = .ok () →
      (P s log (s.tick log plan).2 ↔ Q s log (s.tick log plan).2))
    {ticks : List (Dir × List Outcome)} : ∀ {s}, AtTicks P s ticks ↔ AtTicks Q s ticks := by
  induction ticks with
  | nil => exact Iff.rfl
  | cons tick ticks ih =>
    intro s
    obtain ⟨log, plan⟩ := tick
    exact and_congr (forall_congr' (h s log plan)) ih

omit [FloatText] [IndexWriter W] [Crc32c] in
/-- Both parts of `Complete` say that the watermark is where the last commit puts it. -/
theorem complete_iff {s s' : Watched W} {log : Dir}
    (hmono : s.pipe.appliedLsn ≤ s'.pipe.appliedLsn)
    (hbound : s'.pipe.appliedLsn = s.pipe.appliedLsn ∨
      s'.lastCommit = some s'.pipe.appliedLsn) :
    Complete s log s' ↔ ∀ lsn ∈ s'.lastCommit, lsn ≤ s'.pipe.appliedLsn := by
  constructor
  · intro h lsn hlsn
    exact (h.2 lsn hlsn 0 0 (Nat.le_refl 0)).2
  · intro h
    refine ⟨?_, fun durable hdurable _ _ hbarrier => ⟨hbarrier, h durable hdurable⟩⟩
    cases hlast : s'.lastCommit with
    | none =>
      rw [hlast] at hbound
      rw [Option.getD_none]
      rcases hbound with heq | hnone
      · omega
      · exact nomatch hnone
    | some lsn =>
      have hle : lsn ≤ s'.pipe.appliedLsn := h lsn hlast
      rw [hlast, Option.some.injEq] at hbound
      rw [Option.getD_some]
      omega

/-- One tick that returns. -/
theorem tick_complete_iff {s : Watched W} {log : Dir} {plan : List Outcome}
    (h : (s.tick log plan).1 = .ok ()) :
    Complete s log (s.tick log plan).2 ↔ Covered s log := by
  have happlied := applyNewFrames_appliedLsn (r := ⟨s.pipe, plan, []⟩) (Prod.ext h rfl)
  change (s.tick log plan).2.pipe.appliedLsn = _ at happlied
  dsimp only at happlied
  have hlast : (s.tick log plan).2.lastCommit
      = ((s.pipe.newTxns log).getLast?.map DecodedTxn.endLsn).or s.lastCommit := rfl
  unfold Covered
  rw [← hlast]
  split at happlied
  · -- no row changes, and the watermark stays
    rename_i hnone
    rw [complete_iff (by omega) (Or.inl happlied), happlied]
    have hno : ¬ ∃ t ∈ s.pipe.newTxns log, t.changes ≠ [] := by
      simpa using hnone
    rw [or_iff_right hno]
  · rename_i hsome
    have hne : s.pipe.newTxns log ≠ [] := by
      intro hnil
      rw [hnil] at hsome
      exact hsome rfl
    have hend : (s.tick log plan).2.lastCommit = some (lastEnd (s.pipe.newTxns log)) := by
      rw [hlast, lastEnd, List.getLast?_eq_some_getLast hne]
      rfl
    have hbound : (s.tick log plan).2.pipe.appliedLsn = s.pipe.appliedLsn ∨
        (s.tick log plan).2.lastCommit = some (s.tick log plan).2.pipe.appliedLsn := by
      rw [hend, Option.some.injEq]
      omega
    have hchange : ∃ t ∈ s.pipe.newTxns log, t.changes ≠ [] := by
      simpa using hsome
    rw [complete_iff (by omega) hbound]
    refine iff_of_true ?_ (Or.inl hchange)
    intro lsn hlsn
    rw [hend, Option.mem_some_iff] at hlsn
    omega

/-- In the ticks of any run, each that returns leaves the watermark at the last commit
exactly when each of them has a row change to apply or nothing to raise. -/
theorem ticks_complete_iff (s : Watched W) (ticks : List (Dir × List Outcome)) :
    AtTicks Complete s ticks ↔ AtTicks (fun s log _ => Covered s log) s ticks :=
  AtTicks.congr fun _ _ _ => tick_complete_iff

end Tick

/-! ## A transaction without changes -/

/-- A transaction that changes no row. -/
def emptyTxn : List LogOp :=
  [.append 11 11 false (beginMessage 20 1), .append 20 20 true (commitMessage 20)]

/-- The log is durable to 20 and the pipeline has consumed all of it, and the watermark
stays at 10.  No strong read goes on. -/
theorem empty_txn_leaves_watermark :
    letI := castagnoli
    letI := wholeFloats
    letI := listWriter
    ∃ log : FrameLog, LogOp.runAll emptyTxn (emptyLog 1000) = some log ∧
      let s : Watched (List Document × List Document) := { pipe := plainPipeline }
      let s' := (s.tick log.dir []).2
      (s.tick log.dir []).1 = .ok () ∧ s'.lastCommit = some 20 ∧ s'.pipe.appliedLsn = 10 ∧
        log.durable.lsn = 20 ∧
        (∀ stream barrier, ¬ strongReady stream barrier s'.pipe.appliedLsn log.durable.lsn) ∧
        ¬ AtTicks Complete s [(log.dir, [])] := by
  let _ := castagnoli
  let _ := wholeFloats
  let _ := listWriter
  have hplay : ((LogOp.runAll emptyTxn (emptyLog 1000)).any fun log =>
      let s : Watched (List Document × List Document) := { pipe := plainPipeline }
      let s' := (s.tick log.dir []).2
      decide ((s.tick log.dir []).1.isOk ∧ s'.lastCommit = some 20 ∧ s'.pipe.appliedLsn = 10 ∧
        log.durable.lsn = 20)) = true := by
    decide +kernel
  obtain ⟨log, hlog, hcheck⟩ := (Option.any_eq_true _ _).mp hplay
  rw [decide_eq_true_eq] at hcheck
  obtain ⟨hok, hlast, happlied, hdurable⟩ := hcheck
  have hreturns : (Watched.tick { pipe := plainPipeline } log.dir []).1 = .ok () := by
    cases hresult : (Watched.tick { pipe := plainPipeline } log.dir []).1 with
    | error e => simp [hresult, Except.isOk, Except.toBool] at hok
    | ok u => rfl
  refine ⟨log, hlog, hreturns, hlast, happlied, hdurable, ?_, ?_⟩
  · rintro stream barrier ⟨_, hle⟩
    rw [happlied, hdurable] at hle
    exact absurd hle (by decide)
  · intro h
    have hcomplete := (h.1 hreturns).1
    rw [happlied, hlast] at hcomplete
    exact absurd hcomplete (by decide)

end GrayDB.Studio
