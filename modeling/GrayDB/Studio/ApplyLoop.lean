import GrayDB.Log.TailRuns
import GrayDB.Registry.Replay
import GrayDB.Studio.Materialize

/-!
# The apply loop beside a growing log

`MatStep` is the materializer beside the log that it reads: the log grows, also by
parts of frames, and a tick reads what is there.  A tick that fails keeps the state
it has reached, and the loop goes on with the next one.

* `Behind` is the invariant while no tick fails: the pipeline is what it was at the
  start, behind the frames that it has read.
* `materializer_reflects` is the result.  Each table reflects all of its changes up to
  `applied_lsn`.
* `materializer_skips_change` is a run with a tick that fails.  The rest of its batch
  is never applied, and `applied_lsn` moves past it.
-/

namespace GrayDB.Studio

open Lib Lib.Crash Log Registry Columnar Search

variable {W : Type}

/-- The transactions that are complete in the frames of a log. -/
def txnsIn (frames : List Frame) : List DecodedTxn := ({} : StreamDecoder).txnsOf frames

theorem txnsIn_append (fed new : List Frame) :
    txnsIn (fed ++ new) = txnsIn fed ++ (({} : StreamDecoder).after fed).txnsOf new :=
  StreamDecoder.txnsOf_append _ _ _

theorem numbered_append (i : Nat) (ts us : List DecodedTxn) :
    numbered i (ts ++ us)
      = numbered i ts ++ numbered (i + (ts.flatMap DecodedTxn.changes).length) us := by
  rw [numbered, List.flatMap_append, List.zipIdx_append]
  rfl

/-- The last commit is that of one of the transactions. -/
theorem lastEnd_mem {ts : List DecodedTxn} (h : ts ≠ []) : ∃ t ∈ ts, lastEnd ts = t.endLsn := by
  refine ⟨ts.getLast h, List.getLast_mem h, ?_⟩
  rw [lastEnd, List.getLast?_eq_some_getLast h]
  rfl

section Loop

variable [FloatText] [IndexWriter W] [Crc32c]

/-- The state that a tick leaves, also when it fails.  `plan` is what its I/O calls do. -/
def Pipeline.tick (p : Pipeline W) (log : Dir) (plan : List Outcome) : Pipeline W :=
  (applyNewFrames log ⟨p, plan, []⟩).2.state

/-- A pipeline that has not read anything. -/
def Pipeline.Fresh (p : Pipeline W) : Prop :=
  p.tail = {} ∧ p.decoder = {} ∧ p.appliedLsn = p.lsn0

/-! ## Ticks that succeed -/

/-- The pipeline has read the frames `fed`, which are in their place in the log, and has
applied what they complete. -/
structure Behind (p₀ : Pipeline W) (log : Dir) (fed : List Frame) (p : Pipeline W) : Prop where
  marks : Marks p.tail fed
  place : InPlace log p.tail fed
  accepts : ({} : StreamDecoder).AcceptsAll fed
  decoder : p.decoder = ({} : StreamDecoder).after fed
  lsn0 : p.lsn0 = p₀.lsn0
  stores : Materialized (fun _ => True) (numbered 0 (txnsIn fed)) p₀ p
  appliedLsn : p.appliedLsn = p₀.lsn0 ∨ ∃ t ∈ txnsIn fed, p.appliedLsn = t.endLsn

theorem Pipeline.Fresh.behind {p : Pipeline W} (h : p.Fresh) (log : Dir) :
    Behind p log [] p := by
  obtain ⟨htail, hdecoder, happlied⟩ := h
  refine ⟨?_, ?_, trivial, hdecoder, rfl, .refl _ p, Or.inl happlied⟩
  · rw [htail]
    exact Or.inl ⟨rfl, rfl⟩
  · rw [htail]
    exact ⟨by simp, List.nil_prefix⟩

/-- The pipeline has read as many frames as its decoder counts. -/
theorem Behind.nextSeq {p₀ p : Pipeline W} {log : Dir} {fed : List Frame}
    (h : Behind p₀ log fed p) : p.decoder.nextSeq = fed.length := by
  rw [h.decoder, (StreamDecoder.after_counts h.accepts).1]
  exact Nat.zero_add _

/-- The log grows, and the pipeline stays. -/
theorem Behind.grew {p₀ p : Pipeline W} {log log' : Dir} {fed : List Frame}
    {closed closed' : List (List Frame)} {last last' : List Frame} {t t' : Bytes} {g g' : SegFile}
    (h : Behind p₀ log fed p) (hv : Readable log closed last t g)
    (hv' : Readable log' closed' last' t' g') (hgrew : Grew log log') : Behind p₀ log' fed p :=
  { h with place := h.place.grew hv hv' hgrew h.marks }

/-- What the pipeline has read is at the start of the log. -/
theorem Behind.isPrefix {p₀ p : Pipeline W} {log : Dir} {fed : List Frame}
    {closed : List (List Frame)} {last : List Frame} {t : Bytes} {g : SegFile}
    (h : Behind p₀ log fed p) (hv : Readable log closed last t g) : fed <+: log.frames := by
  rcases h.marks with ⟨-, rfl⟩ | ⟨before, as, -, hcur, -⟩
  · exact List.nil_prefix
  · have hpre := h.place.2
    rw [hcur, hv.upTo_frames] at hpre
    rw [hv.frames]
    have hall := upToLists_isPrefix before.length 0 (closed ++ [last])
    exact hpre.trans (by simpa using hall)

/-- A tick that succeeds reads and applies all that is there. -/
theorem Behind.tick {p₀ p : Pipeline W} {log : Dir} {fed : List Frame}
    {closed : List (List Frame)} {last : List Frame} {t : Bytes} {g : SegFile}
    (h : Behind p₀ log fed p) (hv : Readable log closed last t g)
    (htakes : p.TakesFrames (log.frames.drop p.decoder.nextSeq)) :
    Behind p₀ log log.frames (p.tick log []) := by
  obtain ⟨batch, hread, hheld, hsteady⟩ :=
    readNew_exact hv h.marks h.place.keepsCommits h.place.safe
  have hnew : log.frames = fed ++ batch.frames := by
    rw [← hheld, consume, hsteady h.place]
    rfl
  have hdrop : log.frames.drop p.decoder.nextSeq = batch.frames := by
    rw [h.nextSeq, hnew, List.drop_left]
  rw [hdrop] at htakes
  have hsame : ∀ tail, ({ p with tail } : Pipeline W).aborted batch.rewound = { p with tail } := by
    intro tail
    rw [hsteady h.place]
    rfl
  have hspec := applyNewFrames_spec hread (by
    rw [hsame]
    exact ⟨htakes.1, Pipeline.TakesAll.congr (p := p) rfl rfl htakes.2⟩)
  rw [hsame] at hspec
  obtain ⟨_, p', _, hrun, hfed, -⟩ := hspec []
  have htick : p.tick log [] = p' := by
    rw [Pipeline.tick, hrun]
  have haccepts := htakes.1
  rw [h.decoder] at haccepts
  have hdecoder := hfed.decoder
  have hstores := hfed.stores
  have happlied := hfed.appliedLsn
  dsimp only at hdecoder hstores happlied
  rw [h.decoder] at hdecoder hstores happlied
  have hcount : (({} : StreamDecoder).after fed).changeCounter
      = 0 + ((txnsIn fed).flatMap DecodedTxn.changes).length :=
    (StreamDecoder.after_counts h.accepts).2
  rw [hcount] at hstores
  have htail := hfed.tail
  have hlsn0 := hfed.lsn0
  dsimp only at htail hlsn0
  rw [htick, hnew]
  refine ⟨?_, ?_, ?_, ?_, hlsn0.trans h.lsn0, ?_, ?_⟩
  · rw [htail, ← hnew]
    exact hv.marks
  · rw [htail, ← hnew]
    exact hv.inPlace _
  · exact (StreamDecoder.acceptsAll_append _ _ _).mpr ⟨h.accepts, haccepts⟩
  · rw [hdecoder, StreamDecoder.after_append]
  · rw [txnsIn_append, numbered_append]
    refine h.stores.trans (Materialized.congr hstores rfl rfl rfl rfl)
  · rw [txnsIn_append, happlied]
    have hold : p.appliedLsn = p₀.lsn0 ∨ ∃ t ∈ txnsIn fed ++
        (({} : StreamDecoder).after fed).txnsOf batch.frames, p.appliedLsn = t.endLsn := by
      refine h.appliedLsn.imp id ?_
      rintro ⟨t, ht, heq⟩
      exact ⟨t, List.mem_append_left _ ht, heq⟩
    split
    · exact hold
    · rename_i hne
      rcases Nat.le_total (lastEnd ((({} : StreamDecoder).after fed).txnsOf batch.frames))
        p.appliedLsn with hle | hle
      · rw [Nat.max_eq_right hle]
        exact hold
      · rw [Nat.max_eq_left hle]
        have hsome : (({} : StreamDecoder).after fed).txnsOf batch.frames ≠ [] := by
          intro hnil
          simp [hnil] at hne
        obtain ⟨t, ht, heq⟩ := lastEnd_mem hsome
        exact Or.inr ⟨t, List.mem_append_right _ ht, heq⟩

/-! ## The system -/

/-- A log, as its files show it at the moment, and the pipeline. -/
structure MatSys (W : Type) where
  log : Dir
  pipe : Pipeline W

inductive MatAct where
  | grow (log : Dir)
  | tick (plan : List Outcome)

inductive MatStep : MatAct → MatSys W → MatSys W → Prop
  | grow {σ : MatSys W} {log : Dir} (hlog : ∃ closed last t g, Readable log closed last t g)
      (hgrew : Grew σ.log log) : MatStep (.grow log) σ { σ with log }
  | tick {σ : MatSys W} {plan : List Outcome} :
      MatStep (.tick plan) σ { σ with pipe := σ.pipe.tick σ.log plan }

/-- A pipeline at its start beside any log. -/
def MatSys.Fresh (σ : MatSys W) : Prop :=
  (∃ closed last t g, Readable σ.log closed last t g) ∧ σ.pipe.Fresh

/-- No tick fails: no I/O call does, and the frames that are new are taken. -/
def TicksFit : MatAct → MatSys W → Prop
  | .grow _, _ => True
  | .tick plan, σ => plan = [] ∧
      σ.pipe.TakesFrames (σ.log.frames.drop σ.pipe.decoder.nextSeq)

/-- The stores of a table are those of `p₀` behind its changes in some first
transactions, and each of the other transactions with a change of the table commits
behind `applied_lsn`. -/
def Reflects (p₀ p : Pipeline W) (table : String) (ts : List DecodedTxn) : Prop :=
  ∃ done rest, ts = done ++ rest ∧ TableBehind table (numbered 0 done) p₀ p ∧
    ∀ t ∈ rest, (∃ c ∈ t.changes, c.table = table) → p.appliedLsn < t.endLsn

def MatInv (p₀ : Pipeline W) (σ : MatSys W) : Prop :=
  (∃ closed last t g, Readable σ.log closed last t g) ∧ ∃ fed, Behind p₀ σ.log fed σ.pipe

theorem MatInv.step {p₀ : Pipeline W} {σ σ' : MatSys W} {a : MatAct} (hfit : TicksFit a σ)
    (hstep : MatStep a σ σ') (h : MatInv p₀ σ) : MatInv p₀ σ' := by
  obtain ⟨⟨closed, last, t, g, hv⟩, fed, hbehind⟩ := h
  cases hstep with
  | grow hlog hgrew =>
    obtain ⟨closed', last', t', g', hv'⟩ := hlog
    exact ⟨⟨closed', last', t', g', hv'⟩, fed, hbehind.grew hv hv' hgrew⟩
  | tick =>
    obtain ⟨rfl, htakes⟩ := hfit
    exact ⟨⟨closed, last, t, g, hv⟩, _, hbehind.tick hv htakes⟩

/-- In every run in which no tick fails, each table reflects all changes that have been
read, and, as the commits of the log ascend, all changes of the log up to
`applied_lsn`. -/
theorem materializer_reflects {σ₀ σ : MatSys W} (hstart : σ₀.Fresh)
    (hrun : GuardedRun MatStep TicksFit σ₀ σ) (table : String) :
    Reflects σ₀.pipe σ.pipe table (txnsIn (σ.log.frames.take σ.pipe.decoder.nextSeq)) ∧
      ((txnsIn σ.log.frames).Pairwise (·.endLsn < ·.endLsn) →
        (∀ t ∈ txnsIn σ.log.frames, σ₀.pipe.lsn0 < t.endLsn) →
        Reflects σ₀.pipe σ.pipe table (txnsIn σ.log.frames)) := by
  have hinv : MatInv σ₀.pipe σ := hrun.invariant (fun _ _ _ => MatInv.step)
    ⟨hstart.1, [], hstart.2.behind σ₀.log⟩
  obtain ⟨⟨closed, last, t, g, hv⟩, fed, hbehind⟩ := hinv
  obtain ⟨new, hnew⟩ := hbehind.isPrefix hv
  have htable := hbehind.stores.table table
  rw [hbehind.nextSeq, ← hnew, List.take_left, txnsIn_append]
  refine ⟨⟨_, [], (List.append_nil _).symm, htable, by simp⟩, ?_⟩
  intro hascend hstart'
  refine ⟨_, _, rfl, htable, fun t ht _ => ?_⟩
  rcases hbehind.appliedLsn with heq | ⟨u, hu, heq⟩
  · rw [heq]
    exact hstart' t (List.mem_append_right _ ht)
  · rw [heq]
    exact (List.pairwise_append.mp hascend).2.2 u hu t ht

end Loop

/-! ## Runs on fixed inputs -/

/-- A store of one text column. -/
def textStore (table : String) : TableStore :=
  { table, columns := [{ name := "a", typeOid := 25, isKey := false }], flushRows := 100 }

/-- A pipeline at 10, with a column store and an index of `p.u`. -/
def plainPipeline : Pipeline (List Document × List Document) :=
  { lsn0 := 10
    columnar := AList.singleton "p.u" (textStore "p.u")
    search := AList.singleton "p.u"
      { table := "p.u", columns := ["a"], keyColumns := [], writer := ([], [])
        info := { table := "p.u", columns := ["a"] } }
    appliedLsn := 10 }

/-- A pipeline whose store of `p.t` has two columns. -/
def driftedPipeline : Pipeline (List Document × List Document) :=
  { plainPipeline with
    columnar := plainPipeline.columnar.insert "p.t"
      { table := "p.t"
        columns := [{ name := "a", typeOid := 25, isKey := false },
          { name := "b", typeOid := 25, isKey := false }]
        flushRows := 100 } }

/-- The directory of a log is readable between two operations. -/
theorem readable_of_reachable [Crc32c] {s : FrameLog} (h : Reachable (.running s)) :
    ∃ closed last t g, Readable s.dir closed last t g := by
  obtain ⟨l, spilled, hrep⟩ := h.inv
  exact hrep.toShows.readable (.refl _)

/-- The first transaction is applied in one tick. -/
theorem materializer_reflects_one_txn :
    letI := castagnoli
    letI := wholeFloats
    letI := listWriter
    ∃ σ₀ σ : MatSys (List Document × List Document), σ₀.Fresh ∧ Run MatStep σ₀ σ ∧
      σ.pipe.appliedLsn = 20 ∧ (txnsIn σ.log.frames).map DecodedTxn.endLsn = [20] ∧
      Reflects σ₀.pipe σ.pipe "p.u" (txnsIn σ.log.frames) := by
  let _ := castagnoli
  let _ := wholeFloats
  let _ := listWriter
  have hplay : ((LogOp.runAll firstTxn (emptyLog 1000)).any fun s =>
      plainPipeline.TakesFrames (s.dir.frames.drop plainPipeline.decoder.nextSeq) ∧
        (plainPipeline.tick s.dir []).appliedLsn = 20 ∧
        (txnsIn s.dir.frames).map DecodedTxn.endLsn = [20]) = true := by
    decide +kernel
  obtain ⟨s, hops, hcheck⟩ := (Option.any_eq_true _ _).mp hplay
  rw [decide_eq_true_eq] at hcheck
  obtain ⟨htakes, happlied, hends⟩ := hcheck
  have hreach : Reachable (.running s) :=
    Reachable.runAll (.create (create_outcome 1000)) (by decide +kernel) hops
  have hfresh : MatSys.Fresh { log := s.dir, pipe := plainPipeline } :=
    ⟨readable_of_reachable hreach, rfl, rfl, rfl⟩
  have hfit : TicksFit (.tick []) { log := s.dir, pipe := plainPipeline } := ⟨rfl, htakes⟩
  have hstep : MatStep (.tick []) { log := s.dir, pipe := plainPipeline }
      { log := s.dir, pipe := plainPipeline.tick s.dir [] } := .tick
  refine ⟨_, _, hfresh, (GuardedRun.refl _).tail trivial hstep, happlied, hends, ?_⟩
  have hone : ∃ t, txnsIn s.dir.frames = [t] ∧ t.endLsn = 20 := by
    simpa [List.map_eq_singleton_iff] using hends
  obtain ⟨t, ht, hend⟩ := hone
  refine (materializer_reflects hfresh ((GuardedRun.refl _).tail hfit hstep) _).2 ?_ ?_
  · simp only [ht, List.pairwise_singleton]
  · intro u hu
    obtain rfl : u = t := by simpa [ht] using hu
    rw [hend]
    show 10 < 20
    decide

/-- Changes that a column store takes one after the other. -/
def applyAll [FloatText] (cs : List TypedChange) (s : TableStore) : Option TableStore :=
  cs.foldlM (fun s c => ((Columnar.apply c).outcome s).map Prod.snd) s

theorem Applied.applyAll [FloatText] {cs : List TypedChange} {s s' : TableStore}
    (h : Applied cs s s') : Studio.applyAll cs s = some s' := by
  induction h with
  | refl => rfl
  | change _ hc ih =>
    rw [Studio.applyAll, List.foldlM_append]
    rw [Studio.applyAll] at ih
    simp [ih, hc]

/-- The store of `p.t` refuses its row, and the tick fails.  The row of `p.u` behind it
in the batch is never applied, and the next tick raises `applied_lsn` past it. -/
theorem materializer_skips_change :
    letI := castagnoli
    letI := wholeFloats
    letI := listWriter
    ∃ σ₀ σ : MatSys (List Document × List Document), σ₀.Fresh ∧ Run MatStep σ₀ σ ∧
      σ.pipe.appliedLsn = 30 ∧
      (txnsIn σ.log.frames).map (fun t => (t.endLsn, t.changes.map TypedChange.table))
        = [(20, ["p.t", "p.u"]), (30, ["p.u"])] ∧
      (σ.pipe.columnar.lookup "p.u").map (fun s => s.opened.map OpenRow.values)
        = some [[some "2"]] ∧
      ¬ Reflects σ₀.pipe σ.pipe "p.u" (txnsIn σ.log.frames) := by
  let _ := castagnoli
  let _ := wholeFloats
  let _ := listWriter
  have hplay : ((LogOp.runAll firstTxn (emptyLog 1000)).any fun s =>
      (LogOp.runAll secondTxn s).any fun s' : FrameLog =>
        let p := (driftedPipeline.tick s.dir []).tick s'.dir []
        decide (Grew s.dir s'.dir ∧ p.appliedLsn = 30 ∧
          (txnsIn s'.dir.frames).map (fun t => (t.endLsn, t.changes.map TypedChange.table))
            = [(20, ["p.t", "p.u"]), (30, ["p.u"])] ∧
          (p.columnar.lookup "p.u").map (fun s => s.opened.map OpenRow.values)
            = some [[some "2"]] ∧
          (∀ t ∈ txnsIn s'.dir.frames, t.endLsn ≤ 30 ∧ ∃ c ∈ t.changes, c.table = "p.u") ∧
          (applyAll ((ofTable "p.u" (numbered 0 (txnsIn s'.dir.frames))).map Prod.fst)
            (textStore "p.u")).map (fun s => s.opened.length) = some 2)) = true := by
    decide +kernel
  obtain ⟨s, hops, hplay⟩ := (Option.any_eq_true _ _).mp hplay
  obtain ⟨s', hops', hcheck⟩ := (Option.any_eq_true _ _).mp hplay
  simp only [decide_eq_true_eq] at hcheck
  obtain ⟨hgrew, happlied, htxns, hrows, hbound, hall⟩ := hcheck
  have hreach : Reachable (.running s) :=
    Reachable.runAll (.create (create_outcome 1000)) (by decide +kernel) hops
  have hreach' : Reachable (.running s') := hreach.runAll (by decide +kernel) hops'
  have hfresh : MatSys.Fresh { log := s.dir, pipe := driftedPipeline } :=
    ⟨readable_of_reachable hreach, rfl, rfl, rfl⟩
  have hrun : Run MatStep { log := s.dir, pipe := driftedPipeline }
      { log := s'.dir, pipe := (driftedPipeline.tick s.dir []).tick s'.dir [] } := by
    have hfirst : MatStep (.tick []) { log := s.dir, pipe := driftedPipeline }
        { log := s.dir, pipe := driftedPipeline.tick s.dir [] } := .tick
    have hgrow : MatStep (.grow s'.dir) { log := s.dir, pipe := driftedPipeline.tick s.dir [] }
        { log := s'.dir, pipe := driftedPipeline.tick s.dir [] } :=
      .grow (readable_of_reachable hreach') hgrew
    have hsecond : MatStep (.tick []) { log := s'.dir, pipe := driftedPipeline.tick s.dir [] }
        { log := s'.dir, pipe := (driftedPipeline.tick s.dir []).tick s'.dir [] } := .tick
    exact (((GuardedRun.refl _).tail trivial hfirst).tail trivial hgrow).tail trivial hsecond
  refine ⟨_, _, hfresh, hrun, happlied, htxns, hrows, ?_⟩
  intro ⟨done, rest, heq, hbehind, hrest⟩
  have hnil : rest = [] := by
    refine List.eq_nil_iff_forall_not_mem.mpr fun t ht => ?_
    obtain ⟨hle, hchange⟩ := hbound t (by rw [heq]; exact List.mem_append_right _ ht)
    have hlt := hrest t ht hchange
    dsimp only at hlt
    omega
  rw [hnil, List.append_nil] at heq
  -- both changes of `p.u` would be in the store, which has one row
  have hcolumnar := hbehind.columnar
  rw [← heq] at hcolumnar
  have hold : driftedPipeline.columnar.lookup "p.u" = some (textStore "p.u") := by
    show (plainPipeline.columnar.insert "p.t" _).lookup "p.u" = _
    rw [AList.lookup_insert_ne (by decide)]
    rfl
  dsimp only at hcolumnar
  rw [hold] at hcolumnar
  obtain ⟨store, hstore, hopened⟩ := Option.map_eq_some_iff.mp hrows
  rw [hstore] at hcolumnar
  cases hcolumnar with
  | some happ =>
    rw [happ.applyAll] at hall
    have htwo : store.opened.length = 2 := Option.some.inj hall
    have hlen := congrArg List.length hopened
    rw [List.length_map, htwo] at hlen
    simp at hlen

end GrayDB.Studio
