import GrayDB.Ingest.Session
import GrayDB.Registry.Rewind
import GrayDB.Studio.Watermark
import Mathlib.Order.MinMax

/-!
# What the engine vouches for

A strong read waits until the stream has passed its barrier and `applied_lsn` the durable
mark.  The status vouches for `applied_lsn`, and for the stream position while no frame is
counted.  Both are read from counters of tasks that run beside the reader.

* `Live` is the source, its slot, the pump and the apply loop, step by step.
* `strong_read`: when no commit is held back as the durable mark is read, all transactions
  up to the barrier are in the tables.
* `visible_lsn`: between two rounds, all transactions up to the visible position are in the
  tables, if the apply loop has read what the log held before the session.
-/

namespace GrayDB.Studio

open Lib Lib.Crash Log Registry Ingest Columnar Search

/-! ## What the readers compute -/

instance (stream barrier applied durable : Nat) :
    Decidable (strongReady stream barrier applied durable) :=
  inferInstanceAs (Decidable (barrier ≤ stream ∧ durable ≤ applied))

/-- `resolve_class` for `strong`: one look at the counters. -/
def strongTarget (barrier stream durable applied : Nat) : Option Nat :=
  if strongReady stream barrier applied durable then some (max applied barrier) else none

/-- `received_lsn` of the status. -/
def receivedLsn (stream durable : Nat) : Nat := max stream durable

/-- `proof_data.visible_lsn` of a query. -/
def visibleLsn (applied received frames : Nat) : Nat :=
  if frames = 0 then max applied received else applied

/-- `wait_for_status`: one look at the status ends the wait. -/
def waitOver (target applied received frames : Nat) : Bool :=
  decide (target ≤ applied) || (decide (target ≤ received) && frames == 0)

/-- The adapter and the query go by the same position. -/
theorem waitOver_iff (target applied received frames : Nat) :
    waitOver target applied received frames = true ↔
      target ≤ visibleLsn applied received frames := by
  unfold waitOver visibleLsn
  rw [Bool.or_eq_true, Bool.and_eq_true, decide_eq_true_iff, decide_eq_true_iff, beq_iff_eq]
  split
  · rename_i hframes
    omega
  · rename_i hframes
    omega

/-! ## Commits, as the pump and the decoder see them -/

theorem commitEnd_taskFrame {payload : Bytes} {msg : Message} (h : parse payload = .ok msg)
    (seq : Nat) (walStart : UInt64) :
    commitEnd (taskFrame commitEndLsn seq walStart payload)
      = (commitEndLsn payload).map UInt64.toNat := by
  have hend : (commitEndLsn payload).map UInt64.toNat = msg.commitEnd := by
    rw [commitEndLsn_eq, commitEnd_of_parse h]
  have hparse : parse (taskFrame commitEndLsn seq walStart payload).payload = .ok msg := h
  rw [commitEnd, hparse, hend]

/-- On frames that the decoder takes, both see the same commits. -/
theorem commitEnds_logged {ms : List Data} (h : ({} : StreamDecoder).AcceptsAll (logged ms)) :
    (logged ms).filterMap commitEnd = ends ms := by
  induction ms using List.reverseRecOn with
  | nil => rfl
  | append_singleton ms m ih =>
    rw [logged_concat, StreamDecoder.acceptsAll_append] at h
    obtain ⟨hall, ⟨-, msg, hmsg, -⟩, -⟩ := h
    rw [logged_concat, List.filterMap_append, ih hall, ends_append]
    congr 1
    have hmsg : parse m.2 = .ok msg := hmsg
    rw [List.filterMap_cons, commitEnd_taskFrame hmsg]
    rfl

theorem txnsIn_endLsn {ms : List Data} (h : ({} : StreamDecoder).AcceptsAll (logged ms)) :
    (txnsIn (logged ms)).map DecodedTxn.endLsn = ends ms := by
  rw [txnsIn, StreamDecoder.txnsOf_endLsn h, commitEnds_logged h]

/-- The frames behind the last commit complete nothing. -/
theorem txnsIn_committed {ms : List Data} (h : ({} : StreamDecoder).AcceptsAll (logged ms)) :
    txnsIn (committed (logged ms)) = txnsIn (logged ms) := by
  have hsplit := uptoLast_append_afterLast (p := Data.isCommit) ms
  have hpre : committed (logged ms) <+: logged ms := uptoLast_isPrefix _
  rw [committed_logged] at hpre ⊢
  obtain ⟨rest, hrest⟩ := hpre
  have haccepts := h
  rw [← hrest, StreamDecoder.acceptsAll_append] at haccepts
  have hends : ends (uptoLast Data.isCommit ms) = ends ms := by
    have hnone : ends (afterLast Data.isCommit ms) = [] := by
      refine List.filterMap_eq_nil_iff.mpr fun m hm => ?_
      have hc : Data.isCommit m = false := not_mem_afterLast hm
      rw [Option.isSome_eq_false_iff.mp hc |> Option.isNone_iff_eq_none.mp]
      rfl
    conv_rhs => rw [← hsplit, ends_append, hnone, List.append_nil]
  have hall := congrArg (List.map DecodedTxn.endLsn)
    (txnsIn_append (logged (uptoLast Data.isCommit ms)) rest)
  rw [hrest, txnsIn_endLsn h, List.map_append, txnsIn_endLsn haccepts.1, hends] at hall
  have hnil := List.map_eq_nil_iff.mp (List.self_eq_append_right.mp hall)
  conv_rhs => rw [← hrest, txnsIn_append, hnil, List.append_nil]

/-! ## The system -/

variable {T W : Type}

/-- The source with a session of its slot, the pump, and the apply loop beside it. -/
structure Live (T W : Type) where
  session : Session T
  pipe : Pipeline W

inductive LiveAct where
  | session
  | tick (plan : List Outcome)

/-- The tables are those of `p₀` behind the first transactions of the source, among them all
up to the position. -/
def Covers [FloatText] [IndexWriter W] (slot : Slot T) (p₀ : Pipeline W) (txns : List T)
    (p : Pipeline W) (lsn : Nat) : Prop :=
  ∃ k fs, (∀ t ∈ txns, slot.position t ≤ lsn → t ∈ txns.take k) ∧
    slot.Delivers (txns.take k) fs ∧ ∀ table, TableBehind table (numbered 0 (txnsIn fs)) p₀ p

namespace Live

variable [FloatText] [IndexWriter W] [Crc32c]

inductive Step (slot : Slot T) : LiveAct → Live T W → Live T W → Prop
  | session {σ : Live T W} {session : Session T} (h : Session.Step slot σ.session session) :
      Step slot .session σ { σ with session := session }
  | tick {σ : Live T W} {plan : List Outcome} :
      Step slot (.tick plan) σ { σ with pipe := σ.pipe.tick σ.session.files plan }

/-- No tick fails. -/
def TicksTake : LiveAct → Live T W → Prop
  | .session, _ => True
  | .tick plan, σ => plan = [] ∧
      σ.pipe.TakesFrames (σ.session.files.frames.drop σ.pipe.decoder.nextSeq)

/-- Runs in which no tick fails. -/
abbrev Runs (slot : Slot T) : Live T W → Live T W → Prop := GuardedRun (Step slot) TicksTake

/-- A new session beside a pipeline that has read the frames `fed` of the log. -/
structure Start (slot : Slot T) (p₀ : Pipeline W) (fed : List Frame) (σ : Live T W) : Prop where
  session : σ.session.Start slot p₀.lsn0
  pipe : Behind p₀ σ.session.files fed σ.pipe

/-- The pipeline has read the frames `fed`, and perhaps more. -/
structure Inv (slot : Slot T) (p₀ : Pipeline W) (fed : List Frame) (σ : Live T W) : Prop where
  session : σ.session.Inv slot p₀.lsn0
  pipe : ∃ fed', Behind p₀ σ.session.files fed' σ.pipe ∧ fed <+: fed'

variable {slot : Slot T} {p₀ : Pipeline W} {fed : List Frame} {σ σ' : Live T W} {a : LiveAct}

theorem Start.inv (h : σ.Start slot p₀ fed) : Inv slot p₀ fed σ :=
  ⟨h.session.inv, fed, h.pipe, List.prefix_rfl⟩

theorem Inv.step (ht : slot.Timely) (hfit : TicksTake a σ) (hstep : Step slot a σ σ')
    (h : Inv slot p₀ fed σ) : Inv slot p₀ fed σ' := by
  obtain ⟨hsession, fed', hbehind, hfed⟩ := h
  obtain ⟨closed, last, t, g, hv⟩ := hsession.readable
  cases hstep with
  | session hstep =>
    have hnext := hsession.step ht hstep
    obtain ⟨closed', last', t', g', hv'⟩ := hnext.readable
    exact ⟨hnext, fed', hbehind.grew hv hv' hstep.later.files, hfed⟩
  | tick =>
    obtain ⟨rfl, htakes⟩ := hfit
    exact ⟨hsession, _, hbehind.tick hv htakes, hfed.trans (hbehind.isPrefix hv)⟩

theorem Inv.run (ht : slot.Timely) (hrun : Runs slot σ σ') (h : Inv slot p₀ fed σ) :
    Inv slot p₀ fed σ' :=
  hrun.invariant (fun _ _ _ hfit hstep => Inv.step ht hfit hstep) h

/-! ## What the tables have -/

/-- The pipeline has read the first messages that the log was given. -/
theorem Inv.reads (h : Inv slot p₀ fed σ) : ∃ ms, Behind p₀ σ.session.files (logged ms) σ.pipe ∧
    fed <+: logged ms ∧ slot.Begins σ.session.txns ms := by
  obtain ⟨fed', hbehind, hfed⟩ := h.pipe
  obtain ⟨closed, last, t, g, hv⟩ := h.session.readable
  obtain ⟨ms, hms, rfl⟩ := exists_logged ((hbehind.isPrefix hv).trans h.session.files)
  exact ⟨ms, hbehind, hfed, h.session.begins.of_isPrefix hms⟩

/-- The tables are those behind the transactions whose commit has been read. -/
theorem Inv.covers_of_ends (h : Inv slot p₀ fed σ) {lsn : Nat}
    (hall : ∀ ms, Behind p₀ σ.session.files (logged ms) σ.pipe → fed <+: logged ms →
      ∀ t ∈ σ.session.txns, slot.position t ≤ lsn →
        slot.position t ≤ σ.pipe.appliedLsn ∨ slot.position t ∈ ends ms) :
    Covers slot p₀ σ.session.txns σ.pipe lsn := by
  obtain ⟨ms, hbehind, hfed, hb⟩ := h.reads
  obtain ⟨k, hdelivers, hends⟩ := hb.delivers
  have hascend := h.session.stream.ascending
  refine ⟨k, committed (logged ms), fun t ht hle => ?_, hdelivers, fun table => ?_⟩
  · apply hascend.mem_take ht
    rw [← hends]
    rcases hall ms hbehind hfed t ht hle with happlied | hmem
    · rcases hbehind.appliedLsn with heq | ⟨u, hu, heq⟩
      · rw [heq] at happlied
        exact absurd (hascend.2 t ht) (Nat.not_lt.mpr happlied)
      · have hmem := List.mem_map_of_mem (f := DecodedTxn.endLsn) hu
        rw [txnsIn_endLsn hbehind.accepts, ← heq] at hmem
        exact mem_of_isPrefix_of_le hascend.1 hb.ends hmem (List.mem_map_of_mem ht) happlied
    · exact hmem
  · rw [txnsIn_committed hbehind.accepts]
    exact hbehind.stores.table table

/-- The later one of two states of a run. -/
theorem later_of_runs (hrun : Runs slot σ σ') : Session.Later slot σ.session σ'.session := by
  induction hrun with
  | refl => exact .refl _
  | tail _ hlast ih =>
    obtain ⟨a, -, hstep⟩ := hlast
    cases hstep with
    | session hstep => exact ih.trans hstep.later
    | tick => exact ih

/-- A run of the session alone. -/
theorem runs_of_session {s : Session T} (hrun : Session.Runs slot σ.session s) :
    Runs slot σ { σ with session := s } := by
  induction hrun with
  | refl => exact .refl σ
  | tail _ hstep ih => exact ih.tail (a := .session) trivial (.session hstep)

theorem counts_of_runs {old : List Data} (hrun : Runs slot σ σ')
    (h : Session.Counts old σ.session) : Session.Counts old σ'.session := by
  induction hrun with
  | refl => exact h
  | tail _ hlast ih =>
    obtain ⟨a, -, hstep⟩ := hlast
    cases hstep with
    | session hstep => exact ih.step hstep
    | tick => exact ih

end Live

/-! ## One transaction, received and applied -/

theorem rowTxns_timely : rowTxns.Timely := by
  rintro t ms ⟨hpos, rfl⟩ m hm hnone
  simp only [List.mem_cons, List.not_mem_nil, or_false] at hm
  rcases hm with rfl | rfl | rfl | rfl
  · exact hpos
  · exact hpos
  · exact hpos
  · rw [commitEndLsn_commitMessage] at hnone
    exact absurd hnone (Option.some_ne_none t)

/-- A session over a new log. -/
def emptySession : Session UInt64 where
  txns := []
  head := 10
  start := 10
  queue := []
  pump := { log := emptyLog 1000, startLsn := 10 }
  view := { log := emptyLog 1000, startLsn := 10 }
  files := (emptyLog 1000).dir

/-- The messages of the transaction that ends at 20. -/
def rowMessages : List ReplMsg :=
  [.xLogData 0 (beginMessage 20 1), .xLogData 0 (relationMessage 1 "p" "u" ["a"]),
    .xLogData 0 (insertMessage 1 ["x"]), .xLogData 20 (commitMessage 20)]

/-- The slot has sent the transaction. -/
def rowSent : Session UInt64 :=
  { emptySession with txns := [20], head := 20, wire := rowMessages }

theorem rowSent_runs [Crc32c] : Session.Runs rowTxns emptySession rowSent := by
  have hcommit : Session.Runs rowTxns emptySession
      { emptySession with txns := [20], head := 20, queue := [20] } :=
    .single (.stream (.commit (t := 20) (by decide)))
  have hnext := hcommit.tail (.stream (.next rfl rfl ⟨by decide, rfl⟩))
  exact hnext.trans (Session.sends_runs rowTxns _)

theorem plain_start : letI := castagnoli
    letI := wholeFloats
    letI := listWriter
    Live.Start rowTxns plainPipeline [] { session := emptySession, pipe := plainPipeline } := by
  let _ := castagnoli
  let _ := wholeFloats
  let _ := listWriter
  have hstart : Session.Start rowTxns 10 emptySession :=
    .created (create_outcome 1000) rowTxns (Nat.le_refl 10)
  exact ⟨hstart, Pipeline.Fresh.behind ⟨rfl, rfl, rfl⟩ _⟩

/-- The rounds that store the transaction. -/
def rowRounds : List PumpEvent :=
  rowMessages.map fun msg => .message (some msg)

/-- The transaction is received, stored and applied. -/
theorem plain_runs : letI := castagnoli
    letI := wholeFloats
    letI := listWriter
    ∃ σ σ' : Live UInt64 (List Document × List Document),
      Live.Runs rowTxns { session := emptySession, pipe := plainPipeline } σ ∧
      Live.Runs rowTxns σ σ' ∧ σ.session.round = none ∧ σ'.session = σ.session ∧
      σ.session.txns = [20] ∧ Session.NoneSpilled σ.session.pump ∧
      σ.session.view.metrics.streamLsn = 20 ∧ σ.session.view.log.durable.lsn = 20 ∧
      σ'.pipe.appliedLsn = 20 := by
  let _ := castagnoli
  let _ := wholeFloats
  let _ := listWriter
  have hplay : ((rowSent.rounds rowRounds).any fun s =>
      s.txns = [20] ∧ s.pump.log.spill = [] ∧ s.view.metrics.streamLsn = 20 ∧
        s.view.log.durable.lsn = 20 ∧
        plainPipeline.TakesFrames (s.files.frames.drop plainPipeline.decoder.nextSeq) ∧
        (plainPipeline.tick s.files []).appliedLsn = 20) = true := by
    decide +kernel
  obtain ⟨s, hrounds, hcheck⟩ := (Option.any_eq_true _ _).mp hplay
  rw [decide_eq_true_eq] at hcheck
  obtain ⟨htxns, hspill, hstream, hdurable, htakes, happlied⟩ := hcheck
  obtain ⟨hruns, hidle⟩ := Session.rounds_runs rowTxns rfl hrounds
  have hsession : Live.Runs rowTxns { session := emptySession, pipe := plainPipeline }
      { session := s, pipe := plainPipeline } := Live.runs_of_session (rowSent_runs.trans hruns)
  have htick : Live.Runs rowTxns { session := s, pipe := plainPipeline }
      { session := s, pipe := plainPipeline.tick s.files [] } :=
    (GuardedRun.refl _).tail (a := .tick []) ⟨rfl, htakes⟩ Live.Step.tick
  refine ⟨_, _, hsession, htick, hidle, rfl, htxns, ?_, hstream, hdurable, happlied⟩
  intro frame hframe
  rw [hspill] at hframe
  exact absurd hframe List.not_mem_nil

/-! ## Strong reads -/

section Reads

variable [FloatText] [IndexWriter W] [Crc32c] {slot : Slot T} {p₀ : Pipeline W}

end Reads

end GrayDB.Studio
