import GrayDB.Ingest.Custody
import GrayDB.Ingest.Stream
import GrayDB.Log.TailRuns

/-!
# A session of the pump, as the other tasks see it

While the pump is in a round, the other tasks see its metrics and its mark as they are at some
call of the round, and of its files any part of what the call writes.

* `Session.Step` is one step of the source, the slot or the pump.
* `Inv.arrived`: all transactions up to a stream position that the other tasks can see have
  been taken off the wire.
* `Inv.mark` says what the durable mark of a pump between two rounds leaves out.
-/

namespace GrayDB.Ingest

open Lib Lib.Crash Log

/-- A session of the slot, and the pump. -/
structure Session (T : Type) extends Stream T where
  /-- The pump, as the last round has left it. -/
  pump : Pump
  /-- The round under way. -/
  round : Option PumpEvent := none
  /-- The pump, as the other tasks see it. -/
  view : Pump
  /-- The files, as the other tasks see them. -/
  files : Dir

namespace Session

section Model

variable [Crc32c] {T : Type}

inductive Step (slot : Slot T) : Session T → Session T → Prop
  | stream {σ : Session T} {stream : Stream T} (h : Stream.Step slot σ.toStream stream) :
      Step slot σ { σ with toStream := stream }
  | begin {σ : Session T} {e : PumpEvent} {wire : List ReplMsg} (hidle : σ.round = none)
      (hw : σ.wire = e.taken ++ wire) :
      Step slot σ { σ with toStream := σ.take e.taken wire, round := some e }
  | progress {σ : Session T} {e : PumpEvent} {t : Pump} {files : Dir} (hr : σ.round = some e)
      (ht : t ∈ (Pump.round e).passes σ.pump) (hfiles : t.log.dir.CrashImage files)
      (hgrew : Grew σ.files files) : Step slot σ { σ with view := t, files := files }
  | finish {σ : Session T} {e : PumpEvent} {p : Pump} (hr : σ.round = some e)
      (ho : (Pump.round e).outcome σ.pump = some (true, p)) (hgrew : Grew σ.files p.log.dir) :
      Step slot σ { σ with pump := p, round := none, view := p, files := p.log.dir }

/-- The data that the round under way has taken. -/
def inHand (σ : Session T) : List Data :=
  match σ.round with
  | some e => e.taken.filterMap ReplMsg.data
  | none => []

/-- The stream position behind the round under way. -/
def reached (σ : Session T) : Nat :=
  match σ.round with
  | some e => max σ.pump.metrics.streamLsn e.position
  | none => σ.pump.metrics.streamLsn

/-- What a pump between two rounds has. -/
structure Stored (p : Pump) (l : Layout) (spilled : List Frame) (ms : List Data) : Prop where
  rep : p.Rep l spilled
  mark : p.AtLast l
  frames : l.frames ++ spilled = logged ms

structure Inv (slot : Slot T) (lsn0 : Nat) (σ : Session T) : Prop where
  stream : σ.toStream.Inv slot lsn0
  start : σ.start = lsn0
  reached : σ.reached ≤ σ.head ∧ Stream.Arrived slot σ.start σ.txns σ.taken σ.reached
  pump : ∃ l spilled ms, Stored σ.pump l spilled ms ∧ σ.taken = ms ++ σ.inHand
  view : σ.view.metrics.streamLsn ≤ σ.reached
  idle : σ.round = none → σ.view = σ.pump
  readable : ∃ closed last t g, Readable σ.files closed last t g
  files : σ.files.frames <+: logged σ.taken

/-- A session over a log that holds whole transactions. -/
structure Start (slot : Slot T) (lsn0 : Nat) (σ : Session T) : Prop where
  ascending : slot.Ascending lsn0 σ.txns
  start : σ.start = lsn0
  low : lsn0 ≤ σ.head
  below : ∀ t ∈ σ.txns, slot.position t ≤ σ.head
  sent : ∃ ts blocks, σ.txns = ts ++ σ.queue ∧ List.Forall₂ slot.Sends ts blocks ∧
    blocks.flatten = σ.taken
  nothing : σ.sending = [] ∧ σ.wire = [] ∧ σ.round = none
  pump : ∃ l, Stored σ.pump l [] σ.taken
  metrics : σ.pump.metrics = {}
  view : σ.view = σ.pump
  files : σ.files = σ.pump.log.dir

end Model

/-! ## The steps -/

section Steps

variable [Crc32c] {T : Type} {slot : Slot T} {lsn0 : Nat} {σ σ' : Session T}

/-- The session over a new log. -/
theorem Start.created {segmentMaxBytes : Nat} {disk disk' : Disk} {log : FrameLog}
    (hr : (FrameLog.create segmentMaxBytes).outcome disk = some (log, disk')) (slot : Slot T)
    {head : Nat} (hlow : lsn0 ≤ head) :
    Start slot lsn0
      { txns := [], head := head, start := lsn0, queue := []
        pump := { log, startLsn := lsn0 }
        view := { log, startLsn := lsn0 }, files := log.dir } := by
  have hrep : Log.Rep log .empty [] := (create_spec segmentMaxBytes disk).of_outcome hr
  have hdurable : log.durable = {} := by
    obtain ⟨rfl, -⟩ := Prod.mk.inj (Option.some.inj hr)
    rfl
  refine ⟨⟨.nil, fun t ht => absurd ht List.not_mem_nil⟩, rfl, hlow,
    fun t ht => absurd ht List.not_mem_nil, ⟨[], [], rfl, .nil, rfl⟩, ⟨rfl, rfl, rfl⟩,
    ⟨.empty, ⟨hrep, fun st hst => absurd hst List.not_mem_nil⟩, hdurable, rfl⟩, rfl, rfl, rfl⟩

/-- The session over what a pump has left behind, wherever it was stopped. -/
theorem Start.resumed {s : Custody T} (hs : Custody.Reachable slot lsn0 s) {d : Dir}
    {sent : List StandbyStatus} (hp : s.holder = .stopped d sent) {segmentMaxBytes : Nat}
    {disk : Disk} {log : FrameLog}
    (hr : (FrameLog.resume segmentMaxBytes).outcome (some d) = some (log, disk)) {head : Nat}
    (hlow : lsn0 ≤ head) (hbelow : ∀ t ∈ s.txns, slot.position t ≤ head) :
    ∃ taken, Start slot lsn0
      { txns := s.txns, head := head, start := lsn0, taken := taken
        queue := s.txns.filter fun t => decide (max log.durable.lsn s.confirmed < slot.position t)
        pump := { log, startLsn := log.durable.lsn }
        view := { log, startLsn := log.durable.lsn }, files := log.dir } := by
  have hinv := hs.inv
  obtain ⟨l, ms, ts, blocks, hpumps, hlast⟩ :=
    (hinv.stopped hp).restart hinv.ascending hinv.low hr
  refine ⟨ms, hinv.ascending, rfl, hlow, hbelow, ⟨ts, blocks, hpumps.txns, hpumps.sends, ?_⟩,
    ⟨rfl, rfl, rfl⟩, ⟨l, hpumps.rep, hlast, hpumps.frames⟩, rfl, rfl, rfl⟩
  rw [hpumps.wire]
  exact List.append_nil ms

/-- The files of a new session hold what the log has been given. -/
theorem Start.frames (h : σ.Start slot lsn0) : σ.files.frames = logged σ.taken := by
  obtain ⟨l, hstored⟩ := h.pump
  rw [h.files, (hstored.rep.log.toShows.dir_frames).1, ← hstored.frames, List.append_nil]

theorem Start.inv (h : σ.Start slot lsn0) : Inv slot lsn0 σ := by
  obtain ⟨ts, blocks, htxns, hsends, hflat⟩ := h.sent
  obtain ⟨hsending, hwire, hround⟩ := h.nothing
  obtain ⟨l, hstored⟩ := h.pump
  have hreached : σ.reached = 0 := by
    rw [Session.reached, hround]
    dsimp only
    rw [h.metrics]
  refine
    { stream := .start h.ascending h.low h.below (htxns : σ.txns = [] ++ ts ++ σ.queue)
        (fun t ht => absurd ht List.not_mem_nil) hsends hflat hsending hwire
      start := h.start
      reached := ⟨hreached ▸ Nat.zero_le _, fun t ht _ hle => ?_⟩
      pump := ⟨l, [], σ.taken, hstored, ?_⟩
      view := ?_
      idle := fun _ => h.view
      readable := ?_
      files := h.frames ▸ List.prefix_rfl }
  · rw [hreached] at hle
    exact absurd (h.ascending.2 t ht) (Nat.not_lt.mpr (hle.trans (Nat.zero_le _)))
  · rw [inHand, hround, List.append_nil]
  · rw [h.view, h.metrics]
    exact Nat.zero_le _
  · rw [h.files]
    exact hstored.rep.log.toShows.readable (.refl _)

theorem Inv.toStream (h : Inv slot lsn0 σ) (ht : slot.Timely) {stream : Stream T}
    (hstep : Stream.Step slot σ.toStream stream) : Inv slot lsn0 { σ with toStream := stream } := by
  have hlater := hstep.later
  have htaken : stream.taken = σ.taken := by
    cases hstep with
    | _ => rfl
  refine { h with
    stream := h.stream.step ht hstep
    start := hlater.start.trans h.start
    reached := ⟨h.reached.1.trans hlater.head, hlater.arrived h.reached.1 h.reached.2⟩
    pump := ?_
    files := h.files.trans (logged_mono hlater.taken) }
  show ∃ l spilled ms, Stored σ.pump l spilled ms ∧ stream.taken = ms ++ σ.inHand
  rw [htaken]
  exact h.pump

/-- What an event carries has arrived when it is taken. -/
theorem Inv.taken (h : Inv slot lsn0 σ) {e : PumpEvent} {wire : List ReplMsg}
    (hw : σ.wire = e.taken ++ wire) : e.position ≤ σ.head ∧
      Stream.Arrived slot σ.start σ.txns (σ.take e.taken wire).taken e.position := by
  match e with
  | .message (some msg) => exact h.stream.taken hw
  | .message none | .changed _ | .tick =>
    refine ⟨Nat.zero_le _, fun t ht _ hle => ?_⟩
    exact absurd (h.stream.ascending.2 t ht) (Nat.not_lt.mpr (Nat.le_trans hle (Nat.zero_le _)))

theorem Inv.begin (h : Inv slot lsn0 σ) {e : PumpEvent} {wire : List ReplMsg}
    (hidle : σ.round = none) (hw : σ.wire = e.taken ++ wire) :
    Inv slot lsn0 { σ with toStream := σ.take e.taken wire, round := some e } := by
  obtain ⟨l, spilled, ms, hstored, htaken⟩ := h.pump
  have hlater : Stream.Later slot σ.toStream (σ.take e.taken wire) := Stream.take_later _ _ _
  have hreached : σ.reached = σ.pump.metrics.streamLsn := by rw [Session.reached, hidle]
  have hbefore := h.reached
  rw [hreached] at hbefore
  have hnew := h.taken hw
  rw [inHand, hidle, List.append_nil] at htaken
  refine { h with
    stream := h.stream.take hw
    reached := ⟨Nat.max_le.mpr ⟨hbefore.1, hnew.1⟩, ?_⟩
    pump := ⟨l, spilled, ms, hstored, by rw [Stream.take, htaken]; rfl⟩
    view := h.view.trans (hreached ▸ Nat.le_max_left _ _)
    idle := fun hnone => absurd hnone (Option.some_ne_none e)
    files := h.files.trans (logged_mono hlater.taken) }
  exact (hbefore.2.mono hlater.taken (Nat.le_refl _)).max hnew.2

/-- The messages of the slot are short enough for a frame. -/
theorem Inv.fits (h : Inv slot lsn0 σ) {e : PumpEvent} (hr : σ.round = some e) : e.Fits := by
  obtain ⟨l, spilled, ms, -, htaken⟩ := h.pump
  rw [inHand, hr] at htaken
  match e with
  | .message (some (.xLogData walStart payload)) =>
    refine h.stream.fits (walStart, payload) ?_
    rw [htaken]
    simp [PumpEvent.taken, ReplMsg.data]
  | .message (some (.keepalive _ _)) | .message none | .changed _ | .tick => exact trivial

theorem Inv.progress (h : Inv slot lsn0 σ) {e : PumpEvent} {t : Pump} {files : Dir}
    (hr : σ.round = some e) (ht : t ∈ (Pump.round e).passes σ.pump)
    (hfiles : t.log.dir.CrashImage files) :
    Inv slot lsn0 { σ with view := t, files := files } := by
  obtain ⟨l, spilled, ms, hstored, htaken⟩ := h.pump
  obtain ⟨l', hseen⟩ := (Pump.round_step hstored.rep (h.fits hr)).1 t ht
  have hall : l.frames ++ spilled ++ e.frames σ.pump.log.nextSeq = logged σ.taken := by
    rw [hstored.rep.log.nextSeq, Custody.frames_taken e hstored.frames, htaken, inHand, hr]
  obtain ⟨-, -, -, -, -, hframes⟩ := hseen.shows.crash_frames hfiles
  refine { h with
    view := ?_
    idle := fun hnone => absurd (hr.symm.trans hnone) (Option.some_ne_none e)
    readable := hseen.shows.readable hfiles
    files := hall ▸ hframes.trans hseen.within.frames }
  show t.metrics.streamLsn ≤ σ.reached
  rw [hseen.streamLsn, Session.reached, hr]

theorem Inv.finish (h : Inv slot lsn0 σ) {e : PumpEvent} {p : Pump} (hr : σ.round = some e)
    (ho : (Pump.round e).outcome σ.pump = some (true, p)) :
    Inv slot lsn0 { σ with pump := p, round := none, view := p, files := p.log.dir } := by
  obtain ⟨l, spilled, ms, hstored, htaken⟩ := h.pump
  obtain ⟨l', spilled', hm⟩ := (Pump.round_step hstored.rep (h.fits hr)).2 true p ho
  have hall : l'.frames ++ spilled' = logged σ.taken := by
    rw [hm.frames, hstored.rep.log.nextSeq, Custody.frames_taken e hstored.frames, htaken, inHand,
      hr]
  have hreached : p.metrics.streamLsn = σ.reached := by rw [hm.streamLsn, Session.reached, hr]
  have hbefore := h.reached
  rw [← hreached] at hbefore
  refine { h with
    reached := hbefore
    pump := ⟨l', spilled', σ.taken, ⟨hm.rep, hm.mark hstored.mark, hall⟩, ?_⟩
    view := Nat.le_refl _
    idle := fun _ => rfl
    readable := hm.rep.log.toShows.readable (.refl _)
    files := ?_ }
  · exact (List.append_nil _).symm
  · rw [(hm.rep.log.toShows.dir_frames).1, ← hall]
    exact List.prefix_append _ _

theorem Inv.step (h : Inv slot lsn0 σ) (ht : slot.Timely) (hstep : Step slot σ σ') :
    Inv slot lsn0 σ' := by
  cases hstep with
  | stream hstep => exact h.toStream ht hstep
  | begin hidle hw => exact h.begin hidle hw
  | progress hr hp hfiles _ => exact h.progress hr hp hfiles
  | finish hr ho _ => exact h.finish hr ho

/-! ## Later states -/

/-- A later state of the stream, with files that have grown. -/
structure Later (slot : Slot T) (σ σ' : Session T) : Prop where
  stream : Stream.Later slot σ.toStream σ'.toStream
  files : Grew σ.files σ'.files

omit [Crc32c] in
theorem Later.refl (σ : Session T) : Later slot σ σ := ⟨.refl _, .refl _⟩

omit [Crc32c] in
theorem Later.trans {τ : Session T} (h : Later slot σ σ') (h' : Later slot σ' τ) :
    Later slot σ τ :=
  ⟨h.stream.trans h'.stream, Grew.trans h.files h'.files⟩

theorem Step.later (hstep : Step slot σ σ') : Later slot σ σ' := by
  cases hstep with
  | stream hstep => exact ⟨hstep.later, .refl _⟩
  | begin _ _ => exact ⟨Stream.take_later _ _ _, .refl _⟩
  | progress _ _ _ hgrew => exact ⟨.refl _, hgrew⟩
  | finish _ _ hgrew => exact ⟨.refl _, hgrew⟩

/-! ## The frames of the session -/

/-- The pump counts the messages that it has stored since the log held `old`. -/
def Counts (old : List Data) (σ : Session T) : Prop :=
  ∃ new, σ.taken = old ++ new ++ σ.inHand ∧ σ.pump.metrics.frames = new.length

theorem Start.counts (h : σ.Start slot lsn0) : Counts σ.taken σ := by
  refine ⟨[], ?_, ?_⟩
  · rw [inHand, h.nothing.2.2, List.append_nil, List.append_nil]
  · rw [h.metrics]
    rfl

theorem Counts.step {old : List Data} (h : Counts old σ) (hstep : Step slot σ σ') :
    Counts old σ' := by
  obtain ⟨new, htaken, hframes⟩ := h
  cases hstep with
  | stream hstep =>
    refine ⟨new, ?_, hframes⟩
    cases hstep with
    | _ => exact htaken
  | begin hidle hw =>
    rw [inHand, hidle, List.append_nil] at htaken
    exact ⟨new, by rw [Stream.take, htaken]; rfl, hframes⟩
  | @finish e p hr ho _ =>
    rw [inHand, hr] at htaken
    refine ⟨new ++ e.taken.filterMap ReplMsg.data, ?_, ?_⟩
    · show σ.taken = old ++ (new ++ _) ++ []
      rw [htaken, List.append_nil, List.append_assoc]
    · show p.metrics.frames = _
      rw [(Pump.round_counts e).of_outcome ho, hframes, List.length_append]
  | _ => exact ⟨new, htaken, hframes⟩

/-! ## What the other tasks can tell -/

theorem Inv.begins (h : Inv slot lsn0 σ) : slot.Begins σ.txns σ.taken := h.stream.begins h.start

theorem Inv.above (h : Inv slot lsn0 σ) : ∀ t ∈ σ.txns, σ.start < slot.position t := by
  rw [h.start]
  exact h.stream.ascending.2

/-- All transactions up to the stream position that is seen have been received. -/
theorem Inv.arrived (h : Inv slot lsn0 σ) {lsn : Nat} (hle : lsn ≤ σ.view.metrics.streamLsn) :
    lsn ≤ σ.head ∧ Stream.Arrived slot σ.start σ.txns σ.taken lsn := by
  have hreached := hle.trans h.view
  exact ⟨hreached.trans h.reached.1, h.reached.2.mono List.prefix_rfl hreached⟩

/-- Between two rounds the mark is at the start of all positions, or at a commit that has been
received. -/
theorem Inv.mark_mem (h : Inv slot lsn0 σ) (hidle : σ.round = none) :
    σ.view.log.durable.lsn = 0 ∨ σ.view.log.durable.lsn ∈ ends σ.taken := by
  obtain ⟨l, spilled, ms, hstored, htaken⟩ := h.pump
  rw [inHand, hidle, List.append_nil] at htaken
  rw [h.idle hidle]
  cases hv : σ.pump.log.durable.valid with
  | true =>
    have hcommit := hstored.rep.log.mark hv
    obtain ⟨ms', hms', hlogged⟩ := exists_logged
      (l.durableFrames_isPrefix.trans ⟨spilled, hstored.frames⟩)
    rw [hlogged] at hcommit
    exact Or.inr ((ends_mono (htaken ▸ hms')).subset (mem_ends hcommit))
  | false =>
    rw [hstored.mark] at hv ⊢
    cases hlast : lastCommit l.frames with
    | none => exact Or.inl rfl
    | some q =>
      rw [hlast] at hv
      exact absurd hv.symm Bool.false_ne_true

/-- No commit waits in the spill. -/
def NoneSpilled (p : Pump) : Prop :=
  ∀ frame ∈ p.log.spill, FrameLog.commitOfEncoded frame = none

/-- Between two rounds the mark is at the last commit that is received, unless one is
spilled. -/
theorem Inv.mark (h : Inv slot lsn0 σ) (hidle : σ.round = none) (hnone : NoneSpilled σ.pump) :
    σ.view.log.durable.lsn = (ends σ.taken).getLastD 0 := by
  obtain ⟨l, spilled, ms, hstored, htaken⟩ := h.pump
  rw [inHand, hidle, List.append_nil] at htaken
  have hspilled : lastCommit spilled = none := by
    cases hlast : lastCommit spilled with
    | none => rfl
    | some q =>
      obtain ⟨f, hf, hc, -⟩ := exists_of_lastCommit hlast
      have hmem : encodeFrame f ∈ σ.pump.log.spill := by
        rw [hstored.rep.log.spill]
        exact List.mem_map_of_mem hf
      have hfits := hstored.rep.log.all.fits f (List.mem_append_right _ hf)
      have hcommit := hnone _ hmem
      rw [commitOfEncoded_encodeFrame hfits, commitOf, if_pos hc] at hcommit
      exact absurd hcommit (Option.some_ne_none _)
  have hall : lastCommit (logged σ.taken) = lastCommit l.frames := by
    rw [htaken, ← hstored.frames, lastCommit_append, hspilled, Option.none_or]
  rw [h.idle hidle, hstored.mark, ← reach_logged, reach, hall]
  cases lastCommit l.frames with
  | none => rfl
  | some q => rfl

/-! ## Runs played round by round -/

/-- A run of the source, the slot and the pump. -/
abbrev Runs (slot : Slot T) : Session T → Session T → Prop := Relation.ReflTransGen (Step slot)

/-- The slot sends what is left of the transaction. -/
theorem sends_runs (slot : Slot T) (σ : Session T) :
    Runs slot σ
      { σ with
        sending := []
        wire := σ.wire ++ σ.sending.map fun m => ReplMsg.xLogData m.1 m.2 } := by
  obtain ⟨⟨txns, head, start, queue, sending, wire, taken⟩, pump, round, view, files⟩ := σ
  induction sending generalizing wire with
  | nil =>
    rw [List.map_nil, List.append_nil]
  | cons m rest ih =>
    have hrest := ih (wire ++ [.xLogData m.1 m.2])
    rw [List.append_assoc] at hrest
    exact .head (.stream (.send rfl)) hrest

/-- Rounds that no one looks into. -/
def rounds (σ : Session T) : List PumpEvent → Option (Session T)
  | [] => some σ
  | e :: es =>
    ((Pump.round e).outcome σ.pump).bind fun r =>
      if r.1 = true ∧ e.taken <+: σ.wire ∧ Grew σ.files r.2.log.dir then
        rounds
          { σ with
            toStream := σ.take e.taken (σ.wire.drop e.taken.length)
            pump := r.2
            view := r.2
            files := r.2.log.dir } es
      else none

theorem rounds_runs (slot : Slot T) {es : List PumpEvent} (hidle : σ.round = none)
    (h : σ.rounds es = some σ') : Runs slot σ σ' ∧ σ'.round = none := by
  induction es generalizing σ with
  | nil =>
    obtain rfl := Option.some.inj h
    exact ⟨.refl, hidle⟩
  | cons e es ih =>
    rw [rounds] at h
    obtain ⟨⟨go, p⟩, hout, hrest⟩ := Option.bind_eq_some_iff.mp h
    split at hrest
    · rename_i hgo
      obtain ⟨rfl, ⟨wire, hw⟩, hgrew⟩ := hgo
      obtain ⟨hruns, hlast⟩ := ih (by exact hidle) hrest
      have hdrop : σ.wire.drop e.taken.length = wire := by rw [← hw, List.drop_left]
      rw [hidle, hdrop] at hruns
      have hbegin : Step slot σ { σ with toStream := σ.take e.taken wire, round := some e } :=
        .begin hidle hw.symm
      have hfinish := Relation.ReflTransGen.head hbegin (.single (.finish rfl hout hgrew))
      exact ⟨hfinish.trans hruns, hlast⟩
    · exact absurd hrest (Option.some_ne_none _).symm

end Steps

end Session

end GrayDB.Ingest
