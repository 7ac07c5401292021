import GrayDB.Lib.Guarded
import GrayDB.Log.TailReads

/-!
# A tail beside a live log

`TailStep` is a log and a tail that run beside each other.  The log goes through
its operations, and through crashes that recovery follows; the tail reads at any
moment, also in the middle of an operation.

* `TailInv` is the invariant of every run: what the tail sees is readable, the
  cursor stands behind the frames that the consumer holds, and no commit that the
  consumer holds is ever lost.
* `tail_exact` is the result: if every read finds the log as `Safe` asks, the
  consumer holds after each read exactly the frames in the files, in order.
* `tail_loses_frames` is a run in which a read does not, because recovery has cut
  frames off and others have taken their bytes before the tail looked.
-/

namespace GrayDB.Log

open Lib Lib.Crash FrameLog

/-! ## What grows under the reader -/

/-- Each segment is still there, with more bytes at its end. -/
def Grew (v v' : Dir) : Prop :=
  ∀ s ∈ v.segs, ∃ s' ∈ v'.segs, s'.1 = s.1 ∧ s.2.data <+: s'.2.data

instance : DecidableRel Grew := fun v v' =>
  inferInstanceAs (Decidable (∀ s ∈ v.segs, ∃ s' ∈ v'.segs, s'.1 = s.1 ∧ s.2.data <+: s'.2.data))

theorem Grew.refl (v : Dir) : Grew v v := fun s hs => ⟨s, hs, rfl, List.prefix_rfl⟩

theorem Grew.trans {v v' v'' : Dir} (h : Grew v v') (h' : Grew v' v'') : Grew v v'' := by
  intro s hs
  obtain ⟨s', hs', hname, hdata⟩ := h s hs
  obtain ⟨s'', hs'', hname', hdata'⟩ := h' s' hs'
  exact ⟨s'', hs'', hname'.trans hname, hdata.trans hdata'⟩

variable [Crc32c]

/-- The names of segments are not below that of the first one. -/
private theorem le_of_mem_segs {closed : List (List Frame)} {g : SegFile} {n : Nat}
    {s : Nat × SegFile} (hs : s ∈ closedSegs n closed ++ [(n + closed.flatten.length, g)]) :
    n ≤ s.1 := by
  induction closed generalizing n with
  | nil =>
    rw [closedSegs, List.nil_append, List.mem_singleton] at hs
    rw [hs]
    simp
  | cons fs closed ih =>
    rw [closedSegs_cons_last] at hs
    rcases List.mem_cons.mp hs with rfl | hs
    · exact Nat.le_refl n
    · exact Nat.le_trans (Nat.le_add_right n _) (ih hs)

private theorem exists_first_seg (closed : List (List Frame)) (g : SegFile) (n : Nat) :
    ∃ s ∈ closedSegs n closed ++ [(n + closed.flatten.length, g)], s.1 = n := by
  cases closed with
  | nil => exact ⟨(n, g), by simp [closedSegs], rfl⟩
  | cons fs closed =>
    rw [closedSegs_cons_last]
    exact ⟨_, List.mem_cons_self, rfl⟩

/-- Whole segments that grow stay as they are, and the last one gets more frames. -/
private theorem lists_of_grew {last last' : List Frame} {t t' : Bytes} {g g' : SegFile}
    (hdata : g.data = encodeFrames last ++ t) (hdata' : g'.data = encodeFrames last' ++ t')
    (ht' : Torn t') {closed : List (List Frame)} :
    ∀ {closed' : List (List Frame)} (n : Nat), (∀ fs ∈ closed, fs ≠ []) →
      (∀ fs ∈ closed', fs ≠ []) → (∀ f ∈ closed.flatten ++ last, f.Fits) →
      (∀ f ∈ closed'.flatten ++ last', f.Fits) →
      (∀ s ∈ closedSegs n closed ++ [(n + closed.flatten.length, g)],
        ∃ s' ∈ closedSegs n closed' ++ [(n + closed'.flatten.length, g')],
          s'.1 = s.1 ∧ s.2.data <+: s'.2.data) →
      ∃ more rest, closed' ++ [last'] = closed ++ more :: rest ∧ last <+: more := by
  induction closed with
  | nil =>
    intro closed' n _ hne' hfits hfits' hgrew
    have hlast : ∀ f ∈ last, f.Fits := fun f hf => hfits f (by simpa using hf)
    obtain ⟨s', hs', hname, hpre⟩ := hgrew (n, g) (by simp [closedSegs])
    replace hpre : encodeFrames last <+: s'.2.data :=
      (List.prefix_append _ t).trans (hdata ▸ hpre)
    cases closed' with
    | nil =>
      obtain rfl : s' = (n, g') := by simpa [closedSegs] using hs'
      rw [hdata'] at hpre
      exact ⟨last', [], rfl,
        isPrefix_of_encodeFrames hlast (fun f hf => hfits' f (by simpa using hf)) ht' hpre⟩
    | cons fs closed' =>
      have hpos : 0 < fs.length := List.length_pos_iff.mpr (hne' fs (by simp))
      rw [closedSegs_cons_last] at hs'
      rcases List.mem_cons.mp hs' with rfl | hs'
      · refine ⟨fs, closed' ++ [last'], rfl, ?_⟩
        exact isPrefix_of_encodeFrames hlast (fun f hf => hfits' f (by simp [hf])) torn_nil
          (by simpa using hpre)
      · have hle := le_of_mem_segs hs'
        rw [hname] at hle
        omega
  | cons fs closed ih =>
    intro closed' n hne hne' hfits hfits' hgrew
    have hpos : 0 < fs.length := List.length_pos_iff.mpr (hne fs (by simp))
    rw [closedSegs_cons_last] at hgrew
    obtain ⟨s, hs, hsname⟩ := exists_first_seg closed g (n + fs.length)
    obtain ⟨u, hu, huname, -⟩ := hgrew s (List.mem_cons_of_mem _ hs)
    cases closed' with
    | nil =>
      -- the segment behind `fs` has nowhere to be
      obtain rfl : u = (n, g') := by simpa [closedSegs] using hu
      rw [hsname] at huname
      omega
    | cons fs' closed' =>
      have hpos' : 0 < fs'.length := List.length_pos_iff.mpr (hne' fs' (by simp))
      rw [closedSegs_cons_last] at hgrew hu
      have hfs : fs <+: fs' := by
        obtain ⟨s', hs', hname, hpre⟩ := hgrew _ List.mem_cons_self
        rcases List.mem_cons.mp hs' with rfl | hs'
        · exact isPrefix_of_encodeFrames (fun f hf => hfits f (by simp [hf]))
            (fun f hf => hfits' f (by simp [hf])) torn_nil (by simpa using hpre)
        · have hle := le_of_mem_segs hs'
          dsimp only at hname
          omega
      have hlen : fs'.length ≤ fs.length := by
        rcases List.mem_cons.mp hu with rfl | hu
        · dsimp only at huname
          omega
        · have hle := le_of_mem_segs hu
          omega
      obtain rfl := hfs.eq_of_length_le hlen
      obtain ⟨more, rest, heq, hmore⟩ := ih (n + fs.length)
        (fun gs hgs => hne gs (List.mem_cons_of_mem fs hgs))
        (fun gs hgs => hne' gs (List.mem_cons_of_mem fs hgs))
        (fun f hf => hfits f (by simp only [List.flatten_cons, List.append_assoc, List.mem_append] at hf ⊢; exact Or.inr hf))
        (fun f hf => hfits' f (by simp only [List.flatten_cons, List.append_assoc, List.mem_append] at hf ⊢; exact Or.inr hf))
        fun w hw => by
          obtain ⟨w', hw', hname, hpre⟩ := hgrew w (List.mem_cons_of_mem _ hw)
          rcases List.mem_cons.mp hw' with rfl | hw'
          · have hle := le_of_mem_segs hw
            dsimp only at hname
            omega
          · exact ⟨w', hw', hname, hpre⟩
      exact ⟨more, rest, by rw [List.cons_append, heq, List.cons_append], hmore⟩

/-- The frames up to a cursor stay when the log grows. -/
theorem Grew.upTo_isPrefix {v v' : Dir} {closed closed' : List (List Frame)}
    {last last' : List Frame} {t t' : Bytes} {g g' : SegFile} (hgrew : Grew v v')
    (hv : Readable v closed last t g) (hv' : Readable v' closed' last' t' g') (name : Nat) :
    (v.upTo (some name)).frames <+: (v'.upTo (some name)).frames := by
  unfold Grew at hgrew
  rw [hv.segs, hv'.segs] at hgrew
  obtain ⟨more, rest, heq, hmore⟩ := lists_of_grew hv.data hv'.data hv'.torn 0 hv.closed_ne
    hv'.closed_ne hv.proper.fits hv'.proper.fits (by simpa using hgrew)
  rw [hv.upTo_frames, hv'.upTo_frames, heq]
  exact upToLists_mono hmore rest closed 0

/-- What grows keeps the commits of the consumer. -/
theorem KeepsCommits.grew {v v' : Dir} {closed closed' : List (List Frame)}
    {last last' : List Frame} {t t' : Bytes} {g g' : SegFile} (hv : Readable v closed last t g)
    (hv' : Readable v' closed' last' t' g') (hgrew : Grew v v') {tail : LogTail}
    {held : List Frame} (hm : Marks tail held) (hk : KeepsCommits v tail held) :
    KeepsCommits v' tail held := by
  rcases hm with ⟨-, rfl⟩ | ⟨before, as, -, hcur, -⟩
  · exact List.nil_prefix
  · rw [KeepsCommits, hcur] at hk
    rw [KeepsCommits, hcur]
    exact hk.trans (hgrew.upTo_isPrefix hv hv' _)

/-- What grows stays in its place. -/
theorem InPlace.grew {v v' : Dir} {closed closed' : List (List Frame)}
    {last last' : List Frame} {t t' : Bytes} {g g' : SegFile} (hv : Readable v closed last t g)
    (hv' : Readable v' closed' last' t' g') (hgrew : Grew v v') {tail : LogTail}
    {held : List Frame} (hm : Marks tail held) (h : InPlace v tail held) :
    InPlace v' tail held := by
  rcases hm with ⟨hcur, rfl⟩ | ⟨before, as, -, hcur, -⟩
  · exact ⟨by simp [hcur], List.nil_prefix⟩
  · rw [InPlace, hcur] at h
    rw [InPlace, hcur]
    refine ⟨?_, h.2.trans (hgrew.upTo_isPrefix hv hv' _)⟩
    rintro _ ⟨⟩
    obtain ⟨s, hs, hname⟩ := h.1 _ rfl
    obtain ⟨s', hs', hname', -⟩ := hgrew s hs
    exact ⟨s', hs', hname'.trans hname⟩

/-- After recovery the reader sees the segments that were kept, and an empty one. -/
theorem Resumed.readable {log : FrameLog} {L : List (List Frame)} (h : Resumed log L) :
    Readable log.dir (cutSegs L) [] [] .empty := by
  obtain ⟨l, hrep, hclosed, hkept, hcached⟩ := h.rep
  have hproper := hrep.proper
  have hsegs := hrep.segs
  rw [Layout.frames, hclosed, hkept, hcached] at hproper
  rw [Layout.segs, Layout.name, hclosed, hkept, hcached] at hsegs
  exact ⟨hclosed ▸ l.closed_ne, hproper, hsegs, rfl, torn_nil⟩

/-- Recovery keeps the commits of the consumer too. -/
theorem KeepsCommits.resumed {v : Dir} {closed : List (List Frame)} {last : List Frame}
    {t : Bytes} {g : SegFile} (hv : Readable v closed last t g) {log : FrameLog}
    (hres : Resumed log (closed ++ [last])) {tail : LogTail} {held : List Frame}
    (hm : Marks tail held) (hk : KeepsCommits v tail held) : KeepsCommits log.dir tail held := by
  rcases hm with ⟨-, rfl⟩ | ⟨before, as, -, hcur, -⟩
  · exact List.nil_prefix
  · rw [KeepsCommits, hcur, hv.upTo_frames] at hk
    rw [KeepsCommits, hcur, hres.readable.upTo_frames]
    rcases upToLists_cutSegs before.length 0 (closed ++ [last]) with h | h
    · rwa [h]
    · have hle : committed held <+: (closed ++ [last]).flatten :=
        hk.trans (upToLists_isPrefix _ _ _)
      rw [h, ← committed_committed held]
      exact uptoLast_mono hle

/-! ## The system -/

/-- What the process of the log is doing. -/
inductive Phase where
  | running (log : FrameLog)
  | writing (log : FrameLog) (op : LogOp)
  | stopped
  deriving DecidableEq, Repr

/-- A log, what its files show at the moment, and a tail with its consumer. -/
structure TailSys where
  phase : Phase
  view : Dir
  tail : LogTail := {}
  held : List Frame := []
  deriving DecidableEq, Repr

/-- Who takes a step. -/
inductive TailAct where
  | log
  | read
  deriving DecidableEq, Repr

/-- One step.  While an operation is under way the files can show any part of what it
has written, and a later look shows more. -/
inductive TailStep : TailAct → TailSys → TailSys → Prop
  | begin {σ : TailSys} {s : FrameLog} {op : LogOp} (hphase : σ.phase = .running s)
      (hop : op.Fits) : TailStep .log σ { σ with phase := .writing s op }
  | progress {σ : TailSys} {s m : FrameLog} {op : LogOp} {v : Dir}
      (hphase : σ.phase = .writing s op) (hm : m ∈ op.run.passes s) (hv : m.dir.CrashImage v)
      (hgrew : Grew σ.view v) : TailStep .log σ { σ with view := v }
  | finish {σ : TailSys} {s s' : FrameLog} {op : LogOp} (hphase : σ.phase = .writing s op)
      (hout : op.run.outcome s = some ((), s')) (hgrew : Grew σ.view s'.dir) :
      TailStep .log σ { σ with phase := .running s', view := s'.dir }
  | crash {σ : TailSys} : TailStep .log σ { σ with phase := .stopped }
  | resume {σ : TailSys} {segmentMaxBytes : Nat} {log : FrameLog} {disk : Disk}
      (hphase : σ.phase = .stopped)
      (hout : (resume segmentMaxBytes).outcome (some σ.view) = some (log, disk)) :
      TailStep .log σ { σ with phase := .running log, view := log.dir }
  | read {σ : TailSys} {batch : TailBatch} {tail : LogTail}
      (hread : σ.tail.readNew σ.view = (.ok batch, tail)) :
      TailStep .read σ { σ with tail, held := consume σ.held batch }
  | readFailed {σ : TailSys} {e : TailError} {tail : LogTail}
      (hread : σ.tail.readNew σ.view = (.error e, tail)) : TailStep .read σ { σ with tail }

/-- A tail that has not started, beside any log. -/
def TailSys.Fresh (σ : TailSys) : Prop :=
  ∃ log, Reachable (.running log) ∧ σ = { phase := .running log, view := log.dir }

/-- Every read finds the log as `Safe` asks. -/
def SafeReads : TailAct → TailSys → Prop
  | .read, σ => Safe σ.view σ.tail σ.held
  | .log, _ => True

def Phase.Inv : Phase → Prop
  | .running s => ∃ l spilled, Rep s l spilled
  | .writing s op => op.Fits ∧ ∃ l spilled, Rep s l spilled
  | .stopped => True

/-- The invariant of a run with safe reads. -/
structure TailInv (σ : TailSys) : Prop where
  phase : σ.phase.Inv
  readable : ∃ closed last t g, Readable σ.view closed last t g
  marks : Marks σ.tail σ.held
  keeps : KeepsCommits σ.view σ.tail σ.held

theorem TailSys.Fresh.inv {σ : TailSys} (h : σ.Fresh) : TailInv σ := by
  obtain ⟨log, hreach, rfl⟩ := h
  obtain ⟨l, spilled, hrep⟩ := hreach.inv
  exact ⟨⟨l, spilled, hrep⟩, hrep.toShows.readable (.refl _), Or.inl ⟨rfl, rfl⟩, List.nil_prefix⟩

/-- The view moves on, and the tail stays where it is. -/
theorem TailInv.grew {σ : TailSys} (h : TailInv σ) {v : Dir} {phase : Phase}
    (hphase : phase.Inv) (hv : ∃ closed last t g, Readable v closed last t g)
    (hgrew : Grew σ.view v) : TailInv { σ with phase, view := v } := by
  obtain ⟨_, _, _, _, hview⟩ := h.readable
  obtain ⟨closed, last, t, g, hv⟩ := hv
  exact ⟨hphase, ⟨closed, last, t, g, hv⟩, h.marks, h.keeps.grew hview hv hgrew h.marks⟩

/-- A safe read leaves the consumer with exactly the frames in the files. -/
theorem TailInv.read {σ σ' : TailSys} (h : TailInv σ) (hsafe : Safe σ.view σ.tail σ.held)
    (hread : TailStep .read σ σ') :
    TailInv σ' ∧ σ'.held = σ'.view.frames ∧ Proper σ'.held := by
  obtain ⟨closed, last, t, g, hview⟩ := h.readable
  obtain ⟨batch, hout, hheld, -⟩ := readNew_exact hview h.marks h.keeps hsafe
  cases hread with
  | read hread =>
    rw [hout] at hread
    obtain ⟨hbatch, rfl⟩ := Prod.mk.inj hread
    obtain rfl := Except.ok.inj hbatch
    refine ⟨⟨h.phase, h.readable, ?_, ?_⟩, hheld, ?_⟩
    · rw [hheld]
      exact hview.marks
    · rw [hheld]
      exact hview.keepsCommits _
    · rw [hheld, hview.frames]
      exact hview.proper
  | readFailed hread =>
    rw [hout] at hread
    simp at hread

/-- The invariant over one step. -/
theorem TailInv.step {σ σ' : TailSys} {a : TailAct} (h : TailInv σ) (hsafe : SafeReads a σ)
    (hstep : TailStep a σ σ') : TailInv σ' := by
  cases hstep with
  | begin hphase hop =>
    refine ⟨⟨hop, ?_⟩, h.readable, h.marks, h.keeps⟩
    have hrep := h.phase
    rwa [hphase] at hrep
  | progress hphase hm hv hgrew =>
    have hrep := h.phase
    rw [hphase] at hrep
    obtain ⟨hop, l, spilled, hrep⟩ := hrep
    obtain ⟨l', hshows⟩ := (LogOp.step hrep hop).1 _ hm
    exact h.grew h.phase (hshows.readable hv) hgrew
  | finish hphase hout hgrew =>
    have hrep := h.phase
    rw [hphase] at hrep
    obtain ⟨hop, l, spilled, hrep⟩ := hrep
    obtain ⟨l', spilled', hrep', -⟩ := (LogOp.step hrep hop).2 _ hout
    exact h.grew ⟨l', spilled', hrep'⟩ (hrep'.toShows.readable (.refl _)) hgrew
  | crash => exact ⟨trivial, h.readable, h.marks, h.keeps⟩
  | resume hphase hout =>
    obtain ⟨closed, last, t, g, hview⟩ := h.readable
    obtain ⟨-, hres⟩ := (resume_spec hview.recoverable _).of_outcome hout
    obtain ⟨l, hrep, -⟩ := hres.rep
    exact ⟨⟨l, [], hrep⟩, ⟨_, _, _, _, hres.readable⟩, h.marks, h.keeps.resumed hview hres h.marks⟩
  | read hread => exact (h.read hsafe (.read hread)).1
  | readFailed hread => exact (h.read hsafe (.readFailed hread)).1

/-! ## Runs played event by event -/

inductive TailEvent where
  | operation (op : LogOp)
  | crash
  | resume (segmentMaxBytes : Nat)
  | read
  deriving DecidableEq, Repr

/-- A whole operation, a crash, a recovery or a read. -/
def TailSys.play (σ : TailSys) : TailEvent → Option TailSys
  | .operation op =>
    match σ.phase with
    | .running s => do
      let ((), s') ← op.run.outcome s
      if op.Fits ∧ Grew σ.view s'.dir then
        some { σ with phase := .running s', view := s'.dir }
      else none
    | _ => none
  | .crash => some { σ with phase := .stopped }
  | .resume segmentMaxBytes =>
    match σ.phase with
    | .stopped => do
      let (log, _) ← (FrameLog.resume segmentMaxBytes).outcome (some σ.view)
      some { σ with phase := .running log, view := log.dir }
    | _ => none
  | .read =>
    match σ.tail.readNew σ.view with
    | (.ok batch, tail) => some { σ with tail, held := consume σ.held batch }
    | (.error _, tail) => some { σ with tail }

theorem TailSys.step_play_read (σ : TailSys) {σ' : TailSys} (h : σ.play .read = some σ') :
    TailStep .read σ σ' := by
  simp only [TailSys.play] at h
  split at h
  · rename_i hread
    obtain rfl := Option.some.inj h
    exact .read hread
  · rename_i hread
    obtain rfl := Option.some.inj h
    exact .readFailed hread

theorem TailSys.exists_play_read (σ : TailSys) : ∃ σ', σ.play .read = some σ' := by
  simp only [TailSys.play]
  split
  · exact ⟨_, rfl⟩
  · exact ⟨_, rfl⟩

theorem TailSys.run_play (σ : TailSys) (e : TailEvent) (σ' : TailSys)
    (h : σ.play e = some σ') : Run TailStep σ σ' := by
  unfold TailSys.play at h
  cases e with
  | operation op =>
    simp only at h
    split at h
    · rename_i s hphase
      obtain ⟨⟨⟨⟩, s'⟩, hout, h⟩ := Option.bind_eq_some_iff.mp h
      simp only at h
      split at h
      · rename_i hcond
        obtain rfl := Option.some.inj h
        have hbegin : TailStep .log σ { σ with phase := .writing s op } := .begin hphase hcond.1
        have hfinish : TailStep .log { σ with phase := .writing s op }
            { σ with phase := .running s', view := s'.dir } := .finish rfl hout hcond.2
        exact ((GuardedRun.refl σ).tail trivial hbegin).tail trivial hfinish
      · simp at h
    · simp at h
  | crash =>
    obtain rfl := Option.some.inj h
    exact (GuardedRun.refl σ).tail trivial .crash
  | resume segmentMaxBytes =>
    simp only at h
    split at h
    · rename_i hphase
      obtain ⟨⟨log, disk⟩, hout, h⟩ := Option.bind_eq_some_iff.mp h
      obtain rfl := Option.some.inj h
      exact (GuardedRun.refl σ).tail trivial (.resume hphase hout)
    · simp at h
  | read => exact (GuardedRun.refl σ).tail trivial (σ.step_play_read h)

/-! ## Exact reads -/

/-- In every run whose reads are safe, the consumer holds after each read exactly the
frames that are complete in the segment files, in sequence order. -/
theorem tail_exact {σ₀ σ σ' : TailSys} (hstart : σ₀.Fresh)
    (hrun : GuardedRun TailStep SafeReads σ₀ σ) (hsafe : SafeReads .read σ)
    (hread : TailStep .read σ σ') :
    σ'.held = σ'.view.frames ∧ ∀ (i : Nat) (f : Frame), σ'.held[i]? = some f → f.seq = i := by
  have hinv : TailInv σ := hrun.invariant (fun _ _ _ hg hs h => h.step hg hs) hstart.inv
  obtain ⟨-, hheld, hproper⟩ := hinv.read hsafe hread
  exact ⟨hheld, hproper.seq⟩

omit [Crc32c] in
/-- The first read of a log with one commit is safe. -/
theorem tail_exact_one_commit : letI := castagnoli
    ∃ σ σ' : TailSys, σ.Fresh ∧ TailStep .read σ σ' ∧ σ'.held = σ'.view.frames ∧
      ∀ (i : Nat) (f : Frame), σ'.held[i]? = some f → f.seq = i := by
  let _ := castagnoli
  obtain ⟨log, hreach, -⟩ := exists_one_commit
  obtain ⟨σ', hread⟩ := TailSys.exists_play_read { phase := .running log, view := log.dir }
  have hstep := TailSys.step_play_read _ hread
  refine ⟨_, σ', ⟨log, hreach, rfl⟩, hstep, tail_exact ⟨log, hreach, rfl⟩ (.refl _) ?_ hstep⟩
  exact Or.inl ⟨by simp, List.nil_prefix⟩

omit [Crc32c] in
/-- A commit and two frames of an open transaction are read.  The process crashes,
recovery empties the second segment, and the transaction comes again with a longer
second frame.  The next read finds no segment shorter than its cursor, and misses
the frame. -/
theorem tail_loses_frames : letI := castagnoli
    ∃ σ₀ σ σ' : TailSys, σ₀.Fresh ∧ Run TailStep σ₀ σ ∧ TailStep .read σ σ' ∧
      σ'.held.map Frame.payload = [[67], [66], [73]] ∧
      σ'.view.frames.map Frame.payload = [[67], [66], [82, 82]] := by
  let _ := castagnoli
  let events : List TailEvent := [.operation (.append 1 2 true [67]),
    .operation (.append 3 4 false [66]), .operation (.append 3 4 false [73]), .read, .crash,
    .resume 1, .operation (.append 3 4 false [66]), .operation (.append 3 4 false [82, 82])]
  have hplay : ((events.foldlM TailSys.play
      { phase := .running (emptyLog 1), view := (emptyLog 1).dir }).any fun σ =>
      (σ.play .read).any fun σ' => σ'.held.map Frame.payload = [[67], [66], [73]] ∧
        σ'.view.frames.map Frame.payload = [[67], [66], [82, 82]]) = true := by
    decide +kernel
  obtain ⟨σ, hrun, hread⟩ := (Option.any_eq_true _ _).mp hplay
  obtain ⟨σ', hread, hheld⟩ := (Option.any_eq_true _ _).mp hread
  rw [decide_eq_true_eq] at hheld
  exact ⟨_, σ, σ', ⟨_, .create (create_outcome 1), rfl⟩, GuardedRun.of_foldlM TailSys.run_play hrun,
    σ.step_play_read hread, hheld⟩

end GrayDB.Log
