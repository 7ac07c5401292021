import GrayDB.R1.ControllerSteps

/-!
# Runs of the controller

Whatever fails in the calls of a controller, and wherever it is stopped, `run-state.json`
holds a state of the run between two transitions: `Kept` says this of each world that a
call passes.  A turn of the loop completes at most one stage, and there are turns enough.

`Told` follows the report: if the run is invalid and its report completed, the report was
begun with the invalidations.  This holds of calls that bring no first invalidation too late,
which is what `Runtime.Timely` says of a runtime.
-/

namespace GrayDB.R1.Controller

open Lib.Crash Relation

/-- The last execution of the report. -/
def lastReport (begun : List StageBegun) : Option StageBegun :=
  (begun.filter fun b => b.stage = .report).getLast?

/-- The report of an invalid run was begun with its invalidations. -/
def Told (s : RunState) (begun : List StageBegun) : Prop :=
  s.isInvalid = true → s.completed .report = true →
    ∃ b, lastReport begun = some b ∧ b.invalidations ≠ []

/-- The files hold states of the run, the synced one before the visible one, and this one before
the one in memory.  What changes since `base` comes later.  `t` says whether reports are
followed. -/
structure Kept (t : Prop) (runId : String) (base w : World) : Prop where
  reached : Reached runId w.state
  since : Steps base.state w.state ∧ (w.disk.stateFile = base.disk.stateFile ∨
    ∃ s, w.disk.stateFile = some (.whole s) ∧ Steps base.state s)
  file : ∀ c ∈ w.disk.stateFile, ∃ s, c = .whole s ∧ Reached runId s ∧ Steps s w.state
  durable : ∀ c ∈ w.disk.durable, ∃ s, c = .whole s ∧ Reached runId s ∧ Steps s w.state ∧
    ∀ f, w.disk.stateFile = some (.whole f) → Steps s f
  told : t → Told w.state w.begun ∧
    ∀ s, w.disk.stateFile = some (.whole s) ∨ w.disk.durable = some (.whole s) → Told s w.begun

namespace Kept

variable {t : Prop} {runId : String} {base : World} {w : World}

/-- The state in memory makes a transition. -/
theorem step (h : Kept t runId base w) {s' : RunState} (hs : Transition w.state s')
    (htold : t → Told s' w.begun) : Kept t runId base { w with state := s' } where
  reached := h.reached.tail hs
  since := ⟨h.since.1.tail hs, h.since.2⟩
  file c hc := by
    obtain ⟨s, rfl, hreached, hsteps⟩ := h.file c hc
    exact ⟨s, rfl, hreached, hsteps.tail hs⟩
  durable c hc := by
    obtain ⟨s, rfl, hreached, hsteps, hfile⟩ := h.durable c hc
    exact ⟨s, rfl, hreached, hsteps.tail hs, hfile⟩
  told ht := ⟨htold ht, (h.told ht).2⟩

/-- A stage is executed.  An execution of the report comes before its completion. -/
theorem execute (h : Kept t runId base w) {stage : RunStage}
    (hopen : w.state.completed stage = false) :
    Kept t runId base { w with begun := w.begun ++ [⟨stage, w.state.invalidations⟩] } where
  reached := h.reached
  since := h.since
  file := h.file
  durable := h.durable
  told ht := by
    have hother : ∀ s, Steps s w.state → Told s w.begun →
        Told s (w.begun ++ [⟨stage, w.state.invalidations⟩]) := by
      intro s hsteps htold hinvalid hreport
      have hne : stage ≠ .report := by
        rintro rfl
        rw [hsteps.keeps.1 _ hreport] at hopen
        exact absurd hopen (by simp)
      obtain ⟨b, hb, hnonempty⟩ := htold hinvalid hreport
      refine ⟨b, ?_, hnonempty⟩
      rw [← hb, lastReport, List.filter_append, List.filter_cons_of_neg (by simpa using hne),
        List.filter_nil, List.append_nil]
      rfl
    obtain ⟨hstate, hfiles⟩ := h.told ht
    refine ⟨hother _ .refl hstate, fun s hs => hother s ?_ (hfiles s hs)⟩
    rcases hs with hs | hs
    · obtain ⟨_, heq, -, hsteps⟩ := h.file _ hs
      obtain rfl := StateText.whole.inj heq
      exact hsteps
    · obtain ⟨_, heq, -, hsteps, -⟩ := h.durable _ hs
      obtain rfl := StateText.whole.inj heq
      exact hsteps

/-- A world with other partial file. -/
theorem partialFile (h : Kept t runId base w) (c : Option StateText) :
    Kept t runId base { w with disk.partialFile := c } :=
  ⟨h.reached, h.since, h.file, h.durable, h.told⟩

/-- The file is replaced by one with the state in memory. -/
theorem rename (h : Kept t runId base w) (c : Option StateText) : Kept t runId base
    { w with disk := { w.disk with stateFile := some (.whole w.state), partialFile := c } } where
  reached := h.reached
  since := ⟨h.since.1, .inr ⟨w.state, rfl, h.since.1⟩⟩
  file c hc := ⟨w.state, (Option.some.inj hc).symm, h.reached, .refl⟩
  durable c hc := by
    obtain ⟨s, rfl, hreached, hsteps, -⟩ := h.durable c hc
    refine ⟨s, rfl, hreached, hsteps, fun f hf => ?_⟩
    obtain rfl := StateText.whole.inj (Option.some.inj hf)
    exact hsteps
  told ht := by
    obtain ⟨hstate, hfiles⟩ := h.told ht
    refine ⟨hstate, fun s hs => ?_⟩
    rcases hs with hs | hs
    · obtain rfl := StateText.whole.inj (Option.some.inj hs)
      exact hstate
    · exact hfiles s (.inr hs)

/-- The file is synced. -/
theorem sync (h : Kept t runId base w) :
    Kept t runId base { w with disk.durable := w.disk.stateFile } where
  reached := h.reached
  since := h.since
  file := h.file
  durable c hc := by
    obtain ⟨s, rfl, hreached, hsteps⟩ := h.file c hc
    refine ⟨s, rfl, hreached, hsteps, fun f hf => ?_⟩
    obtain rfl := StateText.whole.inj (Option.some.inj (hc.symm.trans hf))
    exact .refl
  told ht := by
    obtain ⟨hstate, hfiles⟩ := h.told ht
    exact ⟨hstate, fun s hs => hfiles s (.inl (hs.elim id id))⟩

end Kept

/-! ## The report and the invalidation -/

section Told

variable {s : RunState} {begun : List StageBegun} {stage : RunStage}

private theorem isInvalid_iff : s.isInvalid = true ↔ s.invalidations ≠ [] := by
  unfold RunState.isInvalid
  simp

theorem Told.start (h : Told s begun) (inputHashes : List (String × String)) (now : Nat) :
    Told (s.start stage inputHashes now) begun := by
  intro hinvalid hreport
  rw [RunState.start_completed] at hreport
  split at hreport
  · exact absurd hreport (by simp)
  · exact h hinvalid hreport

theorem Told.invalidate (h : Told s begun)
    (hvalid : s.isInvalid = false → s.completed .report = false) (reason : RunInvalidation) :
    Told (s.invalidate reason) begun := by
  intro _ hreport
  rw [RunState.invalidate_completed] at hreport
  cases hinvalid : s.isInvalid with
  | true => exact h hinvalid hreport
  | false =>
    rw [hvalid hinvalid] at hreport
    exact absurd hreport (by simp)

/-- A stage ends.  When it is the report, it was begun with the invalidations that there
still are. -/
theorem Told.finish (h : Told s begun) {record : StageRecord} {outcome : StageOutcome} {now : Nat}
    (hlast : stage = .report → lastReport begun = some ⟨stage, s.invalidations⟩)
    (hvalid : s.isInvalid = false → outcome.valid = false →
      s.completed .report = false ∧ stage ≠ .report) :
    Told (s.finish stage record outcome now) begun := by
  intro hinvalid' hreport
  rw [RunState.finish_completed] at hreport
  rw [RunState.finish_isInvalid] at hinvalid'
  cases hinvalid : s.isInvalid with
  | true =>
    by_cases hstage : stage = .report
    · exact ⟨_, hlast hstage, isInvalid_iff.mp hinvalid⟩
    · rw [if_neg (Ne.symm hstage)] at hreport
      exact h hinvalid hreport
  | false =>
    have hout : outcome.valid = false := by simpa [hinvalid] using hinvalid'
    obtain ⟨hnot, hne⟩ := hvalid hinvalid hout
    rw [if_neg (Ne.symm hne), hnot] at hreport
    exact absurd hreport (by simp)

/-- While the run is valid, a completed report is followed by the checksums and the end. -/
theorem not_reported (hsound : Sound s) (hvalid : s.isInvalid = false)
    (hnext : s.nextStage = some stage) (hchecksums : stage ≠ .checksums)
    (hcomplete : stage ≠ .complete) : s.completed .report = false := by
  obtain ⟨k, hk⟩ := hsound.inOrder hvalid
  rw [hk.nextStage hvalid] at hnext
  by_contra hreport
  have hmem := (hk .report).mp (by simpa using hreport)
  have hlt : 12 < k := by
    by_contra hle
    have hsub := List.take_subset_take_left RunStage.ordered (by omega : k ≤ 12)
    exact absurd (hsub hmem) (by decide)
  obtain ⟨hlen, -⟩ := List.getElem?_eq_some_iff.mp hnext
  have hlen : k < 15 := hlen
  obtain rfl | rfl : k = 13 ∨ k = 14 := by omega
  · exact hchecksums (Option.some.inj hnext).symm
  · exact hcomplete (Option.some.inj hnext).symm

end Told

/-- While no invalidation is there yet, the report has no invalid outcome, and the stages
behind it neither fail nor have one. -/
def Runtime.Timely (runtime : Runtime) : Prop :=
  ∀ n (context : StageContext), context.invalidations = [] →
    (context.stage = .report →
      ∀ outcome, runtime.executeStage n context = .ok outcome → outcome.valid = true) ∧
    (context.stage = .checksums ∨ context.stage = .complete →
      ∃ outcome, runtime.executeStage n context = .ok outcome ∧ outcome.valid = true)

/-! ## Calls -/

section Calls

variable {t : Prop} {runId : String} {base : World} {w : World} {faults : List Outcome} {stage : RunStage}

/-- The worlds behind a call that leaves the state and the executions as they are. -/
def Same (t : Prop) (runId : String) (base : World) (w x : World) : Prop :=
  Kept t runId base x ∧ x.state = w.state ∧ x.begun = w.begun

theorem persist_spec (h : Kept t runId base w) :
    Fallible persist w faults (Same t runId base w) (fun _ x _ => Same t runId base w x)
      (Same t runId base w) := by
  have hpart : ∀ c, Same t runId base w { w with disk.partialFile := c } := fun c =>
    ⟨h.partialFile c, rfl, rfl⟩
  have hrenamed : Same t runId base w
      { w with disk := { w.disk with stateFile := some (.whole w.state), partialFile := none } } :=
    ⟨h.rename none, rfl, rfl⟩
  refine Fallible.bind (Q := fun _ x _ => x = { w with disk.partialFile := some (.cut w.state 0) })
    (Fallible.call (fun _ => ⟨hpart _, rfl⟩) fun _ _ => ⟨⟨h, rfl, rfl⟩, ⟨h, rfl, rfl⟩⟩) ?_
  rintro _ _ faults rfl
  refine Fallible.bind (Q := fun _ x _ => x = { w with disk.partialFile := some (.whole w.state) })
    (Fallible.call (fun _ => ⟨hpart _, rfl⟩) fun _ _ => ⟨hpart _, hpart _⟩) ?_
  rintro _ _ faults rfl
  refine Fallible.bind (Q := fun _ x _ => x = { w with disk.partialFile := some (.whole w.state) })
    (Fallible.call (fun _ => ⟨hpart _, rfl⟩) fun _ _ => ⟨hpart _, hpart _⟩) ?_
  rintro _ _ faults rfl
  refine Fallible.bind (Q := fun _ x _ => x = { w with disk :=
      { w.disk with stateFile := some (.whole w.state), partialFile := none } })
    (Fallible.call (fun _ => ⟨hrenamed, rfl⟩) fun _ _ => ⟨hpart _, hpart _⟩) ?_
  rintro _ _ faults rfl
  exact Fallible.call (fun _ => ⟨⟨hrenamed.1.sync, rfl, rfl⟩, ⟨hrenamed.1.sync, rfl, rfl⟩⟩)
    fun _ _ => ⟨hrenamed, hrenamed⟩

theorem emitStage_spec (h : Kept t runId base w) :
    Fallible emitStage w faults (Same t runId base w) (fun _ x _ => Same t runId base w x)
      (Same t runId base w) :=
  Fallible.call (fun _ => ⟨⟨h, rfl, rfl⟩, ⟨h, rfl, rfl⟩⟩) fun _ _ => ⟨⟨h, rfl, rfl⟩, ⟨h, rfl, rfl⟩⟩

/-- The state is persisted, and an event emitted. -/
theorem record_spec (h : Kept t runId base w) :
    Fallible (do persist; emitStage) w faults (Same t runId base w) (fun _ x _ => Same t runId base w x)
      (Same t runId base w) := by
  refine Fallible.bind (persist_spec h) ?_
  rintro _ x faults ⟨hkept, hstate, hbegun⟩
  have hsame : ∀ y, Same t runId base x y → Same t runId base w y := fun y hy =>
    ⟨hy.1, hy.2.1.trans hstate, hy.2.2.trans hbegun⟩
  exact (emitStage_spec hkept).imp hsame (fun _ y _ hy => hsame y hy) hsame

theorem assertStageAllowed_spec {V : World → Prop} : Fallible (assertStageAllowed stage) w faults V
    (fun _ x _ => x = w ∧ w.state.nextStage = some stage) (fun x => x = w) := by
  refine Fallible.bind_get ?_
  split
  · exact Fallible.throw rfl
  · cases hnext : w.state.nextStage with
    | none => exact Fallible.throw rfl
    | some expected =>
      dsimp only
      split
      · exact Fallible.throw rfl
      · rename_i heq
        exact Fallible.pure ⟨rfl, by rw [not_not.mp heq]⟩

/-- The worlds of a call that adds at most one completed stage. -/
def Onward (t : Prop) (runId : String) (base : World) (w : World) (stage : RunStage) (x : World) : Prop :=
  Kept t runId base x ∧ ∀ st, x.state.completed st = true → w.state.completed st = true ∨ st = stage

theorem beginStage_spec (h : Kept t runId base w)
    (hplan : w.state.isInvalid = true ∨ w.state.plan.isSome = true)
    (inputHashes : List (String × String)) (now : Nat) :
    Fallible (beginStage stage inputHashes now) w faults
      (fun x => Onward t runId base w stage x ∧ x.begun = w.begun)
      (fun _ x _ => Kept t runId base x ∧ x.begun = w.begun ∧ w.state.nextStage = some stage ∧
        x.state = w.state.start stage inputHashes now)
      (fun x => Onward t runId base w stage x ∧ x.begun = w.begun) := by
  refine Fallible.bind (assertStageAllowed_spec.mono (fun _ _ _ h => h) ?_) ?_
  · rintro _ rfl
    exact ⟨⟨h, fun _ hst => .inl hst⟩, rfl⟩
  · rintro _ x faults ⟨rfl, hnext⟩
    have hstart := h.step (.start inputHashes now hnext hplan) fun ht =>
      (h.told ht).1.start inputHashes now
    have honward : ∀ y, Same t runId base { x with state := x.state.start stage inputHashes now } y →
        Onward t runId base x stage y ∧ y.begun = x.begun := by
      rintro y ⟨hkept, hstate, hbegun⟩
      refine ⟨⟨hkept, fun st hst => .inl ?_⟩, hbegun⟩
      rw [hstate] at hst
      have hst : (x.state.start stage inputHashes now).completed st = true := hst
      rw [RunState.start_completed] at hst
      split at hst
      · exact absurd hst (by simp)
      · exact hst
    refine Fallible.bind_modify ((record_spec hstart).imp honward ?_ honward)
    rintro _ y _ ⟨hkept, hstate, hbegun⟩
    exact ⟨hkept, hbegun, hnext, hstate⟩

theorem completeStage_spec (h : Kept t runId base w) {outcome : StageOutcome} {now : Nat}
    (htold : t → ∀ record, Told (w.state.finish stage record outcome now) w.begun) :
    Fallible (completeStage stage outcome now) w faults
      (fun x => Onward t runId base w stage x ∧ x.begun = w.begun)
      (fun _ x _ => (Onward t runId base w stage x ∧ x.begun = w.begun) ∧
        w.state.completed stage = false ∧ x.state.completed stage = true ∧ Steps w.state x.state)
      (fun x => Onward t runId base w stage x ∧ x.begun = w.begun) := by
  have hself : Onward t runId base w stage w ∧ w.begun = w.begun :=
    ⟨⟨h, fun _ hst => .inl hst⟩, rfl⟩
  refine Fallible.bind (assertStageAllowed_spec.mono (fun _ _ _ h => h) ?_) ?_
  · rintro _ rfl
    exact hself
  · rintro _ x faults ⟨rfl, hnext⟩
    refine Fallible.bind_get ?_
    cases hrecord : x.state.stages stage with
    | none => exact Fallible.throw hself
    | some record =>
      dsimp only
      split
      · exact Fallible.throw hself
      · rename_i hguard
        rw [Bool.or_eq_true, not_or] at hguard
        have hopen : record.completed = false := by simpa using hguard.2
        have hfinish : Transition x.state (x.state.finish stage record outcome now) :=
          .finish outcome now hnext hrecord hopen
        have hstep := h.step hfinish fun ht => htold ht record
        have honward : ∀ y, Same t runId base
            { x with state := x.state.finish stage record outcome now } y →
            Onward t runId base x stage y ∧ y.begun = x.begun := by
          rintro y ⟨hkept, hstate, hbegun⟩
          refine ⟨⟨hkept, fun st hst => ?_⟩, hbegun⟩
          rw [hstate] at hst
          have hst : (x.state.finish stage record outcome now).completed st = true := hst
          rw [RunState.finish_completed] at hst
          split at hst
          · exact .inr ‹_›
          · exact .inl hst
        refine Fallible.bind_modify ((record_spec hstep).imp honward ?_ honward)
        rintro _ y _ hy
        refine ⟨honward y hy, RunState.not_completed_of_nextStage hnext, ?_, ?_⟩
        · rw [hy.2.1]
          exact (RunState.finish_completed ..).trans (if_pos rfl)
        · rw [hy.2.1]
          exact .single hfinish

theorem invalidate_spec (h : Kept t runId base w) {reason : RunInvalidation}
    (htold : t → Told (w.state.invalidate reason) w.begun) :
    Fallible (invalidate reason) w faults
      (fun x => Kept t runId base x ∧ x.begun = w.begun ∧
        ∀ st, x.state.completed st = w.state.completed st)
      (fun _ x _ => Kept t runId base x ∧ x.begun = w.begun ∧ x.state = w.state.invalidate reason)
      (fun x => Kept t runId base x ∧ x.begun = w.begun ∧
        ∀ st, x.state.completed st = w.state.completed st) := by
  have hstep := h.step (.invalidate reason) htold
  have hsame : ∀ y, Same t runId base { w with state := w.state.invalidate reason } y →
      Kept t runId base y ∧ y.begun = w.begun ∧ ∀ st, y.state.completed st = w.state.completed st := by
    rintro y ⟨hkept, hstate, hbegun⟩
    refine ⟨hkept, hbegun, fun st => ?_⟩
    rw [hstate]
    rfl
  refine Fallible.bind_modify ((record_spec hstep).imp hsame ?_ hsame)
  rintro _ y _ ⟨hkept, hstate, hbegun⟩
  exact ⟨hkept, hbegun, hstate⟩

/-- The stage is being executed, with the invalidations that there are. -/
structure Executed (t : Prop) (runId : String) (base : World) (stage : RunStage) (w : World) : Prop where
  kept : Kept t runId base w
  next : w.state.nextStage = some stage
  last : stage = .report → lastReport w.begun = some ⟨stage, w.state.invalidations⟩

namespace Executed

/-- While the run is valid, a stage before the checksums comes before the end of the report. -/
theorem not_reported (h : Executed t runId base stage w) (hvalid : w.state.isInvalid = false)
    (hstage : stage ≠ .checksums ∧ stage ≠ .complete) : w.state.completed .report = false :=
  Controller.not_reported h.kept.reached.sound hvalid h.next hstage.1 hstage.2

theorem failStage_spec (h : Executed t runId base stage w) {α : Type} {reason : RunInvalidation}
    {error : ControllerError}
    (hbefore : t → w.state.isInvalid = false → stage ≠ .checksums ∧ stage ≠ .complete) :
    Fallible (failStage reason error : ControllerM α) w faults
      (fun x => Onward t runId base w stage x ∧ x.begun = w.begun) (fun _ _ _ => False)
      (fun x => Onward t runId base w stage x ∧ x.begun = w.begun) := by
  have honward : ∀ x, (Kept t runId base x ∧ x.begun = w.begun ∧
      ∀ st, x.state.completed st = w.state.completed st) →
      Onward t runId base w stage x ∧ x.begun = w.begun :=
    fun x ⟨hkept, hbegun, hst⟩ => ⟨⟨hkept, fun st hdone => .inl ((hst st).symm.trans hdone)⟩, hbegun⟩
  have htold : t → Told (w.state.invalidate reason) w.begun := fun ht =>
    (h.kept.told ht).1.invalidate (fun hvalid => h.not_reported hvalid (hbefore ht hvalid)) reason
  refine Fallible.bind ((invalidate_spec h.kept htold).imp honward (fun _ _ _ hx => hx) honward) ?_
  rintro _ x _ ⟨hkept, hbegun, hstate⟩
  exact Fallible.throw (honward x ⟨hkept, hbegun, fun st => by rw [hstate]; rfl⟩)

theorem checkReplay_spec {runtime : Runtime} {n : Nat} {context : StageContext}
    (h : Executed t runId base context.stage w) :
    Fallible (checkReplay runtime n context) w faults
      (fun x => Onward t runId base w context.stage x ∧ x.begun = w.begun) (fun _ x _ => x = w)
      (fun x => Onward t runId base w context.stage x ∧ x.begun = w.begun) := by
  unfold checkReplay
  split
  · rename_i hisolated
    split
    · refine (h.failStage_spec fun _ _ => ?_).imp (fun _ hx => hx) (fun _ _ _ hx => hx.elim)
        fun _ hx => hx
      rw [hisolated.1]
      exact ⟨by decide, by decide⟩
    · exact Fallible.pure rfl
  · exact Fallible.pure rfl

private theorem stage_of_policy {context : StageContext} {p : QueryStagePolicy → Bool}
    (h : (stagePolicy context.plan context.stage).any p = true) :
    context.stage ≠ .report ∧ context.stage ≠ .checksums ∧ context.stage ≠ .complete := by
  cases hstage : context.stage <;> first
    | exact ⟨by decide, by decide, by decide⟩
    | simp [stagePolicy, QueryStagePolicy.forStage, hstage] at h

/-- A valid run gets an invalid outcome before the report only. -/
theorem closeStage_spec {runtime : Runtime} {n : Nat} {context : StageContext}
    {outcome : StageOutcome} (h : Executed t runId base context.stage w)
    (hout : t → w.state.isInvalid = false → outcome.valid = false →
      context.stage ≠ .report ∧ context.stage ≠ .checksums ∧ context.stage ≠ .complete) :
    Fallible (closeStage runtime n context outcome) w faults
      (fun x => Onward t runId base w context.stage x ∧ x.begun = w.begun)
      (fun r x _ => (Onward t runId base w context.stage x ∧ x.begun = w.begun) ∧
        x.state.completed context.stage = true ∧ Steps w.state x.state ∧
        r ≠ some .invalidArchived)
      (fun x => Onward t runId base w context.stage x ∧ x.begun = w.begun) := by
  have hcomplete : ∀ (o : StageOutcome) (now : Nat) (r : Option LifecycleStatus),
      r ≠ some .invalidArchived → (t → w.state.isInvalid = false → o.valid = false →
        context.stage ≠ .report ∧ context.stage ≠ .checksums ∧ context.stage ≠ .complete) →
      Fallible (completeStage context.stage o now >>= fun _ => pure r) w faults
        (fun x => Onward t runId base w context.stage x ∧ x.begun = w.begun)
        (fun r x _ => (Onward t runId base w context.stage x ∧ x.begun = w.begun) ∧
          x.state.completed context.stage = true ∧ Steps w.state x.state ∧
          r ≠ some .invalidArchived)
        (fun x => Onward t runId base w context.stage x ∧ x.begun = w.begun) := by
    intro o now r hr ho
    have htold : t → ∀ record, Told (w.state.finish context.stage record o now) w.begun := by
      intro ht record
      refine (h.kept.told ht).1.finish h.last fun hvalid hinvalid => ?_
      obtain ⟨hreport, hrest⟩ := ho ht hvalid hinvalid
      exact ⟨h.not_reported hvalid hrest, hreport⟩
    refine Fallible.bind (completeStage_spec h.kept htold) ?_
    rintro _ x _ ⟨hx, -, hdone, hsteps⟩
    exact Fallible.pure ⟨hx, hdone, hsteps, hr⟩
  unfold closeStage
  split
  · rename_i hpolicy
    exact hcomplete _ _ _ (by simp) fun _ _ _ => stage_of_policy hpolicy
  · refine hcomplete _ _ _ ?_ hout
    split <;> simp

end Executed

/-- The worlds of one turn of the loop. -/
def Turn (t : Prop) (runId : String) (base : World) (w : World) (stage : RunStage) (x : World) : Prop :=
  Onward t runId base w stage x ∧
    (x.begun = w.begun ∨ ∃ invalidations, x.begun = w.begun ++ [⟨stage, invalidations⟩])

private theorem lastReport_snoc (begun : List StageBegun) {b : StageBegun}
    (h : b.stage = .report) : lastReport (begun ++ [b]) = some b := by
  rw [lastReport, List.filter_append, List.filter_cons_of_pos (by simpa using h)]
  simp

/-- What is known when the execution of a stage that was begun is noted. -/
structure Noted (t : Prop) (runId : String) (base : World) (stage : RunStage) (w y : World) : Prop where
  executed : Executed t runId base stage y
  steps : Steps w.state y.state
  begun : y.begun = w.begun ++ [⟨stage, y.state.invalidations⟩]
  turn : ∀ z, Onward t runId base y stage z ∧ z.begun = y.begun → Turn t runId base w stage z

theorem noted_of_begin {x : World} {inputHashes : List (String × String)} {now : Nat}
    (hplan : w.state.isInvalid = true ∨ w.state.plan.isSome = true) (hkept : Kept t runId base x)
    (hbegun : x.begun = w.begun) (hnext : w.state.nextStage = some stage)
    (hstate : x.state = w.state.start stage inputHashes now) :
    Noted t runId base stage w { x with begun := x.begun ++ [⟨stage, x.state.invalidations⟩] } := by
  have hopen : x.state.completed stage = false := by
    rw [hstate, RunState.start_completed, if_pos rfl]
  have hcompleted : ∀ st, x.state.completed st = w.state.completed st := by
    intro st
    rw [hstate, RunState.start_completed]
    split
    · rename_i heq
      rw [heq, RunState.not_completed_of_nextStage hnext]
    · rfl
  have hnext' : x.state.nextStage = some stage := by
    rw [RunState.nextStage_congr (by rw [hstate]; rfl) hcompleted, hnext]
  refine ⟨⟨hkept.execute hopen, hnext', fun hreport => ?_⟩, ?_, ?_, ?_⟩
  · exact lastReport_snoc x.begun hreport
  · show Steps w.state x.state
    rw [hstate]
    exact .single (.start inputHashes now hnext hplan)
  · show x.begun ++ _ = _
    rw [hbegun]
  · rintro z ⟨⟨hz, hst⟩, hzbegun⟩
    refine ⟨⟨hz, fun st hdone => ?_⟩, .inr ⟨x.state.invalidations, ?_⟩⟩
    · rw [← hcompleted]
      exact hst st hdone
    · rw [hzbegun, ← hbegun]

theorem runIteration_spec (h : Kept t runId base w) {runtime : Runtime} (htimely : t → runtime.Timely)
    {plan : RunPlan} (hplan : w.state.plan.isSome = true) :
    Fallible (runIteration runtime plan stage) w faults (Turn t runId base w stage)
      (fun r x _ => Turn t runId base w stage x ∧ x.state.completed stage = true ∧
        Steps w.state x.state ∧ (∃ invalidations, x.begun = w.begun ++ [⟨stage, invalidations⟩]) ∧
        r ≠ some .invalidArchived)
      (Turn t runId base w stage) := by
  refine Fallible.bind_get ?_
  refine Fallible.bind ((beginStage_spec h (.inr hplan) plan.inputHashes _).imp
    (fun _ hx => ⟨hx.1, .inl hx.2⟩) (fun _ _ _ hx => hx) fun _ hx => ⟨hx.1, .inl hx.2⟩) ?_
  rintro _ x faults ⟨hkept, hbegun, hnext, hstate⟩
  obtain ⟨hexecuted, hsteps, hybegun, hturn⟩ :=
    noted_of_begin (.inr hplan) hkept hbegun hnext hstate
  refine Fallible.bind_get (Fallible.bind_publish
    (hturn _ ⟨⟨hexecuted.kept, fun _ hdone => .inl hdone⟩, rfl⟩) ?_)
  generalize hcontext : (StageContext.mk stage plan (stagePolicy plan stage)
    x.state.invalidations) = context
  obtain rfl : context.stage = stage := by rw [← hcontext]
  have hvalid : x.state.isInvalid = false → context.invalidations = [] := by
    intro hvalid
    rw [← hcontext]
    simpa [RunState.isInvalid] using hvalid
  cases hout : runtime.executeStage w.begun.length context with
  | error error =>
    refine (hexecuted.failStage_spec fun ht hv => ?_).imp hturn (fun _ _ _ hx => hx.elim) hturn
    have hlate := (htimely ht w.begun.length context (hvalid hv)).2
    rw [hout] at hlate
    refine not_or.mp fun hstage => ?_
    obtain ⟨_, hok, -⟩ := hlate hstage
    cases hok
  | ok outcome =>
    refine Fallible.bind (hexecuted.checkReplay_spec.imp hturn (fun _ _ _ hx => hx) hturn) ?_
    rintro _ y faults rfl
    refine (hexecuted.closeStage_spec fun ht hv hinvalid => ?_).imp hturn ?_ hturn
    · obtain ⟨hreport, hlate⟩ := htimely ht w.begun.length context (hvalid hv)
      rw [hout] at hreport hlate
      refine ⟨fun hstage => ?_, not_or.mp fun hstage => ?_⟩
      · rw [hreport hstage outcome rfl] at hinvalid
        exact Bool.false_ne_true hinvalid.symm
      · obtain ⟨_, hok, hvalidOut⟩ := hlate hstage
        obtain rfl := Except.ok.inj hok
        rw [hvalidOut] at hinvalid
        exact Bool.false_ne_true hinvalid.symm
    · rintro _ z _ ⟨hz, hdone, hzsteps, hr⟩
      exact ⟨hturn z hz, hdone, hsteps.trans hzsteps, ⟨_, hz.2.trans hybegun⟩, hr⟩

/-- The first execution is that of the next stage. -/
def FirstNext (w x : World) : Prop :=
  x.begun = w.begun ∨ ∃ b rest, x.begun = w.begun ++ b :: rest ∧ w.state.nextStage = some b.stage

/-- The worlds of the loop.  Each turn completes at most one stage. -/
def Looped (t : Prop) (runId : String) (base w : World) (turns : Nat) (x : World) : Prop :=
  Kept t runId base x ∧ w.state.remaining ≤ x.state.remaining + turns ∧ FirstNext w x

/-- How the loop ends. -/
def Ended (w : World) (turns : Nat) (r : Option LifecycleStatus) (x : World) : Prop :=
  (w.state.remaining < turns → r.isSome = true) ∧
    (r = some .invalidArchived → x.state.isInvalid = true ∧ x.state.nextStage = none)

private theorem looped_of_turn {x : World} {turns : Nat}
    (hnext : w.state.nextStage = some stage) (h : Turn t runId base w stage x) :
    Looped t runId base w (turns + 1) x := by
  obtain ⟨⟨hkept, hst⟩, hbegun⟩ := h
  have hle := RunState.remaining_le_succ hst
  refine ⟨hkept, by omega, hbegun.imp_right ?_⟩
  rintro ⟨invalidations, hbegun⟩
  exact ⟨_, [], hbegun, hnext⟩

/-- What follows behind one turn. -/
private theorem Looped.behind {x y : World} {turns : Nat} (h : Looped t runId base x turns y)
    (hnext : w.state.nextStage = some stage)
    (hst : ∀ st, x.state.completed st = true → w.state.completed st = true ∨ st = stage)
    {invalidations : List RunInvalidation}
    (hbegun : x.begun = w.begun ++ [⟨stage, invalidations⟩]) :
    Looped t runId base w (turns + 1) y := by
  have hle := RunState.remaining_le_succ hst
  obtain ⟨hkept, hremaining, hy | ⟨b, rest, hy, -⟩⟩ := h
  · exact ⟨hkept, by omega, .inr ⟨_, [], hy.trans hbegun, hnext⟩⟩
  · refine ⟨hkept, by omega, .inr ⟨⟨stage, invalidations⟩, b :: rest, ?_, hnext⟩⟩
    rw [hy, hbegun, List.append_assoc]
    rfl

theorem runLoop_spec (h : Kept t runId base w) {runtime : Runtime} (htimely : t → runtime.Timely)
    {plan : RunPlan} (hplan : w.state.plan.isSome = true) (turns : Nat) :
    Fallible (runLoop runtime plan turns) w faults (Looped t runId base w turns)
      (fun r x _ => Looped t runId base w turns x ∧ Ended w turns r x)
      (Looped t runId base w turns) := by
  have hself : ∀ turns, Looped t runId base w turns w := fun _ =>
    ⟨h, Nat.le_add_right _ _, .inl rfl⟩
  induction turns generalizing w faults with
  | zero => exact Fallible.pure ⟨hself 0, fun hlt => absurd hlt (Nat.not_lt_zero _), by simp⟩
  | succ turns ih =>
    refine Fallible.bind_get ?_
    cases hnext : w.state.nextStage with
    | none =>
      refine Fallible.pure ⟨hself _, fun _ => rfl, fun hr => ⟨?_, hnext⟩⟩
      by_contra hvalid
      rw [if_neg hvalid] at hr
      exact nomatch hr
    | some stage =>
      have hloop : ∀ x, Turn t runId base w stage x → Looped t runId base w (turns + 1) x :=
        fun x => looped_of_turn hnext
      refine Fallible.bind ((runIteration_spec h htimely hplan).imp hloop
        (fun _ _ _ hx => hx) hloop) ?_
      rintro r x faults ⟨hturn, hdone, hsteps, ⟨invalidations, hbegun⟩, hr⟩
      cases r with
      | some status =>
        exact Fallible.pure ⟨hloop x hturn, fun _ => rfl, fun heq => absurd heq hr⟩
      | none =>
        have hkept := hturn.1.1
        have hbehind : ∀ y, Looped t runId base x turns y → Looped t runId base w (turns + 1) y :=
          fun y hy => hy.behind hnext hturn.1.2 hbegun
        refine (ih hkept (hsteps.plan_isSome hplan) fun _ =>
          ⟨hkept, Nat.le_add_right _ _, .inl rfl⟩).imp hbehind ?_ hbehind
        rintro r y _ ⟨hy, hsome, harchived⟩
        refine ⟨hbehind y hy, fun hlt => hsome ?_, harchived⟩
        have hless := hsteps.remaining_lt (RunState.not_completed_of_nextStage hnext) hdone
        omega

/-! ## The archive -/

theorem archiveStage_spec : Fallible (archiveStage stage) w faults (fun x => x = w)
    (fun _ x _ => x = w) (fun x => x = w) := by
  have hcall : ∀ (context : String) (outcome : StageOutcome), Fallible
      (IoM.call (.io context) id (fun _ w => w) >>= fun _ => pure outcome : ControllerM StageOutcome)
      w faults (fun x => x = w) (fun _ x _ => x = w) (fun x => x = w) := by
    intro context outcome
    refine Fallible.bind (Q := fun _ x _ => x = w)
      (Fallible.call (fun _ => ⟨rfl, rfl⟩) fun _ _ => ⟨rfl, rfl⟩) ?_
    rintro _ _ _ rfl
    exact Fallible.pure rfl
  cases stage <;> first | exact hcall _ _ | exact Fallible.throw rfl

/-- A run that is invalid already tells its report so. -/
theorem archiveLoop_spec (h : Kept t runId base w) (hinvalid : w.state.isInvalid = true)
    (runtime : Runtime) (turns : Nat) :
    Fallible (archiveLoop runtime turns) w faults (Kept t runId base)
      (fun r x _ => Kept t runId base x ∧ Ended w turns r x) (Kept t runId base) := by
  induction turns generalizing w faults with
  | zero => exact Fallible.pure ⟨h, fun hlt => absurd hlt (Nat.not_lt_zero _), by simp⟩
  | succ turns ih =>
    refine Fallible.bind_get ?_
    cases hnext : w.state.nextStage with
    | none => exact Fallible.pure ⟨h, fun _ => rfl, fun _ => ⟨hinvalid, hnext⟩⟩
    | some stage =>
      refine Fallible.bind ((beginStage_spec h (.inl hinvalid) [] _).imp (fun _ hx => hx.1.1)
        (fun _ _ _ hx => hx) fun _ hx => hx.1.1) ?_
      rintro _ x faults ⟨hkept, hbegun, -, hstate⟩
      obtain ⟨hexecuted, hsteps, -, -⟩ :=
        noted_of_begin (.inl hinvalid) hkept hbegun hnext hstate
      refine Fallible.bind_publish hexecuted.kept ?_
      generalize hy : ({ x with begun := x.begun ++ [⟨stage, x.state.invalidations⟩] } : World) = y
        at hexecuted hsteps
      have hykept := hexecuted.kept
      refine Fallible.bind (archiveStage_spec.imp (fun _ hx => hx ▸ hykept) (fun _ _ _ hx => hx)
        fun _ hx => hx ▸ hykept) ?_
      rintro outcome v faults rfl
      have hyinvalid := hsteps.keeps.2 hinvalid
      have htold : t → ∀ record, Told (v.state.finish stage record outcome
          (runtime.endedAt w.begun.length)) v.begun := by
        refine fun ht record => (hykept.told ht).1.finish hexecuted.last fun hvalid _ => ?_
        rw [hyinvalid] at hvalid
        exact nomatch hvalid
      refine Fallible.bind ((completeStage_spec hykept htold).imp (fun _ hz => hz.1.1)
        (fun _ _ _ hz => hz) fun _ hz => hz.1.1) ?_
      rintro _ z faults ⟨⟨⟨hzkept, -⟩, -⟩, -, hdone, hzsteps⟩
      have hall : Steps w.state z.state := hsteps.trans hzsteps
      refine (ih hzkept (hall.keeps.2 hinvalid)).mono ?_ fun _ hz => hz
      rintro r u _ ⟨hukept, hsome, harchived⟩
      refine ⟨hukept, fun hlt => hsome ?_, harchived⟩
      have hless := hall.remaining_lt (RunState.not_completed_of_nextStage hnext) hdone
      omega

theorem archiveUnplanned_spec (h : Kept t runId base w) (hplan : w.state.plan = none)
    (runtime : Runtime) {turns : Nat} (hturns : RunStage.ordered.length < turns) :
    Fallible (archiveUnplanned runtime turns) w faults (Kept t runId base)
      (fun r x _ => Kept t runId base x ∧ r.isSome = true ∧
        (r = some .invalidArchived → x.state.isInvalid = true ∧ x.state.nextStage = none))
      (Kept t runId base) := by
  have hloop : ∀ x faults, Kept t runId base x → x.state.isInvalid = true →
      Fallible (archiveLoop runtime turns) x faults (Kept t runId base)
        (fun r y _ => Kept t runId base y ∧ r.isSome = true ∧
          (r = some .invalidArchived → y.state.isInvalid = true ∧ y.state.nextStage = none))
        (Kept t runId base) := by
    intro x faults hx hinvalid
    refine (archiveLoop_spec hx hinvalid runtime turns).mono ?_ fun _ hy => hy
    rintro r y _ ⟨hy, hsome, harchived⟩
    exact ⟨hy, hsome (Nat.lt_of_le_of_lt x.state.remaining_le hturns), harchived⟩
  refine Fallible.bind_get ?_
  split
  · rename_i hinvalid
    exact hloop w faults h hinvalid
  · rename_i hvalid
    have hreported : w.state.isInvalid = false → w.state.completed .report = false := by
      intro hvalid
      -- Without a plan no stage has been begun.
      have hnone : w.state.stages .report = none := by
        by_contra hsome
        obtain ⟨record, hrecord⟩ := Option.ne_none_iff_exists'.mp hsome
        have hplanned := h.reached.sound.planned hvalid _ record hrecord
        rw [hplan] at hplanned
        exact absurd hplanned (by simp)
      rw [RunState.completed, hnone]
      rfl
    refine Fallible.bind ((invalidate_spec h fun ht =>
      (h.told ht).1.invalidate hreported _).imp (fun _ hx => hx.1) (fun _ _ _ hx => hx)
        fun _ hx => hx.1) ?_
    rintro _ x faults ⟨hx, -, hstate⟩
    refine hloop x faults hx ?_
    rw [hstate]
    exact RunState.invalidate_isInvalid _ _

/-- The whole call: it does not run out of turns. -/
theorem runToTerminal_spec (h : Kept t runId base w) {runtime : Runtime}
    (htimely : t → runtime.Timely) :
    Fallible (runToTerminal runtime) w faults
      (fun x => Kept t runId base x ∧ (w.state.plan.isSome = true → FirstNext w x))
      (fun r x _ => (Kept t runId base x ∧ (w.state.plan.isSome = true → FirstNext w x)) ∧
        r.isSome = true ∧
        (r = some .invalidArchived → x.state.isInvalid = true ∧ x.state.nextStage = none))
      (fun x => Kept t runId base x ∧ (w.state.plan.isSome = true → FirstNext w x)) := by
  refine Fallible.bind_get ?_
  cases hplan : w.state.plan with
  | none =>
    have hkept : ∀ x, Kept t runId base x → Kept t runId base x ∧
        ((none : Option RunPlan).isSome = true → FirstNext w x) :=
      fun x hx => ⟨hx, fun hsome => nomatch hsome⟩
    exact (archiveUnplanned_spec h hplan runtime (Nat.lt_succ_self _)).imp hkept
      (fun r x _ hx => ⟨hkept x hx.1, hx.2⟩) hkept
  | some plan =>
    have hkept : ∀ x, Looped t runId base w (RunStage.ordered.length + 1) x →
        Kept t runId base x ∧ ((some plan).isSome = true → FirstNext w x) :=
      fun x hx => ⟨hx.1, fun _ => hx.2.2⟩
    have hsome : w.state.plan.isSome = true := by rw [hplan]; rfl
    refine (runLoop_spec h htimely hsome _).imp hkept ?_ hkept
    rintro r x _ ⟨hx, hturns, harchived⟩
    exact ⟨hkept x hx, hturns (Nat.lt_succ_of_le w.state.remaining_le), harchived⟩

theorem setPlan_spec (h : Kept t runId base w) {plan : RunPlan} :
    Fallible (setPlan plan) w faults (Kept t runId base) (fun _ x _ => Kept t runId base x)
      (Kept t runId base) := by
  refine Fallible.bind_get ?_
  split
  · exact Fallible.throw h
  · rename_i hguard
    have hsame : ∀ p ∈ w.state.plan, p = plan := by
      intro p hp
      have hp : w.state.plan = some p := hp
      simpa [hp] using hguard
    have hstep := h.step (.plan plan hsame) fun ht => (h.told ht).1
    exact Fallible.bind_modify ((persist_spec hstep).imp (fun _ hx => hx.1) (fun _ _ _ hx => hx.1)
      fun _ hx => hx.1)

end Calls

end GrayDB.R1.Controller
