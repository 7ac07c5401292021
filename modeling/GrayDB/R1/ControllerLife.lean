import GrayDB.R1.ControllerRuns

/-!
# The life of a run

A run goes on over any number of processes.  Each of them creates or resumes the controller
and makes calls, whatever fails in them, until it ends or is stopped.  `Held` are the
controllers that a run can come to, `Observed` the worlds that it passes.

`controller_exact` says that no stage is skipped or repeated, and none outlives an
invalidation.  `report_told` says when the report of an invalid run says so, and
`report_untold` is a run whose report does not.
-/

namespace GrayDB.R1.Controller

open Lib.Crash Relation

/-- What is called from outside. -/
inductive Call where
  | setPlan (plan : RunPlan)
  | invalidate (reason : RunInvalidation)
  | durableRestart
  | runToTerminal (runtime : Runtime)

namespace Call

def run : Call → ControllerM Unit
  | .setPlan plan => Controller.setPlan plan
  | .invalidate reason => Controller.invalidate reason
  | .durableRestart => Controller.durableRestart
  | .runToTerminal runtime => do
    let _ ← Controller.runToTerminal runtime
    pure ()

/-- The call brings no first invalidation once the report is completed. -/
def Timely (w : World) : Call → Prop
  | .invalidate _ => w.state.isInvalid = false → w.state.completed .report = false
  | .runToTerminal runtime => runtime.Timely
  | .setPlan _ | .durableRestart => True

end Call

/-- The controller is stopped, and another one resumes from the disk. -/
def Resumes (runId : String) (x w : World) : Prop :=
  ∃ d, x.disk.Crash d ∧ resume d x.begun runId = .ok w

/-- The controllers of a run, between two calls.  Each call makes its I/O calls with some
outcomes; under `t` the calls are timely. -/
inductive Held (t : Prop) (runId : String) : World → Prop where
  | create (faults : List Outcome) {r : Flight World}
      (h : Controller.create ⟨.new runId, faults, []⟩ = (.ok (), r)) : Held t runId r.state
  | createStopped (faults : List Outcome) {x w : World}
      (hx : x ∈ (Controller.create ⟨.new runId, faults, []⟩).2.seen)
      (hresumes : Resumes runId x w) : Held t runId w
  | call (c : Call) (faults : List Outcome) {w : World} (h : Held t runId w)
      (ht : t → c.Timely w) : Held t runId (c.run ⟨w, faults, []⟩).2.state
  | callStopped (c : Call) (faults : List Outcome) {w x w' : World} (h : Held t runId w)
      (ht : t → c.Timely w) (hx : x ∈ w :: (c.run ⟨w, faults, []⟩).2.seen)
      (hresumes : Resumes runId x w') : Held t runId w'

section Life

variable {t : Prop} {runId : String} {base w x : World}

theorem kept_new (t : Prop) (runId : String) :
    Kept t runId (.new runId) (.new runId) where
  reached := .refl
  since := ⟨.refl, .inl rfl⟩
  file _ hc := nomatch hc
  durable _ hc := nomatch hc
  told _ := ⟨fun hinvalid => (nomatch hinvalid), fun _ hs => hs.elim (nomatch ·) (nomatch ·)⟩

/-- What changes is counted from here. -/
theorem Kept.rebase (h : Kept t runId base w) : Kept t runId w w :=
  ⟨h.reached, ⟨.refl, .inl rfl⟩, h.file, h.durable, h.told⟩

/-- What resumes has the state of one of the files. -/
theorem Kept.resumes (h : Kept t runId base x) (hr : Resumes runId x w) : Kept t runId w w := by
  obtain ⟨d, hcrash, hresume⟩ := hr
  unfold resume at hresume
  cases hcrash with
  | process =>
    cases hfile : x.disk.stateFile with
    | none =>
      rw [hfile] at hresume
      exact nomatch hresume
    | some c =>
      obtain ⟨s, rfl, hreached, -⟩ := h.file c hfile
      rw [hfile] at hresume
      dsimp only at hresume
      split at hresume
      · exact nomatch hresume
      · obtain rfl := Except.ok.inj hresume
        refine ⟨hreached, ⟨.refl, .inl rfl⟩, fun c hc => ?_, fun c hc => ?_, fun ht => ?_⟩
        · exact ⟨s, Option.some.inj (hc.symm.trans hfile), hreached, .refl⟩
        · obtain ⟨s', hs', hreached', -, hsteps⟩ := h.durable c hc
          exact ⟨s', hs', hreached', hsteps s hfile, hsteps⟩
        · exact ⟨(h.told ht).2 s (.inl hfile), (h.told ht).2⟩
  | machine visible partialFile hvisible =>
    cases hc : visible with
    | none =>
      rw [hc] at hresume
      exact nomatch hresume
    | some c =>
      subst hc
      obtain ⟨s, rfl, hreached⟩ : ∃ s, c = .whole s ∧ Reached runId s := by
        rcases hvisible with hv | hv
        · obtain ⟨s, hs, hreached, -⟩ := h.file c hv.symm
          exact ⟨s, hs, hreached⟩
        · obtain ⟨s, hs, hreached, -⟩ := h.durable c hv.symm
          exact ⟨s, hs, hreached⟩
      dsimp only at hresume
      split at hresume
      · exact nomatch hresume
      · obtain rfl := Except.ok.inj hresume
        have hone : ∀ s', some (StateText.whole s) = some (.whole s') → s = s' := fun s' heq =>
          StateText.whole.inj (Option.some.inj heq)
        refine ⟨hreached, ⟨.refl, .inl rfl⟩, fun c hc => ?_, fun c hc => ?_, fun ht => ?_⟩
        · exact ⟨s, (Option.some.inj hc).symm, hreached, .refl⟩
        · refine ⟨s, (Option.some.inj hc).symm, hreached, .refl, fun f hf => ?_⟩
          rw [hone f hf]
        · have htold : Told s x.begun := (h.told ht).2 s (hvisible.imp Eq.symm Eq.symm)
          refine ⟨htold, fun s' hs' => ?_⟩
          rw [← hone s' (hs'.elim id id)]
          exact htold

theorem create_spec (t : Prop) (runId : String) (faults : List Outcome) :
    Fallible create (.new runId) faults (Kept t runId (.new runId))
      (fun _ x _ => Kept t runId (.new runId) x) (Kept t runId (.new runId)) :=
  Fallible.bind_get ((persist_spec (kept_new t runId)).imp (fun _ hx => hx.1)
    (fun _ _ _ hx => hx.1) fun _ hx => hx.1)

theorem call_spec (h : Kept t runId w w) (c : Call) (ht : t → c.Timely w)
    (faults : List Outcome) :
    Fallible c.run w faults (Kept t runId w) (fun _ x _ => Kept t runId w x)
      (Kept t runId w) := by
  cases c with
  | setPlan plan => exact setPlan_spec h
  | invalidate reason =>
    exact (invalidate_spec h fun ht' => (h.told ht').1.invalidate (ht ht') reason).imp
      (fun _ hx => hx.1) (fun _ _ _ hx => hx.1) fun _ hx => hx.1
  | durableRestart =>
    exact (record_spec h).imp (fun _ hx => hx.1) (fun _ _ _ hx => hx.1) fun _ hx => hx.1
  | runToTerminal runtime =>
    refine Fallible.bind ((runToTerminal_spec h ht).imp (fun _ hx => hx.1) (fun _ _ _ hx => hx)
      fun _ hx => hx.1) ?_
    rintro _ x _ ⟨⟨hx, -⟩, -⟩
    exact Fallible.pure hx

/-- Every controller of a run keeps the files. -/
theorem Held.kept (h : Held t runId w) : Kept t runId w w := by
  induction h with
  | create faults h =>
    have hfinal := (create_spec t runId faults).final.1
    rw [h] at hfinal
    exact hfinal.rebase
  | createStopped faults hx hresumes =>
    exact ((create_spec t runId faults).final.2 _ hx).resumes hresumes
  | call c faults _ ht ih => exact (call_spec ih c ht faults).final.1.rebase
  | callStopped c faults _ ht hx hresumes ih =>
    rcases List.mem_cons.mp hx with rfl | hx
    · exact ih.resumes hresumes
    · exact ((call_spec ih c ht faults).final.2 _ hx).resumes hresumes

end Life

/-- The worlds that a run passes: when it is created, and between and in the calls. -/
def Observed (t : Prop) (runId : String) (x : World) : Prop :=
  (∃ faults, x ∈ (create ⟨.new runId, faults, []⟩).2.seen) ∨
    ∃ (w : World) (c : Call) (faults : List Outcome), Held t runId w ∧ (t → c.Timely w) ∧
      x ∈ w :: (c.run ⟨w, faults, []⟩).2.seen

/-- The states that the files of a run can have. -/
theorem observed_file {t : Prop} {runId : String} {x : World} (h : Observed t runId x) :
    ∀ c ∈ x.disk.stateFile, ∃ s, c = .whole s ∧ Reached runId s := by
  have hfile : ∀ {base y : World}, Kept t runId base y →
      ∀ c ∈ y.disk.stateFile, ∃ s, c = .whole s ∧ Reached runId s := by
    intro base y hy c hc
    obtain ⟨s, hs, hreached, -⟩ := hy.file c hc
    exact ⟨s, hs, hreached⟩
  rcases h with ⟨faults, hx⟩ | ⟨w, c, faults, hw, ht, hx⟩
  · exact hfile ((create_spec t runId faults).final.2 _ hx)
  · rcases List.mem_cons.mp hx with rfl | hx
    · exact hfile hw.kept
    · exact hfile ((call_spec hw.kept c ht faults).final.2 _ hx)

/-- What a run keeps in order, in each of its states and transitions. -/
structure InStages (s : RunState) : Prop where
  /-- A stage is completed once at most. -/
  once : ∀ stage record, s.stages stage = some record →
    record.executionCount = if record.completed then 1 else 0
  /-- While the run is valid, the completed stages are the first ones. -/
  inOrder : s.isInvalid = false → ∃ k, ∀ stage,
    s.completed stage = true ↔ stage ∈ RunStage.ordered.take k
  /-- The stage that was started but not completed is the next one. -/
  started : s.isInvalid = false → ∀ stage record, s.stages stage = some record →
    record.completed = false → s.nextStage = some stage ∧ s.plan.isSome = true
  /-- After an invalidation only the report and then the checksums are completed. -/
  archives : s.isInvalid = true → ∀ s₁ s₂, Steps s s₁ → Transition s₁ s₂ →
    s₂.isInvalid = true ∧ ∀ stage, s₂.completed stage = true → s₁.completed stage = false →
      stage = .report ∨ stage = .checksums ∧ s₁.completed .report = true

theorem Reached.inStages {runId : String} {s : RunState} (h : Reached runId s) :
    InStages s where
  once := h.sound.count
  inOrder := h.sound.inOrder
  started hvalid stage record hrecord hopen :=
    ⟨h.sound.opened hvalid stage record hrecord hopen, h.sound.planned hvalid stage record hrecord⟩
  archives hinvalid _ _ hsteps ht :=
    have hinvalid₁ := Steps.keeps hsteps |>.2 hinvalid
    ⟨ht.keeps.2 hinvalid₁, fun _ hnew hold => ht.archives hinvalid₁ hnew hold⟩

section Runs

variable {runId : String} {w : World}

/-- The call ends before its turns run out. -/
theorem Held.terminates (h : Held False runId w) (runtime : Runtime) (faults : List Outcome) :
    (runToTerminal runtime ⟨w, faults, []⟩).1 ≠ .ok none := by
  have hrun : Fallible (runToTerminal runtime) w faults _ _ _ :=
    runToTerminal_spec h.kept fun hfalse => hfalse.elim
  obtain ⟨x, rest, new, -, ⟨r, hout, -, hsome, -⟩ | ⟨e, hout, -⟩⟩ := hrun []
  · rw [hout]
    rintro heq
    rw [Except.ok.inj heq] at hsome
    exact Bool.false_ne_true hsome
  · rw [hout]
    exact fun heq => nomatch heq

/-- The first execution of a call is that of the next stage. -/
theorem Held.firstNext (h : Held False runId w) (hplan : w.state.plan.isSome = true)
    (runtime : Runtime) (faults : List Outcome) :
    ∀ x ∈ (runToTerminal runtime ⟨w, faults, []⟩).2.seen, FirstNext w x := by
  intro x hx
  have hrun : Fallible (runToTerminal runtime) w faults _ _ _ :=
    runToTerminal_spec h.kept fun hfalse => hfalse.elim
  exact ((hrun.mono (fun _ _ _ h => h.1) fun _ h => h).final.2 x hx).2 hplan

/-- So many turns complete so many stages at most. -/
theorem Held.turns (h : Held False runId w) (hplan : w.state.plan.isSome = true)
    (runtime : Runtime) (plan : RunPlan) (turns : Nat) (faults : List Outcome) :
    w.state.remaining
      ≤ (runLoop runtime plan turns ⟨w, faults, []⟩).2.state.state.remaining + turns := by
  have hloop : Fallible (runLoop runtime plan turns) w faults _ _ _ :=
    runLoop_spec h.kept (fun hfalse => hfalse.elim) hplan turns
  exact (hloop.mono (fun _ _ _ h => h.1) fun _ h => h).final.1.2.1

end Runs

private theorem subset_foldl_addNew (reasons : List RunInvalidation) :
    ∀ start : List RunInvalidation, start ⊆ reasons.foldl
      (fun reasons reason => if reason ∈ reasons then reasons else reasons ++ [reason]) start := by
  induction reasons with
  | nil => exact fun start => List.Subset.refl start
  | cons reason reasons ih =>
    intro start
    refine List.Subset.trans ?_ (ih _)
    dsimp only
    split
    · exact List.Subset.refl start
    · exact List.subset_append_left start [reason]

/-- A report that is written with an invalidation is not valid and names no winner. -/
theorem writeSystemReport_invalid (state : RunState) {invalidations : List RunInvalidation}
    (h : invalidations ≠ []) (evidence : ReportEvidence) :
    (writeSystemReport state invalidations evidence).valid = false ∧
      (writeSystemReport state invalidations evidence).winner = none := by
  refine ⟨?_, rfl⟩
  obtain ⟨reason, hreason⟩ := List.exists_mem_of_ne_nil _ h
  have hmem := subset_foldl_addNew (missingStages state) invalidations hreason
  unfold writeSystemReport
  generalize (missingStages state).foldl _ invalidations = reasons at hmem
  have hne : reasons ≠ [] := List.ne_nil_of_mem hmem
  cases evidence.manifest <;> cases evidence.finalCheckpoint.isSome <;> simp [hne]

/-- A timely run that ends as invalid has a report that was begun with its invalidations, and
what is written with these is neither valid nor names a winner. -/
theorem report_told {runId : String} {w : World} (hw : Held True runId w) {runtime : Runtime}
    (htimely : runtime.Timely) {faults : List Outcome} {r : Flight World}
    (hrun : runToTerminal runtime ⟨w, faults, []⟩ = (.ok (some .invalidArchived), r)) :
    r.state.state.completed .report = true ∧
      ∃ b, lastReport r.state.begun = some b ∧ b.invalidations ≠ [] ∧
        (∀ state evidence,
          (writeSystemReport state b.invalidations evidence).valid = false ∧
            (writeSystemReport state b.invalidations evidence).conclusion = none) ∧
        (archivedReport b.invalidations).valid = false ∧
        (archivedReport b.invalidations).conclusion = none := by
  obtain ⟨x, rest, new, -, ⟨a, hout, ⟨hkept, -⟩, -, harchived⟩ | ⟨e, hout, -⟩⟩ :=
    runToTerminal_spec hw.kept (fun _ => htimely) []
  · rw [hrun] at hout
    obtain ⟨ha, rfl⟩ := Prod.mk.inj hout
    obtain rfl := (Except.ok.inj ha).symm
    obtain ⟨hinvalid, hnone⟩ := harchived rfl
    have hreport : x.state.completed .report = true := by
      rw [RunState.nextStage_invalid hinvalid] at hnone
      cases hreport : x.state.completed .report with
      | true => rfl
      | false =>
        rw [hreport, if_pos rfl] at hnone
        exact nomatch hnone
    obtain ⟨b, hb, hnonempty⟩ := (hkept.told trivial).1 hinvalid hreport
    refine ⟨hreport, b, hb, hnonempty, fun state evidence => ?_, rfl, rfl⟩
    obtain ⟨hvalid, -⟩ := writeSystemReport_invalid state hnonempty evidence
    refine ⟨hvalid, ?_⟩
    rw [RunResult.conclusion, hvalid]
    rfl
  · rw [hrun] at hout
    exact nomatch (Prod.mk.inj hout).1

/-- A plan with one engine. -/
def smokePlan : RunPlan :=
  { profile := .macSmoke, mode := .correctness, engines := [.graydb], inputHashes := []
    spec := { minimumBytes := 0, repetitions := 1, warmupSecs := 1, quietSecs := 1,
              fixedRateSecs := 1, searchStepSecs := 1, maximumRate := 2000 } }

/-- A runtime whose stages end well, but for one while the run is valid. -/
def smokeRuntime (failing : RunStage) : Runtime where
  executeStage _ context :=
    if context.stage = failing ∧ context.invalidations = [] then .error "no space left on device"
    else .ok { queryRecords := if context.policy.isSome then
      [QueryId.q1, .q2, .q3, .q4, .q5].flatMap fun query =>
        List.replicate 30 ⟨query, some .graydb, false⟩ else [] }
  prepareIsolatedReplay _ _ := .error "isolated mode requires a runtime that binds replay"
  startedAt n := n
  endedAt n := n
  elapsed _ := 0

/-- A run that is created and makes its calls without a failure. -/
def worldAfter (calls : List Call) : World :=
  calls.foldl (fun w c => (c.run ⟨w, [], []⟩).2.state) (create ⟨.new "smoke", [], []⟩).2.state

private theorem held_after {t : Prop} {w : World} (h : Held t "smoke" w) {calls : List Call}
    (ht : t → ∀ c ∈ calls, ∀ w, c.Timely w) :
    Held t "smoke" (calls.foldl (fun w c => (c.run ⟨w, [], []⟩).2.state) w) := by
  induction calls generalizing w with
  | nil => exact h
  | cons c calls ih =>
    exact ih (.call c [] h fun ht' => ht ht' c List.mem_cons_self w)
      fun ht' c' hc' => ht ht' c' (List.mem_cons_of_mem c hc')

private theorem held_worldAfter {t : Prop} {calls : List Call}
    (ht : t → ∀ c ∈ calls, ∀ w, c.Timely w) : Held t "smoke" (worldAfter calls) :=
  held_after (.create [] (r := (create ⟨.new "smoke", [], []⟩).2) rfl) ht

private theorem exists_run {α : Type} {m : ControllerM α} {w : World} {a : α}
    (h : (m.outcome w).map Prod.fst = some a) : ∃ r, m ⟨w, [], []⟩ = (.ok a, r) := by
  unfold IoM.outcome IoM.exec at h
  cases hrun : m ⟨w, [], []⟩ with
  | mk res r =>
    rw [hrun] at h
    cases res with
    | error e => exact nomatch h
    | ok b =>
      obtain rfl := Option.some.inj h
      exact ⟨r, rfl⟩

/-- A failing stage before the report is in time. -/
theorem smokeRuntime_timely : (smokeRuntime .finalCheckpoint).Timely := by
  intro n context _
  have hne : ∀ stage, context.stage = stage → stage ≠ .finalCheckpoint →
      ∃ outcome, (smokeRuntime .finalCheckpoint).executeStage n context = .ok outcome ∧
        outcome.valid = true := by
    intro stage hstage hne
    have hnot : ¬ (context.stage = .finalCheckpoint ∧ context.invalidations = []) := fun hand =>
      hne (hstage.symm.trans hand.1)
    exact ⟨_, if_neg hnot, rfl⟩
  refine ⟨fun hreport outcome hout => ?_, fun hlate => ?_⟩
  · obtain ⟨o, ho, hvalid⟩ := hne .report hreport (by decide)
    obtain rfl := Except.ok.inj (ho.symm.trans hout)
    exact hvalid
  · rcases hlate with hlate | hlate
    · exact hne .checksums hlate (by decide)
    · exact hne .complete hlate (by decide)

/-- The final checkpoint fails, and the run is resumed. -/
theorem report_told_checkpoint : ∃ r : Flight World,
    runToTerminal (smokeRuntime .finalCheckpoint) ⟨worldAfter [.setPlan smokePlan,
      .runToTerminal (smokeRuntime .finalCheckpoint)], [], []⟩ = (.ok (some .invalidArchived), r) ∧
    r.state.state.completed .report = true ∧
    ∃ b, lastReport r.state.begun = some b ∧ b.invalidations ≠ [] := by
  have hheld : Held True "smoke" (worldAfter [.setPlan smokePlan,
      .runToTerminal (smokeRuntime .finalCheckpoint)]) := by
    refine held_worldAfter fun _ c hc w => ?_
    simp only [List.mem_cons, List.not_mem_nil, or_false] at hc
    rcases hc with rfl | rfl
    · trivial
    · exact smokeRuntime_timely
  obtain ⟨r, hrun⟩ := exists_run (m := runToTerminal (smokeRuntime .finalCheckpoint))
    (w := worldAfter [.setPlan smokePlan, .runToTerminal (smokeRuntime .finalCheckpoint)])
    (a := some .invalidArchived) (by decide +kernel)
  obtain ⟨hreport, b, hb, hnonempty, -⟩ := report_told hheld smokeRuntime_timely hrun
  exact ⟨r, hrun, hreport, b, hb, hnonempty⟩

/-- The report is completed while the run is valid, and then the checksums fail: the run ends
as invalid, with a report that was begun without an invalidation and can be valid. -/
theorem report_untold : ∃ w, Held False "smoke" w ∧
    ((runToTerminal (smokeRuntime .checksums)).outcome w).map (fun r =>
      (r.1, lastReport r.2.begun,
        (writeSystemReport r.2.state [] ⟨true, some true, true⟩).valid))
      = some (some .invalidArchived, some ⟨.report, []⟩, true) :=
  ⟨worldAfter [.setPlan smokePlan, .runToTerminal (smokeRuntime .checksums)],
    held_worldAfter fun hfalse => hfalse.elim, by decide +kernel⟩

end GrayDB.R1.Controller
