import GrayDB.R1.Controller
import Mathlib.Data.List.Basic
import Mathlib.Logic.Relation

/-!
# Transitions of the run

The state of the run changes in whole transitions: the plan is set, a stage starts or ends,
the run is invalidated.  `Sound` is what they keep: a stage ends at most once, and while
the run is valid its stages end in order and only the next one is open.
-/

namespace GrayDB.R1.Controller

open Relation

inductive Transition : RunState → RunState → Prop where
  | plan {s : RunState} (plan : RunPlan) (h : ∀ p ∈ s.plan, p = plan) :
      Transition s { s with plan := some plan }
  | start {s : RunState} {stage : RunStage} (inputHashes : List (String × String)) (now : Nat)
      (hnext : s.nextStage = some stage) (hplan : s.isInvalid = true ∨ s.plan.isSome = true) :
      Transition s (s.start stage inputHashes now)
  | finish {s : RunState} {stage : RunStage} {record : StageRecord} (outcome : StageOutcome)
      (now : Nat) (hnext : s.nextStage = some stage) (hrecord : s.stages stage = some record)
      (hopen : record.completed = false) : Transition s (s.finish stage record outcome now)
  | invalidate {s : RunState} (reason : RunInvalidation) : Transition s (s.invalidate reason)

abbrev Steps : RunState → RunState → Prop := ReflTransGen Transition

/-- A state of a run in the course of its transitions. -/
def Reached (runId : String) (s : RunState) : Prop := Steps (.new runId) s

/-! ## Records and the next stage -/

namespace RunState

variable (s : RunState) (stage : RunStage)

theorem start_stages_self (inputHashes : List (String × String)) (now : Nat) :
    ∃ record, (s.start stage inputHashes now).stages stage = some record ∧
      record.completed = false ∧ record.startedAtUnixMs = some now ∧
      record.executionCount = ((s.stages stage).getD {}).executionCount :=
  ⟨_, Function.update_self _ _ _, rfl, rfl, rfl⟩

theorem finish_stages_self (record : StageRecord) (outcome : StageOutcome) (now : Nat) :
    ∃ record', (s.finish stage record outcome now).stages stage = some record' ∧
      record'.completed = true ∧
      record'.executionCount = min (record.executionCount + 1) (2 ^ 32 - 1) :=
  ⟨_, Function.update_self _ _ _, rfl, rfl⟩

variable {stage} in
theorem start_stages_of_ne (inputHashes : List (String × String)) (now : Nat) {st : RunStage}
    (h : st ≠ stage) : (s.start stage inputHashes now).stages st = s.stages st :=
  Function.update_of_ne h _ _

variable {stage} in
theorem finish_stages_of_ne (record : StageRecord) (outcome : StageOutcome) (now : Nat)
    {st : RunStage} (h : st ≠ stage) :
    (s.finish stage record outcome now).stages st = s.stages st :=
  Function.update_of_ne h _ _

theorem start_completed (inputHashes : List (String × String)) (now : Nat) (st : RunStage) :
    (s.start stage inputHashes now).completed st = if st = stage then false else s.completed st := by
  unfold completed start
  by_cases h : st = stage
  · subst h
    simp
  · simp [h]

theorem finish_completed (record : StageRecord) (outcome : StageOutcome) (now : Nat)
    (st : RunStage) : (s.finish stage record outcome now).completed st
      = if st = stage then true else s.completed st := by
  unfold completed finish
  by_cases h : st = stage
  · subst h
    simp
  · simp [h]

@[simp] theorem start_isInvalid (inputHashes : List (String × String)) (now : Nat) :
    (s.start stage inputHashes now).isInvalid = s.isInvalid := rfl

@[simp] theorem start_invalidations (inputHashes : List (String × String)) (now : Nat) :
    (s.start stage inputHashes now).invalidations = s.invalidations := rfl

@[simp] theorem invalidate_completed (reason : RunInvalidation) (st : RunStage) :
    (s.invalidate reason).completed st = s.completed st := rfl

@[simp] theorem invalidate_isInvalid (reason : RunInvalidation) :
    (s.invalidate reason).isInvalid = true := by
  simp [isInvalid, invalidate]

theorem finish_isInvalid (record : StageRecord) (outcome : StageOutcome) (now : Nat) :
    (s.finish stage record outcome now).isInvalid = (s.isInvalid || !outcome.valid) := by
  unfold isInvalid finish
  cases outcome.valid <;> simp

variable {s stage}

/-- The next stage is not completed. -/
theorem not_completed_of_nextStage (h : s.nextStage = some stage) : s.completed stage = false := by
  unfold nextStage at h
  split at h <;> simpa using List.find?_some h

/-- In an invalid run, what is next is the report, and then the checksums. -/
theorem nextStage_invalid (hinvalid : s.isInvalid = true) : s.nextStage =
    if s.completed .report = false then some .report
    else if s.completed .checksums = false then some .checksums else none := by
  unfold nextStage
  rw [if_pos hinvalid]
  cases hr : s.completed .report <;> cases hc : s.completed .checksums <;> simp [hr, hc]

theorem nextStage_congr {s' : RunState} (hinvalid : s'.isInvalid = s.isInvalid)
    (hcompleted : ∀ st, s'.completed st = s.completed st) : s'.nextStage = s.nextStage := by
  unfold nextStage
  rw [hinvalid]
  simp only [hcompleted]

end RunState

private theorem find?_eq_getElem? {α : Type} {l : List α} {p : α → Bool} {k : Nat}
    (hl : l.Nodup) (h : ∀ a ∈ l, p a = true ↔ a ∉ l.take k) : l.find? p = l[k]? := by
  induction l generalizing k with
  | nil => rfl
  | cons a l ih =>
    obtain ⟨hne, hnodup⟩ := List.nodup_cons.mp hl
    cases k with
    | zero =>
      have ha : p a = true := (h a List.mem_cons_self).mpr (by simp)
      rw [List.find?_cons_of_pos ha]
      rfl
    | succ k =>
      have ha : ¬ p a = true := fun ha => (h a List.mem_cons_self).mp ha (by simp)
      rw [List.find?_cons_of_neg ha, List.getElem?_cons_succ]
      refine ih hnodup fun b hb => ?_
      have hba : b ≠ a := fun heq => hne (heq ▸ hb)
      rw [h b (List.mem_cons_of_mem a hb), List.take_succ_cons, List.mem_cons, not_or]
      exact and_iff_right hba

theorem RunStage.ordered_nodup : RunStage.ordered.Nodup := by decide

theorem RunStage.mem_ordered (stage : RunStage) : stage ∈ RunStage.ordered := by
  cases stage <;> decide

/-- The completed stages are the first `k`. -/
def RunState.InOrder (s : RunState) (k : Nat) : Prop :=
  ∀ stage, s.completed stage = true ↔ stage ∈ RunStage.ordered.take k

/-- While the run is valid, the next stage is the one behind the completed ones. -/
theorem RunState.InOrder.nextStage {s : RunState} {k : Nat} (h : s.InOrder k)
    (hvalid : s.isInvalid = false) : s.nextStage = RunStage.ordered[k]? := by
  unfold RunState.nextStage
  rw [hvalid, if_neg Bool.false_ne_true]
  refine find?_eq_getElem? RunStage.ordered_nodup fun stage _ => ?_
  rw [← h stage]
  simp

/-! ## What the transitions keep -/

structure Sound (s : RunState) : Prop where
  count : ∀ stage record, s.stages stage = some record →
    record.executionCount = if record.completed then 1 else 0
  inOrder : s.isInvalid = false → ∃ k, s.InOrder k
  /-- The stage that is open is the next one. -/
  opened : s.isInvalid = false → ∀ stage record, s.stages stage = some record →
    record.completed = false → s.nextStage = some stage
  /-- A valid run with a stage has its plan. -/
  planned : s.isInvalid = false → ∀ stage record, s.stages stage = some record →
    s.plan.isSome = true

theorem sound_new (runId : String) : Sound (.new runId) where
  count _ _ h := nomatch h
  inOrder _ := ⟨0, fun stage => by simp [RunState.completed, RunState.new]⟩
  opened _ _ _ h := nomatch h
  planned _ _ _ h := nomatch h

theorem Sound.start {s : RunState} {stage : RunStage} (h : Sound s)
    (inputHashes : List (String × String)) (now : Nat) (hnext : s.nextStage = some stage)
    (hplan : s.isInvalid = true ∨ s.plan.isSome = true) :
    Sound (s.start stage inputHashes now) := by
  have hcompleted : ∀ st, (s.start stage inputHashes now).completed st = s.completed st := by
    intro st
    rw [RunState.start_completed]
    split
    · rename_i heq
      rw [heq, RunState.not_completed_of_nextStage hnext]
    · rfl
  have hnext' : (s.start stage inputHashes now).nextStage = s.nextStage :=
    RunState.nextStage_congr rfl hcompleted
  refine ⟨?_, ?_, ?_, ?_⟩
  · intro st record hrecord
    by_cases heq : st = stage
    · subst heq
      obtain ⟨new, hnew, hopen', -, hcount'⟩ := s.start_stages_self st inputHashes now
      obtain rfl := Option.some.inj (hnew.symm.trans hrecord)
      rw [hopen', hcount']
      cases hold : s.stages st with
      | none => simp
      | some old =>
        have hopen : old.completed = false := by
          have hnot := RunState.not_completed_of_nextStage hnext
          simpa [RunState.completed, hold] using hnot
        have hcount := h.count st old hold
        rw [hopen] at hcount
        simpa using hcount
    · rw [s.start_stages_of_ne inputHashes now heq] at hrecord
      exact h.count st record hrecord
  · intro hvalid
    obtain ⟨k, hk⟩ := h.inOrder hvalid
    exact ⟨k, fun st => by rw [hcompleted, hk]⟩
  · intro hvalid st record hrecord hopen
    rw [hnext']
    by_cases heq : st = stage
    · subst heq
      exact hnext
    · rw [s.start_stages_of_ne inputHashes now heq] at hrecord
      exact h.opened hvalid st record hrecord hopen
  · intro hvalid _ _ _
    rw [RunState.start_isInvalid] at hvalid
    rcases hplan with hplan | hplan
    · rw [hvalid] at hplan
      exact absurd hplan Bool.false_ne_true
    · exact hplan

theorem Sound.finish {s : RunState} {stage : RunStage} {record : StageRecord} (h : Sound s)
    (outcome : StageOutcome) (now : Nat) (hnext : s.nextStage = some stage)
    (hrecord : s.stages stage = some record) (hopen : record.completed = false) :
    Sound (s.finish stage record outcome now) := by
  refine ⟨?_, ?_, ?_, ?_⟩
  · intro st r hr
    by_cases heq : st = stage
    · subst heq
      obtain ⟨new, hnew, hclosed, hcount'⟩ := s.finish_stages_self st record outcome now
      obtain rfl := Option.some.inj (hnew.symm.trans hr)
      have hcount := h.count st record hrecord
      rw [hopen] at hcount
      rw [hclosed, hcount', hcount]
      rfl
    · rw [s.finish_stages_of_ne record outcome now heq] at hr
      exact h.count st r hr
  · intro hvalid
    rw [RunState.finish_isInvalid, Bool.or_eq_false_iff] at hvalid
    obtain ⟨k, hk⟩ := h.inOrder hvalid.1
    refine ⟨k + 1, fun st => ?_⟩
    rw [hk.nextStage hvalid.1] at hnext
    rw [RunState.finish_completed, List.take_add_one, hnext, List.mem_append, ← hk st]
    by_cases heq : st = stage <;> simp [heq]
  · intro hvalid st r hr hclosed
    rw [RunState.finish_isInvalid, Bool.or_eq_false_iff] at hvalid
    by_cases heq : st = stage
    · subst heq
      obtain ⟨new, hnew, hclosed', -⟩ := s.finish_stages_self st record outcome now
      obtain rfl := Option.some.inj (hnew.symm.trans hr)
      rw [hclosed'] at hclosed
      exact absurd hclosed (by simp)
    · -- The stage that ended was the only one that was open.
      rw [s.finish_stages_of_ne record outcome now heq] at hr
      have hother := h.opened hvalid.1 st r hr hclosed
      exact absurd (Option.some.inj (hother.symm.trans hnext)) heq
  · intro hvalid _ _ _
    rw [RunState.finish_isInvalid, Bool.or_eq_false_iff] at hvalid
    exact h.planned hvalid.1 stage record hrecord

theorem Sound.transition {s s' : RunState} (h : Sound s) (ht : Transition s s') : Sound s' := by
  cases ht with
  | plan plan hplan =>
    exact ⟨h.count, h.inOrder, h.opened, fun _ _ _ _ => rfl⟩
  | start inputHashes now hnext hplan => exact h.start inputHashes now hnext hplan
  | finish outcome now hnext hrecord hopen => exact h.finish outcome now hnext hrecord hopen
  | invalidate reason =>
    have hinvalid : ¬ (s.invalidate reason).isInvalid = false := by
      rw [RunState.invalidate_isInvalid]
      simp
    exact ⟨h.count, fun hvalid => absurd hvalid hinvalid, fun hvalid => absurd hvalid hinvalid,
      fun hvalid => absurd hvalid hinvalid⟩

theorem Reached.sound {runId : String} {s : RunState} (h : Reached runId s) : Sound s := by
  induction h with
  | refl => exact sound_new runId
  | tail _ ht ih => exact ih.transition ht

/-- A stage that is completed stays so, and an invalid run stays invalid. -/
theorem Transition.keeps {s s' : RunState} (h : Transition s s') :
    (∀ stage, s.completed stage = true → s'.completed stage = true) ∧
      (s.isInvalid = true → s'.isInvalid = true) := by
  cases h with
  | plan plan hplan => exact ⟨fun _ h => h, fun h => h⟩
  | @start stage inputHashes now hnext hplan =>
    refine ⟨fun st hst => ?_, fun h => h⟩
    rw [RunState.start_completed, if_neg, hst]
    rintro rfl
    rw [RunState.not_completed_of_nextStage hnext] at hst
    exact Bool.false_ne_true hst
  | finish outcome now hnext hrecord hopen =>
    refine ⟨fun st hst => ?_, fun h => ?_⟩
    · rw [RunState.finish_completed, hst, ite_self]
    · rw [RunState.finish_isInvalid, h, Bool.true_or]
  | invalidate reason => exact ⟨fun _ h => h, fun _ => RunState.invalidate_isInvalid _ _⟩

theorem Steps.keeps {s s' : RunState} (h : Steps s s') :
    (∀ stage, s.completed stage = true → s'.completed stage = true) ∧
      (s.isInvalid = true → s'.isInvalid = true) := by
  induction h with
  | refl => exact ⟨fun _ h => h, fun h => h⟩
  | tail _ ht ih => exact ⟨fun st h => ht.keeps.1 st (ih.1 st h), fun h => ht.keeps.2 (ih.2 h)⟩

/-- A plan stays. -/
theorem Steps.plan_isSome {s s' : RunState} (h : Steps s s') (hplan : s.plan.isSome = true) :
    s'.plan.isSome = true := by
  induction h with
  | refl => exact hplan
  | tail _ ht ih => cases ht <;> first | rfl | exact ih

/-- A transition completes at most the next stage. -/
theorem Transition.completed_next {s s' : RunState} (h : Transition s s') {stage : RunStage}
    (hnew : s'.completed stage = true) (hold : s.completed stage = false) :
    s.nextStage = some stage := by
  have hne : ¬ s.completed stage = true := by
    rw [hold]
    exact Bool.false_ne_true
  cases h with
  | plan plan hplan => exact absurd hnew hne
  | start inputHashes now hnext hplan =>
    rw [RunState.start_completed] at hnew
    split at hnew
    · exact absurd hnew Bool.false_ne_true
    · exact absurd hnew hne
  | finish outcome now hnext hrecord hopen =>
    rw [RunState.finish_completed] at hnew
    split at hnew
    · rename_i heq
      rw [heq]
      exact hnext
    · exact absurd hnew hne
  | invalidate reason => exact absurd hnew hne

/-- In an invalid run only the report and, behind it, the checksums are completed. -/
theorem Transition.archives {s s' : RunState} (h : Transition s s') (hinvalid : s.isInvalid = true)
    {stage : RunStage} (hnew : s'.completed stage = true) (hold : s.completed stage = false) :
    stage = .report ∨ stage = .checksums ∧ s.completed .report = true := by
  have hnext := h.completed_next hnew hold
  rw [RunState.nextStage_invalid hinvalid] at hnext
  cases hr : s.completed .report with
  | false =>
    rw [hr, if_pos rfl] at hnext
    exact .inl (Option.some.inj hnext).symm
  | true =>
    rw [hr, if_neg (by simp)] at hnext
    split at hnext
    · exact .inr ⟨(Option.some.inj hnext).symm, rfl⟩
    · exact absurd hnext (by simp)

/-- How many stages are not completed. -/
def RunState.remaining (s : RunState) : Nat :=
  (RunStage.ordered.filter fun stage => !s.completed stage).length

theorem RunState.remaining_le (s : RunState) : s.remaining ≤ RunStage.ordered.length :=
  List.length_filter_le _ _

/-- A stage that is completed on the way leaves fewer. -/
theorem Steps.remaining_lt {s s' : RunState} (h : Steps s s') {stage : RunStage}
    (hold : s.completed stage = false) (hnew : s'.completed stage = true) :
    s'.remaining < s.remaining := by
  have hsub : (RunStage.ordered.filter fun st => !s'.completed st).Sublist
      (RunStage.ordered.filter fun st => !s.completed st) := by
    apply List.monotone_filter_right
    intro st hst
    cases hs : s.completed st with
    | false => rfl
    | true =>
      rw [h.keeps.1 st hs] at hst
      exact hst
  refine Nat.lt_of_le_of_ne hsub.length_le fun heq => ?_
  have hmem : stage ∈ RunStage.ordered.filter fun st => !s.completed st :=
    List.mem_filter.mpr ⟨stage.mem_ordered, by simp [hold]⟩
  rw [← hsub.eq_of_length heq] at hmem
  simpa [hnew] using (List.mem_filter.mp hmem).2

/-- One more completed stage leaves one less. -/
theorem RunState.remaining_le_succ {s s' : RunState} {stage : RunStage}
    (h : ∀ st, s'.completed st = true → s.completed st = true ∨ st = stage) :
    s.remaining ≤ s'.remaining + 1 := by
  have hall : ∀ l : List RunStage, (l.filter fun st => !s.completed st).length
      ≤ (l.filter fun st => !s'.completed st).length + l.count stage := by
    intro l
    induction l with
    | nil => simp
    | cons st l ih =>
      rw [List.filter_cons, List.filter_cons, List.count_cons]
      by_cases hst : st = stage
      · subst hst
        cases s.completed st <;> cases s'.completed st <;> simp <;> omega
      · have hne : (st == stage) = false := by simpa using hst
        have himp : s'.completed st = true → s.completed st = true := fun hnew =>
          (h st hnew).resolve_right hst
        cases hs : s.completed st <;> cases hs' : s'.completed st <;>
          simp_all <;> omega
  have hcount : RunStage.ordered.count stage = 1 := by cases stage <;> decide
  have hordered := hall RunStage.ordered
  rw [hcount] at hordered
  exact hordered

end GrayDB.R1.Controller
