import Mathlib.Data.List.Induction
import Mathlib.Logic.Relation

/-!
# Runs whose steps meet a condition

A labelled step relation, the runs of it, and the runs in which every step meets
a condition on its label and on the state it starts from.  `GuardedRun.invariant`
is the rule for both: what every such step keeps, every such run keeps.
`foldlM_invariant` is the rule for a run that is played event by event, with an invariant
that speaks of the events, too.
-/

namespace Lib

variable {σ α : Type*}

/-- A run in which each step meets `guard` in the state it starts from. -/
def GuardedRun (step : α → σ → σ → Prop) (guard : α → σ → Prop) : σ → σ → Prop :=
  Relation.ReflTransGen fun s s' => ∃ a, guard a s ∧ step a s s'

/-- A run without a condition. -/
abbrev Run (step : α → σ → σ → Prop) : σ → σ → Prop :=
  GuardedRun step fun _ _ => True

variable {step : α → σ → σ → Prop} {guard guard' : α → σ → Prop} {s s' t : σ}

namespace GuardedRun

theorem refl (s : σ) : GuardedRun step guard s s := Relation.ReflTransGen.refl

theorem tail {a : α} (h : GuardedRun step guard s s') (hg : guard a s') (ht : step a s' t) :
    GuardedRun step guard s t :=
  Relation.ReflTransGen.tail h ⟨a, hg, ht⟩

theorem trans (h : GuardedRun step guard s s') (h' : GuardedRun step guard s' t) :
    GuardedRun step guard s t :=
  Relation.ReflTransGen.trans h h'

/-- A run that meets a condition is a run. -/
theorem run (h : GuardedRun step guard s s') : Run step s s' :=
  Relation.ReflTransGen.mono (fun _ _ ⟨a, _, ha⟩ => ⟨a, trivial, ha⟩) _ _ h

/-- A run that is played event by event. -/
theorem of_foldlM {ε : Type*} {play : σ → ε → Option σ}
    (hplay : ∀ s e s', play s e = some s' → GuardedRun step guard s s') {es : List ε}
    (h : es.foldlM play s = some s') : GuardedRun step guard s s' := by
  induction es generalizing s with
  | nil =>
    obtain rfl : s = s' := by simpa using h
    exact refl s
  | cons e es ih =>
    rw [List.foldlM_cons, Option.bind_eq_bind, Option.bind_eq_some_iff] at h
    obtain ⟨t, ht, hrest⟩ := h
    exact (hplay s e t ht).trans (ih hrest)

/-- What each step keeps, the run keeps. -/
theorem invariant {Inv : σ → Prop}
    (hstep : ∀ a s s', guard a s → step a s s' → Inv s → Inv s')
    (h : GuardedRun step guard s s') (hs : Inv s) : Inv s' := by
  induction h with
  | refl => exact hs
  | tail _ hlast ih =>
    obtain ⟨a, hg, ha⟩ := hlast
    exact hstep a _ _ hg ha ih

end GuardedRun

/-- What holds of the events and the state, played event by event. -/
theorem foldlM_invariant {ε : Type*} {play : σ → ε → Option σ} {Inv : List ε → σ → Prop}
    (hplay : ∀ es s e s', Inv es s → play s e = some s' → Inv (es ++ [e]) s') {es : List ε}
    (h : es.foldlM play s = some s') (hs : Inv [] s) : Inv es s' := by
  induction es using List.reverseRecOn generalizing s' with
  | nil =>
    obtain rfl : s = s' := by simpa using h
    exact hs
  | append_singleton es e ih =>
    rw [List.foldlM_append, Option.bind_eq_bind, Option.bind_eq_some_iff] at h
    obtain ⟨t, ht, hlast⟩ := h
    exact hplay es t e s' (ih ht) (by simpa using hlast)

end Lib
