import Mathlib.Tactic.Common
import Std.Data.ExtTreeMap

/-!
# A keyed table with its history

A table is kept twice: as it is now, and for each key the list of what the key held from
which stamp on, oldest first.  `asOf` reads the table as it was at a stamp.

`Recorded current history past last` says that the two agree: the history gives the table
`past T` for every stamp `T`, from `last` on that is the current one, and nothing in the
history is later than `last`.  `Recorded.write` is the one step lemma: a key is set or
removed at a stamp that is not before `last`.
-/

namespace Lib

open Std

variable {α : Type}

abbrev KeyedTable (α : Type) := ExtTreeMap Nat α

/-- What each key held, and from when on. -/
abbrev History (α : Type) := ExtTreeMap Nat (List (Nat × Option α))

/-- Set a key, or remove it. -/
def KeyedTable.write (t : KeyedTable α) (k : Nat) : Option α → KeyedTable α
  | some v => t.insert k v
  | none => t.erase k

def History.push (h : History α) (k stamp : Nat) (v : Option α) : History α :=
  h.insert k (h[k]?.getD [] ++ [(stamp, v)])

/-- What a key held at a stamp: its last version that is not later. -/
def heldAt (stamp : Nat) (versions : List (Nat × Option α)) : Option α :=
  (versions.reverse.find? fun v => decide (v.1 ≤ stamp)).bind Prod.snd

def History.asOf (h : History α) (stamp : Nat) : KeyedTable α :=
  h.filterMap fun _ versions => heldAt stamp versions

theorem KeyedTable.getElem?_write (t : KeyedTable α) (k : Nat) (v : Option α) (k' : Nat) :
    (t.write k v)[k']? = if k = k' then v else t[k']? := by
  cases v with
  | some v => simp only [write, ExtTreeMap.getElem?_insert, Nat.compare_eq_eq]
  | none => simp only [write, ExtTreeMap.getElem?_erase, Nat.compare_eq_eq]

theorem heldAt_push (stamp : Nat) (versions : List (Nat × Option α)) (v : Nat × Option α) :
    heldAt stamp (versions ++ [v]) = if v.1 ≤ stamp then v.2 else heldAt stamp versions := by
  unfold heldAt
  rw [List.reverse_append, List.reverse_singleton, List.singleton_append, List.find?_cons]
  by_cases h : v.1 ≤ stamp
  · simp [h]
  · simp [h]

theorem History.getElem?_asOf (h : History α) (stamp k : Nat) :
    (h.asOf stamp)[k]? = heldAt stamp (h[k]?.getD []) := by
  rw [asOf, ExtTreeMap.getElem?_filterMap']
  cases h[k]? <;> rfl

/-- A write shows from its stamp on. -/
theorem History.asOf_push (h : History α) (k stamp : Nat) (v : Option α) (T : Nat) :
    (h.push k stamp v).asOf T = if stamp ≤ T then (h.asOf T).write k v else h.asOf T := by
  apply ExtTreeMap.ext_getElem?
  intro k'
  have hpush : ((h.push k stamp v)[k']?).getD []
      = if k = k' then h[k']?.getD [] ++ [(stamp, v)] else h[k']?.getD [] := by
    simp only [push, ExtTreeMap.getElem?_insert, Nat.compare_eq_eq]
    by_cases hk : k = k'
    · rw [if_pos hk, if_pos hk, hk, Option.getD_some]
    · rw [if_neg hk, if_neg hk]
  rw [getElem?_asOf, hpush]
  by_cases hk : k = k'
  · rw [if_pos hk, heldAt_push]
    by_cases hT : stamp ≤ T
    · rw [if_pos hT, if_pos hT, KeyedTable.getElem?_write, if_pos hk]
    · rw [if_neg hT, if_neg hT, getElem?_asOf]
  · rw [if_neg hk]
    by_cases hT : stamp ≤ T
    · rw [if_pos hT, KeyedTable.getElem?_write, if_neg hk, getElem?_asOf]
    · rw [if_neg hT, getElem?_asOf]

/-! ## The two agree -/

/-- The history gives the table `past T` at `T`, and the table has not changed since
`last`. -/
structure Recorded (current : KeyedTable α) (history : History α) (past : Nat → KeyedTable α)
    (last : Nat) : Prop where
  asOf : ∀ T, history.asOf T = past T
  current : ∀ T, last ≤ T → past T = current

namespace Recorded

variable {current : KeyedTable α} {history : History α} {past past' : Nat → KeyedTable α} {last : Nat}

theorem empty : Recorded (∅ : KeyedTable α) ∅ (fun _ => ∅) 0 where
  asOf := by
    intro T
    apply ExtTreeMap.ext_getElem?
    intro k
    rw [History.getElem?_asOf]
    simp [heldAt]
  current := fun _ _ => rfl

/-- The same history, seen later. -/
theorem later (h : Recorded current history past last) (hpast : ∀ T, past' T = past T)
    {stamp : Nat} (hlast : last ≤ stamp) : Recorded current history past' stamp where
  asOf := fun T => (h.asOf T).trans (hpast T).symm
  current := fun T hT => (hpast T).trans (h.current T (Nat.le_trans hlast hT))

/-- A key is set or removed. -/
theorem write (h : Recorded current history past last) {stamp : Nat} (hlast : last ≤ stamp)
    (k : Nat) (v : Option α)
    (hpast : ∀ T, past' T = if stamp ≤ T then (past T).write k v else past T) :
    Recorded (current.write k v) (history.push k stamp v) past' stamp where
  asOf := by
    intro T
    rw [History.asOf_push, h.asOf, hpast]
  current := by
    intro T hT
    rw [hpast, if_pos hT, h.current T (Nat.le_trans hlast hT)]

end Recorded

end Lib
