import Mathlib.Data.List.Sort

/-!
# Sorting

`sorted l` is `l` in the order of its items.  Items that compare equal are equal, so a
sort that is not stable gives the same list.  `sorted_eq_iff`: sorting forgets the order
of the items and nothing else.
-/

namespace Lib

variable {α : Type*} [LE α] [DecidableLE α]

def sorted (l : List α) : List α := l.mergeSort fun a b => decide (a ≤ b)

theorem sorted_perm (l : List α) : (sorted l).Perm l := List.mergeSort_perm l _

variable [Std.IsLinearOrder α]

theorem sorted_pairwise (l : List α) : (sorted l).Pairwise (· ≤ ·) := by
  have h : (sorted l).Pairwise fun a b => decide (a ≤ b) = true := by
    apply List.pairwise_mergeSort
    · intro a b c hab hbc
      exact decide_eq_true (Std.le_trans (of_decide_eq_true hab) (of_decide_eq_true hbc))
    · intro a b
      simpa using Std.le_total (a := a) (b := b)
  exact h.imp of_decide_eq_true

theorem sorted_eq_iff {l l' : List α} : sorted l = sorted l' ↔ l.Perm l' := by
  constructor
  · intro h
    exact (sorted_perm l).symm.trans (h ▸ sorted_perm l')
  · intro h
    have hperm := ((sorted_perm l).trans h).trans (sorted_perm l').symm
    exact hperm.eq_of_pairwise (fun a b _ _ => Std.le_antisymm) (sorted_pairwise l)
      (sorted_pairwise l')

end Lib
