import GrayDB.R1.Planner

/-!
# Counting inserts

The planner draws the row of an update among the inserts of a table so far, and computes
their number from two cycles: of 50 operations the first 45 insert, and of 20 inserts twelve
are events, seven orders and one a customer.

* `insertRowsBefore_succ`: one operation more is one insert more in the first 45 slots.
* `tableRows_succ`: one insert more is a row more of the table that it goes to.
* `insertTargetCountBefore_eq` is the count over the planner.

The count and the kind of an operation come from quotients and remainders of the ordinal,
which do not leave 64 bits.
-/

namespace GrayDB.R1

/-- The operation is an insert into the table. -/
def Operation.insertsInto (table : Generator.Table) (op : Operation) : Bool :=
  decide (op.insertKey.map Prod.fst = some table)

/-- The rows of a table among the first `n` inserts. -/
def tableRows (n : Nat) : Generator.Table → Nat
  | .tenants => 0
  | .customers => n / 20
  | .orders => n / 20 * 7 + min (n % 20 - 12) 7
  | .orderEvents => n / 20 * 12 + min (n % 20) 12

theorem insertTargetCountBefore_eq_tableRows (g : Nat) (table : Generator.Table) :
    insertTargetCountBefore g table = tableRows (insertRowsBefore g) table := by
  cases table <;> rfl

theorem insertRowsBefore_succ (g : Nat) :
    insertRowsBefore (g + 1) = insertRowsBefore g + if g % 50 < 45 then 1 else 0 := by
  unfold insertRowsBefore
  split_ifs with hslot
  · omega
  · omega

/-- In the slots of inserts, the number of inserts so far is the index of the next. -/
theorem insertRowsBefore_eq {g : Nat} (h : g % 50 < 45) : insertRowsBefore g = insertIndex g := by
  rw [insertRowsBefore, insertIndex, Nat.min_eq_left (Nat.le_of_lt h)]

theorem tableRows_succ (n : Nat) (table : Generator.Table) :
    tableRows (n + 1) table = tableRows n table + if insertTable n = table then 1 else 0 := by
  unfold insertTable
  cases table with
  | tenants =>
    rw [if_neg (by split_ifs <;> exact nofun)]
    rfl
  | customers =>
    simp only [tableRows]
    split_ifs <;> first | omega | contradiction
  | orders =>
    simp only [tableRows]
    split_ifs <;> first | omega | contradiction
  | orderEvents =>
    simp only [tableRows]
    split_ifs <;> first | omega | contradiction

/-- Whether an operation inserts into a table depends on its ordinal only. -/
theorem insertsInto_planOperation (seed : UInt64) (g : Nat) (table : Generator.Table) :
    (planOperation seed g).insertsInto table
      = decide (g % 50 < 45 ∧ insertTable (insertIndex g) = table) := by
  by_cases hslot : g % 50 < 45
  · have hplan : planOperation seed g = planInsert seed (insertIndex g) := if_pos hslot
    rw [Operation.insertsInto, hplan, insertKey_planInsert]
    simp [hslot]
  · have hnone : (planOperation seed g).insertKey = none := by
      refine Option.eq_none_iff_forall_ne_some.mpr fun key hkey => ?_
      exact hslot (insertKey_planOperation hkey).1
    rw [Operation.insertsInto, hnone]
    simp [hslot]

/-- **Inserts are counted exactly**, into every table and for every seed. -/
theorem insertTargetCountBefore_eq (seed : UInt64) (g : Nat) (table : Generator.Table) :
    insertTargetCountBefore g table
      = (List.range g).countP fun o => (planOperation seed o).insertsInto table := by
  induction g with
  | zero => cases table <;> rfl
  | succ g ih =>
    rw [List.range_succ, List.countP_append, ← ih, insertTargetCountBefore_eq_tableRows,
      insertTargetCountBefore_eq_tableRows, insertRowsBefore_succ, List.countP_singleton,
      insertsInto_planOperation]
    by_cases hslot : g % 50 < 45
    · rw [if_pos hslot, tableRows_succ, insertRowsBefore_eq hslot]
      simp [hslot]
    · rw [if_neg hslot]
      simp [hslot]

end GrayDB.R1
