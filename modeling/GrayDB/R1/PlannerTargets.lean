import GrayDB.R1.Planner

/-!
# The rows that planned changes name

An update, a delete and an inserted event name a row by the index that its key is made
of.  The source draws an index among the inserts *of the table* so far, or takes the
number of the delete; but keys are made of the index among *all* inserts, of which
`insertTable` says where they go.  So the named row is there exactly if the index happens
to be one of its table (`namesInserted_iff`), and then it was inserted before.
-/

namespace GrayDB.R1

/-- The operations of the plans 1 to `n`. -/
def workload [OperationHash] (seed : UInt64) (n : Nat) : List Operation :=
  (List.range' 1 n).flatMap fun s => ((WorkloadPlanner.new seed).plan s).1.operations

/-- The row that an operation names besides the one it inserts. -/
def Operation.target : Operation → Option (Generator.Table × Nat)
  | .insertCustomer _ => none
  | .insertOrder _ => none
  | .insertOrderEvent row => some (.orders, row.orderId)
  | .updateCustomer row => some (.customers, row.customerId)
  | .updateOrder row => some (.orders, row.orderId)
  | .deleteOrder orderId _ => some (.orders, orderId)
  | .deleteOrderEvent eventId _ _ => some (.orderEvents, eventId)

/-- The row that operation `k` names is inserted in the workload, before it unless it is an
insert. -/
def NamesInserted (ops : List Operation) (k : Nat) : Prop :=
  ∀ op target, ops[k]? = some op → op.target = some target →
    ∃ j, (ops[j]?.bind Operation.insertKey) = some target ∧ (op.insertKey = none → j < k)

/-! ## The index of the row that is named -/

/-- An event names an order. -/
def insertTarget (seed : UInt64) (insertIndex : Nat) : Option (Generator.Table × Nat) :=
  if insertIndex % 20 ≤ 11 then
    some (.orders,
      deterministicTargetIndex (seed ^^^ 0x0E170E17) insertIndex (insertIndex + 1))
  else none

def updateTarget (seed : UInt64) (updateIndex globalOrdinal : Nat) : Generator.Table × Nat :=
  let table := if updateIndex % 10 ≤ 8 then Generator.Table.orders else .customers
  (table, deterministicTargetIndex seed updateIndex (insertTargetCountBefore globalOrdinal table))

def deleteTarget (deleteIndex : Nat) : Generator.Table × Nat :=
  (if deleteIndex % 5 ≤ 3 then .orders else .orderEvents, deleteIndex)

/-- The table and the index of the row that the operation at an ordinal names. -/
def targetIndex (seed : UInt64) (g : Nat) : Option (Generator.Table × Nat) :=
  if g % 50 < 45 then insertTarget seed (insertIndex g)
  else if g % 50 < 49 then some (updateTarget seed (g / 50 * 4 + (g % 50 - 45)) g)
  else some (deleteTarget (g / 50 + (g % 50 - 49)))

/-- The insert with the index goes to the table of the row. -/
def AimsAtInsert (seed : UInt64) (g : Nat) : Prop :=
  ∀ table index, targetIndex seed g = some (table, index) → insertTable index = table

/-- The key of a row that is named by its index. -/
def keyOf (t : Generator.Table × Nat) : Generator.Table × Nat := (t.1, appKey t.1 t.2)

theorem target_planInsert (seed : UInt64) (index : Nat) :
    (planInsert seed index).target = (insertTarget seed index).map keyOf := by
  rw [planInsert, insertTarget]
  split_ifs <;> rfl

theorem target_planUpdate (seed : UInt64) (index g : Nat) :
    (planUpdate seed index g).target = some (keyOf (updateTarget seed index g)) := by
  rw [planUpdate, updateTarget]
  split_ifs <;> rfl

theorem target_planDelete (seed : UInt64) (index : Nat) :
    (planDelete seed index).target = some (keyOf (deleteTarget index)) := by
  rw [planDelete, deleteTarget]
  split_ifs <;> rfl

theorem target_planOperation (seed : UInt64) (g : Nat) :
    (planOperation seed g).target = (targetIndex seed g).map keyOf := by
  rw [planOperation, targetIndex]
  split_ifs
  · exact target_planInsert seed _
  · exact target_planUpdate seed _ g
  · exact target_planDelete seed _

/-! ## Where the index lies -/

theorem deterministicTargetIndex_lt {seed : UInt64} {index available : Nat} (h : 0 < available) :
    deterministicTargetIndex seed index available < available := by
  rw [deterministicTargetIndex, if_neg (by omega)]
  exact Nat.mod_lt _ h

theorem insertTargetCountBefore_le (g : Nat) (table : Generator.Table) :
    insertTargetCountBefore g table ≤ insertRowsBefore g := by
  cases table <;> simp only [insertTargetCountBefore] <;> omega

/-- An update that draws from no row takes index zero, which is an event. -/
theorem updateTarget_lt (seed : UInt64) (u g : Nat)
    (h : insertTable (updateTarget seed u g).2 = (updateTarget seed u g).1) :
    (updateTarget seed u g).2 < insertRowsBefore g := by
  have hle := insertTargetCountBefore_le g (updateTarget seed u g).1
  rcases Nat.eq_zero_or_pos (insertTargetCountBefore g (updateTarget seed u g).1) with hzero | hpos
  · have hindex : (updateTarget seed u g).2 = 0 := if_pos hzero
    rw [hindex, updateTarget] at h
    split_ifs at h <;> exact nomatch h
  · have hlt : (updateTarget seed u g).2 < _ := deterministicTargetIndex_lt hpos
    exact Nat.lt_of_lt_of_le hlt hle

/-- An index that is an insert of the table that is named comes before the operation. -/
theorem targetIndex_lt {seed : UInt64} {g index : Nat} {table : Generator.Table}
    (h : targetIndex seed g = some (table, index)) (htable : insertTable index = table) :
    index < insertRowsBefore g := by
  rw [targetIndex] at h
  split_ifs at h with hinsert hupdate
  · rw [insertTarget] at h
    split_ifs at h with hevent
    obtain ⟨rfl, hindex⟩ := Prod.mk.inj (Option.some.inj h)
    have hle : index < insertIndex g + 1 := hindex ▸ deterministicTargetIndex_lt (Nat.succ_pos _)
    have hne : index ≠ insertIndex g := by
      intro heq
      rw [heq, insertTable, if_pos hevent] at htable
      cases htable
    rw [insertRowsBefore, Nat.min_eq_left (Nat.le_of_lt hinsert)]
    rw [insertIndex] at hle hne
    omega
  · have heq := Option.some.inj h
    have hlt := updateTarget_lt seed (g / 50 * 4 + (g % 50 - 45)) g
    rw [heq] at hlt
    exact hlt htable
  · obtain ⟨-, rfl⟩ := Prod.mk.inj (Option.some.inj h)
    rw [insertRowsBefore]
    omega

/-- The ordinal of an insert. -/
def ordinalOf (index : Nat) : Nat := index / 45 * 50 + index % 45

theorem insertIndex_ordinalOf (index : Nat) :
    ordinalOf index % 50 < 45 ∧ insertIndex (ordinalOf index) = index := by
  unfold insertIndex ordinalOf
  omega

theorem ordinalOf_lt {index g : Nat} (h : index < insertRowsBefore g) : ordinalOf index < g := by
  rw [insertRowsBefore] at h
  rw [ordinalOf]
  omega

/-! ## Runs -/

theorem insertKey_ordinalOf (seed : UInt64) (index : Nat) :
    (planOperation seed (ordinalOf index)).insertKey = some (keyOf (insertTable index, index)) := by
  obtain ⟨hslot, hindex⟩ := insertIndex_ordinalOf index
  rw [planOperation]
  show Operation.insertKey (if ordinalOf index % 50 < 45 then
    planInsert seed (insertIndex (ordinalOf index)) else _) = _
  rw [if_pos hslot, hindex, insertKey_planInsert]
  rfl

/-- A row with the key of an index is inserted only if the index goes to its table. -/
theorem insertTable_of_insertKey {seed : UInt64} {j index : Nat} {table : Generator.Table}
    (h : (planOperation seed j).insertKey = some (keyOf (table, index))) :
    insertTable index = table := by
  obtain ⟨-, hplan⟩ := insertKey_planOperation h
  rw [insertKey_planInsert] at hplan
  obtain ⟨htable, hkey⟩ := Prod.mk.inj (Option.some.inj hplan)
  rw [htable] at hkey
  have hindex : insertIndex j = index := appKey_injective hkey
  rwa [hindex] at htable

theorem getElem?_workload [OperationHash] (seed : UInt64) (n k : Nat) :
    (workload seed n)[k]? = if k < rowsBefore seed n then some (planOperation seed k) else none := by
  rw [workload, WorkloadPlanner.flatMap_operations, List.getElem?_map]
  split_ifs with h
  · rw [List.getElem?_range h]
    rfl
  · rw [List.getElem?_eq_none (by simpa using h)]
    rfl

theorem namesInserted_of_lt [OperationHash] {seed : UInt64} {n k : Nat}
    (hk : k < rowsBefore seed n) : NamesInserted (workload seed n) k ↔ AimsAtInsert seed k := by
  have hop : (workload seed n)[k]? = some (planOperation seed k) := by
    rw [getElem?_workload, if_pos hk]
  constructor
  · intro h table index htarget
    have hnames : (planOperation seed k).target = some (keyOf (table, index)) := by
      rw [target_planOperation, htarget]
      rfl
    obtain ⟨j, hj, -⟩ := h _ _ hop hnames
    rw [getElem?_workload] at hj
    split_ifs at hj
    · exact insertTable_of_insertKey hj
    · cases hj
  · intro h op target hget hnames
    obtain rfl := Option.some.inj (hop.symm.trans hget)
    rw [target_planOperation, Option.map_eq_some_iff] at hnames
    obtain ⟨⟨table, index⟩, htarget, rfl⟩ := hnames
    have htable := h table index htarget
    have hlt := ordinalOf_lt (targetIndex_lt htarget htable)
    refine ⟨ordinalOf index, ?_, fun _ => hlt⟩
    rw [getElem?_workload, if_pos (Nat.lt_trans hlt hk), ← htable]
    exact insertKey_ordinalOf seed index

/-- **What a planned operation names was inserted** exactly if the index that its key is made
of goes to the table. -/
theorem namesInserted_iff [OperationHash] (seed : UInt64) (n k : Nat) :
    NamesInserted (workload seed n) k ↔ (k < rowsBefore seed n → AimsAtInsert seed k) := by
  by_cases hk : k < rowsBefore seed n
  · rw [namesInserted_of_lt hk]
    exact ⟨fun h _ => h, fun h => h hk⟩
  · refine ⟨fun _ hlt => absurd hlt hk, fun _ op target hget => ?_⟩
    rw [getElem?_workload, if_neg hk] at hget
    exact nomatch hget

theorem transactionSize_pos (seed : UInt64) (sequence : Nat) : 0 < transactionSize seed sequence := by
  rw [transactionSize]
  split_ifs <;> decide

theorem le_rowsBefore (seed : UInt64) (n : Nat) : n ≤ rowsBefore seed n := by
  induction n with
  | zero => exact Nat.zero_le _
  | succ n ih =>
    have hpos := transactionSize_pos seed (n + 1)
    rw [rowsBefore_succ]
    omega

/-- The first event names an order that is never inserted, and so does the first delete. -/
theorem first_targets_missing :
    let _ : OperationHash := ⟨fun _ => ""⟩
    ¬ NamesInserted (workload 20260901 50) 0 ∧ ¬ NamesInserted (workload 20260901 50) 49 := by
  intro _
  have hrows := le_rowsBefore 20260901 50
  rw [namesInserted_of_lt (by omega), namesInserted_of_lt (by omega)]
  constructor
  · intro h
    exact nomatch h .orders 0 (by decide)
  · intro h
    exact nomatch h .orders 0 (by decide)

end GrayDB.R1
