import GrayDB.R1.Generator
import GrayDB.R1.Workload
import Mathlib.Data.List.Nodup

/-!
# The workload planner

`WorkloadPlanner.plan` cuts the stream of operations into transactions.  The operation at
an ordinal is computed from the seed; where a transaction begins is the sum of the sizes
before it, which the planner keeps in a cache that it extends when it is asked for a
later sequence.

* The cache holds the sums whatever was asked before (`Cached`), so a plan does not depend
  on it.
* The plans follow one another in the stream without a gap (`flatMap_operations`).
* Keys of inserted rows come from the index of the insert, which is another one at every
  ordinal (`insertIndex_injective`).

Ordinals are natural numbers here: the source computes with 64 bits, which they stay far
below.
-/

namespace GrayDB.R1

open Generator (mix64 rotateLeft weightedChoice)

/-! ## Choices -/

/-- `mix64(seed ^ n.rotate_left(rot) ^ salt)`. -/
def mixed (seed : UInt64) (n rot : Nat) (salt : UInt64) : UInt64 :=
  mix64 (seed ^^^ rotateLeft (UInt64.ofNat n) rot ^^^ salt)

/-- The end of the list is not reached. -/
def choose (draw : UInt64) (choices : List (String × Nat)) : String :=
  (weightedChoice draw choices).getD ""

def nextSegment (seed : UInt64) (n : Nat) : String :=
  choose (mixed seed n 9 0) [("consumer", 55), ("smb", 29), ("mid-market", 12), ("enterprise", 4)]

def nextEmailDomain (seed : UInt64) (n : Nat) : String :=
  choose (mixed seed n 3 0xE11A)
    [("example.com", 58), ("mail.test", 25), ("corp.test", 12), ("acme.test", 5)]

def nextStatus (seed : UInt64) (n : Nat) : String :=
  choose (mixed seed n 19 0x57A7)
    [("paid", 46), ("shipped", 27), ("pending", 15), ("cancelled", 8), ("refunded", 4)]

def nextChannel (seed : UInt64) (n : Nat) : String :=
  choose (mixed seed n 27 0x0CA1) [("web", 61), ("mobile", 31), ("partner", 8)]

def nextEventType (seed : UInt64) (n : Nat) : String :=
  choose (mixed seed n 31 0x0E47)
    [("created", 42), ("paid", 30), ("fulfilled", 17), ("cancelled", 7), ("returned", 4)]

def baseAmount (seed : UInt64) (n : Nat) : Int :=
  let bucket := (mixed seed n 17 0xA11C).toNat % 100
  let value := (mixed seed n 23 0xB00C).toNat
  if bucket ≤ 54 then 100 + value % 2400
  else if bucket ≤ 81 then 2500 + value % 7500
  else if bucket ≤ 93 then 10000 + value % 40000
  else if bucket ≤ 98 then 50000 + value % 200000
  else 250000 + value % 1750000

/-- The sum saturates at the largest `i64`. -/
def mutateAmount (seed : UInt64) (n : Nat) (amount : Int) : Int :=
  min (amount + (mixed seed n 29 0xD31A).toNat % 10000) (2 ^ 63 - 1)

def boundedJson (kind : String) (seed : UInt64) (n : Nat) : String :=
  "\x7b\"kind\":\"" ++ kind ++ "\",\"payload\":" ++ toString ((mixed seed n 37 0).toNat % 1000) ++
    ",\"schema_version\":1\x7d"

def mutateJson (kind : String) (seed : UInt64) (n : Nat) : String :=
  "\x7b\"kind\":\"" ++ kind ++ "\",\"revision\":" ++ toString ((mixed seed n 41 0).toNat % 1000) ++
    ",\"schema_version\":1\x7d"

def logicalTimeMicros (globalOrdinal : Nat) : Int := 1700000000000000 + globalOrdinal * 1000

def deterministicTargetIndex (seed : UInt64) (sequenceIndex available : Nat) : Nat :=
  if available = 0 then 0 else (mixed seed sequenceIndex 11 0).toNat % available

def tenantForAppIndex (seed : UInt64) (appIndex : Nat) (salt : UInt64) : Nat :=
  (mixed seed appIndex 5 salt).toNat % 64 * 100 + 1

/-! ## Rows -/

def appCustomerBase : Nat := 10000000000
def appOrderBase : Nat := 20000000000
def appEventBase : Nat := 30000000000

def makeInsertCustomer (seed : UInt64) (customerIndex : Nat) : CustomerRow where
  customerId := appCustomerBase + customerIndex + 1
  tenantId := tenantForAppIndex seed customerIndex 17
  segment := nextSegment seed customerIndex
  emailDomain := nextEmailDomain seed customerIndex
  profileJson := boundedJson "customer" seed customerIndex
  createdAtMicros := logicalTimeMicros (customerIndex * 20 + 19)

def makeInsertOrder (seed : UInt64) (orderIndex : Nat) : OrderRow :=
  let customerSlot := (mixed seed orderIndex 7 0x0C557A55).toNat % 5
  let tenantSlot := (mixed seed orderIndex 13 0x51DE0CC1).toNat % 64
  let tenantId := tenantSlot * 100 + 1
  let createdAtMicros := logicalTimeMicros (orderIndex * 3)
  { orderId := appOrderBase + orderIndex + 1
    tenantId
    customerId := tenantId + customerSlot + 1
    status := nextStatus seed orderIndex
    channel := nextChannel seed orderIndex
    amountCents := baseAmount seed orderIndex
    createdAtMicros
    updatedAtMicros := createdAtMicros + 250000
    attributesJson := boundedJson "order" seed orderIndex }

def makeInsertEvent (seed : UInt64) (eventIndex : Nat) : OrderEventRow :=
  let orderInsertIndex :=
    deterministicTargetIndex (seed ^^^ 0x0E170E17) eventIndex (eventIndex + 1)
  let order := makeInsertOrder seed orderInsertIndex
  { eventId := appEventBase + eventIndex + 1
    orderId := order.orderId
    tenantId := order.tenantId
    eventType := nextEventType seed eventIndex
    eventAtMicros := logicalTimeMicros eventIndex
    metadataJson := boundedJson "event" seed eventIndex }

/-! ## Operations -/

def insertRowsBefore (globalOrdinal : Nat) : Nat :=
  globalOrdinal / 50 * 45 + min (globalOrdinal % 50) 45

def insertTargetCountBefore (globalOrdinal : Nat) : Generator.Table → Nat
  | .tenants => 0
  | .customers => insertRowsBefore globalOrdinal / 20
  | .orders =>
    insertRowsBefore globalOrdinal / 20 * 7 + min (insertRowsBefore globalOrdinal % 20 - 12) 7
  | .orderEvents =>
    insertRowsBefore globalOrdinal / 20 * 12 + min (insertRowsBefore globalOrdinal % 20) 12

def planInsert (seed : UInt64) (insertIndex : Nat) : Operation :=
  if insertIndex % 20 ≤ 11 then .insertOrderEvent (makeInsertEvent seed insertIndex)
  else if insertIndex % 20 ≤ 18 then .insertOrder (makeInsertOrder seed insertIndex)
  else .insertCustomer (makeInsertCustomer seed insertIndex)

def planUpdate (seed : UInt64) (updateIndex globalOrdinal : Nat) : Operation :=
  if updateIndex % 10 ≤ 8 then
    let orderInsertCount := insertTargetCountBefore globalOrdinal .orders
    let orderIndex := deterministicTargetIndex seed updateIndex orderInsertCount
    let row := makeInsertOrder seed orderIndex
    .updateOrder { row with
      status := nextStatus seed updateIndex
      amountCents := mutateAmount seed updateIndex row.amountCents
      updatedAtMicros := row.updatedAtMicros + 1000000 + updateIndex % 10000
      attributesJson := mutateJson "order-update" seed updateIndex }
  else
    let customerInsertCount := insertTargetCountBefore globalOrdinal .customers
    let customerIndex := deterministicTargetIndex seed updateIndex customerInsertCount
    let row := makeInsertCustomer seed customerIndex
    .updateCustomer { row with
      segment := nextSegment seed updateIndex
      profileJson := mutateJson "customer-update" seed updateIndex }

def planDelete (seed : UInt64) (deleteIndex : Nat) : Operation :=
  if deleteIndex % 5 ≤ 3 then
    let row := makeInsertOrder seed deleteIndex
    .deleteOrder row.orderId row.tenantId
  else
    let row := makeInsertEvent seed deleteIndex
    .deleteOrderEvent row.eventId row.orderId row.tenantId

/-- Of 50 operations 45 insert, 4 update and one deletes. -/
def planOperation (seed : UInt64) (globalOrdinal : Nat) : Operation :=
  let cycle := globalOrdinal / 50
  let slot := globalOrdinal % 50
  if slot < 45 then planInsert seed (cycle * 45 + slot)
  else if slot < 49 then planUpdate seed (cycle * 4 + (slot - 45)) globalOrdinal
  else planDelete seed (cycle + (slot - 49))

def transactionSize (seed : UInt64) (sequence : Nat) : Nat :=
  let draw := (mixed seed sequence 17 0).toNat % 10000
  if draw ≤ 9499 then 1 else if draw ≤ 9899 then 10 else if draw ≤ 9989 then 100 else 1000

/-! ## The planner -/

/-- `prefix_rows[k]` is the number of rows up to sequence `k`. -/
structure WorkloadPlanner where
  seed : UInt64
  prefixRows : List Nat
  deriving DecidableEq, Repr

namespace WorkloadPlanner

def new (seed : UInt64) : WorkloadPlanner := { seed, prefixRows := [0] }

/-- Rounds of the loop that extends the cache. -/
def extend (seed : UInt64) : Nat → List Nat → List Nat
  | 0, rows => rows
  | rounds + 1, rows =>
    extend seed rounds (rows ++ [rows.getLastD 0 + transactionSize seed rows.length])

/-- The loop ends with more than `sequence` numbers in the cache. -/
def rowsBeforeSequence (p : WorkloadPlanner) (sequence : Nat) : Nat × WorkloadPlanner :=
  let rows := extend p.seed (sequence + 1 - p.prefixRows.length) p.prefixRows
  (rows.getD (sequence - 1) 0, { p with prefixRows := rows })

def plan [OperationHash] (p : WorkloadPlanner) (sequence : Nat) :
    TransactionPlan × WorkloadPlanner :=
  let (offset, p) := p.rowsBeforeSequence sequence
  let operations := (List.range (transactionSize p.seed sequence)).map fun i =>
    planOperation p.seed (offset + i)
  ({ sequence, logicalTimeMicros := logicalTimeMicros offset, operations
     operationSha256 := operationHash operations }, p)

/-- Some calls of `plan`, one after the other. -/
def plans [OperationHash] : WorkloadPlanner → List Nat → List TransactionPlan
  | _, [] => []
  | p, sequence :: sequences =>
    let (plan, p) := p.plan sequence
    plan :: p.plans sequences

end WorkloadPlanner

/-- The rows of the first `n` transactions. -/
def rowsBefore (seed : UInt64) (n : Nat) : Nat :=
  ((List.range n).map fun k => transactionSize seed (k + 1)).sum

/-- The table and the primary key of an insert. -/
def Operation.insertKey : Operation → Option (Generator.Table × Nat)
  | .insertCustomer row => some (.customers, row.customerId)
  | .insertOrder row => some (.orders, row.orderId)
  | .insertOrderEvent row => some (.orderEvents, row.eventId)
  | _ => none

theorem rowsBefore_succ (seed : UInt64) (n : Nat) :
    rowsBefore seed (n + 1) = rowsBefore seed n + transactionSize seed (n + 1) := by
  rw [rowsBefore, List.range_succ, List.map_append, List.sum_append, List.map_singleton,
    List.sum_singleton, rowsBefore]

/-! ## The cache -/

namespace WorkloadPlanner

/-- The cache holds the numbers of rows, from no transaction on. -/
def Cached (p : WorkloadPlanner) : Prop :=
  ∃ m, p.prefixRows = (List.range (m + 1)).map (rowsBefore p.seed)

theorem cached_new (seed : UInt64) : (new seed).Cached := ⟨0, rfl⟩

theorem extend_rowsBefore (seed : UInt64) (rounds m : Nat) :
    extend seed rounds ((List.range (m + 1)).map (rowsBefore seed))
      = (List.range (m + rounds + 1)).map (rowsBefore seed) := by
  induction rounds generalizing m with
  | zero => rfl
  | succ rounds ih =>
    have hlast : ((List.range (m + 1)).map (rowsBefore seed)).getLastD 0 = rowsBefore seed m := by
      rw [List.range_succ, List.map_append, List.map_singleton, List.getLastD_concat]
    have hnext : (List.range (m + 1)).map (rowsBefore seed)
          ++ [rowsBefore seed m + transactionSize seed (m + 1)]
        = (List.range (m + 1 + 1)).map (rowsBefore seed) := by
      rw [List.range_succ (n := m + 1), List.map_append, List.map_singleton, rowsBefore_succ]
    rw [extend, hlast, List.length_map, List.length_range, hnext, ih, Nat.add_right_comm m 1 rounds]
    rfl

/-- The offset of a sequence is the number of rows before it, whatever the cache held. -/
theorem rowsBeforeSequence_spec {p : WorkloadPlanner} (h : p.Cached) (sequence : Nat) :
    (p.rowsBeforeSequence sequence).1 = rowsBefore p.seed (sequence - 1) ∧
      (p.rowsBeforeSequence sequence).2.Cached ∧
      (p.rowsBeforeSequence sequence).2.seed = p.seed := by
  obtain ⟨m, hrows⟩ := h
  have hextended : extend p.seed (sequence + 1 - p.prefixRows.length) p.prefixRows
      = (List.range (m + (sequence + 1 - (m + 1)) + 1)).map (rowsBefore p.seed) := by
    rw [hrows, List.length_map, List.length_range, extend_rowsBefore]
  have hlt : sequence - 1 < m + (sequence + 1 - (m + 1)) + 1 := by omega
  refine ⟨?_, ⟨_, hextended⟩, rfl⟩
  show (extend p.seed _ p.prefixRows).getD (sequence - 1) 0 = _
  rw [hextended, List.getD_eq_getElem?_getD, List.getElem?_map, List.getElem?_range hlt]
  rfl

variable [OperationHash]

theorem plan_spec {p : WorkloadPlanner} (h : p.Cached) (sequence : Nat) :
    (p.plan sequence).1 = ((new p.seed).plan sequence).1 ∧ (p.plan sequence).2.Cached ∧
      (p.plan sequence).2.seed = p.seed := by
  obtain ⟨hoffset, hcached, hseed⟩ := rowsBeforeSequence_spec h sequence
  obtain ⟨hoffset', -, hseed'⟩ := rowsBeforeSequence_spec (cached_new p.seed) sequence
  have hnew : (new p.seed).seed = p.seed := rfl
  refine ⟨?_, hcached, hseed⟩
  simp only [plan, hoffset, hoffset', hseed, hseed', hnew]

theorem operations_plan (seed : UInt64) (sequence : Nat) :
    ((new seed).plan sequence).1.operations
      = (List.range (transactionSize seed sequence)).map fun i =>
          planOperation seed (rowsBefore seed (sequence - 1) + i) := by
  obtain ⟨hoffset, -, hseed⟩ := rowsBeforeSequence_spec (cached_new seed) sequence
  have hnew : (new seed).seed = seed := rfl
  simp only [plan, hoffset, hseed, hnew]

/-- Earlier calls do not change a plan. -/
theorem plans_eq {p : WorkloadPlanner} (h : p.Cached) (sequences : List Nat) :
    p.plans sequences = sequences.map fun s => ((new p.seed).plan s).1 := by
  induction sequences generalizing p with
  | nil => rfl
  | cons sequence sequences ih =>
    obtain ⟨hplan, hcached, hseed⟩ := plan_spec h sequence
    show (p.plan sequence).1 :: (p.plan sequence).2.plans sequences = _
    rw [hplan, ih hcached, hseed, List.map_cons]

/-- The plans follow one another in the stream of operations. -/
theorem flatMap_operations (seed : UInt64) (n : Nat) :
    (List.range' 1 n).flatMap (fun s => ((new seed).plan s).1.operations)
      = (List.range (rowsBefore seed n)).map (planOperation seed) := by
  induction n with
  | zero => rfl
  | succ n ih =>
    rw [List.range'_1_concat, List.flatMap_append, ih, List.flatMap_singleton, operations_plan,
      rowsBefore_succ, List.range_add, List.map_append, List.map_map, Nat.add_comm 1 n,
      Nat.add_sub_cancel]
    rfl

end WorkloadPlanner

/-! ## The keys of inserted rows -/

/-- The index of the insert at an ordinal. -/
def insertIndex (globalOrdinal : Nat) : Nat := globalOrdinal / 50 * 45 + globalOrdinal % 50

theorem insertIndex_injective {g g' : Nat} (h : g % 50 < 45) (h' : g' % 50 < 45)
    (heq : insertIndex g = insertIndex g') : g = g' := by
  unfold insertIndex at heq
  omega

/-- The table that the insert with an index goes to: of 20 inserts twelve are events, seven
orders and one a customer. -/
def insertTable (insertIndex : Nat) : Generator.Table :=
  if insertIndex % 20 ≤ 11 then .orderEvents
  else if insertIndex % 20 ≤ 18 then .orders
  else .customers

/-- The key of the row with an index. -/
def appKey : Generator.Table → Nat → Nat
  | .tenants, index => index
  | .customers, index => appCustomerBase + index + 1
  | .orders, index => appOrderBase + index + 1
  | .orderEvents, index => appEventBase + index + 1

theorem appKey_injective {table : Generator.Table} {i j : Nat} (h : appKey table i = appKey table j) :
    i = j := by
  cases table <;> simpa [appKey] using h

theorem insertKey_planInsert (seed : UInt64) (index : Nat) :
    (planInsert seed index).insertKey = some (insertTable index, appKey (insertTable index) index) := by
  rw [planInsert, insertTable]
  split_ifs <;> rfl

/-- An operation has the key of a row to insert only in the first 45 slots of a cycle. -/
theorem insertKey_planOperation {seed : UInt64} {g : Nat} {key : Generator.Table × Nat}
    (h : (planOperation seed g).insertKey = some key) :
    g % 50 < 45 ∧ (planInsert seed (insertIndex g)).insertKey = some key := by
  rw [planOperation] at h
  by_cases hinsert : g % 50 < 45
  · rw [if_pos hinsert] at h
    exact ⟨hinsert, h⟩
  · rw [if_neg hinsert] at h
    split_ifs at h
    · rw [planUpdate] at h
      split_ifs at h <;> exact nomatch h
    · rw [planDelete] at h
      split_ifs at h <;> exact nomatch h

theorem planInsert_key_injective {seed : UInt64} {i j : Nat}
    (h : (planInsert seed i).insertKey = (planInsert seed j).insertKey) : i = j := by
  rw [insertKey_planInsert, insertKey_planInsert] at h
  obtain ⟨htable, hkey⟩ := Prod.mk.inj (Option.some.inj h)
  rw [htable] at hkey
  exact appKey_injective hkey

theorem insertKeys_nodup (seed : UInt64) (n : Nat) :
    ((List.range n).filterMap fun g => (planOperation seed g).insertKey).Nodup := by
  refine List.nodup_range.filterMap ?_
  intro g g' key hkey hkey'
  obtain ⟨hslot, hplan⟩ := insertKey_planOperation hkey
  obtain ⟨hslot', hplan'⟩ := insertKey_planOperation hkey'
  exact insertIndex_injective hslot hslot' (planInsert_key_injective (hplan.trans hplan'.symm))

/-- **The plans partition the stream of operations**, whatever the order of the calls, and
no key is inserted twice into a table. -/
theorem plans_partition [OperationHash] (seed : UInt64) :
    (∀ sequences, (WorkloadPlanner.new seed).plans sequences
        = sequences.map fun s => ((WorkloadPlanner.new seed).plan s).1) ∧
      (∀ n, (List.range' 1 n).flatMap (fun s => ((WorkloadPlanner.new seed).plan s).1.operations)
        = (List.range (rowsBefore seed n)).map (planOperation seed)) ∧
      ∀ n, ((List.range n).filterMap fun g => (planOperation seed g).insertKey).Nodup :=
  ⟨WorkloadPlanner.plans_eq (WorkloadPlanner.cached_new seed),
    WorkloadPlanner.flatMap_operations seed, insertKeys_nodup seed⟩

end GrayDB.R1
