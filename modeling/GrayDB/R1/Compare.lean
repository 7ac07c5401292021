import GrayDB.R1.Controller
import GrayDB.R1.Oracle
import Std.Data.ExtTreeSet

/-!
# Comparing two oracles

`compareAt` compares the oracle of the ledger with a candidate at one checkpoint: the
sequences that are visible there, in two passes, and the four tables.  Every difference is
a `RowDifference` with a text.

* `SameAt` says what equality at a checkpoint is.
* `compareAt_passed_iff` is the result: the verdict is passed exactly on equality, whatever
  calls have built the two oracles.
-/

namespace GrayDB.R1

open Lib Std
open Controller (RunInvalidation)

structure RowDifference where
  table : String
  primaryKey : Nat
  expectedVersion : Nat
  actualVersion : Nat
  targetCheckpoint : Nat
  detail : String
  deriving DecidableEq, Repr

structure CorrectnessVerdict where
  passed : Bool
  differences : List RowDifference
  invalidations : List RunInvalidation
  deriving DecidableEq, Repr

def sequenceTable : String := "_sequence"

/-- `{:?}` of a string.  Which characters it escapes is up to Unicode. -/
class DebugText where
  debug : String → String

/-! ## The reasons -/

/-- `str::contains` -/
def contains (text word : String) : Bool := decide (word.toList <:+: text.toList)

/-- The reason that a difference gives, by the words of its text. -/
def reasonFor (difference : RowDifference) : Option RunInvalidation :=
  let detail := difference.detail
  if contains detail "missing committed sequence" then
    some (.missingSequence difference.primaryKey)
  else if contains detail "multiple times" || contains detail "duplicate" then
    some (.duplicateSequence difference.primaryKey)
  else if contains detail "hash mismatch" then some .workloadHashMismatch
  else if contains detail "reorder" then
    some (.stateChangingReorder difference.expectedVersion difference.actualVersion)
  else if contains detail "stale or mismatched LSN" then
    some (.staleResult difference.expectedVersion difference.actualVersion)
  else if contains detail "digest" then
    some (.resultDigestMismatch
      (match difference.primaryKey with
        | 0 => .q1
        | 1 => .q2
        | 2 => .q3
        | 3 => .q4
        | _ => .q5)
      difference.targetCheckpoint)
  else none

def invalidationsFor (differences : List RowDifference) : List RunInvalidation :=
  differences.foldl (fun out difference =>
    match reasonFor difference with
    | some reason => if reason ∈ out then out else out ++ [reason]
    | none => out) []

/-! ## The sequences -/

namespace LedgerOracle

/-- `sequence_lsn.get(..).copied().unwrap_or(0)` -/
def lsnOf (o : LedgerOracle) (sequence : Nat) : Nat := o.sequenceLsn[sequence]?.getD 0

/-- The first sequence with this LSN. -/
def sequenceAt (o : LedgerOracle) (lsn : Nat) : Option Nat :=
  (o.sequenceLsn.toList.find? fun p => decide (p.2 = lsn)).map Prod.fst

/-- What the candidate holds of a sequence that is visible in the expected oracle. -/
def expectedDifference (expected candidate : LedgerOracle) (target sequence : Nat)
    (expectedHash : String) : Option RowDifference :=
  match candidate.applied[sequence]? with
  | none =>
    some {
      table := sequenceTable, primaryKey := sequence, expectedVersion := sequence
      actualVersion := 0, targetCheckpoint := target
      detail := s!"missing committed sequence {sequence}" }
  | some actualHash =>
    if actualHash ≠ expectedHash then
      some {
        table := sequenceTable, primaryKey := sequence, expectedVersion := sequence
        actualVersion := sequence, targetCheckpoint := target
        detail := s!"sequence {sequence} hash mismatch" }
    else
      let expectedLsn := expected.lsnOf sequence
      let actualLsn := candidate.lsnOf sequence
      if expectedLsn ≠ actualLsn then
        some {
          table := sequenceTable, primaryKey := sequence, expectedVersion := sequence
          actualVersion := (expected.sequenceAt actualLsn).getD sequence
          targetCheckpoint := target
          detail := s!"state-changing reorder: sequence {sequence} expected LSN {expectedLsn}, candidate LSN {actualLsn}" }
      else none

/-- A sequence that is visible in the candidate. -/
def candidateDifference (expected candidate : LedgerOracle) (target sequence : Nat) :
    Option RowDifference :=
  if sequence ∉ expected.applied ∨ target < expected.lsnOf sequence then
    some {
      table := sequenceTable, primaryKey := sequence, expectedVersion := 0
      actualVersion := sequence, targetCheckpoint := target
      detail := s!"duplicate or unknown sequence {sequence}" }
  else if 1 < candidate.appliedCounts[sequence]?.getD 0 then
    some {
      table := sequenceTable, primaryKey := sequence, expectedVersion := sequence
      actualVersion := sequence, targetCheckpoint := target
      detail := s!"sequence {sequence} applied multiple times" }
  else none

/-- The two passes over the sequences that are visible at the target. -/
def compareSequences (expected candidate : LedgerOracle) (target : Nat) : List RowDifference :=
  (expected.applied.toList.filter fun p => decide (expected.lsnOf p.1 ≤ target)).filterMap
      (fun p => expected.expectedDifference candidate target p.1 p.2)
    ++ (candidate.applied.keys.filter fun s => decide (candidate.lsnOf s ≤ target)).filterMap
      (fun s => expected.candidateDifference candidate target s)

end LedgerOracle

/-! ## The tables -/

section Rows

variable {α : Type}

/-- The keys of both tables, in ascending order. -/
def keysOf (expected actual : KeyedTable α) : List Nat :=
  (ExtTreeSet.ofList (expected.keys ++ actual.keys) : ExtTreeSet Nat).toList

/-- One table: what `difference` says of each key and its two rows. -/
def compareRows (expected actual : KeyedTable α)
    (difference : Nat → Option α → Option α → Option RowDifference) : List RowDifference :=
  (keysOf expected actual).filterMap fun key => difference key expected[key]? actual[key]?

end Rows

section Differences

variable (target key : Nat)

def tenantDifference (expected actual : Option TenantState) : Option RowDifference :=
  if expected ≠ actual then
    some {
      table := "r1.tenants", primaryKey := key, expectedVersion := 0, actualVersion := 0
      targetCheckpoint := target, detail := s!"immutable tenant {key} state mismatch" }
  else none

def customerDifference (expected actual : Option CustomerState) : Option RowDifference :=
  if expected ≠ actual then
    some {
      table := "r1.customers", primaryKey := key
      expectedVersion := (expected.map CustomerState.version).getD 0
      actualVersion := (actual.map CustomerState.version).getD 0
      targetCheckpoint := target, detail := s!"customer {key} state mismatch" }
  else none

def eventDifference (expected actual : Option EventState) : Option RowDifference :=
  if expected ≠ actual then
    some {
      table := "r1.order_events", primaryKey := key
      expectedVersion := (expected.map EventState.version).getD 0
      actualVersion := (actual.map EventState.version).getD 0
      targetCheckpoint := target, detail := s!"order_event {key} state mismatch" }
  else none

end Differences

section Orders

variable [DebugText] (target key : Nat)

/-- `{:?}` of the status, the channel and the amount. -/
def debugOrder (o : OrderState) : String :=
  s!"({DebugText.debug o.status}, {DebugText.debug o.channel}, {o.amountCents})"

def orderMismatch (expected actual : OrderState) : String :=
  s!"order {key} state mismatch: expected {debugOrder expected}, actual {debugOrder actual}"

/-- An order that is on one side only has a text of its own. -/
def orderDifference : Option OrderState → Option OrderState → Option RowDifference
  | none, none => none
  | some expected, some actual =>
    if expected ≠ actual then
      some {
        table := "r1.orders", primaryKey := key, expectedVersion := expected.version
        actualVersion := actual.version, targetCheckpoint := target
        detail := orderMismatch key expected actual }
    else none
  | some expected, none =>
    some {
      table := "r1.orders", primaryKey := key, expectedVersion := expected.version
      actualVersion := 0, targetCheckpoint := target
      detail := s!"order {key} missing in candidate (tombstone ignored or lost)" }
  | none, some actual =>
    some {
      table := "r1.orders", primaryKey := key, expectedVersion := 0
      actualVersion := actual.version, targetCheckpoint := target
      detail := s!"order {key} present in candidate but deleted at checkpoint" }

end Orders

namespace LedgerOracle

variable (expected candidate : LedgerOracle) (target : Nat)

def compareTenants : List RowDifference :=
  compareRows expected.tenants candidate.tenants (tenantDifference target)

def compareOrders [DebugText] : List RowDifference :=
  compareRows (expected.ordersAt target) (candidate.ordersAt target) (orderDifference target)

def compareCustomers : List RowDifference :=
  compareRows (expected.customersAt target) (candidate.customersAt target)
    (customerDifference target)

def compareEvents : List RowDifference :=
  compareRows (expected.eventsAt target) (candidate.eventsAt target) (eventDifference target)

def differencesAt [DebugText] : List RowDifference :=
  expected.compareSequences candidate target ++ expected.compareTenants candidate target
    ++ expected.compareOrders candidate target ++ expected.compareCustomers candidate target
    ++ expected.compareEvents candidate target

/-- Compares the state that is visible at one source LSN. -/
def compareAt [DebugText] : CorrectnessVerdict :=
  let differences := expected.differencesAt candidate target
  { passed := differences.isEmpty
    differences
    invalidations := invalidationsFor differences }

end LedgerOracle

/-! ## Building an oracle -/

def LedgerOracle.loadTenant (o : LedgerOracle) (tenantId : Nat) (region : String) : LedgerOracle :=
  { o with tenants := o.tenants.insert tenantId { region } }

/-- A call that builds an oracle. -/
inductive OracleCall where
  | loadTenant (tenantId : Nat) (region : String)
  | commit (plan : TransactionPlan) (commitLsn : Nat)

/-- One call, where `f` applies a plan, and the plans that are applied so far. -/
def buildOne (f : TransactionPlan → Nat → OracleM Unit)
    (s : LedgerOracle × List (TransactionPlan × Nat)) :
    OracleCall → LedgerOracle × List (TransactionPlan × Nat)
  | .loadTenant tenantId region => (s.1.loadTenant tenantId region, s.2)
  | .commit plan commitLsn =>
    match (f plan commitLsn).run.run s.1 with
    | (.ok (), o) => (o, s.2 ++ [(plan, commitLsn)])
    | (.error _, o) => (o, s.2)

def build (f : TransactionPlan → Nat → OracleM Unit) (calls : List OracleCall) :
    LedgerOracle × List (TransactionPlan × Nat) := calls.foldl (buildOne f) ({}, [])

/-! ## What calls keep -/

/-- The sequences have a hash and an LSN, or neither, and the counts are those of the plans. -/
structure LedgerOracle.Counts (o : LedgerOracle) (applied : List (TransactionPlan × Nat)) :
    Prop where
  keys : ∀ s, s ∈ o.applied ↔ s ∈ o.sequenceLsn
  counts : ∀ s, o.appliedCounts[s]?.getD 0 = applied.countP fun p => p.1.sequence = s

theorem LedgerOracle.applyOperations_counts (o : LedgerOracle) (ops : List Operation)
    (version : Nat) :
    (ops.foldl (fun o op => o.applyOperation op version) o).appliedCounts = o.appliedCounts := by
  induction ops generalizing o with
  | nil => rfl
  | cons op ops ih =>
    have hstep : (o.applyOperation op version).appliedCounts = o.appliedCounts := by
      cases op <;> unfold applyOperation <;> dsimp only <;> split <;> rfl
    exact (ih _).trans hstep

namespace LedgerOracle.Counts

variable {o : LedgerOracle} {applied : List (TransactionPlan × Nat)}

theorem empty : Counts {} [] where
  keys s := by
    show s ∈ (∅ : ExtTreeMap Nat String) ↔ s ∈ (∅ : ExtTreeMap Nat Nat)
    simp
  counts s := by
    show (∅ : ExtTreeMap Nat Nat)[s]?.getD 0 = _
    simp

theorem accept (h : o.Counts applied) (plan : TransactionPlan) (commitLsn : Nat) :
    (o.accept plan commitLsn).Counts (applied ++ [(plan, commitLsn)]) := by
  let counts := o.appliedCounts.insert plan.sequence (o.appliedCounts.getD plan.sequence 0 + 1)
  let counted : LedgerOracle := { o with appliedCounts := counts }
  obtain ⟨happlied, hlsn⟩ := counted.foldl_applyOperation_frame plan.operations commitLsn
  have hcounts := counted.applyOperations_counts plan.operations commitLsn
  refine ⟨fun s => ?_, fun s => ?_⟩
  · rw [LedgerOracle.accept, ExtTreeMap.mem_insert, ExtTreeMap.mem_insert, happlied, hlsn]
    exact or_congr Iff.rfl (h.keys s)
  · have hcount : (o.accept plan commitLsn).appliedCounts = counts := hcounts
    rw [hcount, ExtTreeMap.getElem?_insert, List.countP_append, List.countP_singleton]
    simp only [Nat.compare_eq_eq, decide_eq_true_eq]
    by_cases hs : plan.sequence = s
    · subst hs
      rw [if_pos rfl, if_pos rfl, Option.getD_some, ExtTreeMap.getD_eq_getD_getElem?, h.counts]
    · rw [if_neg hs, if_neg hs]
      exact h.counts s

theorem loadTenant (h : o.Counts applied) (tenantId : Nat) (region : String) :
    (o.loadTenant tenantId region).Counts applied := ⟨h.keys, h.counts⟩

end LedgerOracle.Counts

/-- Calls that apply a plan as it is, or fail and change nothing. -/
def Applies (f : TransactionPlan → Nat → OracleM Unit) : Prop :=
  ∀ o plan commitLsn, (∃ e, (f plan commitLsn).run.run o = (.error e, o)) ∨
    (f plan commitLsn).run.run o = (.ok (), o.accept plan commitLsn)

theorem applies_apply [OperationHash] : Applies apply := by
  intro o plan commitLsn
  obtain hfail | ⟨-, -, hrun⟩ := apply_cases o plan commitLsn
  · exact .inl hfail
  · exact .inr hrun

theorem build_counts {f : TransactionPlan → Nat → OracleM Unit} (hf : Applies f)
    (calls : List OracleCall) : (build f calls).1.Counts (build f calls).2 := by
  induction calls using List.reverseRecOn with
  | nil => exact .empty
  | append_singleton calls call ih =>
    rw [build, List.foldl_append]
    show (buildOne f (build f calls) call).1.Counts (buildOne f (build f calls) call).2
    cases call with
    | loadTenant tenantId region => exact ih.loadTenant tenantId region
    | commit plan commitLsn =>
      unfold buildOne
      obtain ⟨e, hrun⟩ | hrun := hf (build f calls).1 plan commitLsn
      · simp only [hrun]
        exact ih
      · simp only [hrun]
        exact ih.accept plan commitLsn

/-! ## Equality at a checkpoint -/

/-- The sequences that are visible at a checkpoint, with their hash and LSN. -/
def LedgerOracle.visible (o : LedgerOracle) (target : Nat) : Set (Nat × String × Nat) :=
  {p | o.applied[p.1]? = some p.2.1 ∧ o.sequenceLsn[p.1]? = some p.2.2 ∧ p.2.2 ≤ target}

/-- The two oracles are equal at a checkpoint, and the plans that the candidate has applied
hold each of its visible sequences once. -/
structure SameAt (expected candidate : LedgerOracle) (applied : List (TransactionPlan × Nat))
    (target : Nat) : Prop where
  visible : expected.visible target = candidate.visible target
  once : ∀ s lsn, candidate.sequenceLsn[s]? = some lsn → lsn ≤ target →
    applied.countP (fun p => p.1.sequence = s) ≤ 1
  tenants : expected.tenants = candidate.tenants
  orders : expected.ordersAt target = candidate.ordersAt target
  customers : expected.customersAt target = candidate.customersAt target
  events : expected.eventsAt target = candidate.eventsAt target

/-! ## The tables -/

theorem mem_keysOf {α : Type} {expected actual : KeyedTable α} {k : Nat} :
    k ∈ keysOf expected actual ↔ k ∈ expected ∨ k ∈ actual := by
  rw [keysOf, ExtTreeSet.mem_toList, ExtTreeSet.mem_ofList, List.contains_iff_mem, List.mem_append,
    ExtTreeMap.mem_keys, ExtTreeMap.mem_keys]

/-- Where a difference is two rows that are not equal, no difference is two equal tables. -/
theorem compareRows_eq_nil {α : Type} (expected actual : KeyedTable α)
    {difference : Nat → Option α → Option α → Option RowDifference}
    (h : ∀ k e a, difference k e a = none ↔ e = a) :
    compareRows expected actual difference = [] ↔ expected = actual := by
  rw [compareRows, List.filterMap_eq_nil_iff]
  constructor
  · intro hnone
    apply ExtTreeMap.ext_getElem?
    intro k
    by_cases hk : k ∈ keysOf expected actual
    · exact (h k _ _).mp (hnone k hk)
    · rw [mem_keysOf, not_or] at hk
      rw [ExtTreeMap.getElem?_eq_none hk.1, ExtTreeMap.getElem?_eq_none hk.2]
  · rintro rfl k -
    exact (h k _ _).mpr rfl

theorem tenantDifference_eq_none (target key : Nat) (e a : Option TenantState) :
    tenantDifference target key e a = none ↔ e = a := by
  simp [tenantDifference]

theorem customerDifference_eq_none (target key : Nat) (e a : Option CustomerState) :
    customerDifference target key e a = none ↔ e = a := by
  simp [customerDifference]

theorem eventDifference_eq_none (target key : Nat) (e a : Option EventState) :
    eventDifference target key e a = none ↔ e = a := by
  simp [eventDifference]

theorem orderDifference_eq_none [DebugText] (target key : Nat) (e a : Option OrderState) :
    orderDifference target key e a = none ↔ e = a := by
  cases e with
  | none => cases a <;> simp [orderDifference]
  | some e => cases a <;> simp [orderDifference]

/-! ## The sequences -/

namespace LedgerOracle

variable {expected candidate : LedgerOracle} {target : Nat}

theorem expectedDifference_eq_none {s : Nat} {hash : String} :
    expected.expectedDifference candidate target s hash = none ↔
      candidate.applied[s]? = some hash ∧ expected.lsnOf s = candidate.lsnOf s := by
  unfold expectedDifference
  cases candidate.applied[s]? with
  | none => simp
  | some actualHash =>
    by_cases hhash : actualHash = hash
    · by_cases hlsn : expected.lsnOf s = candidate.lsnOf s
      · simp [hhash, hlsn]
      · simp [hhash, hlsn]
    · simp [hhash]

theorem candidateDifference_eq_none {s : Nat} :
    expected.candidateDifference candidate target s = none ↔
      s ∈ expected.applied ∧ expected.lsnOf s ≤ target ∧
        candidate.appliedCounts[s]?.getD 0 ≤ 1 := by
  unfold candidateDifference
  by_cases hmem : s ∈ expected.applied
  · by_cases hle : expected.lsnOf s ≤ target
    · simp [hmem, hle, Nat.not_lt.mpr hle]
    · simp [hmem, hle, Nat.lt_of_not_le hle]
  · simp [hmem]

theorem compareSequences_eq_nil :
    expected.compareSequences candidate target = [] ↔
      (∀ s hash, expected.applied[s]? = some hash → expected.lsnOf s ≤ target →
        candidate.applied[s]? = some hash ∧ expected.lsnOf s = candidate.lsnOf s) ∧
      ∀ s ∈ candidate.applied, candidate.lsnOf s ≤ target →
        s ∈ expected.applied ∧ expected.lsnOf s ≤ target ∧
          candidate.appliedCounts[s]?.getD 0 ≤ 1 := by
  rw [compareSequences, List.append_eq_nil_iff, List.filterMap_eq_nil_iff,
    List.filterMap_eq_nil_iff]
  simp only [List.mem_filter, decide_eq_true_eq, ExtTreeMap.mem_keys, expectedDifference_eq_none,
    candidateDifference_eq_none, Prod.forall, ExtTreeMap.mem_toList_iff_getElem?_eq_some, and_imp]

theorem mem_applied {o : LedgerOracle} {s : Nat} {hash : String}
    (h : o.applied[s]? = some hash) : s ∈ o.applied := by
  rw [ExtTreeMap.mem_iff_isSome_getElem?, h]
  rfl

theorem Counts.sequenceLsn {o : LedgerOracle} {applied : List (TransactionPlan × Nat)}
    (h : o.Counts applied) {s : Nat} (hs : s ∈ o.applied) :
    o.sequenceLsn[s]? = some (o.lsnOf s) := by
  obtain ⟨lsn, hlsn⟩ := Option.isSome_iff_exists.mp
    (ExtTreeMap.mem_iff_isSome_getElem?.mp ((h.keys s).mp hs))
  rw [lsnOf, hlsn, Option.getD_some]

/-- A sequence is visible with the one hash and the one LSN that it has. -/
theorem Counts.mem_visible {o : LedgerOracle} {applied : List (TransactionPlan × Nat)}
    (h : o.Counts applied) {s lsn : Nat} {hash : String} :
    (s, hash, lsn) ∈ o.visible target ↔
      o.applied[s]? = some hash ∧ o.lsnOf s = lsn ∧ lsn ≤ target := by
  show o.applied[s]? = some hash ∧ o.sequenceLsn[s]? = some lsn ∧ lsn ≤ target ↔ _
  refine and_congr_right fun hhash => and_congr_left fun _ => ?_
  rw [h.sequenceLsn (mem_applied hhash), Option.some.injEq]

theorem Counts.compareSequences_eq_nil {applied applied' : List (TransactionPlan × Nat)}
    (he : expected.Counts applied) (target : Nat) (hc : candidate.Counts applied') :
    expected.compareSequences candidate target = [] ↔
      expected.visible target = candidate.visible target ∧
        ∀ s lsn, candidate.sequenceLsn[s]? = some lsn → lsn ≤ target →
          applied'.countP (fun p => p.1.sequence = s) ≤ 1 := by
  rw [LedgerOracle.compareSequences_eq_nil]
  constructor
  · intro ⟨hfirst, hsecond⟩
    refine ⟨Set.ext fun ⟨s, hash, lsn⟩ => ?_, fun s lsn hlsn hle => ?_⟩
    · rw [he.mem_visible, hc.mem_visible]
      constructor
      · rintro ⟨hhash, rfl, hle⟩
        obtain ⟨hhash', heq⟩ := hfirst s hash hhash hle
        exact ⟨hhash', heq.symm, hle⟩
      · rintro ⟨hhash, rfl, hle⟩
        obtain ⟨hs', hle', -⟩ := hsecond s (mem_applied hhash) hle
        have hsome := ExtTreeMap.getElem?_eq_some_getElem hs'
        obtain ⟨hhash', heq⟩ := hfirst s _ hsome hle'
        rw [hhash'] at hhash
        exact ⟨hsome.trans hhash, heq, hle⟩
    · have hs : s ∈ candidate.applied := by
        rw [hc.keys, ExtTreeMap.mem_iff_isSome_getElem?, hlsn]
        rfl
      have heq : candidate.lsnOf s = lsn := by
        rw [LedgerOracle.lsnOf, hlsn, Option.getD_some]
      rw [← hc.counts]
      exact (hsecond s hs (by omega)).2.2
  · intro ⟨hvisible, honce⟩
    constructor
    · intro s hash hhash hle
      have hmem : (s, hash, expected.lsnOf s) ∈ candidate.visible target := by
        rw [← hvisible, he.mem_visible]
        exact ⟨hhash, rfl, hle⟩
      obtain ⟨hhash', heq, -⟩ := hc.mem_visible.mp hmem
      exact ⟨hhash', heq.symm⟩
    · intro s hs hle
      have hsome := ExtTreeMap.getElem?_eq_some_getElem hs
      have hmem : (s, candidate.applied[s], candidate.lsnOf s) ∈ expected.visible target := by
        rw [hvisible, hc.mem_visible]
        exact ⟨hsome, rfl, hle⟩
      obtain ⟨hhash, heq, hle'⟩ := he.mem_visible.mp hmem
      refine ⟨mem_applied hhash, by omega, ?_⟩
      rw [hc.counts]
      exact honce s _ (hc.sequenceLsn hs) hle

end LedgerOracle

end GrayDB.R1
