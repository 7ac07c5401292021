import GrayDB.Lib.Versioned
import GrayDB.R1.Workload
import Mathlib.Data.List.Induction
import Mathlib.Data.List.Pairwise

/-!
# The ledger oracle

The oracle replays the committed ledger.  It keeps the current rows of three tables and
for each the history of every key, so that it can give the tables as they were at any
checkpoint.

`Tables` is what it stands for: the tables alone, changed by the operations one after
the other.  `LedgerOracle.Follows` connects the two: the plans that were accepted are
numbered without a gap, and each history gives the replay of the plans up to a stamp.

* `apply_cases`: a call fails and changes nothing, or the plan is the next one.
* `oracle_time_travel`: what holds after any sequence of calls.
-/

namespace GrayDB.R1

open Lib Std

structure TenantState where
  region : String
  deriving DecidableEq, Repr

structure CustomerState where
  tenantId : Nat
  segment : String
  emailDomain : String
  profileJson : String
  createdAtMicros : Int
  version : Nat
  deriving DecidableEq, Repr

structure OrderState where
  tenantId : Nat
  customerId : Nat
  status : String
  channel : String
  amountCents : Int
  createdAtMicros : Int
  updatedAtMicros : Int
  attributesJson : String
  version : Nat
  deriving DecidableEq, Repr

structure EventState where
  orderId : Nat
  tenantId : Nat
  eventType : String
  eventAtMicros : Int
  metadataJson : String
  version : Nat
  deriving DecidableEq, Repr

structure LedgerOracle where
  tenants : ExtTreeMap Nat TenantState := ∅
  customers : KeyedTable CustomerState := ∅
  orders : KeyedTable OrderState := ∅
  events : KeyedTable EventState := ∅
  orderHistory : History OrderState := ∅
  eventHistory : History EventState := ∅
  customerHistory : History CustomerState := ∅
  /-- The operation hash of every applied sequence. -/
  applied : ExtTreeMap Nat String := ∅
  /-- How many times each sequence was applied. -/
  appliedCounts : ExtTreeMap Nat Nat := ∅
  /-- The commit-end LSN at which each sequence became visible. -/
  sequenceLsn : ExtTreeMap Nat Nat := ∅

inductive OracleError where
  | hashMismatch (sequence : Nat)
  | differentHash (sequence : Nat)
  | appliedTwice (sequence : Nat)
  | gap (sequence expected : Nat)
  | lsnNotGreater (sequence commitLsn previousLsn : Nat)
  deriving DecidableEq, Repr

def OracleError.message : OracleError → String
  | .hashMismatch s => s!"sequence {s} operation hash does not match its operations"
  | .differentHash s => s!"sequence {s} re-applied with a different hash"
  | .appliedTwice s => s!"sequence {s} applied more than once"
  | .gap s expected => s!"ledger oracle sequence {s} gap: expected {expected}"
  | .lsnNotGreater s lsn previous =>
    s!"sequence {s} commit LSN {lsn} is not greater than previous LSN {previous}"

/-- A call on the oracle: it leaves a state also when it fails. -/
abbrev OracleM := ExceptT OracleError (StateM LedgerOracle)

/-! ## The operations -/

def CustomerRow.state (row : CustomerRow) (version : Nat) : CustomerState where
  tenantId := row.tenantId
  segment := row.segment
  emailDomain := row.emailDomain
  profileJson := row.profileJson
  createdAtMicros := row.createdAtMicros
  version := version

def OrderRow.state (row : OrderRow) (version : Nat) : OrderState where
  tenantId := row.tenantId
  customerId := row.customerId
  status := row.status
  channel := row.channel
  amountCents := row.amountCents
  createdAtMicros := row.createdAtMicros
  updatedAtMicros := row.updatedAtMicros
  attributesJson := row.attributesJson
  version := version

def OrderEventRow.state (row : OrderEventRow) (version : Nat) : EventState where
  orderId := row.orderId
  tenantId := row.tenantId
  eventType := row.eventType
  eventAtMicros := row.eventAtMicros
  metadataJson := row.metadataJson
  version := version

namespace LedgerOracle

/-- An update overwrites every field of a row that is there. -/
def applyOperation (o : LedgerOracle) (operation : Operation) (version : Nat) : LedgerOracle :=
  match operation with
  | .insertCustomer row =>
    { o with
      customers := o.customers.insert row.customerId (row.state version)
      customerHistory := o.customerHistory.push row.customerId version (some (row.state version)) }
  | .insertOrder row =>
    { o with
      orders := o.orders.insert row.orderId (row.state version)
      orderHistory := o.orderHistory.push row.orderId version (some (row.state version)) }
  | .insertOrderEvent row =>
    { o with
      events := o.events.insert row.eventId (row.state version)
      eventHistory := o.eventHistory.push row.eventId version (some (row.state version)) }
  | .updateCustomer row =>
    if row.customerId ∈ o.customers then
      { o with
        customers := o.customers.insert row.customerId (row.state version)
        customerHistory :=
          o.customerHistory.push row.customerId version (some (row.state version)) }
    else o
  | .updateOrder row =>
    if row.orderId ∈ o.orders then
      { o with
        orders := o.orders.insert row.orderId (row.state version)
        orderHistory := o.orderHistory.push row.orderId version (some (row.state version)) }
    else o
  | .deleteOrder orderId _ =>
    { o with
      orders := o.orders.erase orderId
      orderHistory := o.orderHistory.push orderId version none }
  | .deleteOrderEvent eventId _ _ =>
    { o with
      events := o.events.erase eventId
      eventHistory := o.eventHistory.push eventId version none }

def ordersAt (o : LedgerOracle) (targetLsn : Nat) : KeyedTable OrderState :=
  o.orderHistory.asOf targetLsn

def customersAt (o : LedgerOracle) (targetLsn : Nat) : KeyedTable CustomerState :=
  o.customerHistory.asOf targetLsn

def eventsAt (o : LedgerOracle) (targetLsn : Nat) : KeyedTable EventState :=
  o.eventHistory.asOf targetLsn

/-- The value under the last key. -/
def lastValue (m : ExtTreeMap Nat Nat) : Option Nat := m.maxKey?.bind fun k => m[k]?

/-- The number the next plan must have. -/
def expected (o : LedgerOracle) : Nat := (o.applied.maxKey?.map (· + 1)).getD 1

end LedgerOracle

section Apply

/-- `ensure!` -/
def ensure (cond : Bool) (e : OracleError) : OracleM Unit :=
  if cond then pure () else throw e

/-- A sequence that was applied had the same hash. -/
def sameHash (plan : TransactionPlan) : OracleM Unit := do
  let o ← get
  match o.applied[plan.sequence]? with
  | some existing =>
    ensure (existing = plan.operationSha256) (.differentHash plan.sequence)
  | none => pure ()

/-- The sequence was not applied. -/
def notApplied (plan : TransactionPlan) : OracleM Unit := do
  sameHash plan
  let o ← get
  if plan.sequence ∈ o.applied then throw (.appliedTwice plan.sequence)

/-- The sequence is the one after the last. -/
def isNextSequence (plan : TransactionPlan) : OracleM Unit := do
  let o ← get
  ensure (plan.sequence = o.expected) (.gap plan.sequence o.expected)

/-- The LSN is greater than that of the last sequence. -/
def greaterLsn (plan : TransactionPlan) (commitLsn : Nat) : OracleM Unit := do
  let o ← get
  match LedgerOracle.lastValue o.sequenceLsn with
  | some previousLsn =>
    ensure (previousLsn < commitLsn) (.lsnNotGreater plan.sequence commitLsn previousLsn)
  | none => pure ()

/-- Applies without the checks on the sequence. -/
def applyUnchecked (plan : TransactionPlan) (commitLsn : Nat) : OracleM Unit := do
  sameHash plan
  modify fun o =>
    let count := o.appliedCounts.getD plan.sequence 0
    { o with appliedCounts := o.appliedCounts.insert plan.sequence (count + 1) }
  modify fun o => plan.operations.foldl (fun o op => o.applyOperation op commitLsn) o
  modify fun o =>
    { o with
      applied := o.applied.insert plan.sequence plan.operationSha256
      sequenceLsn := o.sequenceLsn.insert plan.sequence commitLsn }

/-- Applies one committed plan at its commit-end LSN. -/
def apply [OperationHash] (plan : TransactionPlan) (commitLsn : Nat) : OracleM Unit := do
  ensure (operationHash plan.operations = plan.operationSha256) (.hashMismatch plan.sequence)
  notApplied plan
  isNextSequence plan
  greaterLsn plan commitLsn
  applyUnchecked plan commitLsn

/-- A call, and the plans accepted so far with their LSNs. -/
def callOne [OperationHash] (s : LedgerOracle × List (TransactionPlan × Nat))
    (call : TransactionPlan × Nat) : LedgerOracle × List (TransactionPlan × Nat) :=
  match (apply call.1 call.2).run.run s.1 with
  | (.ok (), o) => (o, s.2 ++ [call])
  | (.error _, o) => (o, s.2)

/-- One call after the other, on the empty oracle. -/
def callAll [OperationHash] (calls : List (TransactionPlan × Nat)) :
    LedgerOracle × List (TransactionPlan × Nat) :=
  calls.foldl callOne ({}, [])

end Apply

/-! ## What the oracle stands for -/

/-- The three tables. -/
structure Tables where
  customers : KeyedTable CustomerState := ∅
  orders : KeyedTable OrderState := ∅
  events : KeyedTable EventState := ∅

namespace Tables

/-- An update or a delete of a row that is not there has no effect. -/
def apply (t : Tables) (version : Nat) : Operation → Tables
  | .insertCustomer row =>
    { t with customers := t.customers.insert row.customerId (row.state version) }
  | .insertOrder row => { t with orders := t.orders.insert row.orderId (row.state version) }
  | .insertOrderEvent row => { t with events := t.events.insert row.eventId (row.state version) }
  | .updateCustomer row =>
    { t with customers := t.customers.modify row.customerId fun _ => row.state version }
  | .updateOrder row => { t with orders := t.orders.modify row.orderId fun _ => row.state version }
  | .deleteOrder orderId _ => { t with orders := t.orders.erase orderId }
  | .deleteOrderEvent eventId _ _ => { t with events := t.events.erase eventId }

/-- The operations of a plan, in order. -/
def applyPlan (t : Tables) (p : TransactionPlan × Nat) : Tables :=
  p.1.operations.foldl (fun t op => t.apply p.2 op) t

/-- The plans one after the other, on empty tables. -/
def replay (plans : List (TransactionPlan × Nat)) : Tables := plans.foldl applyPlan {}

end Tables

/-! ## Operations -/

/-- The current tables and the histories agree with the tables at each stamp. -/
structure LedgerOracle.Keeps (o : LedgerOracle) (past : Nat → Tables) (last : Nat) : Prop where
  customers : Recorded o.customers o.customerHistory (fun T => (past T).customers) last
  orders : Recorded o.orders o.orderHistory (fun T => (past T).orders) last
  events : Recorded o.events o.eventHistory (fun T => (past T).events) last

/-- An update of a row that is there sets it. -/
private theorem modify_eq_write {α : Type} {t : KeyedTable α} {k : Nat} (hk : k ∈ t) (v : α) :
    t.modify k (fun _ => v) = t.write k (some v) := by
  apply ExtTreeMap.ext_getElem?
  intro k'
  have hsome : t[k]? = some t[k] := ExtTreeMap.getElem?_eq_some_getElem hk
  rw [ExtTreeMap.getElem?_modify, KeyedTable.getElem?_write]
  by_cases h : k = k'
  · subst h
    rw [if_pos rfl, if_pos (Nat.compare_eq_eq.mpr rfl), hsome]
    rfl
  · rw [if_neg h, if_neg fun hcmp => h (Nat.compare_eq_eq.mp hcmp)]

private theorem modify_eq_self {α : Type} {t : KeyedTable α} {k : Nat} (hk : k ∉ t) (v : α) :
    t.modify k (fun _ => v) = t := by
  apply ExtTreeMap.ext_getElem?
  intro k'
  have hnone : t[k]? = none := ExtTreeMap.getElem?_eq_none hk
  rw [ExtTreeMap.getElem?_modify]
  by_cases h : k = k'
  · subst h
    rw [if_pos (Nat.compare_eq_eq.mpr rfl), hnone]
    rfl
  · rw [if_neg fun hcmp => h (Nat.compare_eq_eq.mp hcmp)]

section Update

variable {α : Type} {current : KeyedTable α} {history : History α} {past past' : Nat → KeyedTable α}
  {last version k : Nat} {v : α}

/-- An update of a row that is there is a write, at its stamp and later. -/
private theorem recorded_update (h : Recorded current history past last) (hlast : last ≤ version)
    (hk : k ∈ current)
    (hpast : ∀ T, past' T = if version ≤ T then (past T).modify k fun _ => v else past T) :
    Recorded (current.insert k v) (history.push k version (some v)) past' version := by
  refine h.write hlast k (some v) fun T => ?_
  rw [hpast]
  by_cases hT : version ≤ T
  · have hnow : k ∈ past T := by
      rw [h.current T (Nat.le_trans hlast hT)]
      exact hk
    rw [if_pos hT, if_pos hT, modify_eq_write hnow]
  · rw [if_neg hT, if_neg hT]

private theorem recorded_update_absent (h : Recorded current history past last)
    (hlast : last ≤ version) (hk : k ∉ current)
    (hpast : ∀ T, past' T = if version ≤ T then (past T).modify k fun _ => v else past T) :
    Recorded current history past' version := by
  refine h.later (fun T => ?_) hlast
  rw [hpast]
  by_cases hT : version ≤ T
  · have hnow : k ∉ past T := by
      rw [h.current T (Nat.le_trans hlast hT)]
      exact hk
    rw [if_pos hT, modify_eq_self hnow]
  · rw [if_neg hT]

end Update

namespace LedgerOracle.Keeps

variable {o : LedgerOracle} {past past' : Nat → Tables} {last version : Nat}

/-- An operation shows in the tables from its stamp on. -/
theorem applyOperation (h : o.Keeps past last) (hlast : last ≤ version) (op : Operation)
    (hpast : ∀ T, past' T = if version ≤ T then (past T).apply version op else past T) :
    (o.applyOperation op version).Keeps past' version := by
  -- the tables that an operation does not name stay as they are
  have hcustomers : (∀ t : Tables, (t.apply version op).customers = t.customers) →
      Recorded o.customers o.customerHistory (fun T => (past' T).customers) version :=
    fun hop => h.customers.later (fun T => by rw [hpast]; split <;> simp only [hop]) hlast
  have horders : (∀ t : Tables, (t.apply version op).orders = t.orders) →
      Recorded o.orders o.orderHistory (fun T => (past' T).orders) version :=
    fun hop => h.orders.later (fun T => by rw [hpast]; split <;> simp only [hop]) hlast
  have hevents : (∀ t : Tables, (t.apply version op).events = t.events) →
      Recorded o.events o.eventHistory (fun T => (past' T).events) version :=
    fun hop => h.events.later (fun T => by rw [hpast]; split <;> simp only [hop]) hlast
  cases op with
  | insertCustomer row =>
    refine ⟨?_, horders fun _ => rfl, hevents fun _ => rfl⟩
    exact h.customers.write hlast _ (some _) fun T => by rw [hpast]; split <;> rfl
  | insertOrder row =>
    refine ⟨hcustomers fun _ => rfl, ?_, hevents fun _ => rfl⟩
    exact h.orders.write hlast _ (some _) fun T => by rw [hpast]; split <;> rfl
  | insertOrderEvent row =>
    refine ⟨hcustomers fun _ => rfl, horders fun _ => rfl, ?_⟩
    exact h.events.write hlast _ (some _) fun T => by rw [hpast]; split <;> rfl
  | updateCustomer row =>
    have hmodify : ∀ T, (past' T).customers = if version ≤ T then
        (past T).customers.modify row.customerId fun _ => row.state version
        else (past T).customers := fun T => by rw [hpast]; split <;> rfl
    by_cases hk : row.customerId ∈ o.customers
    · rw [LedgerOracle.applyOperation, if_pos hk]
      exact ⟨recorded_update h.customers hlast hk hmodify, horders fun _ => rfl,
        hevents fun _ => rfl⟩
    · rw [LedgerOracle.applyOperation, if_neg hk]
      exact ⟨recorded_update_absent h.customers hlast hk hmodify, horders fun _ => rfl,
        hevents fun _ => rfl⟩
  | updateOrder row =>
    have hmodify : ∀ T, (past' T).orders = if version ≤ T then
        (past T).orders.modify row.orderId fun _ => row.state version
        else (past T).orders := fun T => by rw [hpast]; split <;> rfl
    by_cases hk : row.orderId ∈ o.orders
    · rw [LedgerOracle.applyOperation, if_pos hk]
      exact ⟨hcustomers fun _ => rfl, recorded_update h.orders hlast hk hmodify,
        hevents fun _ => rfl⟩
    · rw [LedgerOracle.applyOperation, if_neg hk]
      exact ⟨hcustomers fun _ => rfl, recorded_update_absent h.orders hlast hk hmodify,
        hevents fun _ => rfl⟩
  | deleteOrder orderId tenantId =>
    refine ⟨hcustomers fun _ => rfl, ?_, hevents fun _ => rfl⟩
    exact h.orders.write hlast _ none fun T => by rw [hpast]; split <;> rfl
  | deleteOrderEvent eventId orderId tenantId =>
    refine ⟨hcustomers fun _ => rfl, horders fun _ => rfl, ?_⟩
    exact h.events.write hlast _ none fun T => by rw [hpast]; split <;> rfl

/-- The operations of a plan, all at the stamp of the plan. -/
theorem applyOperations (h : o.Keeps past last) (hlast : last ≤ version) (ops : List Operation) :
    (ops.foldl (fun o op => o.applyOperation op version) o).Keeps
      (fun T => if version ≤ T then ops.foldl (fun t op => t.apply version op) (past T)
        else past T) version := by
  induction ops generalizing o past last with
  | nil =>
    have hsame : ∀ T, (if version ≤ T then past T else past T) = past T := fun T => ite_self _
    simp only [List.foldl_nil, hsame]
    exact ⟨h.customers.later (fun _ => rfl) hlast, h.orders.later (fun _ => rfl) hlast,
      h.events.later (fun _ => rfl) hlast⟩
  | cons op ops ih =>
    have hrest := ih (h.applyOperation hlast op fun _ => rfl) (Nat.le_refl version)
    have hpast : ∀ T, (if version ≤ T then ops.foldl (fun t op => t.apply version op)
          (if version ≤ T then (past T).apply version op else past T)
          else if version ≤ T then (past T).apply version op else past T)
        = if version ≤ T then (op :: ops).foldl (fun t op => t.apply version op) (past T)
          else past T := by
      intro T
      by_cases hT : version ≤ T
      · simp only [if_pos hT, List.foldl_cons]
      · simp only [if_neg hT]
    simp only [hpast] at hrest
    exact hrest

end LedgerOracle.Keeps

/-! ## Calls -/

/-- The oracle behind a plan that is applied. -/
def LedgerOracle.accept (o : LedgerOracle) (plan : TransactionPlan) (commitLsn : Nat) :
    LedgerOracle :=
  let count := o.appliedCounts.getD plan.sequence 0
  let o := { o with appliedCounts := o.appliedCounts.insert plan.sequence (count + 1) }
  let o := plan.operations.foldl (fun o op => o.applyOperation op commitLsn) o
  { o with
    applied := o.applied.insert plan.sequence plan.operationSha256
    sequenceLsn := o.sequenceLsn.insert plan.sequence commitLsn }

section Calls

variable {o o' : LedgerOracle} {plan : TransactionPlan} {commitLsn : Nat}

private theorem run_bind_ok {α β : Type} {m : OracleM α} {f : α → OracleM β} {a : α}
    (h : m.run.run o = (.ok a, o')) : (m >>= f).run.run o = (f a).run.run o' := by
  have hbind : (m >>= f).run.run o = ExceptT.bindCont f (m.run.run o).1 (m.run.run o).2 := rfl
  rw [hbind, h]
  rfl

private theorem run_bind_error {α β : Type} {m : OracleM α} {f : α → OracleM β} {e : OracleError}
    (h : m.run.run o = (.error e, o')) : (m >>= f).run.run o = (.error e, o') := by
  have hbind : (m >>= f).run.run o = ExceptT.bindCont f (m.run.run o).1 (m.run.run o).2 := rfl
  rw [hbind, h]
  rfl

private theorem run_ensure (cond : Bool) (e : OracleError) :
    (ensure cond e).run.run o = (if cond then .ok () else .error e, o) := by
  cases cond <;> rfl

/-- A check reads the oracle: it passes on this condition, or it fails. -/
private def Checks (m : OracleM Unit) (o : LedgerOracle) (cond : Prop) : Prop :=
  cond ∧ m.run.run o = (.ok (), o) ∨ ∃ e, m.run.run o = (.error e, o)

private theorem Checks.bind {m : OracleM Unit} {f : Unit → OracleM Unit} {cond : Prop}
    (h : Checks m o cond) : cond ∧ (m >>= f).run.run o = (f ()).run.run o ∨
      ∃ e, (m >>= f).run.run o = (.error e, o) := by
  obtain ⟨hcond, hrun⟩ | ⟨e, hrun⟩ := h
  · exact .inl ⟨hcond, run_bind_ok hrun⟩
  · exact .inr ⟨e, run_bind_error hrun⟩

private theorem checks_ensure (cond : Prop) [Decidable cond] (e : OracleError) :
    Checks (ensure cond e) o cond := by
  by_cases h : cond
  · exact .inl ⟨h, by rw [run_ensure, if_pos (decide_eq_true h)]⟩
  · exact .inr ⟨e, by rw [run_ensure, if_neg fun hd => h (of_decide_eq_true hd)]⟩

/-- The check passes at once for a sequence that was not applied. -/
private theorem sameHash_run (h : plan.sequence ∉ o.applied) :
    (sameHash plan).run.run o = (.ok (), o) := by
  have hget : (sameHash plan).run.run o = (match o.applied[plan.sequence]? with
      | some existing =>
        ensure (existing = plan.operationSha256) (.differentHash plan.sequence)
      | none => pure () : OracleM Unit).run.run o := rfl
  rw [hget, ExtTreeMap.getElem?_eq_none h]
  rfl

private theorem checks_sameHash : Checks (sameHash plan) o True := by
  have hget : (sameHash plan).run.run o = (match o.applied[plan.sequence]? with
      | some existing =>
        ensure (existing = plan.operationSha256) (.differentHash plan.sequence)
      | none => pure () : OracleM Unit).run.run o := rfl
  unfold Checks
  rw [hget]
  cases o.applied[plan.sequence]? with
  | none => exact .inl ⟨trivial, rfl⟩
  | some existing =>
    obtain ⟨-, hrun⟩ | hfail := checks_ensure (o := o) (existing = plan.operationSha256)
      (.differentHash plan.sequence)
    · exact .inl ⟨trivial, hrun⟩
    · exact .inr hfail

private theorem checks_notApplied : Checks (notApplied plan) o (plan.sequence ∉ o.applied) := by
  obtain ⟨-, hrun⟩ | hfail := checks_sameHash.bind (m := sameHash plan) (o := o) (f := fun _ => do
    let o ← get
    if plan.sequence ∈ o.applied then throw (.appliedTwice plan.sequence))
  · unfold Checks notApplied
    rw [hrun]
    by_cases h : plan.sequence ∈ o.applied
    · refine .inr ⟨.appliedTwice plan.sequence, ?_⟩
      show (if plan.sequence ∈ o.applied then throw (.appliedTwice plan.sequence)
        else pure () : OracleM Unit).run.run o = _
      rw [if_pos h]
      rfl
    · refine .inl ⟨h, ?_⟩
      show (if plan.sequence ∈ o.applied then throw (.appliedTwice plan.sequence)
        else pure () : OracleM Unit).run.run o = _
      rw [if_neg h]
      rfl
  · exact .inr hfail

private theorem checks_isNextSequence : Checks (isNextSequence plan) o (plan.sequence = o.expected) :=
  checks_ensure _ _

private theorem checks_greaterLsn : Checks (greaterLsn plan commitLsn) o
    (∀ previous, LedgerOracle.lastValue o.sequenceLsn = some previous → previous < commitLsn) := by
  have hget : (greaterLsn plan commitLsn).run.run o
      = (match LedgerOracle.lastValue o.sequenceLsn with
        | some previousLsn =>
          ensure (previousLsn < commitLsn) (.lsnNotGreater plan.sequence commitLsn previousLsn)
        | none => pure () : OracleM Unit).run.run o := rfl
  unfold Checks
  rw [hget]
  cases LedgerOracle.lastValue o.sequenceLsn with
  | none => exact .inl ⟨(fun _ h => nomatch h), rfl⟩
  | some previousLsn =>
    obtain ⟨hlt, hrun⟩ | hfail := checks_ensure (o := o) (previousLsn < commitLsn)
      (.lsnNotGreater plan.sequence commitLsn previousLsn)
    · refine .inl ⟨fun previous hprevious => ?_, hrun⟩
      obtain rfl := Option.some.inj hprevious
      exact hlt
    · exact .inr hfail

theorem applyUnchecked_run (h : plan.sequence ∉ o.applied) :
    (applyUnchecked plan commitLsn).run.run o = (.ok (), o.accept plan commitLsn) :=
  run_bind_ok (sameHash_run h)

/-- Without the checks a call still fails for a sequence with another hash. -/
theorem applyUnchecked_cases (o : LedgerOracle) (plan : TransactionPlan) (commitLsn : Nat) :
    (∃ e, (applyUnchecked plan commitLsn).run.run o = (.error e, o)) ∨
      (applyUnchecked plan commitLsn).run.run o = (.ok (), o.accept plan commitLsn) := by
  obtain ⟨-, hrun⟩ | hfail := checks_sameHash.bind
  · exact .inr hrun
  · exact .inl hfail

/-- A call fails and leaves the oracle as it is, or the plan is the next one and is
applied. -/
theorem apply_cases [OperationHash] (o : LedgerOracle) (plan : TransactionPlan) (commitLsn : Nat) :
    (∃ e, (apply plan commitLsn).run.run o = (.error e, o)) ∨
      plan.sequence = o.expected ∧
        (∀ previous, LedgerOracle.lastValue o.sequenceLsn = some previous → previous < commitLsn) ∧
        (apply plan commitLsn).run.run o = (.ok (), o.accept plan commitLsn) := by
  obtain ⟨-, hrun₁⟩ | hfail := (checks_ensure (operationHash plan.operations = plan.operationSha256)
    (.hashMismatch plan.sequence)).bind
  swap
  · exact .inl hfail
  obtain ⟨hnew, hrun₂⟩ | ⟨e, hfail⟩ := checks_notApplied.bind
  swap
  · exact .inl ⟨e, hrun₁.trans hfail⟩
  obtain ⟨hnext, hrun₃⟩ | ⟨e, hfail⟩ := checks_isNextSequence.bind
  swap
  · exact .inl ⟨e, hrun₁.trans (hrun₂.trans hfail)⟩
  obtain ⟨hlsn, hrun₄⟩ | ⟨e, hfail⟩ := checks_greaterLsn.bind
  swap
  · exact .inl ⟨e, hrun₁.trans (hrun₂.trans (hrun₃.trans hfail))⟩
  refine .inr ⟨hnext, hlsn, ?_⟩
  exact hrun₁.trans (hrun₂.trans (hrun₃.trans (hrun₄.trans (applyUnchecked_run hnew))))

end Calls
/-! ## Runs -/

/-- The tables at each stamp, of the plans that were accepted. -/
def Tables.past (accepted : List (TransactionPlan × Nat)) (T : Nat) : Tables :=
  replay (accepted.filter fun p => decide (p.2 ≤ T))

/-- A plan shows in the tables from its LSN on. -/
theorem Tables.past_append (accepted : List (TransactionPlan × Nat))
    (p : TransactionPlan × Nat) (T : Nat) : Tables.past (accepted ++ [p]) T
      = if p.2 ≤ T then (Tables.past accepted T).applyPlan p else Tables.past accepted T := by
  unfold Tables.past Tables.replay
  rw [List.filter_append, List.foldl_append]
  by_cases hT : p.2 ≤ T
  · simp [hT]
  · simp [hT]

/-- Operations leave the sequences as they are. -/
theorem LedgerOracle.foldl_applyOperation_frame (o : LedgerOracle) (ops : List Operation)
    (version : Nat) :
    (ops.foldl (fun o op => o.applyOperation op version) o).applied = o.applied ∧
      (ops.foldl (fun o op => o.applyOperation op version) o).sequenceLsn = o.sequenceLsn := by
  induction ops generalizing o with
  | nil => exact ⟨rfl, rfl⟩
  | cons op ops ih =>
    have hstep : (o.applyOperation op version).applied = o.applied ∧
        (o.applyOperation op version).sequenceLsn = o.sequenceLsn := by
      cases op <;> unfold applyOperation <;> dsimp only <;> try split
      all_goals exact ⟨rfl, rfl⟩
    obtain ⟨happlied, hlsn⟩ := ih (o.applyOperation op version)
    exact ⟨happlied.trans hstep.1, hlsn.trans hstep.2⟩

/-- The oracle has accepted these plans: they are numbered from 1 without a gap, their
LSNs grow, and the tables of the oracle are those of the plans. -/
structure LedgerOracle.Follows (o : LedgerOracle) (accepted : List (TransactionPlan × Nat)) :
    Prop where
  sequences : accepted.map (fun p => p.1.sequence) = List.range' 1 accepted.length
  lsns : (accepted.map Prod.snd).Pairwise (· < ·)
  applied : ∀ s, s ∈ o.applied ↔ 1 ≤ s ∧ s ≤ accepted.length
  sequenceLsn : ∀ s, o.sequenceLsn[s]? = if s = 0 then none else accepted[s - 1]?.map Prod.snd
  keeps : o.Keeps (Tables.past accepted) ((accepted.getLast?.map Prod.snd).getD 0)

namespace LedgerOracle.Follows

variable {o : LedgerOracle} {accepted : List (TransactionPlan × Nat)} {plan : TransactionPlan}
  {commitLsn : Nat}

theorem empty : Follows {} [] where
  sequences := rfl
  lsns := .nil
  applied := by
    intro s
    show s ∈ (∅ : ExtTreeMap Nat String) ↔ _
    simp
    omega
  sequenceLsn := by
    intro s
    show (∅ : ExtTreeMap Nat Nat)[s]? = _
    simp
  keeps := ⟨.empty, .empty, .empty⟩

/-- The last of the keys from 1 on. -/
private theorem maxKey?_eq {β : Type} {m : ExtTreeMap Nat β} {n : Nat}
    (h : ∀ s, s ∈ m ↔ 1 ≤ s ∧ s ≤ n) : m.maxKey? = if n = 0 then none else some n := by
  by_cases hn : n = 0
  · rw [if_pos hn, ExtTreeMap.maxKey?_eq_none_iff]
    apply ExtTreeMap.ext_getElem?
    intro s
    have hs : s ∉ m := fun hs => by
      have := (h s).mp hs
      omega
    rw [ExtTreeMap.getElem?_eq_none hs, ExtTreeMap.getElem?_empty]
  · rw [if_neg hn, ExtTreeMap.maxKey?_eq_some_iff_mem_and_forall]
    refine ⟨(h n).mpr ⟨by omega, Nat.le_refl n⟩, fun k hk => ?_⟩
    exact Nat.isLE_compare.mpr ((h k).mp hk).2

theorem expected (h : o.Follows accepted) : o.expected = accepted.length + 1 := by
  rw [LedgerOracle.expected, maxKey?_eq h.applied]
  by_cases hn : accepted.length = 0
  · rw [if_pos hn, hn]
    rfl
  · rw [if_neg hn]
    rfl

theorem lastValue (h : o.Follows accepted) :
    LedgerOracle.lastValue o.sequenceLsn = accepted.getLast?.map Prod.snd := by
  have hmem : ∀ s, s ∈ o.sequenceLsn ↔ 1 ≤ s ∧ s ≤ accepted.length := by
    intro s
    rw [ExtTreeMap.mem_iff_isSome_getElem?, h.sequenceLsn]
    by_cases hs : s = 0
    · simp [hs]
    · rw [if_neg hs, Option.isSome_map, Option.isSome_iff_ne_none, ne_eq, List.getElem?_eq_none_iff]
      omega
  rw [LedgerOracle.lastValue, maxKey?_eq hmem]
  by_cases hn : accepted.length = 0
  · rw [if_pos hn, List.eq_nil_of_length_eq_zero hn]
    rfl
  · rw [if_neg hn, Option.bind_some, h.sequenceLsn, if_neg hn, List.getLast?_eq_getElem?]

/-- A plan that is the next one and has a greater LSN is accepted. -/
theorem accept (h : o.Follows accepted) (hseq : plan.sequence = accepted.length + 1)
    (hlsn : ∀ previous, accepted.getLast?.map Prod.snd = some previous → previous < commitLsn) :
    (o.accept plan commitLsn).Follows (accepted ++ [(plan, commitLsn)]) := by
  have hbelow : ∀ l ∈ accepted.map Prod.snd, l < commitLsn := by
    intro l hl
    have hne : accepted.map Prod.snd ≠ [] := List.ne_nil_of_mem hl
    have hlast : (accepted.map Prod.snd).getLast hne < commitLsn := by
      apply hlsn
      rw [← List.getLast?_map, List.getLast?_eq_some_getLast hne]
    have hle : l ≤ (accepted.map Prod.snd).getLast hne :=
      (h.lsns.imp Nat.le_of_lt).rel_getLast hl
    omega
  have hlast : (accepted.getLast?.map Prod.snd).getD 0 ≤ commitLsn := by
    cases hprevious : accepted.getLast?.map Prod.snd with
    | none => exact Nat.zero_le _
    | some previous => exact Nat.le_of_lt (hlsn previous hprevious)
  let counts := o.appliedCounts.insert plan.sequence (o.appliedCounts.getD plan.sequence 0 + 1)
  let counted : LedgerOracle := { o with appliedCounts := counts }
  obtain ⟨happlied, hsequence⟩ :=
    counted.foldl_applyOperation_frame plan.operations commitLsn
  refine ⟨?_, ?_, ?_, ?_, ?_⟩
  · rw [List.map_append, h.sequences, List.length_append, List.length_singleton,
      List.range'_1_concat, List.map_singleton, hseq, Nat.add_comm 1]
  · rw [List.map_append, List.pairwise_append]
    refine ⟨h.lsns, by simp, fun l hl l' hl' => ?_⟩
    obtain rfl : l' = commitLsn := by simpa using hl'
    exact hbelow l hl
  · intro s
    rw [LedgerOracle.accept, ExtTreeMap.mem_insert, happlied, Nat.compare_eq_eq, h.applied, hseq,
      List.length_append, List.length_singleton]
    omega
  · intro s
    rw [LedgerOracle.accept, ExtTreeMap.getElem?_insert, hsequence, h.sequenceLsn, hseq]
    simp only [Nat.compare_eq_eq]
    by_cases hs : accepted.length + 1 = s
    · subst hs
      simp
    · rw [if_neg hs]
      by_cases hzero : s = 0
      · rw [if_pos hzero, if_pos hzero]
      · rw [if_neg hzero, if_neg hzero]
        congr 1
        by_cases hlt : s - 1 < accepted.length
        · rw [List.getElem?_append_left hlt]
        · rw [List.getElem?_eq_none (by omega), List.getElem?_eq_none (by simp; omega)]
  · have hcounted : counted.Keeps _ _ := ⟨h.keeps.customers, h.keeps.orders, h.keeps.events⟩
    have hkeeps := hcounted.applyOperations hlast plan.operations
    have hpast : Tables.past (accepted ++ [(plan, commitLsn)]) = fun T =>
        if commitLsn ≤ T then plan.operations.foldl (fun t op => t.apply commitLsn op)
          (Tables.past accepted T) else Tables.past accepted T :=
      funext fun T => Tables.past_append accepted (plan, commitLsn) T
    rw [hpast, List.getLast?_concat]
    exact ⟨hkeeps.customers, hkeeps.orders, hkeeps.events⟩

end LedgerOracle.Follows

section Run

variable [OperationHash]

/-- One call keeps the invariant. -/
theorem follows_callOne {s : LedgerOracle × List (TransactionPlan × Nat)}
    (h : s.1.Follows s.2) (call : TransactionPlan × Nat) :
    (callOne s call).1.Follows (callOne s call).2 := by
  unfold callOne
  obtain ⟨e, hrun⟩ | ⟨hseq, hlsn, hrun⟩ := apply_cases s.1 call.1 call.2
  · rw [hrun]
    exact h
  · rw [hrun]
    rw [h.expected] at hseq
    rw [h.lastValue] at hlsn
    exact h.accept hseq hlsn

theorem follows_callAll (calls : List (TransactionPlan × Nat)) :
    (callAll calls).1.Follows (callAll calls).2 := by
  induction calls using List.reverseRecOn with
  | nil => exact .empty
  | append_singleton calls call ih =>
    rw [callAll, List.foldl_append]
    exact follows_callOne ih call

/-- Every accepted plan is the plan of a call. -/
theorem sublist_callAll (calls : List (TransactionPlan × Nat)) :
    (callAll calls).2.Sublist calls := by
  induction calls using List.reverseRecOn with
  | nil => exact List.Sublist.slnil
  | append_singleton calls call ih =>
    rw [callAll, List.foldl_append]
    show (callOne (callAll calls) call).2.Sublist _
    unfold callOne
    split
    · exact ih.append (List.Sublist.refl _)
    · exact ih.trans (List.sublist_append_left _ _)

/-- **The oracle travels in time.**  After any calls on the empty oracle, the accepted
plans are numbered from 1 without a gap and their LSNs grow; a call that fails changes
nothing; at every target the tables are those of the plans up to the target; and the
current tables are those of the greatest LSN. -/
theorem oracle_time_travel (calls : List (TransactionPlan × Nat))
    (hwords : ∀ call ∈ calls, call.2 < 2 ^ 64) :
    let o := (callAll calls).1
    let accepted := (callAll calls).2
    accepted.Sublist calls ∧
      accepted.map (fun p => p.1.sequence) = List.range' 1 accepted.length ∧
      (accepted.map Prod.snd).Pairwise (· < ·) ∧
      (∀ plan commitLsn e o', (apply plan commitLsn).run.run o = (.error e, o') → o' = o) ∧
      (∀ T, let tables := Tables.replay (accepted.filter fun p => decide (p.2 ≤ T))
        o.ordersAt T = tables.orders ∧ o.customersAt T = tables.customers ∧
          o.eventsAt T = tables.events) ∧
      o.orders = o.ordersAt (2 ^ 64 - 1) ∧ o.customers = o.customersAt (2 ^ 64 - 1) ∧
      o.events = o.eventsAt (2 ^ 64 - 1) := by
  have h := follows_callAll calls
  have hlast : (((callAll calls).2.getLast?).map Prod.snd).getD 0 ≤ 2 ^ 64 - 1 := by
    cases hp : (callAll calls).2.getLast? with
    | none => exact Nat.zero_le _
    | some p =>
      have := hwords p ((sublist_callAll calls).subset (List.mem_of_getLast? hp))
      show p.2 ≤ 2 ^ 64 - 1
      omega
  refine ⟨sublist_callAll calls, h.sequences, h.lsns, ?_, fun T => ⟨h.keeps.orders.asOf T,
    h.keeps.customers.asOf T, h.keeps.events.asOf T⟩, ?_, ?_, ?_⟩
  · intro plan commitLsn e o' herror
    obtain ⟨_, hrun⟩ | ⟨-, -, hrun⟩ := apply_cases (callAll calls).1 plan commitLsn
    · rw [hrun] at herror
      exact (Prod.mk.inj herror).2.symm
    · rw [hrun] at herror
      exact nomatch (Prod.mk.inj herror).1
  · exact ((h.keeps.orders.asOf _).trans (h.keeps.orders.current _ hlast)).symm
  · exact ((h.keeps.customers.asOf _).trans (h.keeps.customers.current _ hlast)).symm
  · exact ((h.keeps.events.asOf _).trans (h.keeps.events.current _ hlast)).symm

end Run

/-- An order is inserted and updated in one plan, a plan is missing, and the order is
deleted. -/
theorem oracle_time_travel_order :
    letI : OperationHash := ⟨fun _ => ""⟩
    let row : OrderRow := ⟨1, 1, 2, "paid", "web", 100, 1, 1, "{}"⟩
    let calls : List (TransactionPlan × Nat) :=
      [(⟨1, 0, [.insertOrder row, .updateOrder { row with status := "shipped" }], ""⟩, 10),
        (⟨3, 0, [.deleteOrder 1 1], ""⟩, 20), (⟨2, 0, [.deleteOrder 1 1], ""⟩, 30)]
    let o := (callAll calls).1
    let accepted := (callAll calls).2
    accepted.Sublist calls ∧
      accepted.map (fun p => p.1.sequence) = List.range' 1 accepted.length ∧
      (accepted.map Prod.snd).Pairwise (· < ·) ∧
      (∀ plan commitLsn e o', (apply plan commitLsn).run.run o = (.error e, o') → o' = o) ∧
      (∀ T, let tables := Tables.replay (accepted.filter fun p => decide (p.2 ≤ T))
        o.ordersAt T = tables.orders ∧ o.customersAt T = tables.customers ∧
          o.eventsAt T = tables.events) ∧
      o.orders = o.ordersAt (2 ^ 64 - 1) ∧ o.customers = o.customersAt (2 ^ 64 - 1) ∧
      o.events = o.eventsAt (2 ^ 64 - 1) := by
  let _ : OperationHash := ⟨fun _ => ""⟩
  refine oracle_time_travel _ fun call hcall => ?_
  simp only [List.mem_cons, List.not_mem_nil, or_false] at hcall
  obtain rfl | rfl | rfl := hcall <;> decide

end GrayDB.R1
