import Mathlib.Algebra.Ring.Int.Defs
import Mathlib.Algebra.Ring.Nat
import Mathlib.Data.List.Infix
import Mathlib.Tactic.Common

/-!
# Workload plans

The operations of the benchmark's writer and the transaction plans it makes of them.  A
plan carries the SHA-256 of its operations' JSON, which enters as the class
`OperationHash`.
-/

namespace GrayDB.R1

structure CustomerRow where
  customerId : Nat
  tenantId : Nat
  segment : String
  emailDomain : String
  profileJson : String
  createdAtMicros : Int
  deriving DecidableEq, Repr

structure OrderRow where
  orderId : Nat
  tenantId : Nat
  customerId : Nat
  status : String
  channel : String
  amountCents : Int
  createdAtMicros : Int
  updatedAtMicros : Int
  attributesJson : String
  deriving DecidableEq, Repr

structure OrderEventRow where
  eventId : Nat
  orderId : Nat
  tenantId : Nat
  eventType : String
  eventAtMicros : Int
  metadataJson : String
  deriving DecidableEq, Repr

inductive Operation where
  | insertCustomer (row : CustomerRow)
  | insertOrder (row : OrderRow)
  | insertOrderEvent (row : OrderEventRow)
  /-- The fields of an update are those of the row. -/
  | updateCustomer (row : CustomerRow)
  | updateOrder (row : OrderRow)
  | deleteOrder (orderId tenantId : Nat)
  | deleteOrderEvent (eventId orderId tenantId : Nat)
  deriving DecidableEq, Repr

structure TransactionPlan where
  sequence : Nat
  logicalTimeMicros : Int
  operations : List Operation
  operationSha256 : String
  deriving DecidableEq, Repr

/-- The SHA-256 of the operations as JSON, in hexadecimal digits. -/
class OperationHash where
  operationHash : List Operation → String

export OperationHash (operationHash)

end GrayDB.R1
