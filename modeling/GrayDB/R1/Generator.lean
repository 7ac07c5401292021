import Mathlib.Algebra.Ring.Int.Defs
import Mathlib.Algebra.Ring.Nat
import Mathlib.Tactic.Common

/-!
# The data generator

The initial load of the benchmark.  A row is computed from the seed, its table and its
primary key; the rows it refers to are chosen by the same draws that those rows use
themselves.  `cycleRanges` lists the keys of the first cycles, `singleCycleRanges` those of
one cycle.

A result is `none` where the source panics.
-/

namespace GrayDB.R1.Generator

inductive Table where
  | tenants
  | customers
  | orders
  | orderEvents
  deriving DecidableEq, Repr

def Table.tag : Table → UInt64
  | .tenants => 1
  | .customers => 2
  | .orders => 3
  | .orderEvents => 4

/-- The keys from `start` up to, but not including, `stop`. -/
structure TableRange where
  table : Table
  start : UInt64
  stop : UInt64
  deriving DecidableEq, Repr

def TableRange.ids (r : TableRange) : List UInt64 :=
  (List.range (r.stop.toNat - r.start.toNat)).map fun i => r.start + UInt64.ofNat i

/-- The bytes of a `TableRange`, and the most that a vector can have. -/
def tableRangeBytes : Nat := 24

def isizeMax : Nat := 2 ^ 63 - 1

/-- The ranges of the first cycles, as they are pushed.  A vector that gets too long
panics. -/
def cycleRanges (cycles : UInt64) : Option (List TableRange) :=
  if cycles.toNat * 4 * tableRangeBytes ≤ isizeMax then
    some ((List.range cycles.toNat).foldl (fun out cycle =>
      let base := UInt64.ofNat cycle * 100
      [(Table.tenants, 1), (.customers, 5), (.orders, 20), (.orderEvents, 60)].foldl
        (fun out tc => out ++ [⟨tc.1, base + 1, base + tc.2 + 1⟩]) out) [])
  else none

/-- The ranges of one cycle. -/
def singleCycleRanges (cycle : UInt64) : List TableRange :=
  let base := cycle * 100
  [(Table.tenants, 1), (.customers, 5), (.orders, 20), (.orderEvents, 60)].map
    fun tc => ⟨tc.1, base + 1, base + tc.2 + 1⟩

inductive Row where
  | tenants (tenantId : UInt64) (region plan createdAt settings : String)
  | customers (customerId tenantId : UInt64) (segment emailDomain profile createdAt : String)
  | orders (orderId tenantId customerId : UInt64) (status channel : String) (amountCents : Int)
      (createdAt updatedAt attributes : String)
  | orderEvents (eventId orderId tenantId : UInt64) (eventType eventAt metadata : String)
  deriving DecidableEq, Repr

namespace Row

def primaryKey : Row → UInt64
  | .tenants tenantId _ _ _ _ => tenantId
  | .customers customerId _ _ _ _ _ => customerId
  | .orders orderId _ _ _ _ _ _ _ _ => orderId
  | .orderEvents eventId _ _ _ _ _ => eventId

def tenantId : Row → UInt64
  | .tenants tenantId _ _ _ _ => tenantId
  | .customers _ tenantId _ _ _ _ => tenantId
  | .orders _ tenantId _ _ _ _ _ _ _ => tenantId
  | .orderEvents _ _ tenantId _ _ _ => tenantId

/-- The table and the key of the row that this one refers to, besides its tenant. -/
def parent : Row → Option (Table × UInt64)
  | .tenants _ _ _ _ _ => none
  | .customers _ _ _ _ _ _ => none
  | .orders _ _ customerId _ _ _ _ _ _ => some (.customers, customerId)
  | .orderEvents _ orderId _ _ _ _ => some (.orders, orderId)

end Row

/-! ## Choices -/

def maxTenantActivityRank : UInt64 := 64

def mix64 (z : UInt64) : UInt64 :=
  let z := z + 0x9E3779B97F4A7C15
  let z := (z ^^^ (z >>> 30)) * 0xBF58476D1CE4E5B9
  let z := (z ^^^ (z >>> 27)) * 0x94D049BB133111EB
  z ^^^ (z >>> 31)

def rotateLeft (x : UInt64) (n : Nat) : UInt64 := ⟨x.toBitVec.rotateLeft n⟩

/-- The loop that walks down a weighted list.  At its end the source is unreachable. -/
def pick {α : Type} (slot : Nat) : List (α × Nat) → Option α
  | [] => none
  | (value, weight) :: choices =>
    if slot < weight then some value else pick (slot - weight) choices

def weightedChoice (draw : UInt64) (choices : List (String × Nat)) : Option String :=
  pick (draw.toNat % (choices.map Prod.snd).sum) choices

def regions : List (String × Nat) :=
  [("us-east", 46), ("us-west", 27), ("eu-west", 18), ("ap-south", 9)]

def plans : List (String × Nat) := [("free", 70), ("pro", 23), ("enterprise", 7)]

def segments : List (String × Nat) :=
  [("consumer", 55), ("smb", 29), ("mid-market", 12), ("enterprise", 4)]

def emailDomains : List (String × Nat) :=
  [("example.com", 58), ("mail.test", 25), ("corp.test", 12), ("acme.test", 5)]

def statuses : List (String × Nat) :=
  [("paid", 46), ("shipped", 27), ("pending", 15), ("cancelled", 8), ("refunded", 4)]

def channels : List (String × Nat) := [("web", 61), ("mobile", 31), ("partner", 8)]

def eventTypes : List (String × Nat) :=
  [("created", 42), ("paid", 30), ("fulfilled", 17), ("cancelled", 7), ("returned", 4)]

/-- The lowest and the highest amount of each bucket. -/
def centsBuckets : List ((Int × Int) × Nat) :=
  [((100, 2499), 55), ((2500, 9999), 27), ((10000, 49999), 12), ((50000, 249999), 5),
    ((250000, 2000000), 1)]

def longTailedCents (bucketDraw valueDraw : UInt64) : Option Int :=
  (pick (bucketDraw.toNat % 100) centsBuckets).map fun b =>
    b.1 + valueDraw.toNat % (b.2 - b.1 + 1)

/-- The weight of a rank is inverse to it. -/
def boundedZipfRank (draw maxRank : UInt64) : Option UInt64 :=
  let ranks := List.range' 1 maxRank.toNat
  let total := (ranks.map fun rank => 10000 / rank).sum
  (pick (draw.toNat % total) (ranks.map fun rank => (rank, 10000 / rank))).map UInt64.ofNat

/-! ## References -/

def cycleBase (id : UInt64) : UInt64 :=
  (if id = 0 then 0 else id - 1) / 100 * 100

def tenantForCustomer (id draw : UInt64) : Option UInt64 :=
  let loadedTenants := cycleBase id / 100 + 1
  (boundedZipfRank draw (min loadedTenants maxTenantActivityRank)).map fun rank =>
    (rank - 1) * 100 + 1

def customerForOrder (orderId draw : UInt64) : UInt64 := cycleBase orderId + 1 + draw % 5

def orderForEvent (id draw : UInt64) : UInt64 := cycleBase id + 1 + draw % 20

/-! ## Texts -/

def jsonLabelLen (v : UInt64) : Nat :=
  let r := v % 100
  if r ≤ 54 then 3 else if r ≤ 81 then 16 else if r ≤ 93 then 64 else 128

/-- The members are ordered by their names. -/
def json (v : UInt64) (k : String) : Option String := do
  let activityRank ←
    if k = "tenant" then
      (boundedZipfRank v maxTenantActivityRank).map fun rank => s!"\"activity_rank\":{rank},"
    else some ""
  let label := String.ofList (List.replicate (jsonLabelLen v) 'x')
  let tags := s!"\x7b\"bucket\":{v % 8},\"label\":\"{label}\"\x7d"
  return s!"\x7b{activityRank}\"kind\":\"{k}\",\"payload\":{v % 1000}," ++
    s!"\"schema_version\":1,\"tags\":{tags}\x7d"

/-- Two digits at least. -/
def twoDigits (n : Int) : String :=
  if 0 ≤ n ∧ n < 10 then s!"0{n}" else toString n

def formatTimestamp (seconds : Int) : String :=
  s!"{1970 + seconds.tdiv 31536000}-{twoDigits (1 + (seconds.tdiv 2592000).tmod 12)}-" ++
    s!"{twoDigits (1 + (seconds.tdiv 86400).tmod 28)} 00:00:00+00"

/-! ## Rows -/

structure DeterministicGenerator where
  seed : UInt64
  deriving DecidableEq, Repr

namespace DeterministicGenerator

def draw (g : DeterministicGenerator) (t : Table) (id salt : UInt64) : UInt64 :=
  mix64 (g.seed ^^^ t.tag ^^^ rotateLeft id 17 ^^^ rotateLeft salt 41)

def row (g : DeterministicGenerator) (table : Table) (id : UInt64) : Option Row := do
  let selectedOrder := orderForEvent id (g.draw table id 3)
  let selectedCustomer :=
    match table with
    | .orderEvents => customerForOrder selectedOrder (g.draw .orders selectedOrder 7)
    | _ => customerForOrder id (g.draw .orders id 7)
  let tenant ←
    match table with
    | .tenants => some id
    | .customers => tenantForCustomer id (g.draw .customers id 11)
    | .orders | .orderEvents =>
      tenantForCustomer selectedCustomer (g.draw .customers selectedCustomer 11)
  -- Squaring the draw concentrates the rows toward the recent end.
  let age := g.draw table id 2 % 31536000
  let created : Int := 1609459200 + 31536000 - (age * age / 31536000).toNat
  let ts := formatTimestamp created
  match table with
  | .tenants =>
    return .tenants id (← weightedChoice (g.draw table id 3) regions)
      (← weightedChoice (g.draw table id 4) plans) ts (← json (g.draw table id 5) "tenant")
  | .customers =>
    return .customers id tenant (← weightedChoice (g.draw table id 3) segments)
      (← weightedChoice (g.draw table id 4) emailDomains) (← json (g.draw table id 5) "customer") ts
  | .orders =>
    let updated := formatTimestamp (created + (g.draw table id 6 % 86400).toNat)
    return .orders id tenant selectedCustomer (← weightedChoice (g.draw table id 3) statuses)
      (← weightedChoice (g.draw table id 4) channels)
      (← longTailedCents (g.draw table id 5) (g.draw table id 9)) ts updated
      (← json (g.draw table id 8) "order")
  | .orderEvents =>
    return .orderEvents id selectedOrder tenant (← weightedChoice (g.draw table id 4) eventTypes) ts
      (← json (g.draw table id 5) "event")

/-- The rows of one table in the ranges, in order. -/
def tableRows (g : DeterministicGenerator) (table : Table) (ranges : List TableRange) :
    Option (List Row) :=
  ((ranges.filter fun r => r.table = table).flatMap TableRange.ids).mapM (g.row table)

end DeterministicGenerator

end GrayDB.R1.Generator
