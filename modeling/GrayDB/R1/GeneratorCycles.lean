import GrayDB.R1.Generator
import Mathlib.Data.List.Nodup

/-!
# The cycles of the generated data

The keys of cycle `c` begin behind `100 * c` in each table, and `cycleBase` finds that
number again.  So a reference, which adds to it less than the referenced table has rows
in a cycle, stays in the cycle; only the tenant can be one of an earlier cycle.
-/

namespace GrayDB.R1.Generator

/-! ## Choices are always made -/

theorem exists_pick {α : Type} {choices : List (α × Nat)} {slot : Nat}
    (h : slot < (choices.map Prod.snd).sum) : ∃ a weight, pick slot choices = some a ∧
      (a, weight) ∈ choices := by
  induction choices generalizing slot with
  | nil => exact absurd h (Nat.not_lt_zero slot)
  | cons c choices ih =>
    obtain ⟨value, weight⟩ := c
    rw [pick]
    split
    · exact ⟨value, weight, rfl, List.mem_cons_self⟩
    · rename_i hslot
      rw [List.map_cons, List.sum_cons] at h
      obtain ⟨a, w, ha, hmem⟩ := @ih (slot - weight) (by omega)
      exact ⟨a, w, ha, List.mem_cons_of_mem _ hmem⟩

theorem exists_weightedChoice (draw : UInt64) (choices : List (String × Nat))
    (h : 0 < (choices.map Prod.snd).sum) : ∃ value, weightedChoice draw choices = some value := by
  obtain ⟨value, -, hvalue, -⟩ := exists_pick (Nat.mod_lt draw.toNat h)
  exact ⟨value, hvalue⟩

theorem exists_longTailedCents (bucketDraw valueDraw : UInt64) :
    ∃ cents, longTailedCents bucketDraw valueDraw = some cents := by
  have hslot : bucketDraw.toNat % 100 < (centsBuckets.map Prod.snd).sum :=
    Nat.mod_lt _ (by decide)
  obtain ⟨bucket, -, hbucket, -⟩ := exists_pick hslot
  exact ⟨_, by rw [longTailedCents, hbucket]; rfl⟩

/-- A rank is chosen, and it is one of the allowed ranks. -/
theorem boundedZipfRank_spec (draw : UInt64) {maxRank : UInt64} (h : 0 < maxRank.toNat) :
    ∃ rank : Nat, boundedZipfRank draw maxRank = some (UInt64.ofNat rank) ∧
      1 ≤ rank ∧ rank ≤ maxRank.toNat := by
  have hweights : ((List.range' 1 maxRank.toNat).map fun rank => (rank, 10000 / rank)).map Prod.snd
      = (List.range' 1 maxRank.toNat).map fun rank => 10000 / rank := by
    rw [List.map_map]
    rfl
  have hpos : 0 < (((List.range' 1 maxRank.toNat).map fun rank =>
      (rank, 10000 / rank)).map Prod.snd).sum := by
    obtain ⟨n, hn⟩ := Nat.exists_eq_add_one.mpr h
    rw [hweights, hn, List.range'_succ, List.map_cons, List.sum_cons]
    omega
  obtain ⟨rank, weight, hrank, hmem⟩ := exists_pick (Nat.mod_lt draw.toNat hpos)
  obtain ⟨r, hr, heq⟩ := List.mem_map.mp hmem
  obtain ⟨rfl, -⟩ := Prod.mk.inj heq
  rw [List.mem_range'_1] at hr
  refine ⟨r, ?_, hr.1, by omega⟩
  rw [boundedZipfRank, ← hweights, hrank]
  rfl

theorem exists_json (v : UInt64) (k : String) : ∃ text, json v k = some text := by
  unfold json
  by_cases hk : k = "tenant"
  · obtain ⟨rank, hrank, -⟩ := boundedZipfRank_spec v
      (by decide : 0 < maxTenantActivityRank.toNat)
    simp [hk, hrank]
  · simp [hk]

/-! ## Keys of a cycle -/

/-- The largest cycle whose keys are sure to fit. -/
def Fits (cycle : Nat) : Prop := cycle < 2 ^ 57

/-- The key at a place of a cycle. -/
def keyAt (cycle i : Nat) : UInt64 := UInt64.ofNat (cycle * 100 + 1 + i)

theorem toNat_keyAt {cycle i : Nat} (hfits : Fits cycle) (hi : i < 60) :
    (keyAt cycle i).toNat = cycle * 100 + 1 + i := by
  unfold Fits at hfits
  rw [keyAt, UInt64.toNat_ofNat', Nat.mod_eq_of_lt (by omega)]

/-- How many rows a table has in a cycle. -/
def Table.count : Table → Nat
  | .tenants => 1
  | .customers => 5
  | .orders => 20
  | .orderEvents => 60

theorem Table.count_le (t : Table) : t.count ≤ 60 := by
  cases t <;> decide

theorem cycleBase_keyAt {cycle i : Nat} (hfits : Fits cycle) (hi : i < 60) :
    (cycleBase (keyAt cycle i)).toNat = cycle * 100 := by
  have hkey := toNat_keyAt hfits hi
  have hne : keyAt cycle i ≠ 0 := by
    intro h
    rw [h] at hkey
    simp at hkey
    omega
  unfold Fits at hfits
  have hle : (1 : UInt64) ≤ keyAt cycle i := by
    rw [UInt64.le_iff_toNat_le, hkey]
    show 1 ≤ _
    omega
  rw [cycleBase, if_neg hne, UInt64.toNat_mul, UInt64.toNat_div, UInt64.toNat_sub_of_le _ _ hle,
    hkey]
  show (cycle * 100 + 1 + i - 1) / 100 * 100 % 2 ^ 64 = cycle * 100
  omega

/-- A reference is a key of the same cycle. -/
theorem reference_eq {cycle i : Nat} (hfits : Fits cycle) (hi : i < 60) (draw n : UInt64)
    (hpos : 0 < n.toNat) (hn : n.toNat ≤ 60) :
    cycleBase (keyAt cycle i) + 1 + draw % n = keyAt cycle (draw.toNat % n.toNat) := by
  apply UInt64.toNat_inj.mp
  have hlt : draw.toNat % n.toNat < n.toNat := Nat.mod_lt _ hpos
  rw [toNat_keyAt hfits (by omega), UInt64.toNat_add, UInt64.toNat_add,
    cycleBase_keyAt hfits hi, UInt64.toNat_mod]
  unfold Fits at hfits
  have hone : UInt64.toNat 1 = 1 := rfl
  rw [hone]
  omega

/-- The tenant of a customer is the one of its cycle or of an earlier one. -/
theorem tenantForCustomer_keyAt {cycle i : Nat} (hfits : Fits cycle) (hi : i < 60)
    (draw : UInt64) :
    ∃ c' ≤ cycle, tenantForCustomer (keyAt cycle i) draw = some (keyAt c' 0) := by
  have hbase := cycleBase_keyAt hfits hi
  unfold Fits at hfits
  have hloaded : (cycleBase (keyAt cycle i) / 100 + 1).toNat = cycle + 1 := by
    rw [UInt64.toNat_add, UInt64.toNat_div, hbase]
    show (cycle * 100 / 100 + 1) % 2 ^ 64 = cycle + 1
    omega
  have hmin : 0 < (min (cycleBase (keyAt cycle i) / 100 + 1) maxTenantActivityRank).toNat ∧
      (min (cycleBase (keyAt cycle i) / 100 + 1) maxTenantActivityRank).toNat ≤ cycle + 1 := by
    have hmin : ∀ a b : UInt64, min a b = if a ≤ b then a else b := fun _ _ => rfl
    rw [hmin]
    split
    · omega
    · rename_i hle
      rw [UInt64.le_iff_toNat_le, hloaded] at hle
      exact ⟨by decide, by omega⟩
  obtain ⟨rank, hrank, hone, hle⟩ := boundedZipfRank_spec draw hmin.1
  refine ⟨rank - 1, by omega, ?_⟩
  rw [tenantForCustomer, hrank, Option.map_some]
  congr 1
  apply UInt64.toNat_inj.mp
  have hrankNat : (UInt64.ofNat rank).toNat = rank := by
    rw [UInt64.toNat_ofNat', Nat.mod_eq_of_lt (by omega)]
  have honeLe : (1 : UInt64) ≤ UInt64.ofNat rank := by
    rw [UInt64.le_iff_toNat_le, hrankNat]
    exact hone
  rw [UInt64.toNat_add, UInt64.toNat_mul, UInt64.toNat_sub_of_le _ _ honeLe, hrankNat,
    toNat_keyAt (by unfold Fits; omega) (by omega)]
  show ((rank - 1) * 100 % 2 ^ 64 + 1) % 2 ^ 64 = (rank - 1) * 100 + 1 + 0
  omega

/-! ## Rows -/

def Row.table : Row → Table
  | .tenants _ _ _ _ _ => .tenants
  | .customers _ _ _ _ _ _ => .customers
  | .orders _ _ _ _ _ _ _ _ _ => .orders
  | .orderEvents _ _ _ _ _ _ => .orderEvents

namespace DeterministicGenerator

variable (g : DeterministicGenerator)

/-- The order of an event. -/
def orderOf (id : UInt64) : UInt64 := orderForEvent id (g.draw .orderEvents id 3)

/-- The customer of an order. -/
def customerOf (id : UInt64) : UInt64 := customerForOrder id (g.draw .orders id 7)

/-- The tenant of a customer. -/
def tenantOf (id : UInt64) : Option UInt64 := tenantForCustomer id (g.draw .customers id 11)

theorem row_tenants (id : UInt64) : ∃ row, g.row .tenants id = some row ∧
    row.table = .tenants ∧ row.primaryKey = id ∧ row.tenantId = id ∧ row.parent = none := by
  obtain ⟨region, hregion⟩ := exists_weightedChoice (g.draw .tenants id 3) regions (by decide)
  obtain ⟨plan, hplan⟩ := exists_weightedChoice (g.draw .tenants id 4) plans (by decide)
  obtain ⟨settings, hsettings⟩ := exists_json (g.draw .tenants id 5) "tenant"
  simp [row, hregion, hplan, hsettings, Row.table, Row.primaryKey, Row.tenantId, Row.parent]

theorem row_customers {id tenant : UInt64} (htenant : g.tenantOf id = some tenant) :
    ∃ row, g.row .customers id = some row ∧
      row.table = .customers ∧ row.primaryKey = id ∧ row.tenantId = tenant ∧
      row.parent = none := by
  unfold tenantOf at htenant
  obtain ⟨segment, hsegment⟩ := exists_weightedChoice (g.draw .customers id 3) segments (by decide)
  obtain ⟨domain, hdomain⟩ := exists_weightedChoice (g.draw .customers id 4) emailDomains (by decide)
  obtain ⟨profile, hprofile⟩ := exists_json (g.draw .customers id 5) "customer"
  simp [row, htenant, hsegment, hdomain, hprofile, Row.table, Row.primaryKey, Row.tenantId,
    Row.parent]

theorem row_orders (id : UInt64) {tenant : UInt64}
    (htenant : g.tenantOf (g.customerOf id) = some tenant) :
    ∃ row, g.row .orders id = some row ∧
      row.table = .orders ∧ row.primaryKey = id ∧ row.tenantId = tenant ∧
      row.parent = some (.customers, g.customerOf id) := by
  unfold tenantOf customerOf at htenant
  obtain ⟨status, hstatus⟩ := exists_weightedChoice (g.draw .orders id 3) statuses (by decide)
  obtain ⟨channel, hchannel⟩ := exists_weightedChoice (g.draw .orders id 4) channels (by decide)
  obtain ⟨cents, hcents⟩ := exists_longTailedCents (g.draw .orders id 5) (g.draw .orders id 9)
  obtain ⟨attributes, hattributes⟩ := exists_json (g.draw .orders id 8) "order"
  simp [row, htenant, hstatus, hchannel, hcents, hattributes, Row.table, Row.primaryKey,
    Row.tenantId, Row.parent, customerOf]

theorem row_orderEvents (id : UInt64) {tenant : UInt64}
    (htenant : g.tenantOf (g.customerOf (g.orderOf id)) = some tenant) :
    ∃ row, g.row .orderEvents id = some row ∧
      row.table = .orderEvents ∧ row.primaryKey = id ∧ row.tenantId = tenant ∧
      row.parent = some (.orders, g.orderOf id) := by
  unfold tenantOf customerOf orderOf at htenant
  obtain ⟨eventType, heventType⟩ := exists_weightedChoice (g.draw .orderEvents id 4) eventTypes (by decide)
  obtain ⟨metadata, hmetadata⟩ := exists_json (g.draw .orderEvents id 5) "event"
  simp [row, htenant, heventType, hmetadata, Row.table, Row.primaryKey, Row.tenantId, Row.parent,
    orderOf]

/-- A row of a cycle: its tenant comes from the cycle or an earlier one, and the row it
refers to has the same tenant. -/
theorem exists_row {cycle i : Nat} {t : Table} (hfits : Fits cycle) (hi : i < t.count) :
    ∃ row, g.row t (keyAt cycle i) = some row ∧ row.table = t ∧
      row.primaryKey = keyAt cycle i ∧ (∃ c' ≤ cycle, row.tenantId = keyAt c' 0) ∧
      ∀ p ∈ row.parent, ∃ j < p.1.count, ∃ parent, g.row p.1 (keyAt cycle j) = some parent ∧
        p.2 = keyAt cycle j ∧ parent.tenantId = row.tenantId := by
  have hi60 : i < 60 := Nat.lt_of_lt_of_le hi t.count_le
  have hcustomerOf : ∀ k < 60, ∃ j < 5, g.customerOf (keyAt cycle k) = keyAt cycle j :=
    fun k hk => ⟨_, Nat.mod_lt _ (by decide), reference_eq hfits hk _ 5 (by decide) (by decide)⟩
  have horderOf : ∀ k < 60, ∃ j < 20, g.orderOf (keyAt cycle k) = keyAt cycle j :=
    fun k hk => ⟨_, Nat.mod_lt _ (by decide), reference_eq hfits hk _ 20 (by decide) (by decide)⟩
  cases t with
  | tenants =>
    obtain rfl : i = 0 := Nat.lt_one_iff.mp hi
    obtain ⟨row, hrow, htable, hkey, htenant, hparent⟩ := g.row_tenants (keyAt cycle 0)
    exact ⟨row, hrow, htable, hkey, ⟨cycle, Nat.le_refl _, htenant⟩, by simp [hparent]⟩
  | customers =>
    obtain ⟨c', hle, htenantOf⟩ := tenantForCustomer_keyAt hfits hi60
      (g.draw .customers (keyAt cycle i) 11)
    obtain ⟨row, hrow, htable, hkey, htenant, hparent⟩ := g.row_customers htenantOf
    exact ⟨row, hrow, htable, hkey, ⟨c', hle, htenant⟩, by simp [hparent]⟩
  | orders =>
    obtain ⟨j, hj, hcustomer⟩ := hcustomerOf i hi60
    obtain ⟨c', hle, htenantOf⟩ := tenantForCustomer_keyAt hfits (i := j) (by omega)
      (g.draw .customers (keyAt cycle j) 11)
    have htenantOf : g.tenantOf (keyAt cycle j) = some (keyAt c' 0) := htenantOf
    obtain ⟨row, hrow, htable, hkey, htenant, hparent⟩ :=
      g.row_orders (keyAt cycle i) (hcustomer.symm ▸ htenantOf)
    obtain ⟨parent, hparentRow, -, -, hsame, -⟩ := g.row_customers htenantOf
    refine ⟨row, hrow, htable, hkey, ⟨c', hle, htenant⟩, ?_⟩
    rintro p hp
    obtain rfl := Option.some.inj (hparent.symm.trans hp)
    exact ⟨j, hj, parent, hparentRow, hcustomer, hsame.trans htenant.symm⟩
  | orderEvents =>
    obtain ⟨o, ho, horder⟩ := horderOf i hi60
    obtain ⟨j, hj, hcustomer⟩ := hcustomerOf o (by omega)
    obtain ⟨c', hle, htenantOf⟩ := tenantForCustomer_keyAt hfits (i := j) (by omega)
      (g.draw .customers (keyAt cycle j) 11)
    have htenantOf : g.tenantOf (g.customerOf (keyAt cycle o)) = some (keyAt c' 0) :=
      hcustomer.symm ▸ htenantOf
    obtain ⟨row, hrow, htable, hkey, htenant, hparent⟩ :=
      g.row_orderEvents (keyAt cycle i) (horder.symm ▸ htenantOf)
    obtain ⟨parent, hparentRow, -, -, hsame, -⟩ := g.row_orders (keyAt cycle o) htenantOf
    refine ⟨row, hrow, htable, hkey, ⟨c', hle, htenant⟩, ?_⟩
    rintro p hp
    obtain rfl := Option.some.inj (hparent.symm.trans hp)
    exact ⟨o, ho, parent, hparentRow, horder, hsame.trans htenant.symm⟩

end DeterministicGenerator

/-! ## Ranges -/

/-- The keys of one table in the ranges. -/
def tableIds (t : Table) (ranges : List TableRange) : List UInt64 :=
  (ranges.filter fun r => r.table = t).flatMap TableRange.ids

private theorem ids_eq {cycle n : Nat} (hfits : Fits cycle) (hn : n ≤ 60) (t : Table) :
    TableRange.ids ⟨t, UInt64.ofNat cycle * 100 + 1, UInt64.ofNat cycle * 100 + UInt64.ofNat n + 1⟩
      = (List.range n).map (keyAt cycle) := by
  unfold Fits at hfits
  have hcycle : (UInt64.ofNat cycle * 100).toNat = cycle * 100 := by
    rw [UInt64.toNat_mul, UInt64.toNat_ofNat', Nat.mod_eq_of_lt (by omega : cycle < 2 ^ 64)]
    show cycle * 100 % 2 ^ 64 = cycle * 100
    omega
  have hone : UInt64.toNat 1 = 1 := rfl
  have hstart : (UInt64.ofNat cycle * 100 + 1).toNat = cycle * 100 + 1 := by
    rw [UInt64.toNat_add, hcycle, hone]
    omega
  have hnNat : (UInt64.ofNat n).toNat = n := by
    rw [UInt64.toNat_ofNat', Nat.mod_eq_of_lt (by omega)]
  have hstop : (UInt64.ofNat cycle * 100 + UInt64.ofNat n + 1).toNat = cycle * 100 + n + 1 := by
    rw [UInt64.toNat_add, UInt64.toNat_add, hcycle, hnNat, hone]
    omega
  have hlen : cycle * 100 + n + 1 - (cycle * 100 + 1) = n := by omega
  rw [TableRange.ids, hstart, hstop, hlen]
  apply List.map_congr_left
  intro i hi
  have hi : i < n := List.mem_range.mp hi
  apply UInt64.toNat_inj.mp
  rw [toNat_keyAt hfits (by omega), UInt64.toNat_add, hstart, UInt64.toNat_ofNat',
    Nat.mod_eq_of_lt (by omega : i < 2 ^ 64)]
  omega

theorem tableIds_single {cycle : Nat} (hfits : Fits cycle) (t : Table) :
    tableIds t (singleCycleRanges (UInt64.ofNat cycle)) = (List.range t.count).map (keyAt cycle) := by
  have hone : (singleCycleRanges (UInt64.ofNat cycle)).filter (fun r => r.table = t)
      = [⟨t, UInt64.ofNat cycle * 100 + 1,
          UInt64.ofNat cycle * 100 + UInt64.ofNat t.count + 1⟩] := by
    cases t <;> rfl
  rw [tableIds, hone, List.flatMap_singleton]
  exact ids_eq hfits t.count_le t

/-- The ranges of the first cycles are those of the single cycles. -/
theorem cycleRanges_eq {cycles : UInt64} {ranges : List TableRange}
    (h : cycleRanges cycles = some ranges) : ranges = (List.range cycles.toNat).flatMap fun cycle =>
      singleCycleRanges (UInt64.ofNat cycle) := by
  unfold cycleRanges at h
  split at h
  · obtain rfl := Option.some.inj h
    have hfold : ∀ (cs : List Nat) (out : List TableRange), cs.foldl (fun out cycle =>
        [(Table.tenants, 1), (.customers, 5), (.orders, 20), (.orderEvents, 60)].foldl
          (fun out tc => out ++ [⟨tc.1, UInt64.ofNat cycle * 100 + 1,
            UInt64.ofNat cycle * 100 + tc.2 + 1⟩]) out) out
        = out ++ cs.flatMap fun cycle => singleCycleRanges (UInt64.ofNat cycle) := by
      intro cs
      induction cs with
      | nil => intro out; simp
      | cons c cs ih =>
        intro out
        rw [List.foldl_cons, ih, List.flatMap_cons]
        simp [singleCycleRanges]
    exact (hfold _ []).trans (List.nil_append _)
  · exact absurd h (by simp)

/-- The cycles that a vector has room for fit. -/
theorem fits_of_cycleRanges {cycles : UInt64} {ranges : List TableRange}
    (h : cycleRanges cycles = some ranges) {cycle : Nat} (hcycle : cycle < cycles.toNat) :
    Fits cycle := by
  unfold cycleRanges at h
  split at h
  · rename_i hle
    unfold isizeMax tableRangeBytes at hle
    unfold Fits
    omega
  · exact absurd h (by simp)

/-! ## All cycles -/

/-- What is generated: `rows c t` are the rows of table `t` in cycle `c`. -/
structure Sound (g : DeterministicGenerator) (cycles : Nat) (ranges : List TableRange)
    (rows : Nat → Table → List Row) : Prop where
  single : ∀ c < cycles, ∀ t,
    g.tableRows t (singleCycleRanges (UInt64.ofNat c)) = some (rows c t)
  whole : ∀ t, g.tableRows t ranges = some ((List.range cycles).flatMap fun c => rows c t)
  table : ∀ c < cycles, ∀ t, ∀ row ∈ rows c t, row.table = t
  keys : ∀ t, (((List.range cycles).flatMap fun c => rows c t).map Row.primaryKey).Nodup
  /-- An order's customer and an event's order have the same tenant. -/
  parent : ∀ c < cycles, ∀ t, ∀ row ∈ rows c t, ∀ p ∈ row.parent,
    ∃ q ∈ rows c p.1, q.primaryKey = p.2 ∧ q.tenantId = row.tenantId
  tenant : ∀ c < cycles, ∀ t, ∀ row ∈ rows c t,
    ∃ c' ≤ c, ∃ q ∈ rows c' .tenants, q.primaryKey = row.tenantId

private theorem mapM_flatMap {α β ι : Type} {f : α → Option β} {ids : ι → List α}
    {rows : ι → List β} {is : List ι} (h : ∀ i ∈ is, (ids i).mapM f = some (rows i)) :
    (is.flatMap ids).mapM f = some (is.flatMap rows) := by
  induction is with
  | nil => rfl
  | cons i is ih =>
    rw [List.flatMap_cons, List.flatMap_cons, List.mapM_append, h i List.mem_cons_self,
      ih fun j hj => h j (List.mem_cons_of_mem i hj)]
    rfl

private theorem mapM_eq_map {α β : Type} {f : α → Option β} {r : α → β} {as : List α}
    (h : ∀ a ∈ as, f a = some (r a)) : as.mapM f = some (as.map r) := by
  induction as with
  | nil => rfl
  | cons a as ih =>
    rw [List.mapM_cons, h a List.mem_cons_self, ih fun b hb => h b (List.mem_cons_of_mem a hb)]
    rfl

/-- No key comes twice in the cycles. -/
theorem nodup_keys {cycles n : Nat} (hfits : ∀ c < cycles, Fits c) (hn : n ≤ 60) :
    ((List.range cycles).flatMap fun c => (List.range n).map (keyAt c)).Nodup := by
  have hinj : ∀ c < cycles, ∀ c' < cycles, ∀ i < n, ∀ j < n,
      keyAt c i = keyAt c' j → c = c' ∧ i = j := by
    intro c hc c' hc' i hi j hj heq
    have hnat := congrArg UInt64.toNat heq
    rw [toNat_keyAt (hfits c hc) (by omega), toNat_keyAt (hfits c' hc') (by omega)] at hnat
    omega
  refine List.nodup_flatMap.mpr ⟨?_, ?_⟩
  · intro c hc
    refine List.Nodup.map_on ?_ List.nodup_range
    intro i hi j hj heq
    have hc : c < cycles := List.mem_range.mp hc
    exact (hinj c hc c hc i (List.mem_range.mp hi) j (List.mem_range.mp hj) heq).2
  · refine List.Pairwise.imp_of_mem ?_ (List.nodup_range (n := cycles))
    intro c c' hc hc' hne k hk hk'
    obtain ⟨i, hi, rfl⟩ := List.mem_map.mp hk
    obtain ⟨j, hj, heq⟩ := List.mem_map.mp hk'
    exact hne (hinj c (List.mem_range.mp hc) c' (List.mem_range.mp hc') i (List.mem_range.mp hi)
      j (List.mem_range.mp hj) heq.symm).1

/-- For every seed and every number of cycles that fits in a vector: the rows of the single
cycles, one cycle after the other, are the rows of the cycles, table by table; the primary
keys are unique; each order's customer and each event's order is a row of the same cycle with
the same tenant; and each tenant is a row of the same cycle or an earlier one. -/
theorem cycles_sound (g : DeterministicGenerator) {cycles : UInt64} {ranges : List TableRange}
    (h : cycleRanges cycles = some ranges) : ∃ rows, Sound g cycles.toNat ranges rows := by
  have hfits : ∀ c < cycles.toNat, Fits c := fun c => fits_of_cycleRanges h
  have hrow : ∀ c t i, ∃ row, Fits c → i < Table.count t → g.row t (keyAt c i) = some row ∧
      row.table = t ∧ row.primaryKey = keyAt c i ∧ (∃ c' ≤ c, row.tenantId = keyAt c' 0) ∧
      ∀ p ∈ row.parent, ∃ j < p.1.count, ∃ parent, g.row p.1 (keyAt c j) = some parent ∧
        p.2 = keyAt c j ∧ parent.tenantId = row.tenantId := by
    intro c t i
    by_cases hci : Fits c ∧ i < Table.count t
    · obtain ⟨row, hrow⟩ := g.exists_row hci.1 hci.2
      exact ⟨row, fun _ _ => hrow⟩
    · exact ⟨.tenants 0 "" "" "" "", fun hc hi => absurd ⟨hc, hi⟩ hci⟩
  choose rowAt hrowAt using hrow
  refine ⟨fun c t => (List.range t.count).map (rowAt c t), ?_⟩
  have hids : ∀ c < cycles.toNat, ∀ t, ((List.range t.count).map (keyAt c)).mapM (g.row t)
      = some ((List.range t.count).map (rowAt c t)) := by
    intro c hc t
    rw [List.mapM_map]
    exact mapM_eq_map fun i hi => (hrowAt c t i (hfits c hc) (List.mem_range.mp hi)).1
  have hmem : ∀ {c t row}, row ∈ (List.range (Table.count t)).map (rowAt c t) →
      ∃ i < t.count, rowAt c t i = row := by
    intro c t row hrow
    obtain ⟨i, hi, heq⟩ := List.mem_map.mp hrow
    exact ⟨i, List.mem_range.mp hi, heq⟩
  refine ⟨?_, ?_, ?_, ?_, ?_, ?_⟩
  · intro c hc t
    show (tableIds t _).mapM (g.row t) = _
    rw [tableIds_single (hfits c hc)]
    exact hids c hc t
  · intro t
    show (tableIds t ranges).mapM (g.row t) = _
    have hranges : tableIds t ranges = (List.range cycles.toNat).flatMap fun c =>
        (List.range t.count).map (keyAt c) := by
      rw [cycleRanges_eq h, tableIds, List.filter_flatMap, List.flatMap_assoc]
      exact List.flatMap_congr fun c hc => tableIds_single (hfits c (List.mem_range.mp hc)) t
    rw [hranges]
    exact mapM_flatMap fun c hc => hids c (List.mem_range.mp hc) t
  · intro c hc t row hrow
    obtain ⟨i, hi, rfl⟩ := hmem hrow
    exact (hrowAt c t i (hfits c hc) hi).2.1
  · intro t
    have hkeys : ((List.range cycles.toNat).flatMap fun c =>
        (List.range t.count).map (rowAt c t)).map Row.primaryKey
        = (List.range cycles.toNat).flatMap fun c => (List.range t.count).map (keyAt c) := by
      rw [List.map_flatMap]
      refine List.flatMap_congr fun c hc => ?_
      rw [List.map_map]
      refine List.map_congr_left fun i hi => ?_
      exact (hrowAt c t i (hfits c (List.mem_range.mp hc)) (List.mem_range.mp hi)).2.2.1
    rw [hkeys]
    exact nodup_keys hfits t.count_le
  · intro c hc t row hrow p hp
    obtain ⟨i, hi, rfl⟩ := hmem hrow
    obtain ⟨j, hj, parent, hparent, hkey, hsame⟩ :=
      (hrowAt c t i (hfits c hc) hi).2.2.2.2 p hp
    obtain ⟨hat, -, hatKey, -⟩ := hrowAt c p.1 j (hfits c hc) hj
    refine ⟨rowAt c p.1 j, List.mem_map_of_mem (List.mem_range.mpr hj), hatKey.trans hkey.symm, ?_⟩
    rw [hat] at hparent
    obtain rfl := Option.some.inj hparent
    exact hsame
  · intro c hc t row hrow
    obtain ⟨i, hi, rfl⟩ := hmem hrow
    obtain ⟨c', hle, htenant⟩ := (hrowAt c t i (hfits c hc) hi).2.2.2.1
    have hc' : c' < cycles.toNat := Nat.lt_of_le_of_lt hle hc
    have hzero : 0 < Table.count .tenants := Nat.one_pos
    exact ⟨c', hle, rowAt c' .tenants 0, List.mem_map_of_mem (List.mem_range.mpr hzero),
      (hrowAt c' .tenants 0 (hfits c' hc') hzero).2.2.1.trans htenant.symm⟩

/-- Two cycles. -/
theorem cycles_sound_two : ∃ rows, Sound ⟨20260901⟩ 2
    (singleCycleRanges 0 ++ singleCycleRanges 1) rows :=
  @cycles_sound ⟨20260901⟩ 2 _ rfl

end GrayDB.R1.Generator
