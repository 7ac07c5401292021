import GrayDB.Lib.Digits
import GrayDB.R1.Compare

/-!
# What a failed comparison invalidates

`invalidationsFor` finds the reasons of a verdict by the words in the texts of its
differences.  The texts of the sequences hold these words.  Those of the tables do not, but
for an order whose status or channel happens to hold one.

* `Invalidates` is what a verdict owes to who reads its reasons.
* `verdict_invalidates_iff` is the result: it holds exactly when the tables are equal, but
  for such orders.
-/

namespace GrayDB.R1

open Lib Std
open Controller (RunInvalidation)

/-- The words that `reasonFor` looks for. -/
def keywords : List String :=
  ["missing committed sequence", "multiple times", "duplicate", "hash mismatch", "reorder",
    "stale or mismatched LSN", "digest"]

/-- A text with one of the words. -/
def Telling (text : String) : Prop := ∃ w ∈ keywords, contains text w = true

instance (text : String) : Decidable (Telling text) :=
  inferInstanceAs (Decidable (∃ w ∈ keywords, contains text w = true))

/-- A verdict that fails has a reason, and so has each difference. -/
structure Invalidates (v : CorrectnessVerdict) : Prop where
  nonempty : v.passed = false → v.invalidations ≠ []
  reasons : ∀ d ∈ v.differences, ∃ reason ∈ v.invalidations, reasonFor d = some reason

/-! ## The reasons -/

theorem reasonFor_isSome {d : RowDifference} : (reasonFor d).isSome ↔ Telling d.detail := by
  unfold reasonFor Telling keywords
  simp [apply_ite Option.isSome, or_assoc]

theorem mem_invalidationsFor {differences : List RowDifference} {reason : RunInvalidation} :
    reason ∈ invalidationsFor differences ↔ ∃ d ∈ differences, reasonFor d = some reason := by
  induction differences using List.reverseRecOn with
  | nil => simp [invalidationsFor]
  | append_singleton differences d ih =>
    unfold invalidationsFor at ih ⊢
    rw [List.foldl_append]
    generalize differences.foldl _ [] = out at ih
    simp only [List.foldl_cons, List.foldl_nil, List.mem_append, List.mem_singleton, or_and_right,
      exists_or, exists_eq_left, ← ih]
    cases hd : reasonFor d with
    | none => simp
    | some r =>
      by_cases hr : r ∈ out
      · simp only [if_pos hr, Option.some.injEq]
        constructor
        · exact Or.inl
        · rintro (h | rfl)
          · exact h
          · exact hr
      · simp only [if_neg hr, List.mem_append, List.mem_singleton, Option.some.injEq,
          eq_comm (a := reason)]

/-- A verdict keeps its promise when the text of each difference tells. -/
theorem invalidates_iff [DebugText] {expected candidate : LedgerOracle} {target : Nat} :
    Invalidates (expected.compareAt candidate target) ↔
      ∀ d ∈ expected.differencesAt candidate target, Telling d.detail := by
  constructor
  · intro h d hd
    obtain ⟨reason, -, hreason⟩ := h.reasons d hd
    rw [← reasonFor_isSome, hreason]
    rfl
  · intro h
    have hreasons : ∀ d ∈ expected.differencesAt candidate target,
        ∃ reason ∈ invalidationsFor (expected.differencesAt candidate target),
          reasonFor d = some reason := by
      intro d hd
      obtain ⟨reason, hreason⟩ := Option.isSome_iff_exists.mp (reasonFor_isSome.mpr (h d hd))
      exact ⟨reason, mem_invalidationsFor.mpr ⟨d, hd, hreason⟩, hreason⟩
    refine ⟨fun hfailed => ?_, hreasons⟩
    have hne : expected.differencesAt candidate target ≠ [] := by
      intro hnil
      have hpassed : (expected.differencesAt candidate target).isEmpty = false := hfailed
      rw [hnil] at hpassed
      exact nomatch hpassed
    obtain ⟨d, hd⟩ := List.exists_mem_of_ne_nil _ hne
    obtain ⟨reason, hreason, -⟩ := hreasons d hd
    exact List.ne_nil_of_mem hreason

/-! ## The texts -/

theorem contains_iff {text w : String} : contains text w = true ↔ w.toList <:+: text.toList :=
  decide_eq_true_iff

/-- A text around a number tells only in front of it or behind it. -/
theorem not_telling_around (n : Nat) {a b : String}
    (h : ∀ w ∈ keywords, ¬ w.toList <:+: a.toList ∧ ¬ w.toList <:+: b.toList) :
    ¬ Telling (a ++ toString n ++ b) := by
  rintro ⟨w, hw, hcontains⟩
  have hdigits : ∀ w ∈ keywords, ∀ c ∈ w.toList, c.isDigit = false := by
    have hall : (keywords.all fun w => w.toList.all fun c => !c.isDigit) = true := by decide +kernel
    simpa using hall
  have hlist : (a ++ toString n ++ b).toList = a.toList ++ Nat.toDigits 10 n ++ b.toList := by
    simp [Nat.toList_repr]
  rw [contains_iff, hlist] at hcontains
  exact not_infix_decimal n (hdigits w hw) (h w hw).1 (h w hw).2 hcontains

theorem Telling.append_left {a : String} (h : Telling a) (b : String) : Telling (a ++ b) := by
  obtain ⟨w, hw, hcontains⟩ := h
  refine ⟨w, hw, contains_iff.mpr ?_⟩
  rw [String.toList_append]
  exact List.infix_append_of_infix_left (contains_iff.mp hcontains)

theorem Telling.append_right {b : String} (h : Telling b) (a : String) : Telling (a ++ b) := by
  obtain ⟨w, hw, hcontains⟩ := h
  refine ⟨w, hw, contains_iff.mpr ?_⟩
  rw [String.toList_append]
  exact List.infix_append_of_infix_right (contains_iff.mp hcontains)

namespace LedgerOracle

variable {expected candidate : LedgerOracle} {target : Nat}

/-- Each difference of the sequences tells. -/
theorem compareSequences_telling {d : RowDifference}
    (hd : d ∈ expected.compareSequences candidate target) : Telling d.detail := by
  rcases List.mem_append.mp hd with hd | hd
  · obtain ⟨p, -, hd⟩ := List.mem_filterMap.mp hd
    unfold expectedDifference at hd
    split at hd
    · obtain rfl := Option.some.inj hd
      have htext : Telling "missing committed sequence " := by decide +kernel
      exact htext.append_left _
    · split at hd
      · obtain rfl := Option.some.inj hd
        have htext : Telling " hash mismatch" := by decide +kernel
        exact htext.append_right _
      · dsimp only at hd
        split at hd
        · obtain rfl := Option.some.inj hd
          have htext : Telling "state-changing reorder: sequence " := by decide +kernel
          exact (((htext.append_left _).append_left _).append_left _).append_left _ |>.append_left _
        · exact nomatch hd
  · obtain ⟨s, -, hd⟩ := List.mem_filterMap.mp hd
    unfold candidateDifference at hd
    split at hd
    · obtain rfl := Option.some.inj hd
      have htext : Telling "duplicate or unknown sequence " := by decide +kernel
      exact htext.append_left _
    · split at hd
      · obtain rfl := Option.some.inj hd
        have htext : Telling " applied multiple times" := by decide +kernel
        exact htext.append_right _
      · exact nomatch hd

end LedgerOracle

/-- Where each key has a difference that does not tell, all differences tell when there are
none. -/
theorem compareRows_telling_iff {α : Type} (expected actual : KeyedTable α)
    {difference : Nat → Option α → Option α → Option RowDifference}
    (h : ∀ k e a, difference k e a = none ↔ e = a)
    (hsilent : ∀ k e a d, difference k e a = some d → ¬ Telling d.detail) :
    (∀ d ∈ compareRows expected actual difference, Telling d.detail) ↔ expected = actual := by
  rw [← compareRows_eq_nil expected actual h, List.eq_nil_iff_forall_not_mem]
  refine forall_congr' fun d => imp_congr_right fun hd => iff_of_false ?_ id
  obtain ⟨k, -, hdifference⟩ := List.mem_filterMap.mp hd
  exact hsilent k _ _ d hdifference

theorem tenantDifference_silent (target : Nat) (k : Nat) (e a : Option TenantState)
    (d : RowDifference) (h : tenantDifference target k e a = some d) : ¬ Telling d.detail := by
  unfold tenantDifference at h
  split at h
  · obtain rfl := Option.some.inj h
    exact not_telling_around k (by decide +kernel)
  · exact nomatch h

theorem customerDifference_silent (target : Nat) (k : Nat) (e a : Option CustomerState)
    (d : RowDifference) (h : customerDifference target k e a = some d) : ¬ Telling d.detail := by
  unfold customerDifference at h
  split at h
  · obtain rfl := Option.some.inj h
    exact not_telling_around k (by decide +kernel)
  · exact nomatch h

theorem eventDifference_silent (target : Nat) (k : Nat) (e a : Option EventState)
    (d : RowDifference) (h : eventDifference target k e a = some d) : ¬ Telling d.detail := by
  unfold eventDifference at h
  split at h
  · obtain rfl := Option.some.inj h
    exact not_telling_around k (by decide +kernel)
  · exact nomatch h

/-! ## The verdict -/

/-- The tables are equal, but for orders that are on both sides and whose text tells. -/
structure OnlyTellingOrders [DebugText] (expected candidate : LedgerOracle) (target : Nat) :
    Prop where
  tenants : expected.tenants = candidate.tenants
  customers : expected.customersAt target = candidate.customersAt target
  events : expected.eventsAt target = candidate.eventsAt target
  sameOrders : ∀ k, k ∈ expected.ordersAt target ↔ k ∈ candidate.ordersAt target
  telling : ∀ k e a, (expected.ordersAt target)[k]? = some e →
    (candidate.ordersAt target)[k]? = some a → e ≠ a → Telling (orderMismatch k e a)

theorem compareOrders_telling_iff [DebugText] (expected actual : KeyedTable OrderState)
    (target : Nat) :
    (∀ d ∈ compareRows expected actual (orderDifference target), Telling d.detail) ↔
      (∀ k, k ∈ expected ↔ k ∈ actual) ∧
        ∀ k e a, expected[k]? = some e → actual[k]? = some a → e ≠ a →
          Telling (orderMismatch k e a) := by
  have hmem : ∀ {k d}, k ∈ expected ∨ k ∈ actual →
      orderDifference target k expected[k]? actual[k]? = some d →
      d ∈ compareRows expected actual (orderDifference target) :=
    fun hk hd => List.mem_filterMap.mpr ⟨_, mem_keysOf.mpr hk, hd⟩
  constructor
  · intro h
    refine ⟨fun k => ⟨fun hk => ?_, fun hk => ?_⟩, fun k e a he ha hne => ?_⟩
    · -- an order that is missing does not tell
      by_contra hnot
      obtain ⟨d, hd, hdetail⟩ : ∃ d, orderDifference target k (some expected[k]) none = some d ∧
          d.detail = "order " ++ toString k ++ " missing in candidate (tombstone ignored or lost)" :=
        ⟨_, rfl, rfl⟩
      have htext := h d (hmem (Or.inl hk) (by
        rw [ExtTreeMap.getElem?_eq_some_getElem hk, ExtTreeMap.getElem?_eq_none hnot, hd]))
      rw [hdetail] at htext
      exact not_telling_around k (by decide +kernel) htext
    · by_contra hnot
      obtain ⟨d, hd, hdetail⟩ : ∃ d, orderDifference target k none (some actual[k]) = some d ∧
          d.detail = "order " ++ toString k ++ " present in candidate but deleted at checkpoint" :=
        ⟨_, rfl, rfl⟩
      have htext := h d (hmem (Or.inr hk) (by
        rw [ExtTreeMap.getElem?_eq_some_getElem hk, ExtTreeMap.getElem?_eq_none hnot, hd]))
      rw [hdetail] at htext
      exact not_telling_around k (by decide +kernel) htext
    · have hk : k ∈ expected := by
        rw [ExtTreeMap.mem_iff_isSome_getElem?, he]
        rfl
      obtain ⟨d, hd, hdetail⟩ : ∃ d, orderDifference target k (some e) (some a) = some d ∧
          d.detail = orderMismatch k e a := ⟨_, if_pos hne, rfl⟩
      rw [← hdetail]
      exact h d (hmem (Or.inl hk) (by rw [he, ha, hd]))
  · intro ⟨hsame, htelling⟩ d hd
    obtain ⟨k, -, hd⟩ := List.mem_filterMap.mp hd
    have hboth := hsame k
    rw [ExtTreeMap.mem_iff_isSome_getElem?, ExtTreeMap.mem_iff_isSome_getElem?] at hboth
    cases he : expected[k]? with
    | none =>
      cases ha : actual[k]? with
      | none =>
        rw [he, ha] at hd
        exact nomatch hd
      | some a => simp [he, ha] at hboth
    | some e =>
      cases ha : actual[k]? with
      | none => simp [he, ha] at hboth
      | some a =>
        rw [he, ha] at hd
        by_cases heq : e = a
        · simp [orderDifference, heq] at hd
        · rw [orderDifference, if_pos heq] at hd
          obtain rfl := Option.some.inj hd
          exact htelling k e a he ha heq

/-- A verdict tells what it has found exactly when the tables are equal, but for orders whose
text tells. -/
theorem verdict_invalidates_iff [DebugText] (expected candidate : LedgerOracle) (target : Nat) :
    Invalidates (expected.compareAt candidate target) ↔
      OnlyTellingOrders expected candidate target := by
  rw [invalidates_iff, LedgerOracle.differencesAt]
  simp only [List.forall_mem_append]
  have htenants := compareRows_telling_iff expected.tenants candidate.tenants
    (tenantDifference_eq_none target) (tenantDifference_silent target)
  have hcustomers := compareRows_telling_iff (expected.customersAt target)
    (candidate.customersAt target) (customerDifference_eq_none target)
    (customerDifference_silent target)
  have hevents := compareRows_telling_iff (expected.eventsAt target) (candidate.eventsAt target)
    (eventDifference_eq_none target) (eventDifference_silent target)
  have horders := compareOrders_telling_iff (expected.ordersAt target) (candidate.ordersAt target)
    target
  constructor
  · rintro ⟨⟨⟨⟨-, ht⟩, ho⟩, hc⟩, he⟩
    obtain ⟨hsame, htelling⟩ := horders.mp ho
    exact ⟨htenants.mp ht, hcustomers.mp hc, hevents.mp he, hsame, htelling⟩
  · intro h
    exact ⟨⟨⟨⟨fun _ => LedgerOracle.compareSequences_telling, htenants.mpr h.tenants⟩,
      horders.mpr ⟨h.sameOrders, h.telling⟩⟩, hcustomers.mpr h.customers⟩, hevents.mpr h.events⟩

/-- The candidate has another region of a tenant.  The verdict fails and has no reason. -/
theorem wrong_tenant_untold :
    letI : OperationHash := ⟨fun _ => ""⟩
    letI : DebugText := ⟨fun s => "\"" ++ s ++ "\""⟩
    let expected := (build apply [.loadTenant 1 "eu"]).1
    let candidate := (build applyUnchecked [.loadTenant 1 "apac"]).1
    (expected.compareAt candidate 0).passed = false ∧
      (expected.compareAt candidate 0).differences.map RowDifference.detail
        = ["immutable tenant 1 state mismatch"] ∧
      (expected.compareAt candidate 0).invalidations = [] ∧
      ¬ Invalidates (expected.compareAt candidate 0) := by
  let _ : OperationHash := ⟨fun _ => ""⟩
  let _ : DebugText := ⟨fun s => "\"" ++ s ++ "\""⟩
  intro expected candidate
  have hrun : (expected.compareAt candidate 0).passed = false ∧
      (expected.compareAt candidate 0).differences.map RowDifference.detail
        = ["immutable tenant 1 state mismatch"] ∧
      (expected.compareAt candidate 0).invalidations = [] := by
    decide +kernel
  obtain ⟨hpassed, hdetail, hnone⟩ := hrun
  exact ⟨hpassed, hdetail, hnone, fun h => h.nonempty hpassed hnone⟩

end GrayDB.R1
