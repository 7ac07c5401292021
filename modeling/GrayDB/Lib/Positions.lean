import Mathlib.Data.List.Pairwise
import Mathlib.Data.List.Infix
import Mathlib.Order.Lattice
import Mathlib.Tactic.Common

/-!
# Positions in an ascending list

A reader of an ascending list tells how far it has come by the last item that it has taken,
or, before that, by a bound below all items.

* `getLastD_mono`: more items reach further.
* `filter_above`: the items above the position are exactly those that are still to come.
-/

namespace Lib

variable {α : Type*} [LinearOrder α] {low : α} {xs ys : List α}

/-- No item is above the position that they reach. -/
theorem le_getLastD (h : xs.Pairwise (· < ·)) {x : α} (hx : x ∈ xs) : x ≤ xs.getLastD low := by
  rcases List.eq_nil_or_concat xs with rfl | ⟨front, last, rfl⟩
  · exact absurd hx List.not_mem_nil
  · rw [List.concat_eq_append] at hx h ⊢
    rw [List.getLastD_concat]
    rcases List.mem_append.mp hx with hx | hx
    · exact le_of_lt ((List.pairwise_append.mp h).2.2 x hx last (List.mem_singleton_self last))
    · exact le_of_eq (List.mem_singleton.mp hx)

theorem low_le_getLastD (hlow : ∀ x ∈ xs, low < x) : low ≤ xs.getLastD low := by
  rcases List.eq_nil_or_concat xs with rfl | ⟨front, last, rfl⟩
  · exact le_refl low
  · rw [List.concat_eq_append] at hlow ⊢
    rw [List.getLastD_concat]
    exact le_of_lt (hlow last (by simp))

theorem getLastD_mono (h : ys.Pairwise (· < ·)) (hlow : ∀ y ∈ ys, low < y) (hp : xs <+: ys) :
    xs.getLastD low ≤ ys.getLastD low := by
  rcases List.eq_nil_or_concat xs with rfl | ⟨front, last, rfl⟩
  · exact low_le_getLastD hlow
  · rw [List.concat_eq_append] at hp ⊢
    rw [List.getLastD_concat]
    exact le_getLastD h (hp.subset (by simp))

/-- What is not above one of the first items is one of them. -/
theorem mem_of_isPrefix_of_le (h : ys.Pairwise (· < ·)) (hp : xs <+: ys) {x y : α} (hx : x ∈ xs)
    (hy : y ∈ ys) (hle : y ≤ x) : y ∈ xs := by
  obtain ⟨rest, rfl⟩ := hp
  rcases List.mem_append.mp hy with hy | hy
  · exact hy
  · exact absurd ((List.pairwise_append.mp h).2.2 x hx y hy) (not_lt.mpr hle)

/-- The items above the position of the first ones are the others. -/
theorem filter_above {τ : Type*} {f : τ → α} {front back : List τ}
    (h : ((front ++ back).map f).Pairwise (· < ·)) (hlow : ∀ t ∈ front ++ back, low < f t) :
    ((front ++ back).filter fun t => decide ((front.map f).getLastD low < f t)) = back := by
  rw [List.map_append, List.pairwise_append] at h
  obtain ⟨hfront, -, hcross⟩ := h
  have hnone : (front.filter fun t => decide ((front.map f).getLastD low < f t)) = [] := by
    rw [List.filter_eq_nil_iff]
    intro t ht hlt
    exact absurd (le_getLastD hfront (List.mem_map_of_mem ht)) (not_le.mpr (of_decide_eq_true hlt))
  have hall : (back.filter fun t => decide ((front.map f).getLastD low < f t)) = back := by
    rw [List.filter_eq_self]
    intro t ht
    rw [decide_eq_true_iff]
    rcases List.eq_nil_or_concat (front.map f) with hnil | ⟨pre, last, hlast⟩
    · rw [hnil]
      exact hlow t (List.mem_append_right _ ht)
    · rw [List.concat_eq_append] at hlast
      rw [hlast, List.getLastD_concat]
      exact hcross last (by simp [hlast]) (f t) (List.mem_map_of_mem ht)
  rw [List.filter_append, hnone, hall, List.nil_append]

end Lib
