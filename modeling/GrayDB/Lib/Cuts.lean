import Mathlib.Order.Lattice
import Mathlib.Data.List.Basic
import Mathlib.Tactic.Common

/-!
# Cut points

Increasing points of an order cut what is at or above the first of them into pieces: a piece
begins at its point and ends before the next, and the last is open.

`existsUnique_inPiece`: a value is in exactly one piece.
-/

namespace Lib

variable {α : Type*} [LinearOrder α] {cuts : List α} {x : α}

/-- The value is in the piece that begins at point `i`. -/
def InPiece (cuts : List α) (i : ℕ) (x : α) : Prop :=
  (∃ a, cuts[i]? = some a ∧ a ≤ x) ∧ ∀ b, cuts[i + 1]? = some b → x < b

/-- A value below the second point is in the first piece only. -/
private theorem not_inPiece_succ (hcuts : cuts.Pairwise (· < ·)) {b : α} (hb : b ∈ cuts.head?)
    (hx : x < b) (i : ℕ) : ¬ InPiece cuts i x := by
  rintro ⟨⟨a, ha, hle⟩, -⟩
  cases cuts with
  | nil => exact nomatch ha
  | cons c cuts =>
    obtain rfl := Option.some.inj hb
    cases i with
    | zero =>
      obtain rfl := Option.some.inj ha
      exact absurd hle (not_le_of_gt hx)
    | succ i =>
      have hlt : c < a := (List.pairwise_cons.mp hcuts).1 a (List.mem_of_getElem? ha)
      exact absurd (hle.trans_lt hx) (not_lt_of_gt hlt)

theorem existsUnique_inPiece (hcuts : cuts.Pairwise (· < ·)) (hx : ∃ a ∈ cuts.head?, a ≤ x) :
    ∃! i, InPiece cuts i x := by
  induction cuts with
  | nil =>
    obtain ⟨a, ha, -⟩ := hx
    exact nomatch ha
  | cons a cuts ih =>
    obtain ⟨a', ha', hle⟩ := hx
    obtain rfl := Option.some.inj ha'
    have hrest := (List.pairwise_cons.mp hcuts).2
    by_cases hnext : ∃ b ∈ cuts.head?, b ≤ x
    · obtain ⟨i, hi, honly⟩ := ih hrest hnext
      refine ⟨i + 1, hi, fun j hj => ?_⟩
      cases j with
      | zero =>
        obtain ⟨b, hb, hbx⟩ := hnext
        rw [List.head?_eq_getElem?] at hb
        exact absurd (hj.2 b hb) (not_lt_of_ge hbx)
      | succ j => exact congrArg Nat.succ (honly j hj)
    · have hbelow : ∀ b ∈ cuts.head?, x < b := fun b hb =>
        lt_of_not_ge fun hbx => hnext ⟨b, hb, hbx⟩
      refine ⟨0, ⟨⟨a, rfl, hle⟩, fun b hb => hbelow b (by rwa [List.head?_eq_getElem?])⟩,
        fun j hj => ?_⟩
      cases j with
      | zero => rfl
      | succ j =>
        have hj' : InPiece cuts j x := hj
        cases hhead : cuts.head? with
        | none =>
          rw [List.head?_eq_none_iff.mp hhead] at hj'
          obtain ⟨⟨c, hc, -⟩, -⟩ := hj'
          exact nomatch hc
        | some b => exact absurd hj' (not_inPiece_succ hrest hhead (hbelow b hhead) j)

end Lib
