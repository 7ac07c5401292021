import Mathlib.Data.List.DropRight
import Mathlib.Tactic.Common

/-!
# Text

Functions of the standard library on strings, over their characters.

* `splitAtFirst`, `splitOnce`: in front of the first separator, and behind it.
* `trim`: without white space on both sides.
-/

namespace Lib

/-- In front of the first `sep`, and behind it. -/
def splitAtFirst {α : Type} [DecidableEq α] (sep : α) : List α → Option (List α × List α)
  | [] => none
  | x :: xs => if x = sep then some ([], xs) else (splitAtFirst sep xs).map (Prod.map (x :: ·) id)

theorem splitAtFirst_eq_some {α : Type} [DecidableEq α] {sep : α} {xs front back : List α} :
    splitAtFirst sep xs = some (front, back) ↔ xs = front ++ sep :: back ∧ sep ∉ front := by
  induction xs generalizing front with
  | nil => simp [splitAtFirst]
  | cons x xs ih =>
    rw [splitAtFirst]
    split_ifs with hx
    · subst hx
      cases front with
      | nil => simp
      | cons y front =>
        simp only [Option.some.injEq, Prod.mk.injEq, List.cons_append, List.cons.injEq,
          List.mem_cons, not_or]
        exact ⟨fun h => (nomatch h.1), fun h => absurd h.1.1 h.2.1⟩
    · cases front with
      | nil =>
        simp only [Option.map_eq_some_iff, List.nil_append, List.cons.injEq]
        exact ⟨fun ⟨_, _, h⟩ => (nomatch (Prod.mk.inj h).1), fun h => absurd h.1.1 hx⟩
      | cons y front =>
        simp only [Option.map_eq_some_iff, List.cons_append, List.cons.injEq, List.mem_cons, not_or]
        constructor
        · rintro ⟨⟨front', back'⟩, h, heq⟩
          obtain ⟨hcons, rfl⟩ := Prod.mk.inj heq
          obtain ⟨rfl, rfl⟩ := List.cons.inj hcons
          obtain ⟨rfl, hnot⟩ := ih.mp h
          exact ⟨⟨rfl, rfl⟩, fun h => hx h.symm, hnot⟩
        · rintro ⟨⟨rfl, hxs⟩, -, hnot⟩
          exact ⟨(front, back), ih.mpr ⟨hxs, hnot⟩, rfl⟩

theorem splitAtFirst_eq_none {α : Type} [DecidableEq α] {sep : α} {xs : List α} :
    splitAtFirst sep xs = none ↔ sep ∉ xs := by
  induction xs with
  | nil => simp [splitAtFirst]
  | cons x xs ih =>
    rw [splitAtFirst]
    split_ifs with hx
    · simp [hx]
    · simp [ih, Ne.symm hx]

/-- `str::split_once` with a character. -/
def splitOnce (sep : Char) (s : String) : Option (String × String) :=
  (splitAtFirst sep s.toList).map (Prod.map String.ofList String.ofList)

/-- `char::is_whitespace` -/
def isWhitespace (c : Char) : Bool :=
  let n := c.toNat
  (9 ≤ n && n ≤ 13) || n == 0x20 || n == 0x85 || n == 0xA0 || n == 0x1680
    || (0x2000 ≤ n && n ≤ 0x200A) || n == 0x2028 || n == 0x2029 || n == 0x202F || n == 0x205F
    || n == 0x3000

/-- `str::trim` -/
def trim (s : List Char) : List Char := (s.dropWhile isWhitespace).rdropWhile isWhitespace

theorem trim_eq_self {s : List Char} (h : ∀ c ∈ s, isWhitespace c = false) : trim s = s := by
  have hfront : s.dropWhile isWhitespace = s := by
    cases s with
    | nil => rfl
    | cons c s => rw [List.dropWhile_cons_of_neg (by simp [h c List.mem_cons_self])]
  rw [trim, hfront, List.rdropWhile_eq_self_iff]
  intro hne hlast
  rw [h _ (List.getLast_mem hne)] at hlast
  exact nomatch hlast

end Lib
